import Mathlib
import MethodIL.Proofs.Stack.Overflow
import MethodIL.Proofs.Stack.Stepwise
set_option autoImplicit false

/-!
# Every analysis ends

The machine that nothing limits comes to an end on every tree, whatever its control flow, and
answers what the analysis with its limits answers: the limits are never reached.  A walk passes each
node of a flat order once at most.  The number of walks is bounded by the work that there is at
first, which counts the records that the instructions have left and the regions that were not
entered.
-/

namespace MethodIL

open Outcome

namespace Tree

/-- The search for the node behind a subtree, up through the blocks around it until one has a next
sibling. -/
inductive LeadsOut (t : Tree) : NodeId → Option NodeId → Prop
  | sibling {id next : NodeId} (h : t.next? id = some next) : LeadsOut t id (some next)
  | top {id : NodeId} (h : t.next? id = none) (hparent : t.parent? id = none) : LeadsOut t id none
  | climb {id block : NodeId} {out : Option NodeId} (h : t.next? id = none)
      (hparent : t.parent? id = some block) (hrest : LeadsOut t block out) : LeadsOut t id out

/-- The search ends, at the node that stands behind the subtree. -/
theorem WellFormed.leadsOut {t : Tree} (wf : t.WellFormed) (id : NodeId) :
    t.LeadsOut id (t.successor? id) := by
  induction id using wf.induction_above with
  | step id ih =>
    rw [wf.successor?_eq]
    cases hnext : t.next? id with
    | some next => exact .sibling hnext
    | none =>
      cases hparent : t.parent? id with
      | none => exact .top hnext hparent
      | some block => exact .climb hnext hparent (ih block hparent)

end Tree

namespace StackHeights

variable {t : Tree} {r : Resolver} {c c' : Config} {n : Nat} {outcome : Except Fault Config}

/-- An analysis ends after `n` steps at most. -/
def EndsWithin (t : Tree) (r : Resolver) (c : Config) (n : Nat) (outcome : Except Fault Config) :
    Prop :=
  ∃ trace, Runs t r c trace outcome ∧ trace.length ≤ n

namespace EndsWithin

theorem fails {fault : Fault} (h : c.next? t r = .error fault) (n : Nat) :
    EndsWithin t r c (n + 1) (.error fault) :=
  ⟨[c], .fails h, by simp⟩

theorem ends (h : c.next? t r = .ok none) (n : Nat) : EndsWithin t r c (n + 1) (.ok c) :=
  ⟨[c], .ends h, by simp⟩

theorem step (h : c.next? t r = .ok (some c')) (hrest : EndsWithin t r c' n outcome) :
    EndsWithin t r c (n + 1) outcome := by
  obtain ⟨trace, hruns, hlength⟩ := hrest
  exact ⟨c :: trace, .step h hruns, Nat.succ_le_succ hlength⟩

theorem mono (h : EndsWithin t r c n outcome) {m : Nat} (hle : n ≤ m) :
    EndsWithin t r c m outcome := by
  obtain ⟨trace, hruns, hlength⟩ := h
  exact ⟨trace, hruns, hlength.trans hle⟩

end EndsWithin

/-! ## One walk -/

section Walk

variable (wf : t.WellFormed)

include wf

/-- The way up to a walk takes a step for each block around the arrival. -/
theorem endsWithin_climb {walks : Nat} {s : State} {waiting : List Arrival} {a : Arrival}
    {id : NodeId}
    (h : EndsWithin t r ⟨walks, (t.ancestors id).foldl (State.enter t) s, waiting,
      .walking (some a.node) a.height⟩ n outcome) :
    EndsWithin t r ⟨walks, s, waiting, .climbing (t.parent? id) a⟩
      (n + (t.ancestors id).length + 1) outcome := by
  induction id using wf.induction_above generalizing s with
  | step id ih =>
    cases hparent : t.parent? id with
    | none =>
      rw [wf.ancestors_of_no_parent hparent] at h ⊢
      exact .step rfl h
    | some block =>
      rw [wf.ancestors_of_parent hparent] at h ⊢
      exact .step rfl (ih block hparent h)

/-- On a walk the machine goes along the flat order. -/
theorem next?_walking (r : Resolver) {top id : NodeId} {before rest : List NodeId}
    (htop : t.parent? top = none) (horder : t.preOrder top = before ++ id :: rest) (walks : Nat)
    (s : State) (waiting : List Arrival) (height : Int) :
    Config.next? t r ⟨walks, s, waiting, .walking (some id) height⟩ =
      match t.content? id with
      | none => .error (.edit (.unknownNode id))
      | some (.label _) => .ok (some ⟨walks, s, waiting, .walking rest.head? height⟩)
      | some (.block kind _) =>
        .ok (some ⟨walks, s.enter t id, waiting,
          .walking rest.head? (kind.entryHeight height)⟩)
      | some (.instruction operation) =>
        execute (Context.ofTree t r) s id operation height >>= fun out =>
          match out.2 with
          | none => .ok (some ⟨walks, out.1, waiting, .walking none height⟩)
          | some exit => .ok (some ⟨walks, out.1, waiting, .walking rest.head? exit⟩) := by
  have hnext : t.nextInOrder? id = rest.head? := wf.nextInOrder?_eq_head? htop horder
  have hsucc : t.children id = [] → t.successor? id = rest.head? := by
    intro hchildren
    rw [Tree.WellFormed.successor?_eq_nextInOrder? hchildren, hnext]
  simp only [Config.next?, hnext]
  cases hcontent : t.content? id with
  | none => rfl
  | some content =>
    cases content with
    | label owner =>
      rw [hsucc (Tree.children_eq_nil_of_isLabel (Tree.isLabel_iff.mpr ⟨_, hcontent⟩))]
    | block kind children => rfl
    | instruction operation =>
      have hbehind := hsucc
        (Tree.children_eq_nil_of_isInstruction (Tree.isInstruction_iff.mpr ⟨_, hcontent⟩))
      dsimp only
      cases execute (Context.ofTree t r) s id operation height with
      | error fault => rfl
      | ok out =>
        obtain ⟨now, exit⟩ := out
        cases exit with
        | none => rfl
        | some exit => simp only [Phase.behind, hbehind, ok_bind]

/-- A walk takes a step for each node that is left of the flat order, and one to stop. -/
theorem endsWithin_walk {walks limit : Nat} {s : State} {waiting : List Arrival} {top : NodeId}
    {before rest : List NodeId} {height : Int}
    (htop : t.parent? top = none) (horder : t.preOrder top = before ++ rest)
    (hlimit : rest.length ≤ limit)
    (hfails : ∀ fault, walkUpTo (Context.ofTree t r) limit s rest.head? height = .error fault →
      outcome = .error fault)
    (hstops : ∀ s', walkUpTo (Context.ofTree t r) limit s rest.head? height = .ok s' →
      EndsWithin t r ⟨walks, { s' with found := [] }, waiting ++ s'.found.reverse, .waiting⟩ n
        outcome) :
    EndsWithin t r ⟨walks, s, waiting, .walking rest.head? height⟩ (n + rest.length + 1)
      outcome := by
  induction rest generalizing limit s before height with
  | nil => exact .step rfl (hstops s (walkUpTo_none _ _ _ _))
  | cons id rest ih =>
    obtain ⟨limit, rfl⟩ : ∃ l, limit = l + 1 :=
      ⟨limit - 1, by rw [List.length_cons] at hlimit; omega⟩
    have hlimit' : rest.length ≤ limit := by simpa using hlimit
    have horder' : t.preOrder top = (before ++ [id]) ++ rest := by simpa using horder
    have hnext := next?_walking wf r htop horder walks s waiting height
    rw [List.head?_cons, walkUpTo_cons wf htop horder] at hfails hstops
    cases hcontent : t.content? id with
    | none =>
      simp only [hcontent] at hnext hfails
      rw [hfails _ rfl]
      exact .fails hnext _
    | some content =>
      cases content with
      | label owner =>
        simp only [hcontent] at hnext hfails hstops
        exact .step hnext (ih horder' hlimit' hfails hstops)
      | block kind children =>
        simp only [hcontent] at hnext hfails hstops
        exact .step hnext (ih horder' hlimit' hfails hstops)
      | instruction operation =>
        simp only [hcontent] at hnext hfails hstops
        cases hexec : execute (Context.ofTree t r) s id operation height with
        | error fault =>
          rw [hexec] at hnext hfails
          rw [hfails fault rfl]
          exact .fails hnext _
        | ok out =>
          obtain ⟨now, exit⟩ := out
          rw [hexec] at hnext hfails hstops
          cases exit with
          | none =>
            have hstop : EndsWithin t r ⟨walks, now, waiting, .walking none height⟩ (n + 1)
                outcome := .step rfl (hstops now rfl)
            refine .step hnext (hstop.mono ?_)
            rw [List.length_cons]
            omega
          | some exit => exact .step hnext (ih horder' hlimit' hfails hstops)

end Walk

/-! ## All walks -/

/-- A machine with arrivals on its list ends within the steps of as many walks as there is work, and
with what the limited analysis answers. -/
theorem endsWithin_walkAll (wf : t.WellFormed) {limit walks : Nat} {s : State}
    {waiting : List Arrival} (hfound : s.found = []) (hconsistent : Consistent t r s waiting)
    (hlimit : waiting.length + totalWeight t s ≤ limit) :
    EndsWithin t r ⟨walks, s, waiting, .waiting⟩ (limit * (2 * t.size + 3) + 1)
      ((walkAllUpTo (Context.ofTree t r) limit walks s waiting).map fun out =>
        ⟨out.2, out.1, [], .waiting⟩) := by
  induction limit generalizing s waiting walks with
  | zero =>
    obtain rfl := List.length_eq_zero_iff.mp (show waiting.length = 0 by omega)
    exact .ends rfl _
  | succ limit ih =>
    cases waiting with
    | nil => exact .ends rfl _
    | cons a waiting =>
      obtain ⟨top, htop, hmem⟩ := wf.exists_top a.node
      obtain ⟨before, after, horder⟩ := List.append_of_mem hmem
      have hlength := wf.length_preOrder_le top
      rw [horder, List.length_append] at hlength
      have hflat : (a.node :: after).length ≤ t.size := by omega
      have hdepth : (t.ancestors a.node).length ≤ t.size := by
        cases hparent : t.parent? a.node with
        | none => simp [wf.ancestors_of_no_parent hparent]
        | some block => exact (wf.depth_lt (wf.exists_of_parent hparent).1).le
      have hwalk : EndsWithin t r ⟨walks, s, a :: waiting, .waiting⟩
          (limit * (2 * t.size + 3) + 1 + (a.node :: after).length + 1 +
            (t.ancestors a.node).length + 1 + 1)
          ((walkAllUpTo (Context.ofTree t r) (limit + 1) walks s (a :: waiting)).map fun out =>
            ⟨out.2, out.1, [], .waiting⟩) := by
        refine .step rfl (endsWithin_climb wf (endsWithin_walk wf htop horder hflat ?_ ?_))
        case refine_1 =>
          intro fault hfault
          have hwalk : walk (Context.ofTree t r) s a = .error fault := hfault
          rw [walkAllUpTo, hwalk]
          rfl
        case refine_2 =>
          intro s₁ hstops
          have hwalk : walk (Context.ofTree t r) s a = .ok s₁ := hstops
          obtain ⟨hwalked, hwork⟩ := walk_consistent wf hconsistent hwalk
          have hnext : (waiting ++ s₁.found.reverse).Perm (waiting ++ s₁.found) :=
            (List.reverse_perm s₁.found).append_left waiting
          rw [walkAllUpTo, hwalk]
          exact ih rfl (hwalked.collect hnext) (length_collect_le hfound hwork hlimit)
      have hmore := Nat.add_one_mul limit (2 * t.size + 3)
      exact hwalk.mono (by omega)

/-- The stack size and the heights of an analysis that has come to its end, provided that the size
fits. -/
def Config.answer (c : Config) : Except Fault StackHeights :=
  if max c.state.highest 0 < UInt16.size then
    .ok ⟨.ofNat (max c.state.highest 0).toNat, c.state.entries, c.walks⟩
  else .error (.stackBound c.state.highest Tree.root)

/-- Every analysis ends, on every tree and for every resolver: the machine without limits comes to
an end, after no more steps than the work allows, and so does each search for the next node.  It
answers what the analysis answers.  Walks advance in flat order, what is recorded for an instruction
only grows within sixteen bits, and the handlers of a region come on the list once.  At the end no
arrival is left, and the stack size fits.

What a call takes is summed up in 32 bits and wraps around.  An analysis that checks these sums ends
with the same answer, or stops because of a call whose sum does not fit. -/
theorem ofTree_ends (h : t.Reachable) (r : Resolver) :
    (∀ id, t.LeadsOut id (t.successor? id)) ∧
    (∀ stop, StopsOr stop (t.CallOverflows r) (ofTree t (r.checked stop)) (ofTree t r)) ∧
    ∃ trace outcome, Runs t r (.start t) trace outcome ∧
      trace.length ≤ walkLimit t * (2 * t.size + 3) + 1 ∧
      Orderly t trace ∧
      ofTree t r = outcome >>= Config.answer ∧
      ∀ last, outcome = .ok last → last.noted = [] ∧ ∃ heights, last.answer = .ok heights := by
  have wf := h.wellFormed
  have hstart := consistent_start t r
  obtain ⟨trace, hruns, hlength⟩ : EndsWithin t r (.start t) _ _ :=
    endsWithin_walkAll wf rfl hstart (work_start_le t)
  refine ⟨wf.leadsOut, ofTree_checked t r, trace, _, hruns, hlength,
    hruns.orderly wf (by simp [Config.start, State.start]), ?_⟩
  rw [ofTree]
  cases hwalks : walkAllUpTo (Context.ofTree t r) (walkLimit t) 0 (.start t)
      (standing (t.firstChild? Tree.root) 0) with
  | error fault =>
    exact ⟨bind_eq_error.mpr (Or.inl hwalks), fun last hlast => absurd hlast (by simp [Except.map])⟩
  | ok out =>
    obtain ⟨s, walks⟩ := out
    obtain ⟨hconsistent, hfound⟩ :=
      (drains_of_walkAllUpTo wf rfl hstart (work_start_le t) hwalks).consistent wf rfl hstart
    obtain ⟨hlow, hhigh⟩ := hconsistent.highest_bounds
    have hfits : s.highest < UInt16.size := by
      rw [UInt16.size]
      omega
    have hanswer : Config.answer ⟨walks, s, [], .waiting⟩ =
        .ok ⟨.ofNat s.highest.toNat, s.entries, walks⟩ := by
      rw [Config.answer, max_eq_left hlow, if_pos hfits]
    refine ⟨Eq.trans ?_ hanswer.symm, fun last hlast => ?_⟩
    · exact bind_eq_ok.mpr ⟨(s, walks), hwalks, rfl⟩
    · obtain rfl := Except.ok.inj hlast
      exact ⟨by simp [Config.noted, hfound], _, hanswer⟩

/-- A protected region whose handler drops the exception object and tries again. -/
def guardedRetry : Body where
  header := default
  instructions := Instruction.assemble
    [(0x16, .none), (0x26, .none), (0xDE, .branch 3), (0x26, .none), (0xDE, .branch (-7)),
      (0x2A, .none)]
  clauses := [Clause.ofFields 0 0 4 4 3 0x01000001]

/-- The analysis of `guardedRetry` ends after four walks: from the start, from the handler, from
behind the region and from where the handler jumps back to. -/
theorem guardedRetry_ends :
    let r := (SignatureTable.new false).resolver
    ∃ t trace last heights, Tree.ofBody guardedRetry = .ok t ∧
      Runs t r (.start t) trace (.ok last) ∧ Orderly t trace ∧ last.noted = [] ∧
        last.answer = .ok heights ∧ heights.maxStack = 1 ∧ heights.walks = 4 := by
  intro r
  have hrun : ((Tree.ofBody guardedRetry).toOption.any fun t =>
      (ofTree t r).toOption.any fun heights => heights.maxStack == 1 && heights.walks == 4) =
        true := by
    decide +kernel
  simp only [Option.any_eq_true, toOption_eq_some_iff, Bool.and_eq_true, beq_iff_eq] at hrun
  obtain ⟨t, ht, heights, hheights, hmax, hwalks⟩ := hrun
  obtain ⟨-, -, trace, outcome, hruns, -, horderly, hanswer, hlast⟩ := ofTree_ends (.lifted ht) r
  rw [hheights] at hanswer
  obtain ⟨last, rfl, hend⟩ := bind_eq_ok.mp hanswer.symm
  exact ⟨t, trace, last, heights, ht, hruns, horderly, (hlast last rfl).1, hend, hmax, hwalks⟩

end StackHeights

end MethodIL
