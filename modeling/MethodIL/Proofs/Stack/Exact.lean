import Mathlib
import MethodIL.Proofs.Instruction.Size
import MethodIL.Proofs.Stack.Work
import MethodIL.Proofs.Tree.Reachable
set_option autoImplicit false

/-!
# Exact stack heights

A whole analysis is consistent with the machine when it ends, and nothing is left to walk.  So the
heights it records are the greatest with which the machine visits the instructions, whatever the
order of the walks.
-/

namespace MethodIL

open Outcome

namespace Tree.WellFormed

variable {t : Tree} (wf : t.WellFormed)

include wf

/-- Around the node after a subtree there are only blocks that are around the subtree. -/
theorem ancestors_subset_of_successor? {id next : NodeId} (h : t.successor? id = some next) :
    ∀ block ∈ t.ancestors next, block ∈ t.ancestors id := by
  induction id using wf.induction_above with
  | step id ih =>
    rw [wf.successor?_eq] at h
    cases hparent : t.parent? id with
    | none =>
      rw [next?_of_no_parent hparent, hparent] at h
      exact absurd h (by simp)
    | some p =>
      rw [wf.ancestors_of_parent hparent]
      cases hnext : t.next? id with
      | some sibling =>
        rw [hnext] at h
        obtain rfl := Option.some.inj h
        have hsibling : t.parent? sibling = some p := by
          rw [wf.parent_iff]
          rw [next?, siblings, hparent] at hnext
          exact mem_of_following? hnext
        rw [wf.ancestors_of_parent hsibling]
        exact fun _ hblock => hblock
      | none =>
        rw [hnext, hparent, Option.bind_some] at h
        exact fun block hblock => List.mem_cons_of_mem p (ih p hparent h block hblock)

/-- Around the next node there are only the node itself and the blocks around it. -/
theorem ancestors_of_nextInOrder? {id next : NodeId} (h : t.nextInOrder? id = some next) :
    ∀ block ∈ t.ancestors next, block = id ∨ block ∈ t.ancestors id := by
  unfold nextInOrder? at h
  split at h
  case h_1 child hchild =>
    obtain rfl := Option.some.inj h
    have hparent : t.parent? child = some id := by
      rw [wf.parent_iff]
      exact List.mem_of_mem_head? hchild
    rw [wf.ancestors_of_parent hparent]
    exact fun block hblock => List.mem_cons.mp hblock
  case h_2 => exact fun block hblock => Or.inr (wf.ancestors_subset_of_successor? h block hblock)

end Tree.WellFormed

namespace StackHeights

variable {t : Tree} {r : Resolver} {s s' : State}

/-! ## Steps of the context -/

section Context

variable (wf : t.WellFormed)

include wf

theorem successor?_ofTree (r : Resolver) (id : NodeId) :
    (Context.ofTree t r).successor? id = t.successor? id := by
  simp only [Context.successor?, Context.ofTree, Array.getD_eq_getD_getElem?]
  by_cases hid : id.index < t.size
  · simp [hid]
  · have hparent : t.parent? id = none := by
      rw [Tree.parent?, (Tree.node?_eq_none_iff t id).mpr (Nat.le_of_not_lt hid)]
      rfl
    simp [hid, wf.successor?_of_no_parent hparent]

theorem nextInOrder?_ofTree (r : Resolver) (id : NodeId) :
    (Context.ofTree t r).nextInOrder? id = t.nextInOrder? id := by
  unfold Context.nextInOrder? Tree.nextInOrder?
  rw [successor?_ofTree wf r]
  rfl

end Context

/-! ## Walks -/

/-- The arrival that a walk stands at. -/
def standing (next? : Option NodeId) (height : Int) : List Arrival :=
  next?.toList.map fun id => ⟨id, height⟩

theorem onward_eq (t : Tree) (id : NodeId) (exit : Int) :
    onward t id (some exit) = standing (t.successor? id) exit := rfl

theorem walkUpTo_none (c : Context) (limit : Nat) (s : State) (height : Int) :
    walkUpTo c limit s none height = .ok s := by
  cases limit <;> rfl

/-- A walk goes on with the rest of the flat order. -/
theorem walkUpTo_cons (wf : t.WellFormed) {top id : NodeId} {before rest : List NodeId}
    (htop : t.parent? top = none) (horder : t.preOrder top = before ++ id :: rest) (limit : Nat)
    (s : State) (height : Int) :
    walkUpTo (Context.ofTree t r) (limit + 1) s (some id) height =
      match t.content? id with
      | none => .error (.edit (.unknownNode id))
      | some (.label _) => walkUpTo (Context.ofTree t r) limit s rest.head? height
      | some (.block kind _) =>
        walkUpTo (Context.ofTree t r) limit (s.enter t id) rest.head? (kind.entryHeight height)
      | some (.instruction operation) =>
        execute (Context.ofTree t r) s id operation height >>= fun out =>
          match out.2 with
          | none => .ok out.1
          | some exit => walkUpTo (Context.ofTree t r) limit out.1 rest.head? exit := by
  have hnext : t.nextInOrder? id = rest.head? := wf.nextInOrder?_eq_head? htop horder
  have hsucc : t.children id = [] → t.successor? id = rest.head? := by
    intro hchildren
    rw [Tree.WellFormed.successor?_eq_nextInOrder? hchildren, hnext]
  rw [walkUpTo, successor?_ofTree wf, nextInOrder?_ofTree wf, hnext,
    show (Context.ofTree t r).tree = t from rfl]
  cases hcontent : t.content? id with
  | none => rfl
  | some content =>
    cases content with
    | label owner => rw [hsucc (Tree.children_eq_nil_of_isLabel (Tree.isLabel_iff.mpr ⟨_, hcontent⟩))]
    | block kind children => rfl
    | instruction operation =>
      rw [hsucc (Tree.children_eq_nil_of_isInstruction (Tree.isInstruction_iff.mpr ⟨_, hcontent⟩))]
      dsimp only
      cases execute (Context.ofTree t r) s id operation height with
      | error fault => rfl
      | ok out =>
        obtain ⟨now, exit⟩ := out
        cases exit <;> rfl

theorem walkAllUpTo_cons (c : Context) (limit walks : Nat) (s : State) (arrival : Arrival)
    (waiting : List Arrival) :
    walkAllUpTo c (limit + 1) walks s (arrival :: waiting) = walk c s arrival >>= fun s =>
      walkAllUpTo c limit (walks + 1) { s with found := [] } (waiting ++ s.found.reverse) := by
  rw [walkAllUpTo]
  cases walk c s arrival <;> rfl

/-- The regions around the node after a subtree are around the subtree. -/
theorem Around.successor (wf : t.WellFormed) {id next : NodeId} (h : Around t s id)
    (hnext : t.successor? id = some next) : Around t s next :=
  fun region hregion => h region (wf.ancestors_subset_of_successor? hnext region hregion)

/-- The next node lies in no regions but those that a node is or lies in. -/
theorem Inside.next (wf : t.WellFormed) {id next : NodeId} (h : Inside t s id)
    (hnext : t.nextInOrder? id = some next) : Around t s next :=
  fun region hregion => h region (wf.ancestors_of_nextInOrder? hnext region hregion)

section Step

variable {id : NodeId} {height : Int} {waiting : List Arrival}

/-- A walk passes a label. -/
theorem Consistent.label (h : Consistent t r s (⟨id, height⟩ :: waiting))
    (hlabel : t.isLabel id = true) (haround : Around t s id) :
    Consistent t r s (standing (t.successor? id) height ++ waiting) := by
  obtain ⟨owner, hcontent⟩ := Tree.isLabel_iff.mp hlabel
  exact h.pass (haround.inside (by rw [Tree.blockKind?, hcontent]))
    (Tree.isInstruction_of_isLabel hlabel) fun _ _ => Tree.moves_of_isLabel_iff hlabel

/-- A walk enters a block. -/
theorem Consistent.block {kind : BlockKind} (h : Consistent t r s (⟨id, height⟩ :: waiting))
    (hkind : t.blockKind? id = some kind) (haround : Around t s id) :
    Consistent t r (s.enter t id)
      (standing (t.nextInOrder? id) (kind.entryHeight height) ++ waiting) :=
  (h.enter (h.arrivals ⟨id, height⟩ List.mem_cons_self) (Or.inl rfl)).pass haround.enter
    (Tree.isInstruction_of_blockKind? hkind) fun _ _ => Tree.moves_of_blockKind?_iff hkind

end Step

/-- A walk over the rest of a flat order keeps an analysis consistent and adds no work. -/
theorem walkUpTo_consistent (wf : t.WellFormed) {top : NodeId} (htop : t.parent? top = none)
    {limit : Nat} {before rest : List NodeId} {height : Int} {waiting : List Arrival}
    (horder : t.preOrder top = before ++ rest) (hlimit : rest.length ≤ limit)
    (hconsistent : Consistent t r s (standing rest.head? height ++ waiting))
    (haround : ∀ id, rest.head? = some id → Around t s id)
    (h : walkUpTo (Context.ofTree t r) limit s rest.head? height = .ok s') :
    Consistent t r s' waiting ∧ work t s' ≤ work t s := by
  induction rest generalizing limit s before height with
  | nil =>
    rw [List.head?_nil, walkUpTo_none] at h
    obtain rfl := Except.ok.inj h
    exact ⟨hconsistent, Nat.le_refl _⟩
  | cons id rest ih =>
    obtain ⟨limit, rfl⟩ : ∃ l, limit = l + 1 :=
      ⟨limit - 1, by rw [List.length_cons] at hlimit; omega⟩
    have hlimit' : rest.length ≤ limit := by simpa using hlimit
    have horder' : t.preOrder top = (before ++ [id]) ++ rest := by simpa using horder
    have hnext : t.nextInOrder? id = rest.head? := wf.nextInOrder?_eq_head? htop horder
    have hsucc : t.children id = [] → t.successor? id = rest.head? := fun hchildren => by
      rw [Tree.WellFormed.successor?_eq_nextInOrder? hchildren, hnext]
    have hhere := haround id rfl
    rw [List.head?_cons, walkUpTo_cons wf htop horder] at h
    split at h
    · exact absurd h (by simp)
    · next owner hcontent =>
      have hlabel : t.isLabel id = true := Tree.isLabel_iff.mpr ⟨owner, hcontent⟩
      have hsucc := hsucc (Tree.children_eq_nil_of_isLabel hlabel)
      refine ih horder' hlimit' ?_ (fun next hmem => hhere.successor wf (hsucc.trans hmem)) h
      rw [← hsucc]
      exact hconsistent.label hlabel hhere
    · next kind children hcontent =>
      have hkind : t.blockKind? id = some kind := by rw [Tree.blockKind?, hcontent]
      have hpassed := hconsistent.block hkind hhere
      rw [hnext] at hpassed
      obtain ⟨hdone, hwork⟩ := ih horder' hlimit' hpassed
        (fun next hmem => hhere.enter.next wf (hnext.trans hmem)) h
      exact ⟨hdone, le_trans hwork (work_enter_le t s id)⟩
    · next operation hcontent =>
      -- behind an instruction the walk may stop
      have hop : t.operation? id = some operation := Tree.operation?_eq_some_iff.mpr hcontent
      have hinstruction : t.isInstruction id = true := by rw [Tree.isInstruction, hop]; rfl
      obtain ⟨⟨s₁, out⟩, hexec, h⟩ := bind_eq_ok.mp h
      have hexecutes := executes_of_execute hexec
      have hnow := hconsistent.executes hop hhere hexecutes
      have hwork := hexecutes.work_le hop hconsistent.size
      cases out with
      | none =>
        obtain rfl := Except.ok.inj h
        exact ⟨hnow, hwork⟩
      | some exit =>
        have hsucc := hsucc (Tree.children_eq_nil_of_isInstruction hinstruction)
        rw [onward_eq, hsucc] at hnow
        have haround' : ∀ next, rest.head? = some next → Around t s₁ next := by
          intro next hmem block hblock handlers htry
          rw [hexecutes.isEntered]
          exact hhere.successor wf (hsucc.trans hmem) block hblock handlers htry
        obtain ⟨hdone, hwork'⟩ := ih horder' hlimit' hnow haround' h
        exact ⟨hdone, le_trans hwork' hwork⟩

/-- Entering blocks around a visited node keeps an analysis consistent and adds no work. -/
theorem foldl_enter_consistent {waiting : List Arrival} {id : NodeId} {height : Int}
    (hvisit : t.Visits r id height) {blocks : List NodeId}
    (hblocks : ∀ block ∈ blocks, t.isBelow block id = true) (h : Consistent t r s waiting) :
    Consistent t r (blocks.foldl (State.enter t) s) waiting ∧
      work t (blocks.foldl (State.enter t) s) ≤ work t s ∧
      s.Le (blocks.foldl (State.enter t) s) ∧
      ∀ block ∈ blocks, ∀ handlers, t.blockKind? block = some (.tryBlock handlers) →
        (blocks.foldl (State.enter t) s).isEntered block = true := by
  induction blocks generalizing s with
  | nil => exact ⟨h, Nat.le_refl _, State.Le.refl s, by simp⟩
  | cons block blocks ih =>
    have henter := h.enter hvisit (Or.inr (hblocks block List.mem_cons_self))
    have hstep := State.enter_le t s block
    obtain ⟨hconsistent, hwork, hle, hentered⟩ :=
      ih (fun b hb => hblocks b (List.mem_cons_of_mem block hb)) henter
    rw [List.foldl_cons]
    refine ⟨hconsistent, le_trans hwork (work_enter_le t s block), hstep.trans hle, ?_⟩
    intro b hb handlers htry
    rcases List.mem_cons.mp hb with rfl | hb
    · exact hle.entered b (State.isEntered_enter htry)
    · exact hentered b hb handlers htry

/-- A walk takes its arrival away and adds no work otherwise. -/
theorem walk_consistent (wf : t.WellFormed) {a : Arrival} {waiting : List Arrival}
    (hconsistent : Consistent t r s (a :: waiting))
    (h : walk (Context.ofTree t r) s a = .ok s') :
    Consistent t r s' waiting ∧ work t s' ≤ work t s := by
  have hvisit : t.Visits r a.node a.height := hconsistent.arrivals a (by simp)
  have hbelow : ∀ block ∈ t.ancestors a.node, t.isBelow block a.node = true := by
    simp [Tree.isBelow]
  obtain ⟨hentered, hwork, _, haround⟩ := foldl_enter_consistent hvisit hbelow hconsistent
  unfold walk at h
  obtain ⟨top, htop, hmem⟩ := wf.exists_top a.node
  obtain ⟨before, after, horder⟩ := List.append_of_mem hmem
  have hlength := wf.length_preOrder_le top
  rw [horder, List.length_append] at hlength
  have hlimit : (a.node :: after).length ≤ t.size := by omega
  obtain ⟨hdone, hless⟩ := walkUpTo_consistent wf htop horder hlimit hentered (fun id hid => by
      obtain rfl := Option.some.inj hid
      exact haround) h
  exact ⟨hdone, le_trans hless hwork⟩

/-! ## Whole analyses -/

/-- Walks from arrivals, in any order, until none is left. -/
inductive Drains (c : Context) : State → List Arrival → State → Prop
  | done {s : State} : Drains c s [] s
  | walk {s s₁ s' : State} {waiting rest next : List Arrival} {a : Arrival}
      (hpick : waiting.Perm (a :: rest)) (hwalk : StackHeights.walk c s a = .ok s₁)
      (hnext : next.Perm (rest ++ s₁.found)) (hrest : Drains c { s₁ with found := [] } next s') :
      Drains c s waiting s'

/-- What waits after a walk is what waited before and what the walk has found. -/
theorem Consistent.collect {waiting next : List Arrival} (h : Consistent t r s waiting)
    (hnext : next.Perm (waiting ++ s.found)) :
    Consistent t r { s with found := [] } next :=
  h.rearrange fun a => by rw [List.append_nil, hnext.mem_iff]

/-- What waits after a walk is covered by one walk less. -/
theorem length_collect_le {waiting : List Arrival} {a : Arrival} {limit : Nat} (hfound : s.found = [])
    (hwork : work t s' ≤ work t s) (hlimit : (a :: waiting).length + totalWeight t s ≤ limit + 1) :
    (waiting ++ s'.found.reverse).length + totalWeight t { s' with found := [] } ≤ limit := by
  have htotal : totalWeight t { s' with found := [] } = totalWeight t s' := rfl
  unfold work at hwork
  rw [hfound, List.length_nil] at hwork
  rw [List.length_cons] at hlimit
  rw [List.length_append, List.length_reverse, htotal]
  omega

theorem Drains.consistent (wf : t.WellFormed) {waiting : List Arrival}
    (h : Drains (Context.ofTree t r) s waiting s') (hfound : s.found = [])
    (hconsistent : Consistent t r s waiting) : Consistent t r s' [] ∧ s'.found = [] := by
  induction h with
  | done => exact ⟨hconsistent, hfound⟩
  | walk hpick hwalk hnext _ ih =>
    have hwalked := (walk_consistent wf (hconsistent.perm hpick.symm) hwalk).1
    exact ih rfl (hwalked.collect hnext)

/-- An analysis that is done in the order of the arrivals leaves no arrival behind. -/
theorem drains_of_walkAllUpTo (wf : t.WellFormed) {limit walks walks' : Nat}
    {waiting : List Arrival} (hfound : s.found = []) (hconsistent : Consistent t r s waiting)
    (hlimit : waiting.length + totalWeight t s ≤ limit)
    (h : walkAllUpTo (Context.ofTree t r) limit walks s waiting = .ok (s', walks')) :
    Drains (Context.ofTree t r) s waiting s' := by
  induction limit generalizing s waiting walks with
  | zero =>
    obtain rfl := List.length_eq_zero_iff.mp (show waiting.length = 0 by omega)
    simp only [walkAllUpTo, Except.ok.injEq, Prod.mk.injEq] at h
    rw [h.1]
    exact .done
  | succ limit ih =>
    cases waiting with
    | nil =>
      simp only [walkAllUpTo, Except.ok.injEq, Prod.mk.injEq] at h
      rw [h.1]
      exact .done
    | cons a waiting =>
      rw [walkAllUpTo] at h
      split at h
      · exact absurd h (by simp)
      · next s₁ hwalk =>
        obtain ⟨hwalked, hwork⟩ := walk_consistent wf hconsistent hwalk
        have hnext : (waiting ++ s₁.found.reverse).Perm (waiting ++ s₁.found) :=
          (List.reverse_perm s₁.found).append_left waiting
        exact .walk (List.Perm.refl _) hwalk hnext
          (ih rfl (hwalked.collect hnext) (length_collect_le hfound hwork hlimit) h)

/-- The limit of an analysis covers the work that there is at first. -/
theorem work_start_le (t : Tree) :
    (standing (t.firstChild? Tree.root) 0).length + totalWeight t (.start t) ≤ walkLimit t := by
  rw [walkLimit_eq]
  have hone : (standing (t.firstChild? Tree.root) 0).length ≤ 1 := by
    unfold standing
    cases t.firstChild? Tree.root <;> simp
  omega

/-- At first nothing is recorded, and control arrives at the start of the body. -/
theorem consistent_start (t : Tree) (r : Resolver) :
    Consistent t r (.start t) (standing (t.firstChild? Tree.root) 0) where
  size := by simp [State.start]
  recorded id known h := by rw [entry_start] at h; exact absurd h (by simp)
  measured id known _ h := by rw [entry_start] at h; exact absurd h (by simp)
  arrivals a ha := by
    rw [List.mem_append] at ha
    rcases ha with ha | ha
    · obtain ⟨first, hfirst, rfl⟩ := List.mem_map.mp ha
      exact .start (Option.mem_toList.mp hfirst)
    · simp [State.start] at ha
  highest := Or.inl rfl
  highest_bounds := ⟨le_refl 0, by simp [State.start]⟩
  below_highest id known h := by rw [entry_start] at h; exact absurd h (by simp)
  start first h := Settled.pending (a := ⟨first, 0⟩) (by simp [standing, h]) (le_refl 0)
  moves id known h := by rw [entry_start] at h; exact absurd h (by simp)
  handlers region handlers hkind hentered := by
    rw [isEntered_start (Tree.index_lt_of_blockKind? hkind)] at hentered
    exact absurd hentered (by simp)

/-! ## Exactness -/

/-- With no arrivals left, every visit of the machine is settled. -/
theorem Consistent.settled (h : Consistent t r s []) (hfound : s.found = []) {id : NodeId}
    {height : Int} (hvisit : t.Visits r id height) : Settled t r s [] id height := by
  have hstart := h.start
  have hmoves := h.moves
  have hhandlers := h.handlers
  rw [hfound, List.append_nil] at hstart hmoves hhandlers
  -- whatever is settled lies inside of entered regions only
  have hregion : ∀ {region x : NodeId} {y : Int} {handlers : List NodeId},
      t.blockKind? region = some (.tryBlock handlers) → Settled t r s [] x y →
      (x = region ∨ t.isBelow region x = true) → s.isEntered region = true := by
    intro region x y handlers hkind hsettled hin
    have hin' : region = x ∨ region ∈ t.ancestors x := by
      simpa [Tree.isBelow, eq_comm] using hin
    cases hsettled with
    | pending hmem => exact absurd hmem (by simp)
    | passed hinside => exact hinside region hin' handlers hkind
    | instruction hinside => exact hinside region hin' handlers hkind
  induction hvisit with
  | start hfirst => exact hstart _ hfirst
  | moves _ hmove ih =>
    cases ih with
    | pending hmem => exact absurd hmem (by simp)
    | passed _ _ hnext => exact hnext _ _ hmove
    | instruction _ hentry hle =>
      obtain ⟨higher, hmove', hle'⟩ := hmove.raise hle
      exact (hmoves _ _ hentry _ _ hmove').lower hle'
  | handler hkind _ hin hhandler ih =>
    refine hhandlers _ _ hkind (hregion hkind ih hin) _ hhandler _ ?_
    unfold State.handlerEntries
    split <;> simp
  | filter hkind _ hin hhandler hfilter ih =>
    refine hhandlers _ _ hkind (hregion hkind ih hin) _ hhandler _ ?_
    simp [State.handlerEntries, hfilter]

/-- A visited instruction is recorded, no lower than it is visited. -/
theorem Consistent.exists_entry (h : Consistent t r s []) (hfound : s.found = []) {id : NodeId}
    {height : Int} (hinstruction : t.isInstruction id = true) (hvisit : t.Visits r id height) :
    ∃ known, s.entry id = some known ∧ height ≤ known := by
  cases h.settled hfound hvisit with
  | pending hmem => exact absurd hmem (by simp)
  | passed _ hother => rw [hinstruction] at hother; exact absurd hother (by simp)
  | instruction _ hentry hle => exact ⟨_, hentry, hle⟩

/-- What is recorded for a node is the greatest height with which the machine visits it. -/
theorem Consistent.entry_eq_some_iff (h : Consistent t r s []) (hfound : s.found = [])
    {id : NodeId} {height : Int} :
    s.entry id = some height ↔
      t.isInstruction id = true ∧ IsGreatest {x | t.Visits r id x} height := by
  constructor
  · intro hentry
    obtain ⟨hinstruction, hvisit, _⟩ := h.recorded id height hentry
    refine ⟨hinstruction, hvisit, fun x hx => ?_⟩
    obtain ⟨known, hknown, hle⟩ := h.exists_entry hfound hinstruction hx
    obtain rfl := Option.some.inj (hentry.symm.trans hknown)
    exact hle
  · rintro ⟨hinstruction, hvisit, hgreatest⟩
    obtain ⟨known, hknown, hle⟩ := h.exists_entry hfound hinstruction hvisit
    obtain ⟨_, hvisit', _⟩ := h.recorded id known hknown
    rw [hknown, le_antisymm (hgreatest hvisit') hle]

/-- The heights that a run of the machine shows: those before and behind instructions. -/
def shown (t : Tree) (r : Resolver) : Set Int :=
  {height | ∃ id, t.isInstruction id = true ∧ t.Visits r id height} ∪
    {exit | ∃ id height, t.Visits r id height ∧ t.Exits r id height exit}

/-- The highest recorded height is the greatest that the machine shows, or zero. -/
theorem Consistent.isGreatest_highest (h : Consistent t r s []) (hfound : s.found = []) :
    IsGreatest (insert 0 (shown t r)) s.highest := by
  refine ⟨?_, ?_⟩
  · rcases h.highest with hzero | hvisit | hexit
    · exact Or.inl hzero
    · exact Or.inr (Or.inl hvisit)
    · exact Or.inr (Or.inr hexit)
  · rintro height (rfl | ⟨id, hinstruction, hvisit⟩ | ⟨id, entry, hvisit, hexit⟩)
    · exact h.highest_bounds.1
    · obtain ⟨known, hknown, hle⟩ := h.exists_entry hfound hinstruction hvisit
      exact le_trans hle (h.below_highest id known hknown).1
    · have hinstruction : t.isInstruction id = true := by
        obtain ⟨hop, _, _, _⟩ := hexit
        rw [Tree.isInstruction, hop]
        rfl
      obtain ⟨known, hknown, hle⟩ := h.exists_entry hfound hinstruction hvisit
      obtain ⟨exit', hexit', hle'⟩ := hexit.raise hle
      exact le_trans hle' ((h.below_highest id known hknown).2 exit' hexit')

/-- A successful analysis has walked until nothing was left, and answers what the last state has
recorded. -/
theorem exists_final (wf : t.WellFormed) {heights : StackHeights} (h : ofTree t r = .ok heights) :
    ∃ s, Consistent t r s [] ∧ s.found = [] ∧ heights.entries = s.entries ∧
      (∀ id, heights.heightAt id = s.entry id) ∧ (heights.maxStack.toNat : Int) = s.highest := by
  obtain ⟨⟨s, walks⟩, hwalks, h⟩ := bind_eq_ok.mp h
  obtain rfl := pure_eq_ok.mp h
  have hstart := consistent_start t r
  have hdrains := drains_of_walkAllUpTo wf rfl hstart (work_start_le t) hwalks
  obtain ⟨hconsistent, hfound⟩ := hdrains.consistent wf rfl hstart
  refine ⟨s, hconsistent, hfound, rfl, fun _ => rfl, ?_⟩
  obtain ⟨hlow, hhigh⟩ := hconsistent.highest_bounds
  dsimp only
  rw [UInt16.toNat_ofNat', Nat.mod_eq_of_lt (by omega)]
  omega

/-- A successful analysis is exact.  For every instruction it records the greatest height with which
the machine visits it, and nothing for instructions that the machine never visits; its stack size is
the greatest height that the machine shows.  Walks in any other order record the same. -/
theorem ofTree_exact {heights : StackHeights} (ht : t.Reachable)
    (h : ofTree t r = .ok heights) :
    (∀ id height, t.isInstruction id = true →
      (heights.heightAt id = some height ↔ IsGreatest {x | t.Visits r id x} height)) ∧
    (∀ id, t.isInstruction id = true →
      (heights.heightAt id = none ↔ ∀ height, ¬ t.Visits r id height)) ∧
    IsGreatest (insert 0 (shown t r)) (heights.maxStack.toNat : Int) ∧
    ∀ s, Drains (Context.ofTree t r) (.start t) (standing (t.firstChild? Tree.root) 0) s →
      s.entries = heights.entries ∧ s.highest = heights.maxStack.toNat := by
  have wf := ht.wellFormed
  obtain ⟨s, hconsistent, hfound, hentries, hheight, hhighest⟩ := exists_final wf h
  refine ⟨?_, ?_, ?_, ?_⟩
  · intro id height hinstruction
    rw [hheight, hconsistent.entry_eq_some_iff hfound]
    exact and_iff_right hinstruction
  · intro id hinstruction
    rw [hheight]
    constructor
    · intro hnone height hvisit
      obtain ⟨known, hknown, _⟩ := hconsistent.exists_entry hfound hinstruction hvisit
      rw [hnone] at hknown
      exact absurd hknown (by simp)
    · intro hnever
      cases hentry : s.entry id with
      | none => rfl
      | some known => exact absurd (hconsistent.recorded id known hentry).2.1 (hnever known)
  · rw [hhighest]
    exact hconsistent.isGreatest_highest hfound
  · intro other hother
    obtain ⟨hconsistent', hfound'⟩ := hother.consistent wf rfl (consistent_start t r)
    refine ⟨?_, ?_⟩
    · rw [hentries]
      apply Array.ext
      · rw [hconsistent'.size, hconsistent.size]
      · intro index h₁ h₂
        have hsame : other.entry ⟨index⟩ = s.entry ⟨index⟩ := by
          apply Option.ext
          intro height
          rw [hconsistent'.entry_eq_some_iff hfound', hconsistent.entry_eq_some_iff hfound]
        simpa [State.entry, h₁, h₂] using hsame
    · rw [hhighest]
      exact (hconsistent'.isGreatest_highest hfound').unique (hconsistent.isGreatest_highest hfound)

/-- A number is pushed and popped again under the protection of a handler that drops the exception
object. -/
def guardedPop : Body where
  header := default
  instructions := Instruction.assemble
    [(0x16, .none), (0x26, .none), (0xDE, .branch 3), (0x26, .none), (0xDE, .branch 0), (0x2A, .none)]
  clauses := [Clause.ofFields 0 0 4 4 3 0x01000001]

/-- The analysis of `guardedPop` succeeds, and no run of its machine shows more than one value. -/
theorem guardedPop_greatest_height :
    ∃ t heights, Tree.ofBody guardedPop = .ok t ∧
      ofTree t (SignatureTable.new false).resolver = .ok heights ∧
        heights.heightAt (Tree.instructionNode 3) = some 1 ∧
          IsGreatest {x | t.Visits (SignatureTable.new false).resolver (Tree.instructionNode 3) x} 1 ∧
            IsGreatest (insert 0 (shown t (SignatureTable.new false).resolver)) 1 := by
  have hrun : ((Tree.ofBody guardedPop).toOption.any fun t =>
      (ofTree t (SignatureTable.new false).resolver).toOption.any fun heights =>
        t.isInstruction (Tree.instructionNode 3) && heights.maxStack == 1 &&
          heights.heightAt (Tree.instructionNode 3) == some 1) = true := by
    decide +kernel
  simp only [Option.any_eq_true, toOption_eq_some_iff, Bool.and_eq_true, beq_iff_eq] at hrun
  obtain ⟨t, ht, heights, hheights, ⟨hinstruction, hmax⟩, hentry⟩ := hrun
  obtain ⟨hsome, -, hgreatest, -⟩ := ofTree_exact (.lifted ht) hheights
  rw [hmax] at hgreatest
  exact ⟨t, heights, ht, hheights, hentry, (hsome _ _ hinstruction).mp hentry, hgreatest⟩

end StackHeights

end MethodIL
