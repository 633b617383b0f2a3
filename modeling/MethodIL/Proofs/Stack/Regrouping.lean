import Mathlib
import MethodIL.Proofs.Lowering.Regrouping
import MethodIL.Proofs.Stack.Exact
set_option autoImplicit false

/-!
# Stack heights without regard to plain blocks

Nothing happens to the stack where control enters a plain block, and none is what control is led to.
So two analyses, one with such a block and one without, walk side by side: where the one steps over
the block the other waits.  They record the same heights, find the same arrivals in the same order,
and stop with the same fault.
-/

namespace MethodIL

open Outcome

/-! ## Outcomes side by side -/

/-- Two computations stop with the same fault, or both succeed with answers that belong together. -/
inductive Matches {ε α β : Type} (R : α → β → Prop) : Except ε α → Except ε β → Prop
  | ok {a : α} {b : β} (h : R a b) : Matches R (.ok a) (.ok b)
  | error (e : ε) : Matches R (.error e) (.error e)

namespace Matches

variable {ε α β γ δ : Type} {R : α → β → Prop} {S : γ → δ → Prop} {x : Except ε α} {y : Except ε β}

theorem bind (h : Matches R x y) {f : α → Except ε γ} {g : β → Except ε δ}
    (hnext : ∀ a b, R a b → Matches S (f a) (g b)) : Matches S (x >>= f) (y >>= g) := by
  cases h with
  | ok hab => exact hnext _ _ hab
  | error e => exact .error e

theorem imp (h : Matches R x y) {S : α → β → Prop} (himp : ∀ a b, R a b → S a b) : Matches S x y := by
  cases h with
  | ok hab => exact .ok (himp _ _ hab)
  | error e => exact .error e

theorem refl (x : Except ε α) : Matches Eq x x := by
  cases x with
  | ok a => exact .ok rfl
  | error e => exact .error e

theorem map_eq (h : Matches R x y) {f : α → γ} {g : β → γ} (hview : ∀ a b, R a b → f a = g b) :
    x.map f = y.map g := by
  cases h with
  | ok hab => exact congrArg Except.ok (hview _ _ hab)
  | error e => rfl

end Matches

namespace StackHeights

variable {t t' : Tree} {r : Resolver} {x : NodeId} {s s' : State}

/-! ## States side by side -/

/-- The analysis of a tree with a plain block and that of the tree without it are at the same point. -/
structure Alike (t' : Tree) (x : NodeId) (t : Tree) (s' s : State) : Prop where
  before : s'.entries.size = t'.size
  after : s.entries.size = t.size
  entry : ∀ id, s'.entry id = s.entry id
  isEntered : ∀ id, id ≠ x → s'.isEntered id = s.isEntered id
  found : s'.found = s.found
  elsewhere : ∀ arrival ∈ s.found, arrival.node ≠ x
  highest : s'.highest = s.highest

namespace Alike

theorem arrive (h : Alike t' x t s' s) {labels : List NodeId} (hlabels : x ∉ labels) (height : Int) :
    Alike t' x t (s'.arrive labels height) (s.arrive labels height) := by
  refine ⟨h.before, h.after, h.entry, h.isEntered, ?_, ?_, h.highest⟩
  · rw [State.found_arrive, State.found_arrive, h.found]
  · intro arrival hmem
    rw [State.found_arrive, List.mem_append, List.mem_reverse, List.mem_map] at hmem
    cases hmem with
    | inl hnew =>
      obtain ⟨label, hlabel, rfl⟩ := hnew
      intro heq
      exact hlabels (heq ▸ hlabel)
    | inr hold => exact h.elsewhere arrival hold

theorem record (h : Alike t' x t s' s) {id : NodeId} (hid' : id.index < t'.size)
    (hid : id.index < t.size) (height : Int) :
    Alike t' x t (s'.record id height) (s.record id height) := by
  refine ⟨?_, ?_, ?_, h.isEntered, h.found, h.elsewhere, congrArg (max · height) h.highest⟩
  · rw [← h.before]
    exact Array.size_setIfInBounds
  · rw [← h.after]
    exact Array.size_setIfInBounds
  · intro other
    rw [State.entry_record (h.before ▸ hid'), State.entry_record (h.after ▸ hid), h.entry]

theorem raiseMax (h : Alike t' x t s' s) (height : Int) :
    Alike t' x t (s'.raiseMax height) (s.raiseMax height) :=
  ⟨h.before, h.after, h.entry, h.isEntered, h.found, h.elsewhere, congrArg (max · height) h.highest⟩

/-- What was found is put on the list. -/
theorem collect (h : Alike t' x t s' s) :
    Alike t' x t { s' with found := [] } { s with found := [] } :=
  ⟨h.before, h.after, h.entry, h.isEntered, rfl, fun _ hmem => absurd hmem List.not_mem_nil, h.highest⟩

theorem seen (h : Alike t' x t s' s) (id : NodeId) (height : Int) :
    StackHeights.seen s' id height = StackHeights.seen s id height := by
  have hentry := h.entry id
  rw [State.entry, State.entry] at hentry
  rw [StackHeights.seen, StackHeights.seen, hentry]

end Alike

section Dissolved

variable (hd : t'.DissolvesPlain x t)

include hd

theorem handlerEntries_eq {handler : NodeId} (hid : handler ≠ x) :
    State.handlerEntries t' handler = State.handlerEntries t handler := by
  rw [State.handlerEntries, State.handlerEntries, hd.blockKind hid]

theorem notMem_handlerEntries {handler : NodeId} (hid : handler ≠ x) :
    x ∉ State.handlerEntries t' handler := by
  unfold State.handlerEntries
  split
  case h_1 kind region filterBlock catchType hkind =>
    have hfilter : filterBlock ≠ x := hd.ne_of_mentions ⟨_, hkind, by simp [BlockKind.links]⟩
    simp [Ne.symm hid, Ne.symm hfilter]
  case h_2 => simp [Ne.symm hid]

/-- Entering a block that both trees have. -/
theorem Alike.enter (h : Alike t' x t s' s) {block : NodeId} (hid : block ≠ x) :
    Alike t' x t (s'.enter t' block) (s.enter t block) := by
  have hentered := h.isEntered block hid
  rw [State.isEntered, State.isEntered] at hentered
  rw [State.enter, State.enter, hd.blockKind hid, hentered]
  split
  case h_1 handlers hkind =>
    have hhandlers : ∀ handler ∈ handlers, handler ≠ x := by
      intro handler hhandler
      exact hd.ne_of_mentions ⟨_, hkind, hhandler⟩
    have hentries : handlers.flatMap (State.handlerEntries t') =
        handlers.flatMap (State.handlerEntries t) := by
      apply List.flatMap_congr
      intro handler hhandler
      exact handlerEntries_eq hd (hhandlers handler hhandler)
    have hfree : x ∉ handlers.flatMap (State.handlerEntries t) := by
      rw [← hentries, List.mem_flatMap]
      intro hmem
      obtain ⟨handler, hhandler, hmem⟩ := hmem
      exact notMem_handlerEntries hd (hhandlers handler hhandler) hmem
    split
    case isTrue => exact h
    case isFalse =>
      have hset : Alike t' x t { s' with entered := s'.entered.setIfInBounds block.index true }
          { s with entered := s.entered.setIfInBounds block.index true } := by
        refine ⟨h.before, h.after, h.entry, ?_, h.found, h.elsewhere, h.highest⟩
        intro region hregion
        rw [State.isEntered_set, State.isEntered_set, h.isEntered region hregion]
      rw [hentries]
      exact hset.arrive hfree 0
  case h_2 => exact h

omit hd in
theorem enter_plain {block : NodeId} (hplain : t.blockKind? block = some .plain) (s : State) :
    s.enter t block = s := by
  rw [State.enter, hplain]

/-- Entering blocks from the inside passes the plain block by. -/
theorem Alike.foldl_enter (h : Alike t' x t s' s) (blocks : List NodeId) :
    Alike t' x t (blocks.foldl (State.enter t') s')
      ((blocks.filter fun y => y ≠ x).foldl (State.enter t) s) := by
  induction blocks generalizing s s' with
  | nil => exact h
  | cons block blocks ih =>
    by_cases hid : block = x
    · rw [List.filter_cons_of_neg (by simpa using hid), List.foldl_cons,
        enter_plain (hid ▸ hd.plain)]
      exact ih h
    · rw [List.filter_cons_of_pos (by simpa using hid), List.foldl_cons, List.foldl_cons]
      exact ih (h.enter hd hid)

/-- An instruction that is executed in both trees does the same. -/
theorem Alike.execute (h : Alike t' x t s' s) {id : NodeId} {operation : Operation NodeId}
    (hop : t.operation? id = some operation) (height : Int) :
    Matches (fun out' out => Alike t' x t out'.1 out.1 ∧ out'.2 = out.2)
      (StackHeights.execute (Context.ofTree t' r) s' id operation height)
      (StackHeights.execute (Context.ofTree t r) s id operation height) := by
  have hlabels : x ∉ operation.operand.targets := by
    have hfree := hd.unlabeled id
    rwa [← hd.labelsOf, Tree.labelsOf, hop] at hfree
  have hid : id.index < t.size := Tree.index_lt_of_operation? hop
  have hid' := (hd.exists_iff (hd.ne_of_operation? hop)).mp hid
  rw [StackHeights.execute, StackHeights.execute, h.seen]
  split
  case isTrue => exact .ok ⟨h, rfl⟩
  case isFalse =>
    apply (Matches.refl (checkBounds id height)).bind
    intro _ _ _
    have hnow := h.record hid' hid height
    dsimp only
    split
    case isTrue => exact .ok ⟨hnow.arrive hlabels 0, rfl⟩
    case isFalse =>
      apply (Matches.refl (operation.stackEffect r)).bind
      intro effect _ heq
      rw [← heq]
      apply (Matches.refl (checkBounds id (height - effect.pops + effect.pushes))).bind
      intro _ _ _
      have hraised := hnow.raiseMax (height - effect.pops + effect.pushes)
      have harrived := hraised.arrive hlabels (height - effect.pops + effect.pushes)
      cases operation.opcode.flow with
      | unconditionalBranch | conditionalBranch | switch => exact .ok ⟨harrived, rfl⟩
      | _ => exact .ok ⟨hraised, rfl⟩

/-! ## Walks side by side -/

/-- Along the flat order a walk waits where the other steps over the plain block. -/
theorem Alike.walkUpTo (h : Alike t' x t s' s) {top : NodeId} {before rest : List NodeId}
    {limit' limit : Nat} {height : Int} (htop' : t'.parent? top = none) (htop : t.parent? top = none)
    (hfilter : (t'.preOrder top).filter (fun y => y ≠ x) = t.preOrder top)
    (horder : t'.preOrder top = before ++ rest) (hlimit' : rest.length ≤ limit')
    (hlimit : (rest.filter fun y => y ≠ x).length ≤ limit) :
    Matches (Alike t' x t)
      (StackHeights.walkUpTo (Context.ofTree t' r) limit' s' rest.head? height)
      (StackHeights.walkUpTo (Context.ofTree t r) limit s (rest.filter fun y => y ≠ x).head? height) := by
  induction rest generalizing before limit' limit s' s height with
  | nil =>
    rw [List.filter_nil, List.head?_nil, walkUpTo_none, walkUpTo_none]
    exact .ok h
  | cons id rest ih =>
    rw [List.length_cons] at hlimit'
    obtain ⟨limit', rfl⟩ : ∃ fewer, limit' = fewer + 1 := ⟨limit' - 1, by omega⟩
    have horder' : t'.preOrder top = (before ++ [id]) ++ rest := by rw [horder]; simp
    rw [List.head?_cons, walkUpTo_cons hd.before htop' horder]
    by_cases hid : id = x
    · rw [List.filter_cons_of_neg (by simpa using hid)] at hlimit ⊢
      rw [hid, Tree.blockKind?_eq_some_iff.mp hd.plain]
      dsimp only
      rw [enter_plain hd.plain]
      exact ih h horder' (by omega) hlimit
    · rw [horder, List.filter_append, List.filter_cons_of_pos (by simpa using hid)] at hfilter
      rw [List.filter_cons_of_pos (by simpa using hid)] at hlimit ⊢
      rw [List.length_cons] at hlimit
      obtain ⟨limit, rfl⟩ : ∃ fewer, limit = fewer + 1 := ⟨limit - 1, by omega⟩
      rw [List.head?_cons, walkUpTo_cons hd.after htop hfilter.symm]
      have hstep : ∀ {now' now : State} (onward : Int), Alike t' x t now' now →
          Matches (Alike t' x t)
            (StackHeights.walkUpTo (Context.ofTree t' r) limit' now' rest.head? onward)
            (StackHeights.walkUpTo (Context.ofTree t r) limit now
              (rest.filter fun y => y ≠ x).head? onward) :=
        fun onward hnow => ih hnow horder' (by omega) (by omega)
      have hsame := hd.content hid
      cases hcontent : t'.content? id with
      | none =>
        rw [hcontent] at hsame
        rw [hsame]
        exact .error _
      | some content =>
        rw [hcontent] at hsame
        rw [hsame]
        cases content with
        | label owner => exact hstep height h
        | block kind children => exact hstep _ (h.enter hd hid)
        | instruction operation =>
          apply (h.execute hd (Tree.operation?_eq_some_iff.mpr hsame) height).bind
          intro out' out hout
          rw [hout.2]
          cases out.2 with
          | none => exact .ok hout.1
          | some exit => exact hstep exit hout.1

theorem Alike.walk (h : Alike t' x t s' s) {arrival : Arrival} (hid : arrival.node ≠ x) :
    Matches (Alike t' x t) (StackHeights.walk (Context.ofTree t' r) s' arrival)
      (StackHeights.walk (Context.ofTree t r) s arrival) := by
  obtain ⟨top, htop', htop, hmem, hfilter⟩ := hd.exists_top arrival.node
  obtain ⟨before, after, horder⟩ := List.append_of_mem hmem
  have hlength' := hd.before.length_preOrder_le top
  have hlength := hd.after.length_preOrder_le top
  rw [← hfilter, horder, List.filter_append, List.length_append] at hlength
  rw [horder, List.length_append] at hlength'
  have hentered := h.foldl_enter hd (t'.ancestors arrival.node)
  rw [hd.ancestors_filter hid] at hentered
  have hwalk : Matches (Alike t' x t) (StackHeights.walkUpTo (Context.ofTree t' r) t'.size _
        (arrival.node :: after).head? arrival.height) (StackHeights.walkUpTo (Context.ofTree t r) t.size _
          ((arrival.node :: after).filter fun y => y ≠ x).head? arrival.height) :=
    hentered.walkUpTo hd htop' htop hfilter horder (by omega) (by omega)
  rwa [List.filter_cons_of_pos (by simpa using hid)] at hwalk

/-- Walks from the same arrivals end alike, however many there have been. -/
theorem Alike.walkAllUpTo (h : Alike t' x t s' s) (limit walks' walks : Nat) {waiting : List Arrival}
    (hwaiting : ∀ arrival ∈ waiting, arrival.node ≠ x) :
    Matches (fun out' out => Alike t' x t out'.1 out.1)
      (StackHeights.walkAllUpTo (Context.ofTree t' r) limit walks' s' waiting)
      (StackHeights.walkAllUpTo (Context.ofTree t r) limit walks s waiting) := by
  induction limit generalizing s' s walks' walks waiting with
  | zero => exact .ok h
  | succ limit ih =>
    cases waiting with
    | nil => exact .ok h
    | cons arrival waiting =>
      rw [List.forall_mem_cons] at hwaiting
      rw [walkAllUpTo_cons, walkAllUpTo_cons]
      apply (h.walk hd hwaiting.1).bind
      intro now' now hnow
      rw [hnow.found]
      apply ih hnow.collect
      intro arrival hmem
      rw [List.mem_append, List.mem_reverse] at hmem
      exact hmem.elim (hwaiting.2 arrival) (hnow.elsewhere arrival)

end Dissolved

/-! ## Whole analyses -/

theorem Alike.start (hd : t'.DissolvesPlain x t) : Alike t' x t (.start t') (.start t) := by
  refine ⟨Array.size_replicate, Array.size_replicate, ?_, ?_, rfl, ?_, rfl⟩
  · intro id
    rw [entry_start, entry_start]
  · intro id hid
    by_cases hexists : id.index < t.size
    · rw [isEntered_start hexists, isEntered_start ((hd.exists_iff hid).mp hexists)]
    · have hexists' : ¬ id.index < t'.size := fun hlt => hexists ((hd.exists_iff hid).mpr hlt)
      simp [State.isEntered, State.start, Array.getD_eq_getD_getElem?, hexists, hexists']
  · exact fun _ hmem => absurd hmem List.not_mem_nil

/-- An analysis walks from the start of the body, if there is one, and then from what it has found. -/
theorem walkAllUpTo_start (wf : t.WellFormed) (r : Resolver) (limit : Nat) :
    Matches (fun out out' => out.1 = out'.1)
      (walkAllUpTo (Context.ofTree t r) (limit + 1) 0 (.start t) (standing (t.firstChild? Tree.root) 0))
      (walkUpTo (Context.ofTree t r) t.size (.start t) (t.firstChild? Tree.root) 0 >>= fun s =>
        walkAllUpTo (Context.ofTree t r) limit 1 { s with found := [] } s.found.reverse) := by
  cases hfirst : t.firstChild? Tree.root with
  | none =>
    rw [walkUpTo_none, ok_bind]
    cases limit <;> exact .ok rfl
  | some child =>
    have hparent : t.parent? child = some Tree.root :=
      (wf.parent_iff child Tree.root).mpr (List.mem_of_mem_head? hfirst)
    have henter : (State.start t).enter t Tree.root = .start t := by
      rw [State.enter, wf.root_kind]
    have hwalk : walk (Context.ofTree t r) (.start t) ⟨child, 0⟩ =
        walkUpTo (Context.ofTree t r) t.size (.start t) (some child) 0 := by
      unfold walk
      dsimp only
      rw [show (Context.ofTree t r).tree = t from rfl, wf.ancestors_of_parent hparent,
        wf.ancestors_of_no_parent wf.root_parent, List.foldl_cons, List.foldl_nil, henter]
    rw [standing, Option.toList_some, List.map_singleton, walkAllUpTo_cons, hwalk]
    exact (Matches.refl _).imp fun _ _ heq => congrArg Prod.fst heq

theorem weight_start_eq (t : Tree) (id : NodeId) :
    weight t (.start t) id = ((t.payload? id).map fullWeight).getD 0 := by
  cases hcontent : t.content? id with
  | none => simp [weight, Tree.payload?, hcontent]
  | some content =>
    rw [weight_start hcontent, Tree.payload?, hcontent]
    cases content with
    | block kind => cases kind <;> rfl
    | _ => rfl

/-- What nodes may cause that do not exist is nothing. -/
theorem totalWeight_start_eq (t : Tree) {count : Nat} (hcount : t.size ≤ count) :
    totalWeight t (.start t) =
      ∑ index ∈ Finset.range count, ((t.payload? ⟨index⟩).map fullWeight).getD 0 := by
  simp only [totalWeight, weight_start_eq]
  apply Finset.sum_subset (Finset.range_subset_range.mpr hcount)
  intro index _ hmissing
  have hnone : t.content? ⟨index⟩ = none := by
    rwa [Finset.mem_range, ← t.isSome_content?_iff ⟨index⟩, Option.not_isSome_iff_eq_none] at hmissing
  rw [Tree.payload?, hnone]
  rfl

theorem walkLimit_congr (hd : t'.DissolvesPlain x t) : walkLimit t' = walkLimit t := by
  rw [walkLimit_eq, walkLimit_eq, totalWeight_start_eq t' (Nat.le_max_left t'.size t.size),
    totalWeight_start_eq t (Nat.le_max_right t'.size t.size)]
  congr 1
  apply Finset.sum_congr rfl
  intro index _
  by_cases hid : (⟨index⟩ : NodeId) = x
  · rw [hid, Tree.payload?_eq_some_block.mpr hd.plain, Tree.payload?]
    cases hd.leftover with
    | inl hgone => rw [hgone]; rfl
    | inr hempty => rw [hempty]; rfl
  · rw [hd.payload _ hid]

/-- What an analysis tells: the stack size, and the height with which each node is entered. -/
def reading (heights : StackHeights) : UInt16 × (NodeId → Option Int) :=
  (heights.maxStack, heights.heightAt)

theorem ofTree_map_reading (t : Tree) (r : Resolver) :
    (ofTree t r).map reading =
      (walkAllUpTo (Context.ofTree t r) (walkLimit t) 0 (.start t)
        (standing (t.firstChild? Tree.root) 0)).map fun out =>
          (UInt16.ofNat out.1.highest.toNat, out.1.entry) := by
  unfold ofTree standing
  dsimp only
  cases walkAllUpTo (Context.ofTree t r) (walkLimit t) 0 (.start t)
    ((t.firstChild? Tree.root).toList.map fun id => ⟨id, 0⟩) <;> rfl

/-- The first child of the root is the second node of the flat order of the body. -/
theorem firstChild?_root (wf : t.WellFormed) {rest : List NodeId}
    (h : t.preOrder Tree.root = Tree.root :: rest) : t.firstChild? Tree.root = rest.head? := by
  have horder : t.preOrder Tree.root = [] ++ Tree.root :: rest := h
  rw [← wf.nextInOrder?_eq_head? wf.root_parent horder, Tree.nextInOrder?]
  cases t.firstChild? Tree.root with
  | none => exact (wf.successor?_of_no_parent wf.root_parent).symm
  | some child => rfl

/-- The walks from the start of the body end alike. -/
theorem Alike.walkStart (hd : t'.DissolvesPlain x t) (r : Resolver) :
    Matches (Alike t' x t)
      (StackHeights.walkUpTo (Context.ofTree t' r) t'.size (.start t') (t'.firstChild? Tree.root) 0)
      (StackHeights.walkUpTo (Context.ofTree t r) t.size (.start t) (t.firstChild? Tree.root) 0) := by
  obtain ⟨rest, horder'⟩ : ∃ rest, t'.preOrder Tree.root = Tree.root :: rest :=
    ⟨_, hd.before.preOrder_eq Tree.root⟩
  have horder : t.preOrder Tree.root = Tree.root :: rest.filter fun y => y ≠ x := by
    rw [← hd.preOrder_root, horder', List.filter_cons_of_pos (by simpa using Ne.symm hd.ne_root)]
  have hlength' := hd.before.length_preOrder_le Tree.root
  have hlength := hd.after.length_preOrder_le Tree.root
  rw [horder', List.length_cons] at hlength'
  rw [horder, List.length_cons] at hlength
  have hsplit : t'.preOrder Tree.root = [Tree.root] ++ rest := horder'
  rw [firstChild?_root hd.before horder', firstChild?_root hd.after horder]
  exact (Alike.start hd).walkUpTo hd hd.before.root_parent hd.after.root_parent hd.preOrder_root
    hsplit (by omega) (by omega)

/-- An analysis tells the same with the plain block and without it. -/
theorem ofTree_congr (hd : t'.DissolvesPlain x t) (r : Resolver) :
    (ofTree t' r).map reading = (ofTree t r).map reading := by
  have hlimit := walkLimit_congr hd
  obtain ⟨limit, hsucc⟩ : ∃ fewer, walkLimit t = fewer + 1 :=
    ⟨walkLimit t - 1, by rw [walkLimit_eq]; omega⟩
  have hview : ∀ out out' : State × Nat, out.1 = out'.1 →
      (UInt16.ofNat out.1.highest.toNat, out.1.entry) =
        (UInt16.ofNat out'.1.highest.toNat, out'.1.entry) := by
    intro out out' heq
    rw [heq]
  rw [ofTree_map_reading, ofTree_map_reading, hlimit, hsucc,
    (walkAllUpTo_start hd.before r limit).map_eq hview,
    (walkAllUpTo_start hd.after r limit).map_eq hview]
  apply Matches.map_eq (R := fun out' out => Alike t' x t out'.1 out.1)
  · apply (Alike.walkStart hd r).bind
    intro now' now hnow
    rw [hnow.found]
    exact hnow.collect.walkAllUpTo hd limit 1 1 fun arrival hmem =>
      hnow.elsewhere arrival (List.mem_reverse.mp hmem)
  · intro out' out hout
    rw [hout.highest, funext hout.entry]

end StackHeights

/-! ## What tells trees apart -/

namespace Tree

open StackHeights (guardedPop)

variable {t t' : Tree}

/-- The code of two trees is the same: they have the same instructions, and the same labels, which lead
to the same instructions; they become the same body or give the same fault; and every analysis of the
stack tells the same of both or stops with the same fault. -/
structure SameCode (t t' : Tree) : Prop where
  instructions : t'.instructions = t.instructions
  isLabel : ∀ id, t'.isLabel id = t.isLabel id
  labelTarget : ∀ id, t.isLabel id = true → t'.labelTarget? id = t.labelTarget? id
  toBody : t'.toBody = t.toBody
  heights : ∀ r, (StackHeights.ofTree t' r).map StackHeights.reading =
    (StackHeights.ofTree t r).map StackHeights.reading

theorem SameCode.refl (t : Tree) : t.SameCode t :=
  ⟨rfl, fun _ => rfl, fun _ _ => rfl, rfl, fun _ => rfl⟩

theorem SameCode.symm (h : t.SameCode t') : t'.SameCode t where
  instructions := h.instructions.symm
  isLabel id := (h.isLabel id).symm
  labelTarget id hlabel := (h.labelTarget id (by rwa [← h.isLabel])).symm
  toBody := h.toBody.symm
  heights r := (h.heights r).symm

/-- A plain block tells nothing. -/
theorem DissolvesPlain.sameCode {x : NodeId} (h : t'.DissolvesPlain x t) : t'.SameCode t where
  instructions := h.instructions
  isLabel := h.isLabel
  labelTarget id hlabel := (h.labelTarget (h.ne_of_isLabel (by rwa [h.isLabel]))).symm
  toBody := h.toBody_eq
  heights r := (StackHeights.ofTree_congr h r).symm

/-- Whoever groups nodes in a plain block, or takes a plain block off, leaves the code the same.  And a
block of any kind that a group call has just put around nodes comes off again, with every node linked as
it was. -/
theorem Reachable.plain_groups_tell_nothing (h : t.Reachable) :
    (∀ start stop block t', t.group start stop .plain = .ok (block, t') → t.SameCode t') ∧
      (∀ block t', t.blockKind? block = some .plain → t.ungroup block = .ok t' → t.SameCode t') ∧
        ∀ start stop kind block t', t.group start stop kind = .ok (block, t') → t.size ≤ block.index →
          ∃ restored, t'.ungroup block = .ok restored ∧ restored.links = t.links := by
  refine ⟨?_, ?_, ?_⟩
  · intro start stop block t' hgroup
    cases h.dissolvesPlain_group hgroup with
    | inl hsame => exact hsame ▸ SameCode.refl t
    | inr hdissolves => exact hdissolves.sameCode.symm
  · intro block t' hplain hungroup
    exact (h.dissolvesPlain_ungroup hplain hungroup).sameCode
  · intro start stop kind block t' hgroup hnew
    exact h.wellFormed.ungroup_group hgroup hnew

/-- The number and its `pop` in `guardedPop` are put into a plain block, which comes off again. -/
theorem guardedPop_regrouped : ∃ t block t' restored, ofBody guardedPop = .ok t ∧
    t.group (instructionNode 0) (instructionNode 1) .plain = .ok (block, t') ∧ t.size ≤ block.index ∧
      t.SameCode t' ∧ t'.toBody = .ok guardedPop ∧
        t'.ungroup block = .ok restored ∧ restored.links = t.links ∧ t'.SameCode restored := by
  have hrun : ((ofBody guardedPop).toOption.any fun t =>
      (t.group (instructionNode 0) (instructionNode 1) .plain).toOption.any fun made =>
        decide (t.size ≤ made.1.index) && made.2.blockKind? made.1 == some .plain &&
          t.toBody.toOption == some guardedPop) = true := by
    decide +kernel
  simp only [Option.any_eq_true, toOption_eq_some_iff, Bool.and_eq_true, decide_eq_true_eq,
    beq_iff_eq] at hrun
  obtain ⟨t, ht, ⟨block, t'⟩, hgroup, ⟨hnew, hplain⟩, hbody⟩ := hrun
  have hreachable : t.Reachable := .lifted ht
  obtain ⟨hgrouped, -, hrestored⟩ := hreachable.plain_groups_tell_nothing
  obtain ⟨-, hungrouped, -⟩ := (hreachable.group hgroup).plain_groups_tell_nothing
  have hsame := hgrouped _ _ _ _ hgroup
  obtain ⟨restored, hungroup, hlinks⟩ := hrestored _ _ _ _ _ hgroup hnew
  exact ⟨t, block, t', restored, ht, hgroup, hnew, hsame, hsame.toBody.trans hbody, hungroup, hlinks,
    hungrouped _ _ hplain hungroup⟩

end Tree

end MethodIL
