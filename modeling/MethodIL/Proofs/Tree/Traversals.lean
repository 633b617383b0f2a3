import Mathlib
import MethodIL.Proofs.Tree.FlatOrder
import MethodIL.Proofs.Tree.Chains
import MethodIL.Proofs.Lowering.Places
set_option autoImplicit false

/-!
# Steps back and searches

The steps backwards through a tree are told from the steps forwards: each undoes the other.  The steps
forwards never lead to one node from two, because every node stands once in the flat order of the one
tree of the forest that it belongs to.  So a search that goes backwards meets the flat order from its
end.
-/

namespace MethodIL

namespace Tree

variable {t : Tree}

namespace WellFormed

variable (wf : t.WellFormed)

include wf

/-! ## Trees of the forest -/

/-- A node lies below one top only. -/
theorem top_unique {top top' id : NodeId} (htop : t.parent? top = none)
    (htop' : t.parent? top' = none) (h : id ∈ t.preOrder top) (h' : id ∈ t.preOrder top') :
    top = top' := by
  have halone : ∀ {a b : NodeId}, t.parent? a = none → a ∈ t.preOrder b → a = b := by
    intro a b ha hmem
    cases wf.mem_preOrder_iff.mp hmem with
    | inl heq => exact heq
    | inr hbelow =>
      rw [wf.ancestors_of_no_parent ha] at hbelow
      exact absurd hbelow List.not_mem_nil
  cases wf.mem_preOrder_or_of_common h h' with
  | inl hmem => exact (halone htop' hmem).symm
  | inr hmem => exact halone htop hmem

/-- The walk along the flat order from the next node visits what is left of the tree. -/
theorem follows_rest {top id : NodeId} {before after : List NodeId} (htop : t.parent? top = none)
    (h : t.preOrder top = before ++ id :: after) :
    Follows t.nextInOrder? (t.nextInOrder? id) after := by
  obtain ⟨hchain, hlast⟩ := wf.isChain_preOrder top
  rw [wf.nextInOrder?_eq_head? htop h]
  rw [h] at hchain hlast
  apply Follows.of_isChain
  · exact (List.isChain_append.mp hchain).2.1.tail
  · intro last hl
    rw [hlast last (by rw [List.getLast?_append, List.getLast?_cons, hl]; rfl),
      wf.successor?_of_no_parent htop]

/-! ## Steps back -/

/-- The last node of a subtree in flat order is met by going down the last children. -/
theorem getLast?_preOrder (id : NodeId) : (t.preOrder id).getLast? = some (t.lastBelow id) := by
  have hdown : ∀ limit, t.size ≤ limit + t.depth id →
      (t.preOrder id).getLast? = some (t.lastBelowUpTo limit id) := by
    induction id using wf.induction_below with
    | step id ih =>
      intro limit hlimit
      rw [wf.preOrder_eq, List.getLast?_cons]
      cases hlast : t.lastChild? id with
      | none =>
        rw [lastChild?, List.getLast?_eq_none_iff] at hlast
        cases limit <;> simp [lastBelowUpTo, lastChild?, hlast]
      | some child =>
        obtain ⟨before, hchildren⟩ := List.getLast?_eq_some_iff.mp hlast
        have hchild : child ∈ t.children id := by simp [hchildren]
        have hparent := (wf.parent_iff child id).mpr hchild
        have hdepth := wf.depth_of_parent hparent
        have hexists := wf.depth_lt (wf.exists_of_parent hparent).2
        obtain ⟨limit, rfl⟩ : ∃ fewer, limit = fewer + 1 := ⟨limit - 1, by omega⟩
        rw [lastBelowUpTo, hlast, hchildren, List.flatMap_append, List.flatMap_singleton,
          List.getLast?_append, ih child hchild limit (by omega)]
        rfl
  exact hdown t.size (by omega)

/-- What stands behind the last node of a subtree stands behind the subtree. -/
theorem nextInOrder?_lastBelow (id : NodeId) :
    t.nextInOrder? (t.lastBelow id) = t.successor? id :=
  (wf.isChain_preOrder id).2 _ (wf.getLast?_preOrder id)

/-- A step back is undone by a step forwards. -/
theorem nextInOrder?_of_prevInOrder? {a b : NodeId} (h : t.prevInOrder? b = some a) :
    t.nextInOrder? a = some b := by
  cases hparent : t.parent? b with
  | none =>
    have hprev : t.prev? b = none := by
      rw [prev?, siblings, hparent]
      rfl
    rw [prevInOrder?, hprev, hparent] at h
    exact absurd h (by simp)
  | some p =>
    obtain ⟨before, after, hchildren⟩ :=
      List.append_of_mem ((wf.parent_iff b p).mp hparent)
    rw [prevInOrder?, wf.prev?_eq hchildren, hparent] at h
    cases hlast : before.getLast? with
    | none =>
      rw [hlast, Option.some.injEq] at h
      rw [List.getLast?_eq_none_iff.mp hlast, h] at hchildren
      rw [nextInOrder?, firstChild?, hchildren]
      rfl
    | some sibling =>
      rw [hlast, Option.some.injEq] at h
      obtain ⟨front, hfront⟩ := List.getLast?_eq_some_iff.mp hlast
      have hsplit : t.children p = front ++ sibling :: b :: after := by
        rw [hchildren, hfront]
        simp
      rw [← h, wf.nextInOrder?_lastBelow, wf.successor?_eq, wf.next?_eq hsplit]
      rfl

/-- No two nodes have the same next node. -/
theorem nextInOrder?_injective {a a' b : NodeId} (h : t.nextInOrder? a = some b)
    (h' : t.nextInOrder? a' = some b) : a = a' := by
  have hsplit : ∀ {x : NodeId}, t.nextInOrder? x = some b →
      ∃ top before after, t.parent? top = none ∧
        t.preOrder top = before ++ [x] ++ b :: after := by
    intro x hx
    obtain ⟨top, htop, hmem⟩ := wf.exists_top x
    obtain ⟨before, rest, horder⟩ := List.append_of_mem hmem
    rw [wf.nextInOrder?_eq_head? htop horder] at hx
    obtain ⟨after, hrest⟩ := List.head?_eq_some_iff.mp hx
    exact ⟨top, before, after, htop, by rw [horder, hrest]; simp⟩
  obtain ⟨top, before, after, htop, horder⟩ := hsplit h
  obtain ⟨top', before', after', htop', horder'⟩ := hsplit h'
  have hb : b ∈ t.preOrder top ∧ b ∈ t.preOrder top' := by simp [horder, horder']
  have hsame : top = top' := wf.top_unique htop htop' hb.1 hb.2
  have hnodup := wf.nodup_preOrder top
  rw [hsame, horder'] at horder
  rw [hsame, horder'] at hnodup
  have hbefore := (append_cons_inj_of_nodup hnodup horder).1
  simpa using (List.append_inj' hbefore rfl).2.symm

/-- A step forwards and a step back undo each other. -/
theorem nextInOrder?_eq_some_iff {a b : NodeId} :
    t.nextInOrder? a = some b ↔ t.prevInOrder? b = some a := by
  constructor
  · intro h
    cases hprev : t.prevInOrder? b with
    | some a' => rw [wf.nextInOrder?_injective h (wf.nextInOrder?_of_prevInOrder? hprev)]
    | none =>
      -- nothing stands in front of a top only, and a top is never the next node
      have hparent : t.parent? b = none := by
        rw [prevInOrder?] at hprev
        cases hsibling : t.prev? b with
        | none => rwa [hsibling] at hprev
        | some sibling =>
          rw [hsibling] at hprev
          exact absurd hprev (by simp)
      obtain ⟨top, htop, hmem⟩ := wf.exists_top a
      obtain ⟨before, rest, horder⟩ := List.append_of_mem hmem
      rw [wf.nextInOrder?_eq_head? htop horder] at h
      obtain ⟨after, hrest⟩ := List.head?_eq_some_iff.mp h
      rw [hrest] at horder
      have heq : b = top := wf.top_unique hparent htop (wf.self_mem_preOrder b) (by
        rw [horder]
        simp)
      have hnodup := wf.nodup_preOrder top
      rw [wf.preOrder_eq, ← List.nil_append (top :: _)] at hnodup
      have hfront : [] ++ top :: (t.children top).flatMap t.preOrder =
          (before ++ [a]) ++ top :: after := by
        rw [List.nil_append, ← wf.preOrder_eq, horder, heq]
        simp
      exact absurd (append_cons_inj_of_nodup hnodup hfront).1 (by simp)
  · intro h
    exact wf.nextInOrder?_of_prevInOrder? h

/-- In the flat order of any block, the previous node stands in front of a node. -/
theorem prevInOrder?_eq {block prev id : NodeId} {before after : List NodeId}
    (h : t.preOrder block = before ++ prev :: id :: after) : t.prevInOrder? id = some prev := by
  have hchain := (wf.isChain_preOrder block).1
  rw [h] at hchain
  have hstep := (List.isChain_append.mp hchain).2.1
  exact wf.nextInOrder?_eq_some_iff.mp (List.isChain_cons_cons.mp hstep).1

/-! ## Searching -/

/-- Behind what lies below a node stands the first of the following nodes that does not lie below it. -/
theorem successor?_eq_find? {top id : NodeId} {before after : List NodeId}
    (htop : t.parent? top = none) (h : t.preOrder top = before ++ (t.preOrder id ++ after)) :
    t.successor? id = (t.descendants id ++ after).find? fun x => !t.isBelow id x := by
  have hlast := wf.getLast?_preOrder id
  obtain ⟨front, hfront⟩ := List.getLast?_eq_some_iff.mp hlast
  have hsplit : t.preOrder top = (before ++ front) ++ t.lastBelow id :: after := by
    rw [h, hfront]
    simp
  have hbelow : ∀ x ∈ t.descendants id, ¬ (!t.isBelow id x) = true := by
    intro x hx
    have hmem : x ∈ t.preOrder id := List.mem_of_mem_tail hx
    have hnodup := wf.nodup_preOrder id
    rw [wf.preOrder_eq, ← wf.descendants_eq, List.nodup_cons] at hnodup
    have hne : x ≠ id := fun heq => hnodup.1 (heq ▸ hx)
    simpa [isBelow] using (wf.mem_preOrder_iff.mp hmem).resolve_left hne
  have hbehind : ∀ x ∈ after, (!t.isBelow id x) = true := by
    intro x hx
    have hnodup := wf.nodup_preOrder top
    rw [h, List.nodup_append, List.nodup_append] at hnodup
    rw [Bool.not_eq_true', ← Bool.not_eq_true]
    intro habove
    have hmem : x ∈ t.preOrder id := wf.mem_preOrder_iff.mpr (Or.inr (by simpa [isBelow] using habove))
    exact hnodup.2.1.2.2 x hmem x hx rfl
  rw [← wf.nextInOrder?_lastBelow, wf.nextInOrder?_eq_head? htop hsplit, List.find?_append,
    List.find?_eq_none.mpr hbelow, Option.none_or]
  cases after with
  | nil => rfl
  | cons next after => simp [hbehind next List.mem_cons_self]

theorem prevInstructionUpTo_eq {limit : Nat} {id : NodeId} {before after : List NodeId}
    (h : t.preOrder root = before ++ id :: after) (hlimit : before.length ≤ limit) :
    t.prevInstructionUpTo limit id = (before.filter t.isInstruction).getLast? := by
  induction limit generalizing id before after with
  | zero =>
    obtain rfl := List.eq_nil_of_length_eq_zero (Nat.le_zero.mp hlimit)
    rfl
  | succ limit ih =>
    rw [prevInstructionUpTo]
    cases hlast : before.getLast? with
    | none =>
      rw [List.getLast?_eq_none_iff] at hlast
      rw [hlast, List.nil_append, wf.preOrder_eq, List.cons.injEq] at h
      have hnone : t.prevInOrder? id = none := by
        rw [← h.1, prevInOrder?, prev?, siblings, wf.root_parent]
        rfl
      rw [hnone, hlast]
      rfl
    | some prev =>
      obtain ⟨front, rfl⟩ := List.getLast?_eq_some_iff.mp hlast
      have hsplit : t.preOrder root = front ++ prev :: id :: after := by
        rw [h]
        simp
      rw [List.length_append, List.length_singleton] at hlimit
      rw [wf.prevInOrder?_eq hsplit, List.filter_append]
      dsimp only
      cases hprev : t.isInstruction prev with
      | true => simp [hprev]
      | false => simp [hprev, ih hsplit (by omega)]

/-- The search back from a node below a block meets what stands in front of the node, from the end. -/
theorem findBackUpTo_eq {bound id : NodeId} {test : NodeId → Bool} {limit : Nat}
    {before after : List NodeId} (h : t.preOrder bound = bound :: (before ++ id :: after))
    (hlimit : before.length < limit) :
    t.findBackUpTo bound test limit id = ((before ++ [id]).filter test).getLast? := by
  induction limit generalizing id before after with
  | zero => exact absurd hlimit (Nat.not_lt_zero _)
  | succ limit ih =>
    have hnodup := wf.nodup_preOrder bound
    rw [h, List.nodup_cons] at hnodup
    have hne : id ≠ bound := fun heq => hnodup.1 (by simp [heq])
    rw [findBackUpTo, if_neg hne, List.filter_append]
    cases htest : test id with
    | true => simp [htest]
    | false =>
      cases hlast : before.getLast? with
      | none =>
        rw [List.getLast?_eq_none_iff] at hlast
        have hsplit : t.preOrder bound = [] ++ bound :: id :: after := by rw [h, hlast]; rfl
        rw [wf.prevInOrder?_eq hsplit]
        cases limit <;> simp [hlast, htest, findBackUpTo]
      | some prev =>
        obtain ⟨front, rfl⟩ := List.getLast?_eq_some_iff.mp hlast
        have hsplit : t.preOrder bound = (bound :: front) ++ prev :: id :: after := by
          rw [h]
          simp
        rw [List.length_append, List.length_singleton] at hlimit
        rw [wf.prevInOrder?_eq hsplit, Option.bind_some, ih hsplit (by omega)]
        simp [htest]

/-- The search from the end of a block finds the last node below it that passes the test. -/
theorem findLast?_eq (id : NodeId) (test : NodeId → Bool) :
    t.findLast? id test = ((t.descendants id).filter test).getLast? := by
  have hlast := wf.getLast?_preOrder id
  rw [wf.preOrder_eq, ← wf.descendants_eq, List.getLast?_cons, Option.some.injEq] at hlast
  rw [findLast?]
  cases hend : (t.descendants id).getLast? with
  | none =>
    rw [hend, Option.getD_none] at hlast
    rw [← hlast, findBackUpTo, if_pos rfl, List.getLast?_eq_none_iff.mp hend]
    rfl
  | some last =>
    rw [hend, Option.getD_some] at hlast
    obtain ⟨front, hfront⟩ := List.getLast?_eq_some_iff.mp hend
    have hsplit : t.preOrder id = id :: (front ++ last :: []) := by
      rw [wf.preOrder_eq, ← wf.descendants_eq, hfront]
    have hlength := wf.length_preOrder_le id
    rw [hsplit] at hlength
    simp only [List.length_cons, List.length_append] at hlength
    rw [← hlast, wf.findBackUpTo_eq hsplit (by omega), hfront]

end WellFormed

end Tree

end MethodIL
