import Mathlib
import MethodIL.Proofs.Tree.WellFormed
set_option autoImplicit false

/-!
# Steps along the flat order

The step to the next node follows the list that the flat order is: behind every node stands the
next one, and behind the last node of a subtree the node after the subtree.  So a walk along the
flat order from a node is the rest of the list from that node on.
-/

namespace MethodIL

/-! ## Neighbours in a list -/

theorem following?_append_cons {α : Type} [DecidableEq α] {a : α} {before after : List α}
    (h : a ∉ before) : following? a (before ++ a :: after) = after.head? := by
  induction before with
  | nil =>
    cases after with
    | nil => rfl
    | cons b after => simp [following?]
  | cons x before ih =>
    rw [List.mem_cons, not_or] at h
    obtain ⟨y, rest, hrest⟩ : ∃ y rest, before ++ a :: after = y :: rest := by
      cases before with
      | nil => exact ⟨a, after, rfl⟩
      | cons y before => exact ⟨y, before ++ a :: after, rfl⟩
    rw [List.cons_append, hrest, following?, if_neg (Ne.symm h.1), ← hrest, ih h.2]

theorem mem_of_following? {α : Type} [DecidableEq α] {a b : α} {items : List α}
    (h : following? a items = some b) : b ∈ items := by
  induction items with
  | nil => exact absurd h (by simp [following?])
  | cons x items ih =>
    cases items with
    | nil => exact absurd h (by simp [following?])
    | cons y items =>
      rw [following?] at h
      split at h
      · simp_all
      · exact List.mem_cons_of_mem x (ih h)

theorem preceding?_eq_none {α : Type} [DecidableEq α] {a x : α} {items : List α}
    (h : a ∉ items) : preceding? a (x :: items) = none := by
  induction items generalizing x with
  | nil => rfl
  | cons y items ih =>
    rw [List.mem_cons, not_or] at h
    rw [preceding?, if_neg (Ne.symm h.1), ih h.2]

theorem preceding?_append_cons {α : Type} [DecidableEq α] {a : α} {before after : List α}
    (hbefore : a ∉ before) (hafter : a ∉ after) :
    preceding? a (before ++ a :: after) = before.getLast? := by
  induction before with
  | nil => exact preceding?_eq_none hafter
  | cons x before ih =>
    rw [List.mem_cons, not_or] at hbefore
    cases before with
    | nil => simp [preceding?]
    | cons y before =>
      have hne : y ≠ a := fun heq => hbefore.2 (by simp [heq])
      rw [List.cons_append, List.cons_append, preceding?, if_neg hne, ← List.cons_append,
        ih hbefore.2, List.getLast?_cons_cons]

namespace Tree

/-- A step along the flat order: to the first child, or, from a node without children, to what `leave`
says that it is left for. -/
def stepInto (t : Tree) (leave : NodeId → Option NodeId) (id : NodeId) : Option NodeId :=
  match t.firstChild? id with
  | some child => some child
  | none => leave id

namespace WellFormed

variable {t : Tree} (wf : t.WellFormed)

include wf

/-! ## Siblings -/

/-- The next sibling stands behind a node in the list of its block. -/
theorem next?_eq {p c : NodeId} {before after : List NodeId}
    (h : t.children p = before ++ c :: after) : t.next? c = after.head? := by
  have hmem : c ∈ t.children p := by simp [h]
  rw [next?, siblings, (wf.parent_iff c p).mpr hmem]
  simp only [h, following?_append_cons (wf.notMem_before h)]

/-- The previous sibling stands in front of a node in the list of its block. -/
theorem prev?_eq {p c : NodeId} {before after : List NodeId}
    (h : t.children p = before ++ c :: after) : t.prev? c = before.getLast? := by
  have hmem : c ∈ t.children p := by simp [h]
  obtain ⟨hbefore, hafter⟩ := wf.notMem_around h
  rw [prev?, siblings, (wf.parent_iff c p).mpr hmem]
  simp only [h, preceding?_append_cons hbefore hafter]

omit wf in
theorem next?_of_no_parent {id : NodeId} (h : t.parent? id = none) : t.next? id = none := by
  rw [next?, siblings, h]
  rfl

/-! ## Steps over a subtree -/

/-- The node after a subtree is the next sibling, or the node after the block around it. -/
theorem successor?_eq (id : NodeId) :
    t.successor? id = match t.next? id with
      | some next => some next
      | none => (t.parent? id).bind t.successor? := by
  rw [successor?, List.findSome?_cons]
  cases t.next? id with
  | some next => rfl
  | none =>
    cases hparent : t.parent? id with
    | none => rw [wf.ancestors_of_no_parent hparent]; rfl
    | some p => rw [wf.ancestors_of_parent hparent]; rfl

theorem successor?_of_no_parent {id : NodeId} (h : t.parent? id = none) :
    t.successor? id = none := by
  rw [wf.successor?_eq, next?_of_no_parent h, h]
  rfl

/-- Behind the last node of a subtree stands what the subtree is left for, and behind every other node
the next of the list.  This holds for every way to leave nodes that leaves the children of a block for
their next siblings and the last of them for what the block is left for. -/
theorem isChain_preOrder_of {leave : NodeId → Option NodeId} {bound : NodeId}
    (hleave : ∀ c p, t.parent? c = some p → p ∈ t.preOrder bound →
      leave c = (t.next? c).or (leave p)) {id : NodeId} (hid : id ∈ t.preOrder bound) :
    (t.preOrder id).IsChain (fun a b => t.stepInto leave a = some b) ∧
      ∀ last, (t.preOrder id).getLast? = some last → t.stepInto leave last = leave id := by
  induction id using wf.induction_below with
  | step id ih =>
    -- the same for the subtrees of the last children of the block
    have hrest : ∀ before rest : List NodeId, t.children id = before ++ rest → rest ≠ [] →
        (rest.flatMap t.preOrder).IsChain (fun a b => t.stepInto leave a = some b) ∧
          ∀ last, (rest.flatMap t.preOrder).getLast? = some last →
            t.stepInto leave last = leave id := by
      intro before rest
      induction rest generalizing before with
      | nil => intro _ hne; exact absurd rfl hne
      | cons c rest ihRest =>
        intro hchildren _
        have hmem : c ∈ t.children id := by simp [hchildren]
        have hnext := wf.next?_eq hchildren
        have hparent := (wf.parent_iff c id).mpr hmem
        have hbelow : c ∈ t.preOrder bound := by
          refine wf.preOrder_subset_of_mem hid c (wf.mem_preOrder_iff.mpr (Or.inr ?_))
          rw [wf.ancestors_of_parent hparent]
          exact List.mem_cons_self
        obtain ⟨hchain, hlast⟩ := ih c hmem hbelow
        have hleft := hleave c id hparent hid
        rw [hnext] at hleft
        cases rest with
        | nil =>
          rw [List.flatMap_cons, List.flatMap_nil, List.append_nil]
          exact ⟨hchain, fun last hl => (hlast last hl).trans hleft⟩
        | cons d rest =>
          obtain ⟨hchain', hlast'⟩ := ihRest (before ++ [c]) (by simp [hchildren]) (by simp)
          rw [List.flatMap_cons]
          refine ⟨?_, ?_⟩
          · rw [List.isChain_append]
            refine ⟨hchain, hchain', fun last hl first hf => ?_⟩
            rw [List.flatMap_cons, wf.preOrder_eq d] at hf
            obtain rfl : d = first := by simpa using hf
            rw [hlast last hl, hleft]
            rfl
          · intro last hl
            rw [List.getLast?_append] at hl
            refine hlast' last ?_
            cases hcase : ((d :: rest).flatMap t.preOrder).getLast? with
            | some x =>
              rw [hcase] at hl
              simpa using hl
            | none =>
              rw [List.getLast?_eq_none_iff, List.flatMap_cons, wf.preOrder_eq d] at hcase
              simp at hcase
    rw [wf.preOrder_eq id]
    cases hchildren : t.children id with
    | nil =>
      refine ⟨by simp, fun last hl => ?_⟩
      obtain rfl : id = last := by simpa using hl
      rw [stepInto, firstChild?, hchildren]
      rfl
    | cons c rest =>
      obtain ⟨hchain, hlast⟩ := hrest [] (c :: rest) hchildren (by simp)
      have hfirst : t.stepInto leave id = some c := by
        rw [stepInto, firstChild?, hchildren]
        rfl
      rw [List.flatMap_cons, wf.preOrder_eq c] at hchain hlast ⊢
      refine ⟨List.IsChain.cons_cons hfirst hchain, fun last hl => hlast last ?_⟩
      simpa using hl

/-- Behind the last node of a subtree stands the node after the subtree, and behind every other
node the next of the list. -/
theorem isChain_preOrder (id : NodeId) :
    (t.preOrder id).IsChain (fun a b => t.nextInOrder? a = some b) ∧
      ∀ last, (t.preOrder id).getLast? = some last → t.nextInOrder? last = t.successor? id := by
  have hleave : ∀ c p, t.parent? c = some p → p ∈ t.preOrder id →
      t.successor? c = (t.next? c).or (t.successor? p) := by
    intro c p hparent _
    rw [wf.successor?_eq c, hparent]
    cases t.next? c <;> rfl
  exact wf.isChain_preOrder_of hleave (wf.self_mem_preOrder id)

/-- Over a whole tree of the forest, the flat order lists each node behind the one before, and ends
where there is no next node. -/
theorem nextInOrder?_eq_head? {top id : NodeId} {before after : List NodeId}
    (htop : t.parent? top = none) (h : t.preOrder top = before ++ id :: after) :
    t.nextInOrder? id = after.head? := by
  obtain ⟨hchain, hlast⟩ := wf.isChain_preOrder top
  rw [h] at hchain hlast
  cases after with
  | nil =>
    rw [hlast id (by simp), wf.successor?_of_no_parent htop]
    rfl
  | cons next after =>
    have hstep := (List.isChain_append.mp hchain).2.1
    exact (List.isChain_cons_cons.mp hstep).1

omit wf in
/-- A node without children is left where a step along the flat order leads. -/
theorem successor?_eq_nextInOrder? {id : NodeId} (h : t.children id = []) :
    t.successor? id = t.nextInOrder? id := by
  rw [nextInOrder?, firstChild?, h]
  rfl

/-- Every node lies in the tree below a node that no block holds. -/
theorem exists_top (id : NodeId) : ∃ top, t.parent? top = none ∧ id ∈ t.preOrder top := by
  induction id using wf.induction_above with
  | step id ih =>
    cases hparent : t.parent? id with
    | none => exact ⟨id, hparent, wf.self_mem_preOrder id⟩
    | some p =>
      obtain ⟨top, htop, hmem⟩ := ih p hparent
      refine ⟨top, htop, wf.preOrder_subset_of_mem hmem id (wf.mem_preOrder_iff.mpr (Or.inr ?_))⟩
      rw [wf.ancestors_of_parent hparent]
      exact List.mem_cons_self

/-- Existing nodes have nothing but existing nodes below them. -/
theorem exists_of_mem_preOrder {block id : NodeId} (hblock : block.index < t.size)
    (h : id ∈ t.preOrder block) : id.index < t.size := by
  rcases wf.mem_preOrder_iff.mp h with rfl | hbelow
  · exact hblock
  · cases hparent : t.parent? id with
    | none => simp [wf.ancestors_of_no_parent hparent] at hbelow
    | some p => exact (wf.exists_of_parent hparent).1

/-- A flat order is no longer than there are nodes. -/
theorem length_preOrder_le (id : NodeId) : (t.preOrder id).length ≤ t.size := by
  by_cases hid : id.index < t.size
  · have hnodup : ((t.preOrder id).map NodeId.index).Nodup := by
      refine (wf.nodup_preOrder id).map fun a b hab => ?_
      cases a
      cases b
      exact congrArg _ hab
    have hsub : ((t.preOrder id).map NodeId.index) ⊆ List.range t.size := by
      intro index hindex
      obtain ⟨a, ha, rfl⟩ := List.mem_map.mp hindex
      exact List.mem_range.mpr (wf.exists_of_mem_preOrder hid ha)
    simpa using (hnodup.subperm hsub).length_le
  · -- a node that does not exist stands alone
    have hchildren : t.children id = [] := by
      rw [children_eq, content?, (node?_eq_none_iff t id).mpr (Nat.le_of_not_lt hid)]
      rfl
    rw [wf.preOrder_eq, hchildren]
    exact wf.root_exists

/-- What lies strictly below a node is listed behind it. -/
theorem mem_descendants_iff {id x : NodeId} : x ∈ t.descendants id ↔ t.isBelow id x = true := by
  have hnodup := wf.nodup_preOrder id
  have hmem : x ∈ t.preOrder id ↔ x = id ∨ id ∈ t.ancestors x := wf.mem_preOrder_iff
  rw [wf.preOrder_eq, ← wf.descendants_eq] at hnodup hmem
  rw [List.nodup_cons] at hnodup
  rw [List.mem_cons] at hmem
  have hself : id ∉ t.ancestors id := fun habove =>
    Nat.lt_irrefl _ (wf.depth_lt_of_mem_ancestors habove)
  rw [isBelow, List.contains_iff_mem]
  constructor
  · intro hx
    have hne : x ≠ id := fun heq => hnodup.1 (heq ▸ hx)
    exact (hmem.mp (Or.inr hx)).resolve_left hne
  · intro hx
    have hne : x ≠ id := fun heq => hself (heq ▸ hx)
    exact (hmem.mpr (Or.inr hx)).resolve_left hne

/-- A subtree is told by the children of the nodes in it. -/
theorem preOrder_congr {t' : Tree} (wf' : t'.WellFormed) {id : NodeId}
    (h : ∀ x ∈ t.preOrder id, t'.children x = t.children x) : t'.preOrder id = t.preOrder id := by
  induction id using wf.induction_below with
  | step id ih =>
    rw [wf'.preOrder_eq, wf.preOrder_eq, h id (wf.self_mem_preOrder id)]
    congr 1
    apply List.flatMap_congr
    intro child hchild
    apply ih child hchild
    intro x hx
    apply h
    rw [wf.preOrder_eq]
    exact List.mem_cons_of_mem id (List.mem_flatMap.mpr ⟨child, hchild, hx⟩)

end WellFormed

end Tree

end MethodIL
