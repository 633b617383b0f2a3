import Mathlib
import MethodIL.Proofs.Tree.Landing
import MethodIL.Proofs.Tree.Links
import MethodIL.Proofs.Tree.RegionRemoval
set_option autoImplicit false

/-!
# Grouping and ungrouping

A block that is put around a run comes off again, and then every node is linked as before.  A plain
block may come off at any time: no other node mentions it, so what it held loses a block from among
those around it and nothing else, and every label leads where it led.
-/

namespace MethodIL

open Outcome

namespace Tree

variable {t t' : Tree}

/-! ## The places of the nodes -/

namespace Dissolves

variable {x : NodeId} (h : t'.Dissolves x t)

include h

/-- The post-order of every other node loses the dissolved node and nothing else. -/
theorem postOrder_filter (id : NodeId) :
    (t'.postOrder id).filter (fun y => y ≠ x) =
      if id = x then (t'.children x).flatMap t.postOrder else t.postOrder id := by
  induction id using h.before.induction_below with
  | step id ih =>
    rw [h.before.postOrder_eq id, List.filter_append, List.filter_flatMap]
    by_cases hid : id = x
    · subst hid
      rw [if_pos rfl, List.filter_cons_of_neg (by simp), List.filter_nil, List.append_nil]
      apply List.flatMap_congr
      intro child hchild
      rw [ih child hchild, if_neg (h.before.ne_of_parent ((h.before.parent_iff child id).mpr hchild))]
    · rw [if_neg hid, List.filter_cons_of_pos (by simpa using hid), List.filter_nil,
        h.after.postOrder_eq id, h.children id hid, List.flatMap_assoc]
      congr 1
      apply List.flatMap_congr
      intro child hchild
      rw [ih child hchild]
      split
      · rfl
      · simp

theorem postOrder_root : (t'.postOrder root).filter (fun y => y ≠ x) = t.postOrder root := by
  rw [h.postOrder_filter, if_neg (Ne.symm h.ne_root)]

/-- A block that is not the dissolved one holds what it held, and what the dissolved one held if it
held that one. -/
theorem mem_children_iff {id p : NodeId} (hid : id ≠ x) (hp : p ≠ x) :
    id ∈ t.children p ↔
      t'.parent? id = some p ∨ t'.parent? id = some x ∧ t'.parent? x = some p := by
  rw [h.children p hp, List.mem_flatMap, h.before.parent_iff, h.before.parent_iff,
    h.before.parent_iff]
  constructor
  · intro hmem
    obtain ⟨child, hchild, hin⟩ := hmem
    split at hin
    case isTrue heq => exact Or.inr ⟨hin, heq ▸ hchild⟩
    case isFalse => exact Or.inl (List.mem_singleton.mp hin ▸ hchild)
  · intro hheld
    cases hheld with
    | inl hown => exact ⟨id, hown, by rw [if_neg hid]; exact List.mem_singleton_self id⟩
    | inr hinner => exact ⟨x, hinner.2, by rw [if_pos rfl]; exact hinner.1⟩

/-- What the dissolved node held is held by the block that held it. -/
theorem parent?_eq (hhollow : t.children x = []) {id : NodeId} (hid : id ≠ x) :
    t.parent? id = if t'.parent? id = some x then t'.parent? x else t'.parent? id := by
  apply Option.ext
  intro p
  rw [h.after.parent_iff]
  by_cases hp : p = x
  · rw [hp, hhollow]
    split
    case isTrue =>
      constructor
      · intro hmem
        exact absurd hmem List.not_mem_nil
      · intro hself
        exact absurd rfl (h.before.ne_of_parent hself)
    case isFalse hother => exact iff_of_false List.not_mem_nil hother
  · rw [h.mem_children_iff hid hp]
    split
    case isTrue hinner => simp [hinner, Ne.symm hp]
    case isFalse hother => simp [hother]

/-- There is one way to dissolve a node. -/
theorem links_unique {t₂ : Tree} (h₂ : t'.Dissolves x t₂) (hhollow : t.children x = [])
    (hhollow₂ : t₂.children x = []) : t₂.links = t.links := by
  have hchildren : ∀ id, t₂.children id = t.children id := by
    intro id
    by_cases hid : id = x
    · rw [hid, hhollow, hhollow₂]
    · rw [h.children id hid, h₂.children id hid]
  apply links_congr _ hchildren
  intro id
  apply Option.ext
  intro p
  rw [h₂.after.parent_iff, h.after.parent_iff, hchildren]

end Dissolves

/-! ## Taking a block off again -/

theorem WellFormed.children_splice_self (wf : t.WellFormed) {parent block : NodeId}
    (h : t.parent? block = some parent) (hblock : (t.blockKind? block).isSome) :
    (t.splice parent block).children block = [] := by
  rw [wf.children_splice h hblock, if_neg (wf.ne_of_parent h), if_pos rfl]

/-- What a group call answers is a block that was there, with nothing changed, or a new one around a
run of children. -/
theorem exists_enclose_of_group {start stop block : NodeId} {kind : BlockKind}
    (h : t.group start stop kind = .ok (block, t')) :
    t' = t ∧ block.index < t.size ∨
      block = ⟨t.size⟩ ∧ kind.isLinked = false ∧ ∃ parent before run after,
        t.children parent = before ++ run ++ after ∧ run ≠ [] ∧
          t' = (t.enclose parent before run after kind).2 := by
  obtain ⟨isNew, hwraps⟩ := wraps_of_group h
  cases hwraps with
  | reused _ _ _ hkind _ =>
    exact Or.inl ⟨rfl, index_lt_of_blockKind? hkind⟩
  | enclosed _ _ hsplit _ hlinks =>
    obtain ⟨hchildren, hfirst, -⟩ := splitRun?_eq_some hsplit
    refine Or.inr ⟨rfl, hlinks, _, _, _, _, hchildren, ?_, rfl⟩
    intro hnil
    rw [hnil] at hfirst
    exact absurd hfirst (by simp)

theorem blockKind?_enclose_self {parent : NodeId} {before run after : List NodeId} {kind : BlockKind} :
    (t.enclose parent before run after kind).2.blockKind? ⟨t.size⟩ = some kind := by
  rw [← payload?_eq_some_block, payload?_enclose, if_pos rfl]

/-- A block that was just put around a run comes off, and every node is linked as before. -/
theorem WellFormed.ungroup_group (wf : t.WellFormed) {start stop block : NodeId} {kind : BlockKind}
    (hgroup : t.group start stop kind = .ok (block, t')) (hnew : t.size ≤ block.index) :
    ∃ restored, t'.ungroup block = .ok restored ∧ restored.links = t.links := by
  cases exists_enclose_of_group hgroup with
  | inl hreused => exact absurd hreused.2 (Nat.not_lt_of_le hnew)
  | inr henclosed =>
    obtain ⟨rfl, hlinks, parent, before, run, after, hchildren, hrun, rfl⟩ := henclosed
    have wf' : (t.enclose parent before run after kind).2.WellFormed := wf.enclose hchildren hrun
    have hparent : (t.enclose parent before run after kind).2.parent? ⟨t.size⟩ = some parent := by
      rw [wf.parent?_enclose hchildren, if_pos rfl]
    have hblock : ((t.enclose parent before run after kind).2.blockKind? ⟨t.size⟩).isSome := by
      rw [blockKind?_enclose_self]
      rfl
    refine ⟨_, ungroup_eq_ok_iff.mpr
      ⟨wf.size_ne_root, kind, parent, blockKind?_enclose_self, hlinks, hparent, rfl⟩, ?_⟩
    exact (wf.dissolves_enclose kind hchildren hrun).links_unique
      (wf'.dissolves_splice hparent hblock) (children_size t) (wf'.children_splice_self hparent hblock)

/-! ## Plain blocks -/

theorem content?_eq_payload? (t : Tree) (id : NodeId) :
    t.content? id = (t.payload? id).map (Content.mapChildren fun _ => t.children id) := by
  rw [payload?, t.children_eq]
  cases t.content? id with
  | none => rfl
  | some content => cases content <;> rfl

/-- The tree `t` is the tree `t'` with the plain block `x` taken off what it held.  The block was held
itself, and no other node mentions it. -/
structure DissolvesPlain (t' : Tree) (x : NodeId) (t : Tree) : Prop extends t'.Dissolves x t where
  plain : t'.blockKind? x = some .plain
  held : (t'.parent? x).isSome
  unmentioned : ∀ id, ¬ t'.Mentions id x
  unlabeled : ∀ id, x ∉ t'.labelsOf id
  header : t.header = t'.header
  payload : ∀ id, id ≠ x → t.payload? id = t'.payload? id
  /-- the block is gone or empty -/
  leftover : t.content? x = none ∨ t.content? x = some (.block .plain [])

/-- A reachable tree mentions no plain block anywhere. -/
theorem Reachable.unmentioned {x : NodeId} (h : t.Reachable) (hplain : t.blockKind? x = some .plain) :
    (∀ id, ¬ t.Mentions id x) ∧ ∀ id, x ∉ t.labelsOf id := by
  constructor
  · intro id
    exact (h.regionsLinked.isolated hplain rfl id).2
  · intro id hmem
    obtain ⟨owner, hlabel⟩ := isLabel_iff.mp (h.targetsLabeled id x hmem)
    rw [blockKind?, hlabel] at hplain
    exact absurd hplain (by simp)

theorem Reachable.group {start stop block : NodeId} {kind : BlockKind} (h : t.Reachable)
    (hgroup : t.group start stop kind = .ok (block, t')) : t'.Reachable := by
  have hedited := h.edited (.group start stop kind)
  rwa [Edit.run, hgroup] at hedited

/-- A plain block around a run comes off. -/
theorem Reachable.dissolvesPlain_group {start stop block : NodeId} (h : t.Reachable)
    (hgroup : t.group start stop .plain = .ok (block, t')) :
    t' = t ∨ t'.DissolvesPlain block t := by
  have wf := h.wellFormed
  have h' := h.group hgroup
  cases exists_enclose_of_group hgroup with
  | inl hreused => exact Or.inl hreused.1
  | inr henclosed =>
    obtain ⟨rfl, -, parent, before, run, after, hchildren, hrun, rfl⟩ := henclosed
    obtain ⟨hunmentioned, hunlabeled⟩ := h'.unmentioned blockKind?_enclose_self
    refine Or.inr ⟨wf.dissolves_enclose .plain hchildren hrun, blockKind?_enclose_self, ?_,
      hunmentioned, hunlabeled, header_enclose.symm, fun id hid => ?_, Or.inl (content?_size t)⟩
    · rw [wf.parent?_enclose hchildren, if_pos rfl]
      rfl
    · rw [payload?_enclose, if_neg hid]

/-- Ungrouping takes a plain block off. -/
theorem Reachable.dissolvesPlain_ungroup {block : NodeId} (h : t.Reachable)
    (hplain : t.blockKind? block = some .plain) (hungroup : t.ungroup block = .ok t') :
    t.DissolvesPlain block t' := by
  have wf := h.wellFormed
  obtain ⟨-, kind, parent, -, -, hparent, rfl⟩ := ungroup_eq_ok_iff.mp hungroup
  have hblock : (t.blockKind? block).isSome := by
    rw [hplain]
    rfl
  obtain ⟨hunmentioned, hunlabeled⟩ := h.unmentioned hplain
  refine ⟨wf.dissolves_splice hparent hblock, hplain, ?_, hunmentioned, hunlabeled, header_splice,
    fun id _ => payload?_splice id, Or.inr ?_⟩
  · rw [hparent]
    rfl
  · rw [content?_eq_payload?, payload?_splice, wf.children_splice_self hparent hblock,
      payload?_eq_some_block.mpr hplain]
    rfl

namespace DissolvesPlain

variable {x : NodeId} (h : t'.DissolvesPlain x t)

include h

/-! ## What the nodes are -/

theorem blockKind {id : NodeId} (hid : id ≠ x) : t.blockKind? id = t'.blockKind? id :=
  blockKind?_of_payload? (h.payload id hid)

theorem content {id : NodeId} (hid : id ≠ x) :
    t.content? id = (t'.content? id).map (Content.mapChildren fun _ => t.children id) := by
  rw [content?_eq_payload?, h.payload id hid, payload?]
  cases t'.content? id with
  | none => rfl
  | some content => cases content <;> rfl

theorem hollow : t.children x = [] := by
  rw [children_eq]
  cases h.leftover with
  | inl hgone => rw [hgone]; rfl
  | inr hempty => rw [hempty]; rfl

/-- The block is no instruction, before and after. -/
theorem operation (id : NodeId) : t.operation? id = t'.operation? id := by
  by_cases hid : id = x
  · rw [hid, operation?, operation?, blockKind?_eq_some_iff.mp h.plain]
    cases h.leftover with
    | inl hgone => rw [hgone]
    | inr hempty => rw [hempty]
  · exact operation?_of_payload? (h.payload id hid)

theorem labelsOf (id : NodeId) : t.labelsOf id = t'.labelsOf id := by
  rw [Tree.labelsOf, Tree.labelsOf, h.operation]

/-- The block is no label, before and after. -/
theorem isLabel (id : NodeId) : t.isLabel id = t'.isLabel id := by
  by_cases hid : id = x
  · rw [hid, Tree.isLabel, Tree.isLabel, blockKind?_eq_some_iff.mp h.plain]
    cases h.leftover with
    | inl hgone => rw [hgone]
    | inr hempty => rw [hempty]
  · exact isLabel_of_payload? (h.payload id hid)

theorem ne_of_isLabel {id : NodeId} (hlabel : t.isLabel id = true) : id ≠ x := by
  intro hid
  rw [h.isLabel, hid, Tree.isLabel, blockKind?_eq_some_iff.mp h.plain] at hlabel
  exact absurd hlabel (by simp)

theorem ne_of_operation? {id : NodeId} {operation : Operation NodeId}
    (hoperation : t.operation? id = some operation) : id ≠ x := by
  intro hid
  have hother := h.isOther
  rw [Tree.isInstruction, ← hid, ← h.operation, hoperation] at hother
  exact absurd hother (by simp)

theorem exists_iff {id : NodeId} (hid : id ≠ x) : id.index < t.size ↔ id.index < t'.size := by
  have hpayload := congrArg Option.isSome (h.payload id hid)
  rw [payload?, payload?, Option.isSome_map, Option.isSome_map] at hpayload
  rw [← isSome_content?_iff, ← isSome_content?_iff, hpayload]

/-! ## What is around them -/

/-- The other nodes lose the block from among those around them and nothing else. -/
theorem ancestors_filter {id : NodeId} (hid : id ≠ x) :
    (t'.ancestors id).filter (fun y => y ≠ x) = t.ancestors id := by
  obtain ⟨q, hq⟩ := Option.isSome_iff_exists.mp h.held
  have hqx : q ≠ x := Ne.symm (h.before.ne_of_parent hq)
  -- what stands directly below the block passes it on the way up
  have hboth : (id ≠ x → (t'.ancestors id).filter (fun y => y ≠ x) = t.ancestors id) ∧
      (id = x → (t'.ancestors id).filter (fun y => y ≠ x) = q :: t.ancestors q) := by
    clear hid
    induction id using h.before.induction_above with
    | step id ih =>
      constructor
      · intro hid
        cases habove : t'.parent? id with
        | none =>
          have hparent : t.parent? id = none := by
            rw [h.parent?_eq h.hollow hid, habove, if_neg (by simp)]
          rw [h.before.ancestors_of_no_parent habove, h.after.ancestors_of_no_parent hparent]
          rfl
        | some p =>
          rw [h.before.ancestors_of_parent habove]
          by_cases hp : p = x
          · have hparent : t.parent? id = some q := by
              rw [h.parent?_eq h.hollow hid, habove, if_pos (congrArg some hp), hq]
            rw [h.after.ancestors_of_parent hparent, List.filter_cons_of_neg (by simpa using hp)]
            exact (ih p habove).2 hp
          · have hparent : t.parent? id = some p := by
              rw [h.parent?_eq h.hollow hid, habove, if_neg (by simpa using hp)]
            rw [h.after.ancestors_of_parent hparent, List.filter_cons_of_pos (by simpa using hp),
              (ih p habove).1 hp]
      · intro hid
        subst hid
        rw [h.before.ancestors_of_parent hq, List.filter_cons_of_pos (by simpa using hqx),
          (ih q hq).1 hqx]
  exact hboth.1 hid

/-- Without the block, the tree is what it was. -/
theorem thins : t'.Thins (fun y => y = x) t := by
  apply h.toDissolves.thins h.held h.hollow
  rw [Tree.isInstruction, h.operation, ← Tree.isInstruction, h.isOther]

/-- The other nodes lie below the same tops of the forest. -/
theorem exists_top (id : NodeId) :
    ∃ top, t'.parent? top = none ∧ t.parent? top = none ∧ id ∈ t'.preOrder top ∧
      (t'.preOrder top).filter (fun y => y ≠ x) = t.preOrder top := by
  obtain ⟨top, htop, hmem⟩ := h.before.exists_top id
  have hne : top ≠ x := by
    intro heq
    have hheld := h.held
    rw [← heq, htop] at hheld
    exact absurd hheld (by simp)
  refine ⟨top, htop, ?_, hmem, ?_⟩
  · rw [h.parent?_eq h.hollow hne, htop, if_neg (by simp)]
  · rw [h.preOrder_filter, if_neg hne]

/-! ## Where labels lead -/

/-- The block is passed by on the way to the next instruction. -/
theorem labelTarget {id : NodeId} (hid : id ≠ x) : t'.labelTarget? id = t.labelTarget? id :=
  (h.thins.nextInstruction? (decide_eq_false hid)).symm

end DissolvesPlain

end Tree

end MethodIL
