import Mathlib
import MethodIL.Proofs.Tree.Ownership
import MethodIL.Proofs.Tree.RegionRemoval
set_option autoImplicit false

/-!
# Instructions that lose their labels

When instructions lose their labels, the labels are cut off, each on its own, and nothing else
changes.  It does not matter in which order the instructions are taken: a label has one owner, so what
one instruction loses tells nothing about the labels of another.  In particular the test whether a label
lies below a block has the same answer when the turn of its owner comes as it had at the start.
-/

namespace MethodIL

namespace Tree

variable {t t' : Tree}

/-! ## Labels that are let go -/

/-- The node is a label of one of the given instructions. -/
def isReleased (t : Tree) (holders : List NodeId) (x : NodeId) : Bool :=
  (t.labelOwner? x).any holders.contains

theorem isReleased_iff {holders : List NodeId} {x : NodeId} :
    t.isReleased holders x = true ↔ ∃ owner ∈ holders, t.labelOwner? x = some owner := by
  simp only [isReleased, Option.any_eq_true, List.contains_iff_mem, and_comm]

@[simp] theorem isReleased_nil (x : NodeId) : t.isReleased [] x = false := by
  rw [← Bool.not_eq_true, isReleased_iff]
  simp

theorem isReleased_append (holders holders' : List NodeId) (x : NodeId) :
    t.isReleased (holders ++ holders') x =
      (t.isReleased holders x || t.isReleased holders' x) := by
  rw [Bool.eq_iff_iff, Bool.or_eq_true, isReleased_iff, isReleased_iff, isReleased_iff]
  simp only [List.mem_append, or_and_right, exists_or]

theorem isReleased_singleton {id x : NodeId} :
    t.isReleased [id] x = true ↔ t.labelOwner? x = some id := by
  rw [isReleased_iff]
  simp

theorem isLabel_of_isReleased {holders : List NodeId} {x : NodeId}
    (h : t.isReleased holders x = true) : t.isLabel x = true := by
  obtain ⟨owner, -, howner⟩ := isReleased_iff.mp h
  exact isLabel_of_labelOwner? howner

/-- One tree is the other after the given instructions have lost their labels. -/
structure Drops (t : Tree) (holders : List NodeId) (t' : Tree) : Prop where
  kind : ∀ x, t'.blockKind? x = t.blockKind? x
  isLabel : ∀ x, t'.isLabel x = t.isLabel x
  operation : ∀ x, t'.operation? x =
    if x ∈ holders then (t.operation? x).map withoutLabels else t.operation? x
  owner : ∀ x, t'.labelOwner? x = if t.isReleased holders x then none else t.labelOwner? x
  parent : ∀ x, t'.parent? x = if t.isReleased holders x then none else t.parent? x
  children : ∀ p, t'.children p = (t.children p).filter fun x => !t.isReleased holders x

theorem withoutLabels_withoutLabels (operation : Operation NodeId) :
    withoutLabels (withoutLabels operation) = withoutLabels operation := by
  have hempty := targets_withoutLabels operation
  rw [withoutLabels, if_pos (by rw [hempty]; rfl)]

namespace Drops

variable {holders : List NodeId}

theorem refl (t : Tree) : t.Drops [] t where
  kind _ := rfl
  isLabel _ := rfl
  operation x := by rw [if_neg List.not_mem_nil]
  owner x := by rw [isReleased_nil, if_neg Bool.false_ne_true]
  parent x := by rw [isReleased_nil, if_neg Bool.false_ne_true]
  children p := by
    rw [List.filter_eq_self.mpr]
    intro x _
    rw [isReleased_nil]
    rfl

/-- What is let go second was owned from the start. -/
theorem isReleased (h : t.Drops holders t') (holders' : List NodeId) (x : NodeId) :
    t.isReleased (holders ++ holders') x =
      (t.isReleased holders x || t'.isReleased holders' x) := by
  rw [isReleased_append]
  cases hfirst : t.isReleased holders x with
  | true => rfl
  | false =>
    have howner : t'.labelOwner? x = t.labelOwner? x := by
      rw [h.owner, hfirst, if_neg Bool.false_ne_true]
    rw [Tree.isReleased, Tree.isReleased, howner]

theorem trans {t'' : Tree} {holders' : List NodeId} (h : t.Drops holders t')
    (h' : t'.Drops holders' t'') : t.Drops (holders ++ holders') t'' where
  kind x := (h'.kind x).trans (h.kind x)
  isLabel x := (h'.isLabel x).trans (h.isLabel x)
  operation x := by
    rw [h'.operation, h.operation]
    simp only [List.mem_append]
    by_cases hx : x ∈ holders
    · rw [if_pos hx, if_pos (Or.inl hx)]
      cases t.operation? x with
      | none => rw [Option.map_none, Option.map_none, ite_self]
      | some operation => rw [Option.map_some, Option.map_some, withoutLabels_withoutLabels, ite_self]
    · simp only [if_neg hx, or_iff_right hx]
  owner x := by
    rw [h'.owner, h.owner, h.isReleased]
    cases t.isReleased holders x <;> simp
  parent x := by
    rw [h'.parent, h.parent, h.isReleased]
    cases t.isReleased holders x <;> simp
  children p := by
    rw [h'.children, h.children, List.filter_filter]
    apply List.filter_congr
    intro x _
    rw [h.isReleased, Bool.not_or, Bool.and_comm]

theorem wellFormed (h : t.Drops holders t') (wf : t.WellFormed) : t'.WellFormed where
  root_kind := by rw [h.kind, wf.root_kind]
  root_parent := by rw [h.parent, wf.root_parent, ite_self]
  parent_iff id p := by
    rw [h.parent, h.children, List.mem_filter, ← wf.parent_iff]
    cases t.isReleased holders id <;> simp
  nodup p := by
    rw [h.children]
    exact (wf.nodup p).filter _
  ranked := by
    obtain ⟨rank, hrank⟩ := wf.ranked
    refine ⟨rank, fun id p hparent => hrank id p ?_⟩
    rw [h.parent] at hparent
    cases hreleased : t.isReleased holders id with
    | true =>
      rw [hreleased, if_pos rfl] at hparent
      exact absurd hparent (by simp)
    | false => rwa [hreleased, if_neg Bool.false_ne_true] at hparent

/-- A node that is no label is never let go. -/
theorem isReleased_of_not_isLabel {x : NodeId} (h : t.isLabel x = false) :
    t.isReleased holders x = false := by
  rw [← Bool.not_eq_true]
  intro hreleased
  rw [isLabel_of_isReleased hreleased] at h
  exact absurd h (by simp)

/-- The blocks around a node are the same unless it is let go itself. -/
theorem ancestors (h : t.Drops holders t') (wf : t.WellFormed) (x : NodeId) :
    t'.ancestors x = if t.isReleased holders x then [] else t.ancestors x := by
  have wf' := h.wellFormed wf
  cases hreleased : t.isReleased holders x with
  | true =>
    rw [if_pos rfl]
    apply wf'.ancestors_of_no_parent
    rw [h.parent, hreleased, if_pos rfl]
  | false =>
    rw [if_neg Bool.false_ne_true]
    induction x using wf.induction_above with
    | step x ih =>
      have hsame : t'.parent? x = t.parent? x := by
        rw [h.parent, hreleased, if_neg Bool.false_ne_true]
      rw [wf'.ancestors_eq, wf.ancestors_eq, hsame]
      cases hparent : t.parent? x with
      | none => rfl
      | some p => simp only [ih p hparent (isReleased_of_not_isLabel (wf.isLabel_parent hparent))]

theorem isBelow (h : t.Drops holders t') (wf : t.WellFormed) (block x : NodeId) :
    t'.isBelow block x = (!t.isReleased holders x && t.isBelow block x) := by
  rw [Tree.isBelow, Tree.isBelow, h.ancestors wf]
  cases t.isReleased holders x <;> simp

end Drops

/-! ## One instruction -/

theorem WellFormed.setOwner (wf : t.WellFormed) (label : NodeId) (owner : Option NodeId) :
    (t.setOwner label owner).WellFormed := by
  apply wf.of_links
  · rw [blockKind?_setOwner, wf.root_kind]
  · exact parent?_setOwner t label owner
  · exact children_setOwner t label owner

theorem WellFormed.children_foldl_cutOff (wf : t.WellFormed) (labels : List NodeId) (p : NodeId) :
    (labels.foldl (fun t label => (t.setOwner label none).detach label) t).children p =
      (t.children p).filter fun x => !labels.contains x := by
  induction labels generalizing t with
  | nil =>
    rw [List.foldl_nil, List.filter_eq_self.mpr]
    intro x _
    rfl
  | cons label labels ih =>
    have wf' := wf.setOwner label none
    rw [List.foldl_cons, ih wf'.detach, wf'.children_detach, children_setOwner,
      (wf.nodup p).erase_eq_filter, List.filter_filter]
    apply List.filter_congr
    intro x _
    rw [List.contains_cons, Bool.not_or, Bool.and_comm, bne]

theorem WellFormed.links_unbindLabels (wf : t.WellFormed) (id x : NodeId) :
    (t.unbindLabels id).parent? x =
        (if (t.labelsOf id).contains x then none else t.parent? x) ∧
      (t.unbindLabels id).children x =
        (t.children x).filter fun y => !(t.labelsOf id).contains y := by
  rcases t.unbindLabels_cases id with ⟨hnone, hsame⟩ | ⟨operation, hoperation, -, hcut⟩
  · rw [hnone, hsame]
    exact ⟨(if_neg Bool.false_ne_true).symm, (List.filter_eq_self.mpr fun _ _ => rfl).symm⟩
  · have hlabels : t.labelsOf id = operation.operand.targets := by
      rw [labelsOf, hoperation]
      rfl
    have wf' := wf.setOperation id { operation with operand := .none }
    rw [hcut, parent?_foldl_cutOff, wf'.children_foldl_cutOff, parent?_setOperation,
      children_setOperation, hlabels]
    simp only [List.contains_iff_mem, and_self]

/-- An instruction that loses its labels changes nothing but these. -/
theorem Owned.drops_unbindLabels (h : t.Owned) (wf : t.WellFormed) (id : NodeId) :
    t.Drops [id] (t.unbindLabels id) := by
  have hreleased : ∀ x, t.isReleased [id] x = (t.labelsOf id).contains x := by
    intro x
    rw [Bool.eq_iff_iff, isReleased_singleton, h.owner_iff, List.contains_iff_mem]
  constructor
  case kind => exact blockKind?_unbindLabels id
  case isLabel => exact isLabel_unbindLabels id
  case operation =>
    intro x
    simp only [operation?_unbindLabels, List.mem_singleton]
  case owner =>
    intro x
    rw [labelOwner?_unbindLabels, hreleased]
    simp only [List.contains_iff_mem]
  case parent =>
    intro x
    rw [(wf.links_unbindLabels id x).1, hreleased]
  case children =>
    intro p
    rw [(wf.links_unbindLabels id p).2]
    apply List.filter_congr
    intro x _
    rw [hreleased]

/-! ## All instructions below a block -/

/-- The instruction has a label that does not lie below a block. -/
def reachesOutside (t : Tree) (block member : NodeId) : Bool :=
  (t.labelsOf member).any fun label => !t.isBelow block label

/-- What lies below a block loses the labels of the instructions that have one outside, and these are the
ones that have one outside at the start. -/
theorem Owned.drops_foldl_dropOutside (h : t.Owned) (wf : t.WellFormed) (block : NodeId)
    {members : List NodeId} (hnodup : members.Nodup) :
    t.Drops (members.filter (t.reachesOutside block)) (members.foldl (dropOutside block) t) ∧
      (members.foldl (dropOutside block) t).Owned := by
  induction members using List.reverseRecOn with
  | nil => exact ⟨.refl t, h⟩
  | append_singleton members member ih =>
    obtain ⟨hmembers, -, hfresh⟩ := List.nodup_append.mp hnodup
    obtain ⟨hdrops, howned⟩ := ih hmembers
    have hmember : member ∉ members := fun hmem =>
      hfresh member hmem member (List.mem_singleton_self member) rfl
    have hlater : member ∉ members.filter (t.reachesOutside block) := fun hmem =>
      hmember (List.mem_of_mem_filter hmem)
    -- the labels of the member have not been touched yet
    have hsame : (members.foldl (dropOutside block) t).reachesOutside block member =
        t.reachesOutside block member := by
      have hlabels : (members.foldl (dropOutside block) t).labelsOf member = t.labelsOf member := by
        rw [labelsOf, hdrops.operation, if_neg hlater, ← labelsOf]
      rw [reachesOutside, reachesOutside, hlabels, Bool.eq_iff_iff, List.any_eq_true,
        List.any_eq_true]
      apply exists_congr
      intro label
      apply and_congr_right
      intro hlabel
      have howner : t.labelOwner? label = some member := (h.owner_iff label member).mpr hlabel
      have hkept : t.isReleased (members.filter (t.reachesOutside block)) label = false := by
        rw [← Bool.not_eq_true, isReleased_iff, howner]
        intro hreleased
        obtain ⟨owner, hmem, heq⟩ := hreleased
        exact hlater (Option.some.inj heq ▸ hmem)
      rw [hdrops.isBelow wf, hkept, Bool.not_false, Bool.true_and]
    rw [List.foldl_append, List.foldl_cons, List.foldl_nil, List.filter_append, dropOutside,
      ← reachesOutside, hsame]
    cases htest : t.reachesOutside block member with
    | true =>
      rw [if_pos rfl, List.filter_cons_of_pos htest]
      exact ⟨hdrops.trans (howned.drops_unbindLabels (hdrops.wellFormed wf) member),
        howned.unbindLabels member⟩
    | false =>
      rw [if_neg Bool.false_ne_true, List.filter_cons_of_neg (by simp [htest]), List.filter_nil,
        List.append_nil]
      exact ⟨hdrops, howned⟩

end Tree

end MethodIL
