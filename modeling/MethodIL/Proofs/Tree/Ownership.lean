import Mathlib
import MethodIL.Proofs.Tree.Stages
set_option autoImplicit false

/-!
# Who refers to a label

An instruction lists the labels that it refers to, and each label knows the instruction that refers to
it.  The two sides are changed by different edits, in different places of the tree and on nodes that are
cut off from it.  They agree in every tree that is made without listing a label twice, and so every
label has at most one place in at most one operand.
-/

namespace MethodIL

namespace Tree

variable {t t' : Tree}

/-- The labels that instructions list and the owners that labels have tell the same. -/
structure Owned (t : Tree) : Prop where
  owner_iff : ∀ label id, t.labelOwner? label = some id ↔ label ∈ t.labelsOf id
  nodup : ∀ id, (t.labelsOf id).Nodup

namespace Owned

/-- Trees with the same lists and owners are alike. -/
theorem congr (h : t.Owned) (howner : ∀ x, t'.labelOwner? x = t.labelOwner? x)
    (hlabels : ∀ x, t'.labelsOf x = t.labelsOf x) : t'.Owned where
  owner_iff label id := by rw [howner, hlabels, h.owner_iff]
  nodup id := by rw [hlabels]; exact h.nodup id

theorem of_same (h : t.Owned) (howner : ∀ x, t'.labelOwner? x = t.labelOwner? x)
    (hoperation : ∀ x, t'.operation? x = t.operation? x) : t'.Owned :=
  h.congr howner fun x => by rw [labelsOf, labelsOf, hoperation]

/-- An instruction gives its labels back. -/
theorem unbindLabels (h : t.Owned) (id : NodeId) : (t.unbindLabels id).Owned where
  owner_iff label holder := by
    rw [labelOwner?_unbindLabels, labelsOf_unbindLabels]
    by_cases hmem : label ∈ t.labelsOf id
    · have howner := (h.owner_iff label id).mpr hmem
      by_cases hholder : holder = id
      · simp [hmem, hholder]
      · have hother : label ∉ t.labelsOf holder := fun hin => by
          rw [← h.owner_iff, howner] at hin
          exact hholder (Option.some.inj hin).symm
        simp [hmem, hholder, hother]
    · by_cases hholder : holder = id
      · rw [if_neg hmem, if_pos hholder, h.owner_iff, hholder]
        simp [hmem]
      · rw [if_neg hmem, if_neg hholder, h.owner_iff]
  nodup holder := by
    rw [labelsOf_unbindLabels]
    split
    · exact List.nodup_nil
    · exact h.nodup holder

/-- An instruction without labels takes labels that nobody refers to. -/
theorem takes {id : NodeId} {labels : List NodeId} (h : t.Owned) (hfree : t.labelsOf id = [])
    (hnodup : labels.Nodup) (hfresh : ∀ label ∈ labels, t.labelOwner? label = none)
    (howner : ∀ x, t'.labelOwner? x = if x ∈ labels then some id else t.labelOwner? x)
    (hlabels : ∀ x, t'.labelsOf x = if x = id then labels else t.labelsOf x) : t'.Owned where
  owner_iff label holder := by
    rw [howner, hlabels]
    by_cases hmem : label ∈ labels
    · have hother : label ∉ t.labelsOf holder := fun hin => by
        rw [← h.owner_iff, hfresh label hmem] at hin
        exact absurd hin (by simp)
      by_cases hholder : holder = id
      · simp [hmem, hholder]
      · simp [hmem, hholder, hother, Ne.symm hholder]
    · have hself : label ∉ t.labelsOf id := by
        rw [hfree]
        exact List.not_mem_nil
      by_cases hholder : holder = id
      · rw [if_neg hmem, if_pos hholder, h.owner_iff, hholder]
        simp [hmem, hself]
      · rw [if_neg hmem, if_neg hholder, h.owner_iff]
  nodup holder := by
    rw [hlabels]
    split
    · exact hnodup
    · exact h.nodup holder

theorem aim (h : t.Owned) {id : NodeId} {old operation : Operation NodeId}
    (hold : t.operation? id = some old)
    (hfresh : ∀ label ∈ operation.operand.targets, t.isLabel label = true ∧ t.labelOwner? label = none)
    (hnodup : operation.operand.targets.Nodup) : (t.aim id operation).Owned := by
  have hfree : (t.unbindLabels id).labelsOf id = [] := by rw [labelsOf_unbindLabels, if_pos rfl]
  refine (h.unbindLabels id).takes hfree hnodup (fun label hmem => ?_) (fun x => ?_) fun x => ?_
  · rw [labelOwner?_unbindLabels, (hfresh label hmem).2, ite_self]
  · rw [labelOwner?_aim, labelOwner?_unbindLabels]
    by_cases hmem : x ∈ operation.operand.targets
    · rw [if_pos ⟨hmem, (hfresh x hmem).1⟩, if_pos hmem]
    · rw [if_neg (fun hboth => hmem hboth.1), if_neg hmem]
  · rw [labelsOf_aim operation hold, labelsOf_unbindLabels]
    split <;> rfl

/-- The labels of a new instruction become its own. -/
theorem newInstruction (h : t.Owned) {operation : Operation NodeId}
    (hnodup : operation.operand.targets.Nodup) : (t.newInstruction operation).2.Owned := by
  rcases newInstruction_cases t operation with hrefused | ⟨hunbound, hcreated⟩
  · rwa [hrefused]
  have hkept : ∀ x, t.content? x = some (.label none) →
      (t.push (.instruction operation)).2.content? x = some (.label none) := fun x hx => by
    rw [content?_push, if_neg, hx]
    rintro rfl
    rw [content?_size] at hx
    exact absurd hx (by simp)
  obtain ⟨honly, -, howners⟩ := LinksOnly.of_setOwners operation.operand.targets (some ⟨t.size⟩)
    (t.push (.instruction operation)).2
  rw [hcreated, bindLabels_of_unbound _ hnodup fun label hmem => hkept label (hunbound label hmem)]
  have hnone : t.operation? ⟨t.size⟩ = none := by rw [operation?, content?_size]
  have hfree : t.labelsOf ⟨t.size⟩ = [] := by rw [labelsOf, hnone]; rfl
  refine h.takes hfree hnodup (fun label hmem => ?_) (fun x => ?_) fun x => ?_
  · rw [labelOwner?, hunbound label hmem]
  · rw [howners]
    by_cases hmem : x ∈ operation.operand.targets
    · rw [if_pos ⟨hmem, by rw [isLabel, hkept x (hunbound x hmem)]⟩, if_pos hmem]
    · rw [if_neg (fun hboth => hmem hboth.1), if_neg hmem, labelOwner?, labelOwner?, content?_push]
      by_cases hx : x = ⟨t.size⟩
      · rw [if_pos hx, hx, content?_size]
      · rw [if_neg hx]
  · rw [labelsOf, honly.operation, operation?, content?_push]
    by_cases hx : x = ⟨t.size⟩
    · rw [if_pos hx, if_pos hx]
      rfl
    · rw [if_neg hx, if_neg hx]
      rfl

theorem stage (h : t.Owned) (hstage : Stage t t') : t'.Owned := by
  cases hstage with
  | places hpayload =>
    exact h.of_same (fun x => labelOwner?_of_payload? (hpayload x))
      fun x => operation?_of_payload? (hpayload x)
  | creates hpayload hnew =>
    exact h.of_same (labelOwner?_of_creates hpayload hnew) (operation?_of_creates hpayload hnew)
  | @retypes id old operation hold htargets =>
    refine h.congr (labelOwner?_setOperation id operation) fun x => ?_
    rw [labelsOf_setOperation operation hold]
    split
    case isTrue hx => rw [htargets, hx, labelsOf, hold]; rfl
    case isFalse => rfl
  | unbinds id => exact h.unbindLabels id
  | aims hold hfresh hnodup => exact h.aim hold hfresh hnodup
  | relinks hrelinks => exact h.of_same hrelinks.kindsOnly.labelOwner hrelinks.kindsOnly.operation

end Owned

/-- Bare code refers to no label and has none. -/
theorem owned_ofCode (header : Header) (code : List Instruction) : (ofCode header code).Owned where
  owner_iff label id := by
    rw [labelOwner?_of_not_isLabel (isLabel_ofCode (x := ⟨header, code, []⟩) label),
      labelsOf_ofCode (x := ⟨header, code, []⟩)]
    simp
  nodup id := by
    rw [labelsOf_ofCode (x := ⟨header, code, []⟩)]
    exact List.nodup_nil

theorem ReachableBy.owned (h : t.ReachableBy Edit.ListsOnce) : t.Owned :=
  h.induction_stages owned_ofCode (fun _ _ ht hstage => ht.stage hstage)
    fun _ _ honce ht => ht.newInstruction honce

/-- Owners and operands fit together, and every label has one place in the operands of all instructions. -/
structure LabelsFit (t : Tree) : Prop where
  owner_iff : ∀ label id, t.labelOwner? label = some id ↔ label ∈ t.labelsOf id
  nodup : ∀ id, (t.labelsOf id).Nodup
  place_unique : ∀ label id id' (k k' : Nat), (t.labelsOf id)[k]? = some label →
    (t.labelsOf id')[k']? = some label → id = id' ∧ k = k'
  branch : ∀ id operation label, t.operation? id = some operation →
    operation.operand = .branch label → operation.opcode.isBranch = true
  switch : ∀ id operation labels, t.operation? id = some operation →
    operation.operand = .switch labels → operation.opcode.isSwitch = true
  others : ∀ id operation, t.operation? id = some operation → operation.opcode.isBranch = false →
    operation.opcode.isSwitch = false → t.labelsOf id = []

/-- As long as no instruction is created that lists a label twice, the owners of labels are the
instructions that list them, and every label has at most one place in an operand. -/
theorem ReachableBy.labels_fit (h : t.ReachableBy Edit.ListsOnce) : t.LabelsFit where
  owner_iff := h.owned.owner_iff
  nodup := h.owned.nodup
  place_unique label id id' k k' hk hk' := by
    have howner := (h.owned.owner_iff label id).mpr (List.mem_of_getElem? hk)
    have howner' := (h.owned.owner_iff label id').mpr (List.mem_of_getElem? hk')
    obtain rfl := Option.some.inj (howner.symm.trans howner')
    obtain ⟨hlt, -⟩ := List.getElem?_eq_some_iff.mp hk
    exact ⟨rfl, (List.getElem?_inj hlt (h.owned.nodup id)).mp (hk.trans hk'.symm)⟩
  branch id operation label hoperation hoperand := by
    have hsuits := h.reachable.operandsSuit id operation hoperation
    simpa [acceptsOperand, hoperand, Operand.fits, Opcode.isBranch] using hsuits
  switch id operation labels hoperation hoperand := by
    have hsuits := h.reachable.operandsSuit id operation hoperation
    simpa [acceptsOperand, hoperand, Operand.fits, Opcode.isSwitch] using hsuits
  others id operation hoperation hbranch hswitch := by
    rw [labelsOf, hoperation, Option.map_some, Option.getD_some]
    exact targets_eq_nil_of_suits (h.reachable.operandsSuit id operation hoperation) hbranch hswitch

/-- A branch is aimed at the label that it owns: a new label takes its place, and the old one is free for
another branch, which was refused it before. -/
def retargeted (opcode : Opcode) : Tree :=
  (new default).runAll [.newLabel, .newInstruction ⟨opcode, .branch ⟨1⟩⟩,
    .newInstruction ⟨opcode, .branch ⟨1⟩⟩, .append root ⟨2⟩, .append root ⟨1⟩,
    .setBranchTarget ⟨2⟩ ⟨1⟩, .newInstruction ⟨opcode, .branch ⟨1⟩⟩]

/-- The labels of `retargeted` fit. -/
theorem retargeted_labels_fit : ∃ opcode, Opcode.find? .single 0x2B = some opcode ∧
    (retargeted opcode).ReachableBy Edit.ListsOnce ∧
    (retargeted opcode).labelOwner? ⟨3⟩ = some ⟨2⟩ ∧ (retargeted opcode).labelOwner? ⟨1⟩ = some ⟨4⟩ ∧
    (retargeted opcode).LabelsFit := by
  have hrun : ((Opcode.find? .single 0x2B).any fun opcode =>
      (retargeted opcode).labelOwner? ⟨3⟩ == some ⟨2⟩ &&
        (retargeted opcode).labelOwner? ⟨1⟩ == some ⟨4⟩) = true := by
    decide +kernel
  rw [Option.any_eq_true] at hrun
  obtain ⟨opcode, hopcode, howners⟩ := hrun
  rw [Bool.and_eq_true, beq_iff_eq, beq_iff_eq] at howners
  have hreachable : (retargeted opcode).ReachableBy Edit.ListsOnce := by
    refine (ReachableBy.new default).runAll fun edit hedit => ?_
    simp only [List.mem_cons, List.not_mem_nil, or_false] at hedit
    rcases hedit with rfl | rfl | rfl | rfl | rfl | rfl | rfl <;>
      simp [Edit.ListsOnce, Operand.targets]
  exact ⟨opcode, hopcode, hreachable, howners.1, howners.2, hreachable.labels_fit⟩

end Tree

end MethodIL
