import Mathlib
import MethodIL.Proofs.Lifting.Labels
import MethodIL.Proofs.Tree.Reachable
set_option autoImplicit false

/-!
# Stages of an edit

Apart from where nodes are placed, an edit changes few of them, and it does so in stages: a node is
created, an instruction gets another opcode, loses its labels or is aimed at new ones, or regions are
linked or unlinked.  Unlike a step, a stage leaves no reference half made.  What a stage leaves intact
every edit leaves intact, and so does lifting.  Only the creation of an instruction is no stage: where
it lists a label twice, it is refused with the label bound.
-/

namespace MethodIL

open Outcome

namespace Tree

variable {t t' : Tree}

/-! ## Cutting off labels -/

theorem labelOwner?_of_not_isLabel {id : NodeId} (h : t.isLabel id = false) : t.labelOwner? id = none := by
  rw [Option.eq_none_iff_forall_ne_some]
  intro owner howner
  rw [isLabel_of_labelOwner? howner] at h
  exact absurd h (by simp)

/-- What nodes are once labels are cut off. -/
theorem foldl_cutOff (labels : List NodeId) (t : Tree) :
    let cut := labels.foldl (fun t label => (t.setOwner label none).detach label) t
    (∀ x, cut.operation? x = t.operation? x) ∧ (∀ x, cut.blockKind? x = t.blockKind? x) ∧
      (∀ x, cut.isLabel x = t.isLabel x) ∧
        ∀ x, cut.labelOwner? x = if x ∈ labels then none else t.labelOwner? x := by
  induction labels generalizing t with
  | nil => simp
  | cons label labels ih =>
    obtain ⟨hoperation, hkind, hlabel, howner⟩ := ih ((t.setOwner label none).detach label)
    have hpayload : ∀ x, ((t.setOwner label none).detach label).payload? x =
        (t.setOwner label none).payload? x := payload?_detach
    refine ⟨fun x => ?_, fun x => ?_, fun x => ?_, fun x => ?_⟩
    · rw [List.foldl_cons, hoperation, operation?_of_payload? (hpayload x), operation?_setOwner]
    · rw [List.foldl_cons, hkind, blockKind?_of_payload? (hpayload x), blockKind?_setOwner]
    · rw [List.foldl_cons, hlabel, isLabel_of_payload? (hpayload x),
        (LinksOnly.of_setOwner label none).isLabel]
    · rw [List.foldl_cons, howner, labelOwner?_of_payload? (hpayload x), labelOwner?_setOwner]
      by_cases hx : x = label
      · cases hisLabel : t.isLabel x with
        | true => simp [hx]
        | false => simp [labelOwner?_of_not_isLabel hisLabel]
      · simp [hx]

/-- An operation without its labels. -/
def withoutLabels (operation : Operation NodeId) : Operation NodeId :=
  if operation.operand.targets.isEmpty then operation else { operation with operand := .none }

theorem targets_withoutLabels (operation : Operation NodeId) :
    (withoutLabels operation).operand.targets = [] := by
  unfold withoutLabels
  split
  case isTrue hempty => exact List.isEmpty_iff.mp hempty
  case isFalse => rfl

section Unbind

variable (id : NodeId)

/-- What nodes are once an instruction has lost its labels. -/
theorem unbindLabels_views (t : Tree) :
    (∀ x, (t.unbindLabels id).operation? x =
      if x = id then (t.operation? x).map withoutLabels else t.operation? x) ∧
    (∀ x, (t.unbindLabels id).blockKind? x = t.blockKind? x) ∧
    (∀ x, (t.unbindLabels id).isLabel x = t.isLabel x) ∧
    ∀ x, (t.unbindLabels id).labelOwner? x =
      if x ∈ t.labelsOf id then none else t.labelOwner? x := by
  rcases t.unbindLabels_cases id with ⟨hnone, hsame⟩ | ⟨operation, hoperation, hsome, hcut⟩
  · rw [hsame, hnone]
    refine ⟨fun x => ?_, fun _ => rfl, fun _ => rfl, fun x => by simp⟩
    split
    case isTrue hx =>
      rw [labelsOf, ← hx] at hnone
      cases hold : t.operation? x with
      | none => rfl
      | some old =>
        rw [hold, Option.map_some, Option.getD_some] at hnone
        rw [Option.map_some, withoutLabels, if_pos (List.isEmpty_iff.mpr hnone)]
    case isFalse => rfl
  · obtain ⟨hoperations, hkind, hlabel, howner⟩ := foldl_cutOff operation.operand.targets
      (t.setOperation id { operation with operand := .none })
    rw [hcut, labelsOf, hoperation, Option.map_some, Option.getD_some]
    refine ⟨fun x => ?_, fun x => ?_, fun x => ?_, fun x => ?_⟩
    · rw [hoperations, operation?_setOperation]
      split
      case isTrue hx =>
        rw [hx, hoperation, Option.map_some, Option.map_some, withoutLabels, if_neg (by simpa using hsome)]
      case isFalse => rfl
    · rw [hkind, blockKind?_setOperation]
    · rw [hlabel, isLabel_setOperation]
    · rw [howner, labelOwner?_setOperation]

theorem operation?_unbindLabels (x : NodeId) : (t.unbindLabels id).operation? x =
    if x = id then (t.operation? x).map withoutLabels else t.operation? x :=
  (unbindLabels_views id t).1 x

@[simp] theorem blockKind?_unbindLabels (x : NodeId) :
    (t.unbindLabels id).blockKind? x = t.blockKind? x :=
  (unbindLabels_views id t).2.1 x

@[simp] theorem isLabel_unbindLabels (x : NodeId) : (t.unbindLabels id).isLabel x = t.isLabel x :=
  (unbindLabels_views id t).2.2.1 x

theorem labelOwner?_unbindLabels (x : NodeId) : (t.unbindLabels id).labelOwner? x =
    if x ∈ t.labelsOf id then none else t.labelOwner? x :=
  (unbindLabels_views id t).2.2.2 x

theorem labelsOf_unbindLabels (x : NodeId) :
    (t.unbindLabels id).labelsOf x = if x = id then [] else t.labelsOf x := by
  rw [labelsOf, operation?_unbindLabels]
  split
  case isTrue => cases t.operation? x <;> simp [targets_withoutLabels]
  case isFalse => rfl

end Unbind

/-! ## Aiming -/

section Aim

variable (id : NodeId) (operation : Operation NodeId)

/-- What nodes are once an instruction is aimed. -/
theorem aim_views (t : Tree) :
    (∀ x, (t.aim id operation).operation? x =
      if x = id then (t.operation? x).map fun _ => operation else t.operation? x) ∧
    (∀ x, (t.aim id operation).blockKind? x = t.blockKind? x) ∧
    (∀ x, (t.aim id operation).isLabel x = t.isLabel x) ∧
    ∀ x, (t.aim id operation).labelOwner? x =
      if x ∈ operation.operand.targets ∧ t.isLabel x = true then some id
      else if x ∈ t.labelsOf id then none else t.labelOwner? x := by
  obtain ⟨honly, hkinds, howners⟩ := LinksOnly.of_setOwners operation.operand.targets (some id)
    ((t.unbindLabels id).setOperation id operation)
  refine ⟨fun x => ?_, fun x => ?_, fun x => ?_, fun x => ?_⟩
  · refine (honly.operation x).trans ?_
    rw [operation?_setOperation, operation?_unbindLabels]
    split
    case isTrue => cases t.operation? x <;> rfl
    case isFalse => rfl
  · refine (hkinds x).trans ?_
    rw [blockKind?_setOperation, blockKind?_unbindLabels]
  · refine (honly.isLabel x).trans ?_
    rw [isLabel_setOperation, isLabel_unbindLabels]
  · refine (howners x).trans ?_
    rw [isLabel_setOperation, isLabel_unbindLabels, labelOwner?_setOperation,
      labelOwner?_unbindLabels]

@[simp] theorem blockKind?_aim (x : NodeId) : (t.aim id operation).blockKind? x = t.blockKind? x :=
  (aim_views id operation t).2.1 x

@[simp] theorem isLabel_aim (x : NodeId) : (t.aim id operation).isLabel x = t.isLabel x :=
  (aim_views id operation t).2.2.1 x

theorem labelOwner?_aim (x : NodeId) : (t.aim id operation).labelOwner? x =
    if x ∈ operation.operand.targets ∧ t.isLabel x = true then some id
    else if x ∈ t.labelsOf id then none else t.labelOwner? x :=
  (aim_views id operation t).2.2.2 x

variable {id} {old : Operation NodeId}

theorem labelsOf_setOperation (hold : t.operation? id = some old) (x : NodeId) :
    (t.setOperation id operation).labelsOf x =
      if x = id then operation.operand.targets else t.labelsOf x := by
  rw [labelsOf, operation?_setOperation]
  split
  case isTrue hx =>
    rw [hx, hold]
    rfl
  case isFalse => rfl

theorem labelsOf_aim (hold : t.operation? id = some old) (x : NodeId) :
    (t.aim id operation).labelsOf x = if x = id then operation.operand.targets else t.labelsOf x := by
  rw [labelsOf, (aim_views id operation t).1]
  split
  case isTrue hx =>
    rw [hx, hold]
    rfl
  case isFalse => rfl

end Aim

/-! ## New labels -/

theorem payload?_placeLabel {anchor label : NodeId} (h : t.placeLabel anchor = .ok (label, t')) (x : NodeId) :
    t'.payload? x = if x = ⟨t.size⟩ then some (.label none) else t.payload? x := by
  obtain ⟨parent, -, -, rfl⟩ := placeLabel_eq_ok_iff.mp h
  rw [payload?_attach, payload?_push]
  rfl

/-- New labels are numbered one after the other, from the first free number on. -/
theorem labels_of_placeLabels {anchors labels : List NodeId}
    (h : placeLabels anchors t = .ok (labels, t')) :
    labels = (List.range' t.size anchors.length).map NodeId.mk ∧
      ∀ x, t'.payload? x = if x ∈ labels then some (.label none) else t.payload? x := by
  induction anchors generalizing t labels with
  | nil =>
    obtain ⟨rfl, rfl⟩ := placeLabels_nil_eq_ok_iff.mp h
    exact ⟨rfl, fun x => by simp⟩
  | cons anchor anchors ih =>
    obtain ⟨label, placed, others, hplaced, hdone, rfl⟩ := placeLabels_cons_eq_ok_iff.mp h
    obtain ⟨hothers, hpayload⟩ := ih hdone
    have hfirst := payload?_placeLabel hplaced
    obtain ⟨parent, -, rfl, rfl⟩ := placeLabel_eq_ok_iff.mp hplaced
    refine ⟨?_, fun x => ?_⟩
    · rw [hothers, size_attach, size_push, List.length_cons, List.range'_succ, List.map_cons]
    · rw [hpayload, hfirst]
      by_cases hx : x = ⟨t.size⟩ <;> by_cases hmem : x ∈ others <;> simp [hx, hmem]

/-! ## Regions -/

/-- Regions are linked or unlinked, or the type that a handler catches is set. -/
inductive RegionEdit (t t' : Tree) : Prop
  | catchType {handler : NodeId} {token : Token} (h : t.setCatchType handler token = .ok t')
  | handler {region handler : NodeId} (h : t.linkHandler region handler = .ok t')
  | filter {filterBlock handler : NodeId} (h : t.linkFilter filterBlock handler = .ok t')
  | unlink {handler : NodeId} (h : t.unlinkHandler handler = .ok t')

/-- Nothing has changed but what blocks are for. -/
structure KindsOnly (t t' : Tree) : Prop where
  operation : ∀ x, t'.operation? x = t.operation? x
  labelOwner : ∀ x, t'.labelOwner? x = t.labelOwner? x
  isLabel : ∀ x, t'.isLabel x = t.isLabel x

theorem KindsOnly.of_mapKind (id : NodeId) (f : BlockKind → BlockKind) : t.KindsOnly (t.mapKind id f) where
  operation := operation?_mapKind t id f
  labelOwner x := by
    rw [labelOwner?, labelOwner?, content?_mapKind]
    by_cases hx : x = id
    · rw [if_pos hx]
      cases t.content? x with
      | none => rfl
      | some content => cases content <;> rfl
    · rw [if_neg hx]
  isLabel := (LinksOnly.of_mapKind id f).isLabel

theorem KindsOnly.trans {t'' : Tree} (h : t.KindsOnly t') (h' : t'.KindsOnly t'') : t.KindsOnly t'' where
  operation x := (h'.operation x).trans (h.operation x)
  labelOwner x := (h'.labelOwner x).trans (h.labelOwner x)
  isLabel x := (h'.isLabel x).trans (h.isLabel x)

theorem unlinkHandler_eq_ok_iff {handler : NodeId} :
    t.unlinkHandler handler = .ok t' ↔
      ∃ kind region filterBlock catchType,
        t.blockKind? handler = some (.handler kind region filterBlock catchType) ∧
          t' = (filterBlock.elim id fun filterBlock t => t.clearFilter filterBlock)
            ((region.elim id fun region t => t.dropHandler handler region)
              (t.mapKind handler fun _ => .handler kind none none catchType)) := by
  simp only [Tree.unlinkHandler, bind_eq_ok, blockKind_eq_ok_iff]
  constructor
  · rintro ⟨kind, hkind, h⟩
    split at h
    case h_1 kind region filterBlock catchType =>
      refine ⟨_, _, _, _, hkind, ?_⟩
      rw [← pure_eq_ok.mp h]
      cases region <;> cases filterBlock <;> rfl
    case h_2 => exact absurd h throw_ne_ok
  · rintro ⟨kind, region, filterBlock, catchType, hkind, rfl⟩
    refine ⟨_, hkind, ?_⟩
    cases region <;> cases filterBlock <;> rfl

theorem RegionEdit.kindsOnly (h : t.RegionEdit t') : t.KindsOnly t' := by
  cases h with
  | catchType h =>
    obtain ⟨_, _, _, _, rfl⟩ := setCatchType_eq_ok_iff.mp h
    exact .of_mapKind _ _
  | handler h =>
    obtain ⟨_, _, _, _, _, _, rfl⟩ := linkHandler_eq_ok_iff.mp h
    exact (KindsOnly.of_mapKind _ _).trans (.of_mapKind _ _)
  | filter h =>
    obtain ⟨_, _, _, _, rfl⟩ := linkFilter_eq_ok_iff.mp h
    exact (KindsOnly.of_mapKind _ _).trans (.of_mapKind _ _)
  | unlink h =>
    obtain ⟨_, region, filterBlock, _, _, rfl⟩ := unlinkHandler_eq_ok_iff.mp h
    cases region <;> cases filterBlock
    · exact .of_mapKind _ _
    · exact (KindsOnly.of_mapKind _ _).trans (.of_mapKind _ _)
    · exact (KindsOnly.of_mapKind _ _).trans (.of_mapKind _ _)
    · exact ((KindsOnly.of_mapKind _ _).trans (.of_mapKind _ _)).trans (.of_mapKind _ _)

/-! ## Stages -/

/-- One stage of an edit. -/
inductive Stage (t : Tree) : Tree → Prop
  | places {t' : Tree} (hpayload : ∀ x, t'.payload? x = t.payload? x) : Stage t t'
  | creates {t' : Tree} {content : Content}
      (hpayload : ∀ x, t'.payload? x = if x = ⟨t.size⟩ then some content else t.payload? x)
      (hnew : content = .label none ∨
        ∃ kind : BlockKind, kind.isLinked = false ∧ content = .block kind []) : Stage t t'
  | retypes {id : NodeId} {old operation : Operation NodeId} (hold : t.operation? id = some old)
      (htargets : operation.operand.targets = old.operand.targets) :
      Stage t (t.setOperation id operation)
  | unbinds (id : NodeId) : Stage t (t.unbindLabels id)
  | aims {id : NodeId} {old operation : Operation NodeId} (hold : t.operation? id = some old)
      (hfresh : ∀ label ∈ operation.operand.targets,
        t.isLabel label = true ∧ t.labelOwner? label = none)
      (hnodup : operation.operand.targets.Nodup) : Stage t (t.aim id operation)
  | relinks {t' : Tree} (h : RegionEdit t t') : Stage t t'

/-- The stages of an edit, one after the other. -/
abbrev Stages (t t' : Tree) : Prop := Relation.ReflTransGen Stage t t'

theorem stages_place {parent node : NodeId} {into : List NodeId → List NodeId}
    (h : t.place parent node into = .ok t') : Stages t t' := by
  obtain ⟨_, _, _, _, _, _, rfl⟩ := place_eq_ok_iff.mp h
  exact .single (.places payload?_attach)

theorem stages_insertBefore {anchor node : NodeId} (h : t.insertBefore anchor node = .ok t') :
    Stages t t' := by
  obtain ⟨parent, -, hplace⟩ := insertBefore_eq_ok_iff.mp h
  exact stages_place hplace

theorem stages_insertAfter {anchor node : NodeId} (h : t.insertAfter anchor node = .ok t') :
    Stages t t' := by
  obtain ⟨parent, -, hplace⟩ := insertAfter_eq_ok_iff.mp h
  exact stages_place hplace

theorem stages_newBlock {kind : BlockKind} {block : NodeId} (h : t.newBlock kind = .ok (block, t')) :
    Stages t t' := by
  obtain ⟨-, hlinked, -, rfl⟩ := newBlock_eq_ok_iff.mp h
  exact .single (.creates (payload?_push _) (Or.inr ⟨kind, hlinked, rfl⟩))

theorem stages_releaseBelow {block : NodeId} (h : t.releaseBelow block = .ok t') : Stages t t' :=
  releaseBelow_induction h .refl fun _ member hstages => hstages.tail (.unbinds member)

theorem stages_remove {node : NodeId} (h : t.remove node = .ok t') : Stages t t' := by
  obtain ⟨-, -, ⟨-, rfl⟩ | ⟨-, rfl⟩ | ⟨kind, released, -, -, hreleased, rfl⟩⟩ := remove_eq_ok_iff.mp h
  · exact .single (.places payload?_detach)
  · exact .tail (.single (.unbinds node)) (.places payload?_detach)
  · exact (stages_releaseBelow hreleased).tail (.places payload?_detach)

theorem stages_ungroup {block : NodeId} (h : t.ungroup block = .ok t') : Stages t t' := by
  obtain ⟨_, _, _, _, _, _, rfl⟩ := ungroup_eq_ok_iff.mp h
  exact .single (.places payload?_splice)

theorem stages_wraps {start stop : NodeId} {kind : BlockKind} {block : NodeId} {isNew : Bool}
    (h : Wraps t start stop kind block isNew t') : Stages t t' := by
  cases h with
  | reused => exact .refl
  | enclosed _ _ _ _ hlinks =>
    exact .single (.creates payload?_enclose (Or.inr ⟨kind, hlinks, rfl⟩))

theorem stages_group {start stop : NodeId} {kind : BlockKind} {block : NodeId}
    (h : t.group start stop kind = .ok (block, t')) : Stages t t' := by
  obtain ⟨isNew, hwraps⟩ := wraps_of_group h
  exact stages_wraps hwraps

theorem stages_setOpcode {id : NodeId} {opcode : Opcode} (h : t.setOpcode id opcode = .ok t') :
    Stages t t' := by
  obtain ⟨operation, hold, -, rfl⟩ := setOpcode_eq_ok_iff.mp h
  exact .single (.retypes hold rfl)

/-- An operand that suits an opcode that is no branch and no switch has no targets. -/
theorem targets_eq_nil_of_suits {operation : Operation NodeId} (hsuits : acceptsOperand operation = true)
    (hbranch : operation.opcode.isBranch = false) (hswitch : operation.opcode.isSwitch = false) :
    operation.operand.targets = [] := by
  obtain ⟨opcode, operand⟩ := operation
  simp only [acceptsOperand, Opcode.isBranch, Opcode.isSwitch] at hsuits hbranch hswitch
  cases operand <;> simp_all [Operand.fits, Operand.targets]

theorem OperandsSuit.stages_setOperand (hsuit : t.OperandsSuit) {id : NodeId} {operand : Operand NodeId}
    (h : t.setOperand id operand = .ok t') : Stages t t' := by
  obtain ⟨operation, hold, hfits, hbranch, hswitch, rfl⟩ := setOperand_eq_ok_iff.mp h
  have hsuits : acceptsOperand { operation with operand } = true := by
    rw [acceptsOperand, hfits, Bool.true_or]
  refine .single (.retypes hold ?_)
  rw [targets_eq_nil_of_suits (hsuit id operation hold) hbranch hswitch]
  exact targets_eq_nil_of_suits hsuits hbranch hswitch

theorem stages_placeLabels {anchors labels : List NodeId}
    (h : placeLabels anchors t = .ok (labels, t')) : Stages t t' := by
  induction anchors generalizing t labels with
  | nil =>
    obtain ⟨-, rfl⟩ := placeLabels_nil_eq_ok_iff.mp h
    exact .refl
  | cons anchor anchors ih =>
    obtain ⟨label, placed, others, hplaced, hdone, -⟩ := placeLabels_cons_eq_ok_iff.mp h
    exact .head (.creates (payload?_placeLabel hplaced) (Or.inl rfl)) (ih hdone)

/-- New labels are no instruction's yet, all different, and leave instructions alone. -/
theorem fresh_of_placed {placed : Tree} {id : NodeId} {old : Operation NodeId} {labels : List NodeId}
    {count : Nat} (hold : t.operation? id = some old)
    (hlabels : labels = (List.range' t.size count).map NodeId.mk)
    (hpayload : ∀ x, placed.payload? x = if x ∈ labels then some (.label none) else t.payload? x) :
    placed.operation? id = some old ∧
      (∀ label ∈ labels, placed.isLabel label = true ∧ placed.labelOwner? label = none) ∧
      labels.Nodup := by
  have hid : id ∉ labels := by
    intro hmem
    have hlt := index_lt_of_operation? hold
    rw [hlabels] at hmem
    obtain ⟨index, hindex, rfl⟩ := List.mem_map.mp hmem
    exact absurd (List.mem_range'_1.mp hindex).1 (Nat.not_le.mpr hlt)
  refine ⟨by rw [operation?_of_payload? ((hpayload id).trans (if_neg hid)), hold], fun label hmem => ?_, ?_⟩
  · have hlabel := payload?_eq_some_label.mp ((hpayload label).trans (if_pos hmem))
    exact ⟨by rw [isLabel, hlabel], by rw [labelOwner?, hlabel]⟩
  · rw [hlabels]
    exact (List.nodup_range' ..).map fun a b h => NodeId.mk.inj h

/-- An instruction is aimed at labels that are new. -/
theorem stages_aim {placed : Tree} {id : NodeId} {old operation : Operation NodeId} {labels : List NodeId}
    {count : Nat} (hold : t.operation? id = some old) (hplaced : Stages t placed)
    (hlabels : labels = (List.range' t.size count).map NodeId.mk)
    (hpayload : ∀ x, placed.payload? x = if x ∈ labels then some (.label none) else t.payload? x)
    (htargets : operation.operand.targets = labels) : Stages t (placed.aim id operation) := by
  obtain ⟨hkept, hfresh, hnodup⟩ := fresh_of_placed hold hlabels hpayload
  exact hplaced.tail (.aims hkept (htargets ▸ hfresh) (htargets ▸ hnodup))

theorem stages_setBranchTarget {id target label : NodeId}
    (h : t.setBranchTarget id target = .ok (label, t')) : Stages t t' := by
  obtain ⟨operation, placed, hold, -, hplaced, rfl⟩ := setBranchTarget_eq_ok_iff.mp h
  have hpayload := payload?_placeLabel hplaced
  obtain ⟨-, -, rfl, -⟩ := placeLabel_eq_ok_iff.mp hplaced
  have hlabels : [(⟨t.size⟩ : NodeId)] = (List.range' t.size 1).map NodeId.mk := rfl
  refine stages_aim hold (.single (.creates hpayload (Or.inl rfl))) hlabels (fun x => ?_) rfl
  simp only [hpayload, List.mem_singleton]

theorem stages_setSwitchTargets {id : NodeId} {targets labels : List NodeId}
    (h : t.setSwitchTargets id targets = .ok (labels, t')) : Stages t t' := by
  obtain ⟨operation, placed, hold, -, -, hplaced, rfl⟩ := setSwitchTargets_eq_ok_iff.mp h
  obtain ⟨hlabels, hpayload⟩ := labels_of_placeLabels hplaced
  exact stages_aim hold (stages_placeLabels hplaced) hlabels hpayload rfl

/-! ## New instructions -/

theorem checkUnbound_eq_ok_iff {label : NodeId} :
    t.checkUnbound label = .ok () ↔ t.content? label = some (.label none) := by
  unfold checkUnbound Tree.content
  cases t.content? label with
  | none => simp [bind, Except.bind]
  | some content =>
    rcases content with _ | _ | (_ | owner) <;>
      simp [bind, Except.bind, pure, Except.pure, throw, throwThe, MonadExceptOf.throw]

theorem forM_checkUnbound {labels : List NodeId} (h : labels.forM t.checkUnbound = .ok ()) :
    ∀ label ∈ labels, t.content? label = some (.label none) := by
  induction labels with
  | nil => exact fun label hmem => absurd hmem List.not_mem_nil
  | cons first labels ih =>
    obtain ⟨_, hfirst, hrest⟩ := bind_eq_ok.mp h
    intro label hmem
    rcases List.mem_cons.mp hmem with rfl | hmem
    · exact checkUnbound_eq_ok_iff.mp hfirst
    · exact ih hrest label hmem

/-- An instruction is refused before it exists, or its labels are bound as long as they are unbound. -/
theorem newInstruction_cases (t : Tree) (operation : Operation NodeId) :
    (t.newInstruction operation).2 = t ∨
      (∀ label ∈ operation.operand.targets, t.content? label = some (.label none)) ∧
        (t.newInstruction operation).2 = (bindLabels ⟨t.size⟩ operation.operand.targets
          (t.push (.instruction operation)).2).2 := by
  simp only [newInstruction]
  split
  · exact Or.inl rfl
  · split
    case h_1 => exact Or.inl rfl
    case h_2 hunbound =>
      refine Or.inr ⟨forM_checkUnbound hunbound, ?_⟩
      split
      case h_1 heq => rw [← push_fst, heq]
      case h_2 heq => rw [← push_fst, heq]

/-- Binding labels changes nothing but owners. -/
theorem bindLabels_views (owner : NodeId) (labels : List NodeId) (t : Tree) :
    (∀ x, (bindLabels owner labels t).2.operation? x = t.operation? x) ∧
      (∀ x, (bindLabels owner labels t).2.blockKind? x = t.blockKind? x) ∧
        ∀ x, (bindLabels owner labels t).2.isLabel x = t.isLabel x := by
  induction labels generalizing t with
  | nil => exact ⟨fun _ => rfl, fun _ => rfl, fun _ => rfl⟩
  | cons label labels ih =>
    unfold bindLabels
    split
    · exact ⟨fun _ => rfl, fun _ => rfl, fun _ => rfl⟩
    · obtain ⟨hoperation, hkind, hlabel⟩ := ih (t.setOwner label (some owner))
      exact ⟨fun x => by rw [hoperation, operation?_setOwner],
        fun x => by rw [hkind, blockKind?_setOwner],
        fun x => by rw [hlabel, (LinksOnly.of_setOwner label (some owner)).isLabel]⟩

/-- Labels that are unbound and listed once are all bound. -/
theorem bindLabels_of_unbound (owner : NodeId) {labels : List NodeId} (hnodup : labels.Nodup)
    (hunbound : ∀ label ∈ labels, t.content? label = some (.label none)) :
    bindLabels owner labels t = (.ok (), labels.foldl (fun t label => t.setOwner label (some owner)) t) := by
  induction labels generalizing t with
  | nil => rfl
  | cons label labels ih =>
    obtain ⟨hfresh, hnodup⟩ := List.nodup_cons.mp hnodup
    rw [bindLabels, checkUnbound_eq_ok_iff.mpr (hunbound label List.mem_cons_self)]
    refine ih hnodup fun other hother => ?_
    have hne : other ≠ label := fun heq => hfresh (heq ▸ hother)
    rw [content?_setOwner, if_neg hne]
    exact hunbound other (List.mem_cons_of_mem label hother)

/-- The creation of an instruction makes no block and no label, and none ends. -/
theorem newInstruction_views (t : Tree) (operation : Operation NodeId) (x : NodeId) :
    (t.newInstruction operation).2.blockKind? x = t.blockKind? x ∧
      (t.newInstruction operation).2.isLabel x = t.isLabel x := by
  rcases newInstruction_cases t operation with hrefused | ⟨-, hcreated⟩
  · rw [hrefused]
    exact ⟨rfl, rfl⟩
  obtain ⟨-, hkind, hlabel⟩ := bindLabels_views ⟨t.size⟩ operation.operand.targets
    (t.push (.instruction operation)).2
  rw [hcreated, hkind, hlabel, blockKind?, blockKind?, isLabel, isLabel, content?_push]
  by_cases hx : x = ⟨t.size⟩
  · rw [if_pos hx, hx, content?_size]
    exact ⟨rfl, rfl⟩
  · rw [if_neg hx]
    exact ⟨rfl, rfl⟩

/-- The labels of an instruction that has just been created were labels before. -/
theorem mem_labelsOf_newInstruction {operation : Operation NodeId} {x label : NodeId}
    (h : label ∈ (t.newInstruction operation).2.labelsOf x) :
    label ∈ t.labelsOf x ∨ t.isLabel label = true := by
  rcases newInstruction_cases t operation with hrefused | ⟨hunbound, hcreated⟩
  · rw [hrefused] at h
    exact Or.inl h
  obtain ⟨hoperation, -, -⟩ := bindLabels_views ⟨t.size⟩ operation.operand.targets
    (t.push (.instruction operation)).2
  rw [hcreated, labelsOf, hoperation, operation?, content?_push] at h
  by_cases hx : x = ⟨t.size⟩
  · rw [if_pos hx] at h
    have hlabel := hunbound label h
    exact Or.inr (by rw [isLabel, hlabel])
  · rw [if_neg hx] at h
    exact Or.inl h

/-- The parts of lifting take stages. -/
theorem stages_parts : LiftingParts Stages where
  refl _ := .refl
  trans h h' := h.trans h'
  wraps h _ _ := stages_wraps h
  ungroup h := stages_ungroup h
  linkHandler h := .single (.relinks (.handler h))
  linkFilter h := .single (.relinks (.filter h))
  setCatchType h := .single (.relinks (.catchType h))
  setBranchTarget h := stages_setBranchTarget h
  setSwitchTargets h := stages_setSwitchTargets h

end Tree

namespace Edit

/-- Every edit but the creation of an instruction takes stages, whether it is carried out or refused. -/
theorem stages_run {t : Tree} (hsuit : t.OperandsSuit) {edit : Edit}
    (hedit : ∀ operation, edit ≠ .newInstruction operation) : t.Stages (edit.run t).2 := by
  cases edit with
  | newInstruction operation => exact absurd rfl (hedit operation)
  | newBlock kind => exact settle_answering_of .refl fun id changed h => Tree.stages_newBlock h
  | newLabel =>
    refine settle_answering_of .refl fun id changed h => ?_
    have hpush : t.Stage (t.push (.label none)).2 := .creates (Tree.payload?_push _) (Or.inl rfl)
    rw [Tree.newLabel, Except.ok.injEq] at h
    rw [h] at hpush
    exact .single hpush
  | append parent node => exact settle_silently_of .refl fun changed h => Tree.stages_place h
  | prepend parent node => exact settle_silently_of .refl fun changed h => Tree.stages_place h
  | insertBefore anchor node =>
    exact settle_silently_of .refl fun changed h => Tree.stages_insertBefore h
  | insertAfter anchor node =>
    exact settle_silently_of .refl fun changed h => Tree.stages_insertAfter h
  | remove node => exact settle_silently_of .refl fun changed h => Tree.stages_remove h
  | ungroup block => exact settle_silently_of .refl fun changed h => Tree.stages_ungroup h
  | group start stop kind => exact settle_answering_of .refl fun id changed h => Tree.stages_group h
  | setOpcode node opcode =>
    refine settle_of .refl fun reply changed h => ?_
    obtain ⟨t', h, hchanged⟩ := map_eq_ok.mp h
    rw [← (Prod.mk.inj hchanged).2]
    exact Tree.stages_setOpcode h
  | setOperand node operand =>
    refine settle_of .refl fun reply changed h => ?_
    obtain ⟨t', h, hchanged⟩ := map_eq_ok.mp h
    rw [← (Prod.mk.inj hchanged).2]
    exact hsuit.stages_setOperand h
  | setCatchType handler token =>
    exact settle_silently_of .refl fun changed h => .single (.relinks (.catchType h))
  | linkHandler region handler =>
    exact settle_silently_of .refl fun changed h => .single (.relinks (.handler h))
  | linkFilter filterBlock handler =>
    exact settle_silently_of .refl fun changed h => .single (.relinks (.filter h))
  | unlinkHandler handler =>
    exact settle_silently_of .refl fun changed h => .single (.relinks (.unlink h))
  | setBranchTarget node target =>
    exact settle_answering_of .refl fun id changed h => Tree.stages_setBranchTarget h
  | setSwitchTargets node targets =>
    refine settle_of .refl fun reply changed h => ?_
    split at h
    · next labels done heq =>
      rw [← (Prod.mk.inj (Except.ok.inj h)).2]
      exact Tree.stages_setSwitchTargets heq
    · exact absurd h (by simp)
  | setHeader header => exact .single (.places fun _ => rfl)

end Edit

namespace Tree

variable {t t' : Tree}

/-- What holds of bare code and is kept by stages and by the creation of instructions holds of every
tree that can be made. -/
theorem ReachableBy.induction_stages {allowed : Edit → Prop} {P : Tree → Prop} (h : t.ReachableBy allowed)
    (hcode : ∀ header code, P (ofCode header code)) (hstage : ∀ t t', P t → Stage t t' → P t')
    (hnew : ∀ t operation, allowed (.newInstruction operation) → P t →
      P (t.newInstruction operation).2) : P t := by
  have hstages : ∀ t t', P t → Stages t t' → P t' := by
    intro t t' ht hsteps
    induction hsteps with
    | refl => exact ht
    | tail _ hnext ih => exact hstage _ _ ih hnext
  induction h with
  | new header => exact hcode header []
  | lifted h => exact hstages _ _ (hcode _ _) (stages_parts.ofBody h)
  | edited h edit hedit ih =>
    by_cases hcreates : ∃ operation, edit = .newInstruction operation
    · obtain ⟨operation, rfl⟩ := hcreates
      exact hnew _ operation hedit ih
    · exact hstages _ _ ih (Edit.stages_run h.reachable.operandsSuit fun operation heq =>
        hcreates ⟨operation, heq⟩)

/-! ## What stages keep -/

section Creates

variable {content : Content}
  (hpayload : ∀ x, t'.payload? x = if x = ⟨t.size⟩ then some content else t.payload? x)
  (hnew : content = .label none ∨
    ∃ kind : BlockKind, kind.isLinked = false ∧ content = .block kind [])

include hpayload hnew

/-- A new label or block is added as it is. -/
theorem payload?_eq_push (x : NodeId) : t'.payload? x = (t.push content).2.payload? x := by
  have hleaf : content.mapChildren (fun _ => []) = content := by
    rcases hnew with rfl | ⟨kind, -, rfl⟩ <;> rfl
  rw [hpayload, payload?_push, hleaf]

/-- A new label or block is no instruction. -/
theorem operation?_of_creates (x : NodeId) : t'.operation? x = t.operation? x := by
  rw [operation?_of_payload? (payload?_eq_push hpayload hnew x), operation?, operation?, content?_push]
  by_cases hx : x = ⟨t.size⟩
  · rw [if_pos hx, hx, content?_size]
    rcases hnew with rfl | ⟨kind, -, rfl⟩ <;> rfl
  · rw [if_neg hx]

/-- No instruction refers to a new label. -/
theorem labelOwner?_of_creates (x : NodeId) : t'.labelOwner? x = t.labelOwner? x := by
  rw [labelOwner?_of_payload? (payload?_eq_push hpayload hnew x), labelOwner?, labelOwner?, content?_push]
  by_cases hx : x = ⟨t.size⟩
  · rw [if_pos hx, hx, content?_size]
    rcases hnew with rfl | ⟨kind, -, rfl⟩ <;> rfl
  · rw [if_neg hx]

omit hnew in
theorem isLabel_of_creates {x : NodeId} (h : t.isLabel x = true) : t'.isLabel x = true := by
  rw [isLabel_of_payload? ((hpayload x).trans (if_neg _)), h]
  rintro rfl
  rw [isLabel, content?_size] at h
  exact absurd h (by simp)

/-- A new block mentions no region. -/
theorem blockKind?_of_creates (x : NodeId) : t'.blockKind? x = t.blockKind? x ∨
    t.blockKind? x = none ∧ ∃ kind, t'.blockKind? x = some kind ∧ kind.isLinked = false := by
  rw [blockKind?_of_payload? (payload?_eq_push hpayload hnew x), blockKind?, blockKind?, content?_push]
  by_cases hx : x = ⟨t.size⟩
  · rw [if_pos hx, hx, content?_size]
    rcases hnew with rfl | ⟨kind, hlinks, rfl⟩
    · exact Or.inl rfl
    · exact Or.inr ⟨rfl, kind, rfl, hlinks⟩
  · rw [if_neg hx]
    exact Or.inl rfl

end Creates

end Tree

end MethodIL
