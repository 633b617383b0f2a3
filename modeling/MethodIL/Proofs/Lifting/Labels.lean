import Mathlib
import MethodIL.Proofs.Body.Agreement
import MethodIL.Proofs.Lifting.Clauses
set_option autoImplicit false

/-!
# Labels of lifted branches

The label of a jump goes in front of the instruction that the jump leads to, or in front of a block
that starts with this instruction.  Either way it covers nothing at the place of the instruction, and
all labels that are placed later leave it there.  A label is made for one offset: the instruction that
holds the offset owns the label and refers to it once, and no other instruction refers to it.
-/

namespace MethodIL

open Outcome

namespace Tree

variable {t t' : Tree} {x : Body} {map : CodeMap}

/-! ## Anchors -/

namespace WellFormed

variable (wf : t.WellFormed)

include wf

/-- A node that leads its block starts where the block starts. -/
theorem covers_of_leadsBlock {id parent : NodeId} {first last : Nat}
    (hparent : t.parent? id = some parent) (hleads : t.leadsBlock id = true)
    (hcovers : t.Covers id first last) : ∃ last', t.Covers parent first last' := by
  obtain ⟨before, after, hchildren⟩ := List.append_of_mem ((wf.parent_iff id parent).mp hparent)
  have hfront : (before ++ id :: after).takeWhile (fun y => decide (y ≠ id)) = before := by
    rw [List.takeWhile_append_of_pos, List.takeWhile_cons_of_neg (by simp), List.append_nil]
    intro y hy
    simpa using ne_of_mem_of_not_mem hy (wf.notMem_before hchildren)
  rw [leadsBlock, siblings, hparent] at hleads
  simp only [hchildren, hfront, List.all_eq_true] at hleads
  exact wf.covers_of_first hchildren hleads hcovers

theorem covers_of_raiseTo {level depth : Nat} {id : NodeId} {first last : Nat}
    (hcovers : t.Covers id first last) :
    ∃ last', t.Covers (t.raiseTo level depth id) first last' := by
  induction depth generalizing id last with
  | zero => exact ⟨last, hcovers⟩
  | succ depth ih =>
    rw [raiseTo]
    split
    case isTrue hraise =>
      split
      case h_1 parent hparent =>
        split
        case isTrue => exact ⟨last, hcovers⟩
        case isFalse =>
          rw [Bool.and_eq_true] at hraise
          obtain ⟨last', hcovers'⟩ := wf.covers_of_leadsBlock hparent hraise.2 hcovers
          exact ih hcovers'
      case h_2 => exact ⟨last, hcovers⟩
    case isFalse => exact ⟨last, hcovers⟩

/-- The node that a label goes in front of starts where the target starts. -/
theorem covers_labelAnchor (branch : NodeId) (isLeave : Bool) {target : NodeId} {first last : Nat}
    (hcovers : t.Covers target first last) :
    ∃ last', t.Covers (t.labelAnchor branch target isLeave) first last' :=
  wf.covers_of_raiseTo hcovers

end WellFormed

/-! ## Placing labels -/

/-- New labels have been placed at places of the code, and otherwise the nodes are what they were and
cover what they covered. -/
structure PlacesLabels (t t' : Tree) (labels : List NodeId) (targets : List Nat) : Prop where
  wellFormed : t'.WellFormed
  header : t'.header = t.header
  kinds : ∀ id, t'.blockKind? id = t.blockKind? id
  operation : ∀ id, t'.operation? id = t.operation? id
  instructions : t'.instructions = t.instructions
  covers : ∀ id first last, t.Covers id first last → t'.Covers id first last
  kept : ∀ id, t.isLabel id = true → t'.isLabel id = true
  placed : List.Forall₂ (fun label target => t'.isLabel label = true ∧ t'.Covers label target target)
    labels targets
  only : ∀ id, t'.isLabel id = true → t.isLabel id = true ∨ id ∈ labels
  nodup : labels.Nodup
  fresh : ∀ label ∈ labels, t.isLabel label = false
  owners : ∀ id, t'.labelOwner? id = t.labelOwner? id

namespace PlacesLabels

variable {labels : List NodeId} {targets : List Nat}

theorem refl (wf : t.WellFormed) : t.PlacesLabels t [] [] :=
  ⟨wf, rfl, fun _ => rfl, fun _ => rfl, rfl, fun _ _ _ h => h, fun _ h => h, .nil, fun _ h => Or.inl h,
    .nil, by simp, fun _ => rfl⟩

theorem trans {t'' : Tree} {labels' : List NodeId} {targets' : List Nat}
    (h : t.PlacesLabels t' labels targets) (h' : t'.PlacesLabels t'' labels' targets') :
    t.PlacesLabels t'' (labels ++ labels') (targets ++ targets') where
  wellFormed := h'.wellFormed
  header := h'.header.trans h.header
  kinds id := (h'.kinds id).trans (h.kinds id)
  operation id := (h'.operation id).trans (h.operation id)
  instructions := h'.instructions.trans h.instructions
  covers _ _ _ hcovers := h'.covers _ _ _ (h.covers _ _ _ hcovers)
  kept id hlabel := h'.kept id (h.kept id hlabel)
  placed := List.rel_append
    (h.placed.imp fun _ _ hplaced => ⟨h'.kept _ hplaced.1, h'.covers _ _ _ hplaced.2⟩) h'.placed
  only id hlabel := by
    rcases h'.only id hlabel with hbefore | hmem
    · exact (h.only id hbefore).imp_right fun hmem => List.mem_append_left _ hmem
    · exact Or.inr (List.mem_append_right _ hmem)
  nodup := by
    refine List.nodup_append.mpr ⟨h.nodup, h'.nodup, ?_⟩
    rintro label hmem _ hmem' rfl
    obtain ⟨_, -, hlabel, -⟩ := exists_of_mem_right h.placed.flip hmem
    rw [h'.fresh label hmem'] at hlabel
    exact absurd hlabel (by simp)
  fresh label hmem := by
    rcases List.mem_append.mp hmem with hmem | hmem
    · exact h.fresh label hmem
    · rw [Bool.eq_false_iff]
      intro hlabel
      have hfresh := h'.fresh label hmem
      rw [h.kept label hlabel] at hfresh
      exact absurd hfresh (by simp)
  owners id := (h'.owners id).trans (h.owners id)

/-- A label in front of a node is placed where the node starts. -/
theorem of_placeLabel (wf : t.WellFormed) {anchor label : NodeId} {target last : Nat}
    (h : t.placeLabel anchor = .ok (label, t')) (hanchor : t.Covers anchor target last) :
    t.PlacesLabels t' [label] [target] := by
  obtain ⟨hdissolves, hpayload, hcovers⟩ := wf.dissolves_placeLabel h
  obtain ⟨parent, -, rfl, hplaced⟩ := placeLabel_eq_ok_iff.mp h
  have hlabel := payload?_eq_some_label.mp ((hpayload ⟨t.size⟩).trans (if_pos rfl))
  have hisLabel : t'.isLabel ⟨t.size⟩ = true := by rw [isLabel, hlabel]
  have hother : ∀ id, id ≠ ⟨t.size⟩ → t'.payload? id = t.payload? id := fun id hid => by
    rw [hpayload, if_neg hid]
  refine ⟨hdissolves.before, by rw [hplaced]; rfl, fun id => ?_, fun id => ?_,
    hdissolves.instructions.symm, fun _ _ _ => hdissolves.covers_of_new, fun id hid => ?_,
    .cons ⟨hisLabel, hcovers _ _ hanchor⟩ .nil, fun id hid => ?_, List.nodup_singleton _,
    fun label hmem => ?_, fun id => ?_⟩
  · by_cases heq : id = ⟨t.size⟩
    · rw [heq, blockKind?, blockKind?, hlabel, content?_size]
    · exact blockKind?_of_payload? (hother id heq)
  · by_cases heq : id = ⟨t.size⟩
    · rw [heq, operation?, operation?, hlabel, content?_size]
    · exact operation?_of_payload? (hother id heq)
  · by_cases heq : id = ⟨t.size⟩
    · rw [heq, hisLabel]
    · rw [isLabel_of_payload? (hother id heq), hid]
  · by_cases heq : id = ⟨t.size⟩
    · exact Or.inr (heq ▸ List.mem_singleton_self id)
    · exact Or.inl (by rw [← hid, isLabel_of_payload? (hother id heq)])
  · rw [List.mem_singleton.mp hmem, isLabel, content?_size]
  · by_cases heq : id = ⟨t.size⟩
    · rw [heq, labelOwner?, labelOwner?, hlabel, content?_size]
    · exact labelOwner?_of_payload? (hother id heq)

/-- Labels in front of nodes are placed where the nodes start. -/
theorem of_placeLabels {anchors : List NodeId} (wf : t.WellFormed)
    (h : placeLabels anchors t = .ok (labels, t'))
    (hanchors : List.Forall₂ (fun anchor target => ∃ last, t.Covers anchor target last) anchors
      targets) : t.PlacesLabels t' labels targets := by
  induction anchors generalizing t labels targets with
  | nil =>
    cases hanchors
    obtain ⟨rfl, rfl⟩ := placeLabels_nil_eq_ok_iff.mp h
    exact .refl wf
  | cons anchor anchors ih =>
    cases hanchors with
    | cons hanchor hanchors =>
      obtain ⟨label, placed, others, hplaced, hdone, rfl⟩ := placeLabels_cons_eq_ok_iff.mp h
      obtain ⟨last, hanchor⟩ := hanchor
      have hfirst := of_placeLabel wf hplaced hanchor
      refine hfirst.trans (ih hfirst.wellFormed hdone (hanchors.imp fun _ _ hcovers => ?_))
      obtain ⟨last, hcovers⟩ := hcovers
      exact ⟨last, hfirst.covers _ _ _ hcovers⟩

end PlacesLabels

/-! ## Aiming -/

theorem LinksOnly.of_setOwner (id : NodeId) (owner : Option NodeId) :
    t.LinksOnly (t.setOwner id owner) := by
  refine ⟨rfl, children_setOwner t id owner, operation?_setOwner t id owner, fun y => ?_⟩
  unfold Tree.isLabel
  rw [content?_setOwner]
  by_cases hy : y = id
  · rw [if_pos hy]
    cases t.content? y with
    | none => rfl
    | some content => cases content <;> rfl
  · rw [if_neg hy]

theorem labelOwner?_setOwner (id : NodeId) (owner : Option NodeId) (y : NodeId) :
    (t.setOwner id owner).labelOwner? y =
      if y = id ∧ t.isLabel y = true then owner else t.labelOwner? y := by
  rw [labelOwner?, labelOwner?, isLabel, content?_setOwner]
  by_cases hy : y = id
  · rw [if_pos hy]
    cases t.content? y with
    | none => simp
    | some content => cases content <;> simp [Content.setOwner, hy]
  · rw [if_neg hy, if_neg (fun h => hy h.1)]

theorem LinksOnly.of_setOwners (labels : List NodeId) (owner : Option NodeId) (t : Tree) :
    t.LinksOnly (labels.foldl (fun t label => t.setOwner label owner) t) ∧
      (∀ y, (labels.foldl (fun t label => t.setOwner label owner) t).blockKind? y = t.blockKind? y) ∧
        ∀ y, (labels.foldl (fun t label => t.setOwner label owner) t).labelOwner? y =
          if y ∈ labels ∧ t.isLabel y = true then owner else t.labelOwner? y := by
  induction labels generalizing t with
  | nil => exact ⟨⟨rfl, fun _ => rfl, fun _ => rfl, fun _ => rfl⟩, fun _ => rfl, by simp⟩
  | cons label labels ih =>
    have hfirst := LinksOnly.of_setOwner (t := t) label owner
    obtain ⟨honly, hkinds, howners⟩ := ih (t.setOwner label owner)
    refine ⟨hfirst.trans honly, fun y => ?_, fun y => ?_⟩
    · rw [List.foldl_cons, hkinds, blockKind?_setOwner]
    · rw [List.foldl_cons, howners, hfirst.isLabel, labelOwner?_setOwner]
      simp only [List.mem_cons]
      by_cases hlabel : t.isLabel y = true
      · by_cases hmem : y ∈ labels <;> simp [hlabel, hmem]
      · simp [hlabel]

theorem isLabel_setOperation (id : NodeId) (operation : Operation NodeId) (y : NodeId) :
    (t.setOperation id operation).isLabel y = t.isLabel y := by
  rw [isLabel, isLabel, content?_setOperation]
  by_cases hy : y = id
  · rw [if_pos hy]
    cases t.content? y with
    | none => rfl
    | some content => cases content <;> rfl
  · rw [if_neg hy]

theorem labelOwner?_setOperation (id : NodeId) (operation : Operation NodeId) (y : NodeId) :
    (t.setOperation id operation).labelOwner? y = t.labelOwner? y := by
  rw [labelOwner?, labelOwner?, content?_setOperation]
  by_cases hy : y = id
  · rw [if_pos hy]
    cases t.content? y with
    | none => rfl
    | some content => cases content <;> rfl
  · rw [if_neg hy]

/-- Aiming an instruction that has no labels gives it a new operation and its labels, and changes
nothing else of what nodes are. -/
structure Aiming (t t' : Tree) (id : NodeId) (operation : Operation NodeId) : Prop where
  dissolves : t'.Dissolves ⟨t.size⟩ t
  header : t'.header = t.header
  kinds : ∀ y, t'.blockKind? y = t.blockKind? y
  labelOwner : ∀ y, t'.labelOwner? y =
    if y ∈ operation.operand.targets ∧ t.isLabel y = true then some id else t.labelOwner? y
  operation : ∀ y, t'.operation? y = if y = id then some operation else t.operation? y
  isLabel : ∀ y, t'.isLabel y = t.isLabel y

theorem WellFormed.aiming (wf : t.WellFormed) {id : NodeId} {old : Operation NodeId}
    (hold : t.operation? id = some old) (hfree : old.operand.targets = [])
    (operation : Operation NodeId) : t.Aiming (t.aim id operation) id operation := by
  have hreleased : t.unbindLabels id = t := by
    rw [unbindLabels, hold]
    simp [hfree]
  have wf' := wf.aimed id operation
  obtain ⟨honly, hkinds, howners⟩ := LinksOnly.of_setOwners operation.operand.targets (some id)
    (t.setOperation id operation)
  have hoperation : ∀ y, (t.aim id operation).operation? y =
      if y = id then some operation else t.operation? y := by
    intro y
    rw [aim, hreleased]
    refine (honly.operation y).trans ?_
    rw [operation?_setOperation]
    by_cases hy : y = id
    · rw [if_pos hy, if_pos hy, hy, hold, Option.map_some]
    · rw [if_neg hy, if_neg hy]
  refine ⟨wf.dissolves_of_shape wf' (fun y => ?_) (fun y => ?_), ?_, fun y => ?_, fun y => ?_,
    hoperation, fun y => ?_⟩
  · rw [aim, hreleased]
    exact (honly.children y).trans (children_setOperation t id operation y)
  · rw [isInstruction, isInstruction, hoperation]
    by_cases hy : y = id
    · rw [if_pos hy, hy, hold]
      rfl
    · rw [if_neg hy]
  · rw [aim, hreleased]
    exact honly.header
  · rw [aim, hreleased]
    exact (hkinds y).trans (blockKind?_setOperation id operation y)
  · rw [aim, hreleased]
    refine (howners y).trans ?_
    rw [isLabel_setOperation, labelOwner?_setOperation]
  · rw [aim, hreleased]
    exact (honly.isLabel y).trans (isLabel_setOperation id operation y)

/-- What the nodes refer to behind the aiming. -/
theorem Aiming.labelsOf {id : NodeId} {operation : Operation NodeId} (h : t.Aiming t' id operation)
    (y : NodeId) : t'.labelsOf y = if y = id then operation.operand.targets else t.labelsOf y := by
  rw [Tree.labelsOf, h.operation]
  by_cases hy : y = id
  · rw [if_pos hy, if_pos hy]
    rfl
  · rw [if_neg hy, if_neg hy]
    rfl

/-! ## The instructions of a body -/

/-- A label marks the instruction that an offset lands on. -/
def Marks (t : Tree) (x : Body) (k : Nat) (label : NodeId) (offset : Int32) : Prop :=
  t.isLabel label = true ∧ ∃ target, t.Covers label target target ∧ x.Lands k offset target

/-- The first `count` instructions of a body refer to labels that mark what their offsets land on, the
others refer to none yet, and every label marks an instruction.  Every label belongs to the one
instruction that refers to it, and the instruction does so once. -/
structure Aimed (t : Tree) (x : Body) (count : Nat) : Prop where
  operations : ∀ (k : Nat) (i : Instruction), x.instructions[k]? = some i → ∃ operand,
    t.operation? (instructionNode k) = some ⟨i.opcode, operand⟩ ∧
      if k < count then operand.Matches (t.Marks x k) i.operand
      else operand = i.operand.withoutTargets
  labels : ∀ id, t.isLabel id = true → ∃ k < x.instructions.length, t.Covers id k k
  owned : ∀ id label, label ∈ t.labelsOf id → t.labelOwner? label = some id
  nodup : ∀ id, (t.labelsOf id).Nodup
  referenced : ∀ id, t.isLabel id = true →
    ∃ k < x.instructions.length, id ∈ t.labelsOf (instructionNode k)

theorem isLabel_of_labelOwner? {label owner : NodeId} (h : t.labelOwner? label = some owner) :
    t.isLabel label = true := by
  unfold labelOwner? at h
  split at h
  case h_1 hlabel => rw [isLabel, hlabel]
  case h_2 => exact absurd h (by simp)

theorem Marks.mono {k : Nat} {label : NodeId} {offset : Int32} (h : t.Marks x k label offset)
    (hlabel : ∀ id, t.isLabel id = true → t'.isLabel id = true)
    (hcovers : ∀ id first last, t.Covers id first last → t'.Covers id first last) :
    t'.Marks x k label offset := by
  obtain ⟨hisLabel, target, hlabelCovers, hlands⟩ := h
  exact ⟨hlabel _ hisLabel, target, hcovers _ _ _ hlabelCovers, hlands⟩

/-- What keeps the kinds of blocks, the code and the coverage still carries the clauses. -/
theorem Carries.of_kinds {clauses : List Clause} {handlers : List NodeId}
    (h : t.Carries x clauses handlers) (wf' : t'.WellFormed) (hheader : t'.header = t.header)
    (hkinds : ∀ id, t'.blockKind? id = t.blockKind? id)
    (hinstructions : t'.instructions = t.instructions)
    (hcovers : ∀ id first last, t.Covers id first last → t'.Covers id first last) :
    t'.Carries x clauses handlers := by
  refine ⟨wf', hheader.trans h.header, hinstructions.trans h.code,
    h.clauses.imp fun _ _ hclause => ?_, h.nodup, ?_, fun region listed hlisted => ?_, fun id => ?_⟩
  · exact hclause.mono (fun _ _ _ _ hkind => (hkinds _).trans hkind)
      (fun _ listed hlisted => ⟨listed, (hkinds _).trans hlisted⟩) hcovers
  · simp only [hkinds]
    exact h.filters
  · rw [hkinds] at hlisted
    simp only [protectedBy?, hkinds]
    exact h.links region listed hlisted
  · have hclosed := h.closed id
    rwa [isOpenRegion, ← hkinds] at hclosed

/-- Aiming the next instruction at labels that have been placed where its offsets land. -/
theorem Aimed.aim {count : Nat} {i : Instruction} {placed : Tree} {labels : List NodeId}
    {targets : List Nat} {operand : Operand NodeId} (h : t.Aimed x count)
    (hi : x.instructions[count]? = some i) (hplaces : t.PlacesLabels placed labels targets)
    (hlt : ∀ target ∈ targets, target < x.instructions.length) (hlabels : operand.targets = labels)
    (hmatches : operand.Matches (placed.Marks x count) i.operand) :
    placed.Aiming (placed.aim (instructionNode count) ⟨i.opcode, operand⟩) (instructionNode count)
        ⟨i.opcode, operand⟩ ∧
      (placed.aim (instructionNode count) ⟨i.opcode, operand⟩).Aimed x (count + 1) := by
  obtain ⟨old, hold, hplain⟩ := h.operations count i hi
  rw [if_neg (Nat.lt_irrefl count)] at hplain
  have hfree : old.targets = [] := by
    rw [hplain]
    cases i.operand <;> rfl
  have haiming := hplaces.wellFormed.aiming ((hplaces.operation _).trans hold) hfree
    ⟨i.opcode, operand⟩
  have hlabel : ∀ id, placed.isLabel id = true →
      (placed.aim (instructionNode count) ⟨i.opcode, operand⟩).isLabel id = true :=
    fun id hid => (haiming.isLabel id).trans hid
  have hcovers := fun id first last (hcovers : placed.Covers id first last) =>
    haiming.dissolves.covers_of_new hcovers
  have hcount := (List.getElem?_eq_some_iff.mp hi).1
  have hlabelsOf : ∀ id, (placed.aim (instructionNode count) ⟨i.opcode, operand⟩).labelsOf id =
      if id = instructionNode count then labels else t.labelsOf id := by
    intro id
    rw [haiming.labelsOf, hlabels, labelsOf, labelsOf, hplaces.operation]
  refine ⟨haiming, fun k j hj => ?_, fun id hid => ?_, fun id label hlabel => ?_, fun id => ?_,
    fun id hid => ?_⟩
  · by_cases hk : k = count
    · subst hk
      obtain rfl := Option.some.inj (hi.symm.trans hj)
      refine ⟨operand, by rw [haiming.operation, if_pos rfl], ?_⟩
      rw [if_pos (Nat.lt_succ_self k)]
      exact hmatches.imp fun _ _ hmarks => hmarks.mono hlabel hcovers
    · obtain ⟨known, hknown, hform⟩ := h.operations k j hj
      refine ⟨known, ?_, ?_⟩
      · rw [haiming.operation, if_neg (fun heq => hk (instructionNode_injective heq)),
          hplaces.operation, hknown]
      · split at hform
        case isTrue hlt' =>
          rw [if_pos (by omega)]
          exact hform.imp fun _ _ hmarks => (hmarks.mono hplaces.kept hplaces.covers).mono hlabel
            hcovers
        case isFalse hle =>
          rw [if_neg (by omega)]
          exact hform
  · rw [haiming.isLabel] at hid
    rcases hplaces.only id hid with hbefore | hmem
    · obtain ⟨k, hk, hlabelCovers⟩ := h.labels id hbefore
      exact ⟨k, hk, hcovers _ _ _ (hplaces.covers _ _ _ hlabelCovers)⟩
    · obtain ⟨target, htarget, -, hlabelCovers⟩ := exists_of_mem_right hplaces.placed.flip hmem
      exact ⟨target, hlt target htarget, hcovers _ _ _ hlabelCovers⟩
  · rw [hlabelsOf] at hlabel
    rw [haiming.labelOwner, hlabels]
    split at hlabel
    case isTrue hid =>
      obtain ⟨_, -, hisLabel, -⟩ := exists_of_mem_right hplaces.placed.flip hlabel
      rw [if_pos ⟨hlabel, hisLabel⟩, hid]
    case isFalse =>
      have howner := h.owned id label hlabel
      have hold : label ∉ labels := by
        intro hmem
        have hfresh := hplaces.fresh label hmem
        rw [isLabel_of_labelOwner? howner] at hfresh
        exact absurd hfresh (by simp)
      rw [if_neg (fun hnew => hold hnew.1), hplaces.owners, howner]
  · rw [hlabelsOf]
    split
    case isTrue => exact hplaces.nodup
    case isFalse => exact h.nodup id
  · simp only [hlabelsOf]
    rw [haiming.isLabel] at hid
    rcases hplaces.only id hid with hbefore | hmem
    · obtain ⟨k, hk, hreferenced⟩ := h.referenced id hbefore
      refine ⟨k, hk, ?_⟩
      rw [if_neg]
      · exact hreferenced
      · intro heq
        rw [heq, labelsOf, hold, Option.map_some, Option.getD_some, hfree] at hreferenced
        exact absurd hreferenced List.not_mem_nil
    · exact ⟨count, hcount, by rwa [if_pos rfl]⟩

/-- Aiming the next instruction of a body. -/
theorem Aimed.aims {count : Nat} {i : Instruction} {clauses : List Clause} {handlers : List NodeId}
    (h : t.Aimed x count) (hcarries : t.Carries x clauses handlers) (hmap : map.Maps x)
    (hi : x.instructions[count]? = some i) (haims : Aims map t count (x.start count) i t') :
    t'.Aimed x (count + 1) ∧ t'.Carries x clauses handlers := by
  have wf := hcarries.wellFormed
  obtain ⟨old, hold, hplain⟩ := h.operations count i hi
  rw [if_neg (Nat.lt_irrefl count)] at hplain
  have hanchor : ∀ (isLeave : Bool) {target : Nat}, target < x.instructions.length → ∃ last,
      t.Covers (t.labelAnchor (instructionNode count) (instructionNode target) isLeave) target last :=
    fun isLeave _ hlt => wf.covers_labelAnchor _ isLeave
      (wf.covers_instruction (hcarries.code.getElem? hlt))
  -- what placing labels and aiming at them keeps
  have hdone : ∀ {placed : Tree} {labels : List NodeId} {targets : List Nat} {operand : Operand NodeId},
      t.PlacesLabels placed labels targets → (∀ target ∈ targets, target < x.instructions.length) →
      operand.targets = labels → operand.Matches (placed.Marks x count) i.operand →
      t' = placed.aim (instructionNode count) ⟨i.opcode, operand⟩ →
      t'.Aimed x (count + 1) ∧ t'.Carries x clauses handlers := by
    rintro placed labels targets operand hplaces hlt hlabels hmatches rfl
    obtain ⟨haiming, haimed⟩ := h.aim hi hplaces hlt hlabels hmatches
    have hplaced := hcarries.of_kinds hplaces.wellFormed hplaces.header hplaces.kinds
      hplaces.instructions hplaces.covers
    exact ⟨haimed, hplaced.of_kinds haiming.dissolves.before haiming.header haiming.kinds
      haiming.dissolves.instructions.symm fun _ _ _ => haiming.dissolves.covers_of_new⟩
  cases haims with
  | @branch relative target label _ hoperand htarget hset =>
    have hlands := hmap.lands_of_branchTarget hi htarget
    obtain ⟨operation, placed, hoperation, -, hplaced, rfl⟩ := setBranchTarget_eq_ok_iff.mp hset
    obtain rfl := Option.some.inj (hold.symm.trans hoperation)
    obtain ⟨last, hcovers⟩ := hanchor i.opcode.isLeave hlands.1
    have hplaces := PlacesLabels.of_placeLabel wf hplaced hcovers
    refine hdone hplaces (by simpa using hlands.1) rfl ?_ rfl
    obtain ⟨hlabel, hlabelCovers⟩ := (List.forall₂_cons.mp hplaces.placed).1
    rw [hoperand]
    exact .branch ⟨hlabel, target, hlabelCovers, hlands⟩
  | @switch relatives targets labels _ hoperand htargets hset =>
    have hlands : List.Forall₂ (fun target relative => x.Lands count relative target) targets
        relatives := (mapM_eq_ok.mp htargets).flip.imp
      fun _ _ htarget => hmap.lands_of_branchTarget hi htarget
    have hlt : ∀ target ∈ targets, target < x.instructions.length := fun target htarget => by
      obtain ⟨relative, -, hland⟩ := exists_of_mem_right hlands.flip htarget
      exact hland.1
    obtain ⟨operation, placed, hoperation, -, -, hplaced, rfl⟩ := setSwitchTargets_eq_ok_iff.mp hset
    obtain rfl := Option.some.inj (hold.symm.trans hoperation)
    have hplaces := PlacesLabels.of_placeLabels wf hplaced (List.forall₂_map_left_iff.mpr
      (List.forall₂_same.mpr fun target htarget => hanchor false (hlt target htarget)))
    refine hdone hplaces hlt rfl ?_ rfl
    rw [hoperand]
    refine .switch ((forall₂_compose hplaces.placed hlands).imp fun _ _ hmarks => ?_)
    obtain ⟨target, ⟨hlabel, hlabelCovers⟩, hland⟩ := hmarks
    exact ⟨hlabel, target, hlabelCovers, hland⟩
  | plain hoperand hother =>
    refine ⟨⟨fun k j hj => ?_, h.labels, h.owned, h.nodup, h.referenced⟩, hcarries⟩
    obtain ⟨operand, hoperation, hform⟩ := h.operations k j hj
    refine ⟨operand, hoperation, ?_⟩
    by_cases hk : k = count
    · subst hk
      obtain rfl := Option.some.inj (hi.symm.trans hj)
      rw [if_neg (Nat.lt_irrefl k)] at hform
      rw [if_pos (Nat.lt_succ_self k), hform]
      exact Operand.withoutTargets_matches hoperand hother
    · have hsame : k < count + 1 ↔ k < count := by omega
      rwa [if_congr hsame rfl rfl]

/-- Aiming all instructions from a place on. -/
theorem Aimed.aimInstructions {count : Nat} {code : List (Nat × Instruction)} {clauses : List Clause}
    {handlers : List NodeId} (h : t.Aimed x count) (hcarries : t.Carries x clauses handlers)
    (hmap : map.Maps x)
    (hcode : ∀ k start i, code[k]? = some (start, i) →
      x.instructions[count + k]? = some i ∧ start = x.start (count + k))
    (haims : aimInstructions map count code t = .ok t') :
    t'.Aimed x (count + code.length) ∧ t'.Carries x clauses handlers := by
  induction code generalizing t count with
  | nil =>
    obtain rfl := pure_eq_ok.mp haims
    exact ⟨h, hcarries⟩
  | cons first code ih =>
    obtain ⟨start, i⟩ := first
    obtain ⟨t₁, haim, hrest⟩ := aimInstructions_cons_eq_ok haims
    obtain ⟨hi, rfl⟩ := hcode 0 start i rfl
    obtain ⟨h₁, hcarries₁⟩ := h.aims hcarries hmap hi haim
    have hdone := ih h₁ hcarries₁ (fun k start i hk => by
      rw [Nat.add_assoc, Nat.add_comm 1 k]
      exact hcode (k + 1) start i hk) hrest
    rwa [List.length_cons, Nat.add_comm code.length 1, ← Nat.add_assoc]

/-! ## The lifted tree -/

/-- A tree presents a body: it carries the clauses of the body, and its instructions are those of the
body with labels where the offsets land. -/
structure Presents (t : Tree) (x : Body) : Prop where
  carries : ∃ handlers, t.Carries x x.clauses handlers
  aimed : t.Aimed x x.instructions.length
  sizes : ∀ i ∈ x.instructions, i.toOperation.encodedSize = .ok i.size

theorem operation?_ofCode (k : Nat) :
    (ofCode x.header x.instructions).operation? (instructionNode k) =
      x.instructions[k]?.map fun i : Instruction => ⟨i.opcode, i.operand.withoutTargets⟩ := by
  rw [operation?, content?, node?_ofCode_instruction]
  cases x.instructions[k]? <;> rfl

theorem blockKind?_ofCode (id : NodeId) :
    (ofCode x.header x.instructions).blockKind? id = if id = root then some .body else none := by
  rw [blockKind?, content?]
  rcases eq_root_or_instructionNode id with rfl | ⟨k, rfl⟩
  · rw [node?_ofCode_root, if_pos rfl]
    rfl
  · rw [node?_ofCode_instruction, if_neg (instructionNode_ne_root _)]
    cases x.instructions[k]? <;> rfl

theorem isLabel_ofCode (id : NodeId) : (ofCode x.header x.instructions).isLabel id = false := by
  rw [isLabel, content?]
  rcases eq_root_or_instructionNode id with rfl | ⟨k, rfl⟩
  · rw [node?_ofCode_root]
    rfl
  · rw [node?_ofCode_instruction]
    cases x.instructions[k]? <;> rfl

theorem labelsOf_ofCode (id : NodeId) : (ofCode x.header x.instructions).labelsOf id = [] := by
  rcases eq_root_or_instructionNode id with rfl | ⟨k, rfl⟩
  · rw [labelsOf, operation?, content?, node?_ofCode_root]
    rfl
  · rw [labelsOf, operation?_ofCode]
    cases x.instructions[k]? with
    | none => rfl
    | some i => exact i.operand.targets_withoutTargets

theorem hasCode_ofCode : (ofCode x.header x.instructions).HasCode x := by
  have wf := wellFormed_ofCode x.header x.instructions
  have hleaf : ∀ id ∈ (List.range x.instructions.length).map instructionNode,
      (ofCode x.header x.instructions).preOrder id = [id] := by
    intro id hid
    obtain ⟨k, -, rfl⟩ := List.mem_map.mp hid
    rw [wf.preOrder_eq, children_ofCode, if_neg (instructionNode_ne_root _)]
    rfl
  rw [HasCode, wf.instructions_eq, wf.preOrder_eq, children_ofCode, if_pos rfl,
    List.flatMap_congr hleaf, List.filter_cons_of_neg (by simp [wf.isInstruction_root]),
    List.flatMap_singleton', List.filter_eq_self]
  intro id hid
  obtain ⟨k, hk, rfl⟩ := List.mem_map.mp hid
  rw [isInstruction, operation?_ofCode, List.getElem?_eq_getElem (List.mem_range.mp hk)]
  rfl

/-- The tree of the bare code carries no clauses. -/
theorem carries_ofCode : (ofCode x.header x.instructions).Carries x [] [] := by
  refine ⟨wellFormed_ofCode x.header x.instructions, rfl, hasCode_ofCode, .nil, .nil, by simp,
    fun region listed hlisted => ?_, fun id => ?_⟩
  · rw [blockKind?_ofCode] at hlisted
    split at hlisted <;> exact absurd hlisted (by simp)
  · rw [isOpenRegion, blockKind?_ofCode]
    split <;> simp_all

/-- The tree of the bare code with clauses added carries the clauses, and none of its instructions is
aimed yet. -/
theorem carries_of_addClauses {clauses : List Clause} {index : Nat} (hmap : map.Maps x)
    (h : addClauses map index clauses (ofCode x.header x.instructions) = .ok t) :
    (∃ handlers, t.Carries x clauses handlers) ∧ t.Aimed x 0 := by
  obtain ⟨hcarries, hsame⟩ := carries_ofCode.addClauses hmap h
  have hunlabelled : ∀ id, t.isLabel id = false := fun id => (hsame id).2.trans (isLabel_ofCode id)
  have hunaimed : ∀ id, t.labelsOf id = [] := by
    intro id
    rw [labelsOf, (hsame id).1]
    exact labelsOf_ofCode id
  refine ⟨hcarries, fun k i hi => ⟨i.operand.withoutTargets, ?_, ?_⟩, ?_, ?_, ?_, ?_⟩
  · rw [(hsame _).1, operation?_ofCode, hi]
    rfl
  · rw [if_neg (Nat.not_lt_zero k)]
  · simp [hunlabelled]
  · simp [hunaimed]
  · simp [hunaimed]
  · simp [hunlabelled]

/-- A lifted tree presents the body. -/
theorem presents_of_ofBody (h : ofBody x = .ok t) : t.Presents x := by
  obtain ⟨map, t₁, hmap, hclauses, haims⟩ := ofBody_eq_ok_iff.mp h
  have hmaps := CodeMap.maps_of_ofCode hmap
  obtain ⟨⟨handlers, hcarries⟩, haimed⟩ := carries_of_addClauses hmaps hclauses
  obtain ⟨haimed', hcarries'⟩ := haimed.aimInstructions hcarries hmaps
    (fun k start i hk => by simpa using hmaps.of_getElem?_zip hk) haims
  have hlength : (map.starts.zip x.instructions).length = x.instructions.length := by
    rw [List.length_zip, hmaps.starts]
    simp
  rw [Nat.zero_add, hlength] at haimed'
  exact ⟨⟨handlers, hcarries'⟩, haimed', hmaps.sizes⟩

end Tree

end MethodIL
