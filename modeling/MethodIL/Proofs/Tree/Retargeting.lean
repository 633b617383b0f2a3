import Mathlib
import MethodIL.Proofs.Tree.BlockRemoval
import MethodIL.Proofs.Tree.Landing
set_option autoImplicit false

/-!
# Aiming one instruction

A branch or switch is aimed by new labels in front of its targets, placed while its old labels still
stand, and the old ones are cut off afterwards.  Labels are no instructions, so neither step moves where
control lands from any node that stays.  Every target is therefore as good as it was before the call, also
if it is an old label of the same instruction, a block, or the instruction itself.
-/

namespace MethodIL

open Outcome

namespace Tree

variable {t t' : Tree}

/-! ## Placing the new labels -/

/-- New labels land where their anchors land, and nodes that were there land where they landed. -/
structure PlacedAt (t : Tree) (anchors labels : List NodeId) (t' : Tree) : Prop where
  wellFormed : t'.WellFormed
  instructions : t'.instructions = t.instructions
  landing : ∀ x, x.index < t.size → t'.landing? x = t.landing? x
  aimed : List.Forall₂ (fun anchor label => t'.landing? label = t.landing? anchor) anchors labels

/-- Without a new label, the tree is what it was. -/
theorem WellFormed.thins_placeLabel (wf : t.WellFormed) {anchor label : NodeId}
    (h : t.placeLabel anchor = .ok (label, t')) : t'.Thins (fun x => x = ⟨t.size⟩) t := by
  obtain ⟨hdissolves, -, -⟩ := wf.dissolves_placeLabel h
  apply hdissolves.thins
  case hheld =>
    obtain ⟨parent, hparent, -, -⟩ := placeLabel_eq_ok_iff.mp h
    rw [parent?_placeLabel h, if_pos rfl, hparent]
    rfl
  case hhollow => exact children_size t
  case hother => rw [isInstruction, operation?, content?_size]; rfl

/-- A new label stands right in front of its anchor. -/
theorem WellFormed.next?_placeLabel (wf : t.WellFormed) {anchor label : NodeId}
    (h : t.placeLabel anchor = .ok (label, t')) : t'.next? label = some anchor := by
  have wf' := wf.steps (wf.steps_placeLabel h)
  obtain ⟨parent, hparent, rfl, rfl⟩ := placeLabel_eq_ok_iff.mp h
  have hmem := (wf.parent_iff anchor parent).mp hparent
  have hne := ne_size_of_mem_children hmem
  obtain ⟨kind, hkind⟩ := exists_kind_of_mem_children hmem
  have hpushed : ((t.push (.label none)).2.blockKind? parent).isSome := by
    rw [blockKind?_of_payload? (y := parent) (t := t) (by rw [payload?_push, if_neg hne]), hkind]
    rfl
  obtain ⟨before, after, -, hinserted⟩ := insertBefore_eq_append ⟨t.size⟩ hmem
  have hchildren : ((t.push (.label none)).2.attach parent ⟨t.size⟩
      (MethodIL.insertBefore anchor ⟨t.size⟩)).children parent =
        before ++ ⟨t.size⟩ :: anchor :: after := by
    rw [children_attach hpushed, if_pos rfl, children_push, if_neg hne, hinserted]
  exact wf'.next?_eq hchildren

namespace PlacedAt

/-- One label. -/
theorem of_placeLabel (wf : t.WellFormed) {anchor label : NodeId}
    (h : t.placeLabel anchor = .ok (label, t')) : t.PlacedAt [anchor] [label] t' := by
  have hthins := wf.thins_placeLabel h
  have hkept : ∀ x, x.index < t.size → t'.landing? x = t.landing? x := by
    intro x hx
    refine (hthins.landing? (decide_eq_false fun heq => ?_)).symm
    rw [heq] at hx
    exact Nat.lt_irrefl _ hx
  have hlabel : t'.isLabel label = true := by
    obtain ⟨-, -, rfl, -⟩ := placeLabel_eq_ok_iff.mp h
    rw [isLabel, payload?_eq_some_label.mp ((payload?_placeLabel h ⟨t.size⟩).trans (if_pos rfl))]
  have hanchor : anchor.index < t.size := by
    obtain ⟨parent, hparent, -, -⟩ := placeLabel_eq_ok_iff.mp h
    exact (wf.exists_of_parent hparent).1
  refine ⟨hthins.before, hthins.instructions.symm, hkept, .cons ?_ .nil⟩
  rw [hthins.before.landing?_of_next (children_eq_nil_of_isLabel hlabel)
    (isInstruction_of_isLabel hlabel) (wf.next?_placeLabel h), hkept anchor hanchor]

/-- Labels in front of nodes that are all there before the first is placed. -/
theorem of_placeLabels (wf : t.WellFormed) {anchors labels : List NodeId}
    (h : placeLabels anchors t = .ok (labels, t')) (hanchors : ∀ anchor ∈ anchors, anchor.index < t.size) :
    t.PlacedAt anchors labels t' := by
  induction anchors generalizing t labels with
  | nil =>
    obtain ⟨rfl, rfl⟩ := placeLabels_nil_eq_ok_iff.mp h
    exact ⟨wf, rfl, fun _ _ => rfl, .nil⟩
  | cons anchor anchors ih =>
    obtain ⟨label, placed, others, hplaced, hdone, rfl⟩ := placeLabels_cons_eq_ok_iff.mp h
    have hfirst := of_placeLabel wf hplaced
    obtain ⟨parent, -, rfl, hgrown⟩ := placeLabel_eq_ok_iff.mp hplaced
    have hsize : placed.size = t.size + 1 := by rw [hgrown, size_attach, size_push]
    have hlater : ∀ x : NodeId, x.index < t.size → x.index < placed.size := fun x hx => by omega
    obtain ⟨-, hanchors⟩ := List.forall_mem_cons.mp hanchors
    have hrest := ih hfirst.wellFormed hdone fun anchor hmem => hlater anchor (hanchors anchor hmem)
    refine ⟨hrest.wellFormed, hrest.instructions.trans hfirst.instructions, fun x hx => ?_, .cons ?_ ?_⟩
    · rw [hrest.landing x (hlater x hx), hfirst.landing x hx]
    · rw [hrest.landing ⟨t.size⟩ (by rw [hsize]; exact Nat.lt_succ_self _)]
      exact (List.forall₂_cons.mp hfirst.aimed).1
    · have haimed := (List.forall₂_and_left _ _).mpr ⟨hanchors, hrest.aimed⟩
      exact haimed.imp fun other label haimed => haimed.2.trans (hfirst.landing other haimed.1)

end PlacedAt

/-! ## Letting the old labels go -/

theorem WellFormed.children_aim (wf : t.WellFormed) (id : NodeId) (operation : Operation NodeId)
    (p : NodeId) : (t.aim id operation).children p =
      (t.children p).filter fun x => !(t.labelsOf id).contains x := by
  obtain ⟨honly, -, -⟩ := LinksOnly.of_setOwners operation.operand.targets (some id)
    ((t.unbindLabels id).setOperation id operation)
  refine (honly.children p).trans ?_
  rw [children_setOperation, (wf.links_unbindLabels id p).2]

/-- The labels that an instruction had are in no block once it is aimed. -/
theorem WellFormed.parent?_aim (wf : t.WellFormed) {id label : NodeId} (operation : Operation NodeId)
    (h : label ∈ t.labelsOf id) : (t.aim id operation).parent? label = none := by
  rw [Option.eq_none_iff_forall_ne_some]
  intro p hp
  rw [(wf.aimed id operation).parent_iff, wf.children_aim, List.mem_filter] at hp
  simp [h] at hp

/-- Once an instruction is aimed, the tree has lost the labels that it had. -/
theorem WellFormed.thins_aim (wf : t.WellFormed) (hlabeled : t.TargetsLabeled) (id : NodeId)
    (operation : Operation NodeId) :
    t.Thins (fun x => (t.labelsOf id).contains x) (t.aim id operation) := by
  apply wf.thins_of_labels (wf.aimed id operation)
  case hinstruction =>
    intro x
    rw [isInstruction, isInstruction, (aim_views id operation t).1]
    split
    · rw [Option.isSome_map]
    · rfl
  case hgone => exact fun x hx => hlabeled id x (List.contains_iff_mem.mp hx)
  case hchildren => exact wf.children_aim id operation

/-! ## One instruction and no other -/

/-- An instruction has been aimed at nodes, each by a new label of its own, and nothing else that leads
anywhere leads elsewhere. -/
structure Retargets (t : Tree) (id : NodeId) (operand : Operand NodeId) (targets labels : List NodeId)
    (t' : Tree) : Prop where
  operation : ∃ old, t.operation? id = some old ∧ t'.operation? id = some { old with operand }
  listed : t'.labelsOf id = labels
  nodup : labels.Nodup
  fresh : ∀ label ∈ labels, t.content? label = none
  owned : ∀ label ∈ labels, t'.labelOwner? label = some id
  aimed : List.Forall₂ (fun target label => t'.labelTarget? label = t.landing? target) targets labels
  released : ∀ label, t.labelOwner? label = some id →
    t'.labelOwner? label = none ∧ t'.parent? label = none
  instructions : t'.instructions = t.instructions
  others : ∀ x, x ≠ id → t'.operation? x = t.operation? x
  kept : ∀ label, t.isLabel label = true → t.labelOwner? label ≠ some id →
    t'.labelOwner? label = t.labelOwner? label ∧ t'.labelTarget? label = t.labelTarget? label
  landing : ∀ x, x.index < t.size → t.labelOwner? x ≠ some id → t'.landing? x = t.landing? x

section Placed

variable {targets labels : List NodeId} {placed : Tree}
  (h : placeLabels targets t = .ok (labels, placed))

include h

/-- None of the new labels was there before. -/
theorem content?_of_placed {label : NodeId} (hmem : label ∈ labels) : t.content? label = none := by
  rw [(labels_of_placeLabels h).1] at hmem
  obtain ⟨index, hindex, rfl⟩ := List.mem_map.mp hmem
  rw [← Option.not_isSome_iff_eq_none, isSome_content?_iff, Nat.not_lt]
  exact (List.mem_range'_1.mp hindex).1

theorem operation?_of_placed (x : NodeId) : placed.operation? x = t.operation? x := by
  have hpayload := (labels_of_placeLabels h).2 x
  split at hpayload
  case isTrue hmem =>
    rw [operation?, operation?, payload?_eq_some_label.mp hpayload, content?_of_placed h hmem]
  case isFalse => exact operation?_of_payload? hpayload

theorem labelOwner?_of_placed (x : NodeId) : placed.labelOwner? x = t.labelOwner? x := by
  have hpayload := (labels_of_placeLabels h).2 x
  split at hpayload
  case isTrue hmem =>
    rw [labelOwner?, labelOwner?, payload?_eq_some_label.mp hpayload, content?_of_placed h hmem]
  case isFalse => exact labelOwner?_of_payload? hpayload

theorem isLabel_of_placed {x : NodeId} (hlabel : t.isLabel x = true) : placed.isLabel x = true := by
  have hpayload := (labels_of_placeLabels h).2 x
  split at hpayload
  case isTrue hmem => rw [isLabel, payload?_eq_some_label.mp hpayload]
  case isFalse => rw [isLabel_of_payload? hpayload, hlabel]

end Placed

/-- An instruction of a tree whose labels and owners fit is aimed at nodes of the tree. -/
theorem Owned.retargets_aim (h : t.Owned) (wf : t.WellFormed) (hlabeled : t.TargetsLabeled) {id : NodeId}
    {old : Operation NodeId} {operand : Operand NodeId} {targets labels : List NodeId} {placed : Tree}
    (hold : t.operation? id = some old) (htargets : ∀ target ∈ targets, target.index < t.size)
    (hplaced : placeLabels targets t = .ok (labels, placed)) (hoperand : operand.targets = labels) :
    t.Retargets id operand targets labels (placed.aim id { old with operand }) := by
  have hplacedAt := PlacedAt.of_placeLabels wf hplaced htargets
  obtain ⟨hlabels, hpayload⟩ := labels_of_placeLabels hplaced
  obtain ⟨hkept, hfresh, hnodup⟩ := fresh_of_placed hold hlabels hpayload
  have hlisted : ∀ x, placed.labelsOf x = t.labelsOf x := fun x => by
    rw [labelsOf, labelsOf, operation?_of_placed hplaced]
  have hthins := hplacedAt.wellFormed.thins_aim (fun x label hmem =>
    isLabel_of_placed hplaced (hlabeled x label (by rwa [← hlisted]))) id { old with operand }
  -- what stays is what the instruction does not own
  have hgone : ∀ x, t.labelOwner? x ≠ some id → (placed.labelsOf id).contains x = false := by
    intro x hother
    rw [hlisted, ← Bool.not_eq_true, List.contains_iff_mem, ← h.owner_iff]
    exact hother
  have hstays : ∀ x, x.index < t.size → t.labelOwner? x ≠ some id →
      (placed.aim id { old with operand }).landing? x = t.landing? x := fun x hx hother => by
    rw [hthins.landing? (hgone x hother), hplacedAt.landing x hx]
  have hnew : ∀ x, x ∈ labels → t.labelOwner? x = none := fun x hmem => by
    rw [labelOwner?, content?_of_placed hplaced hmem]
  constructor
  case operation =>
    refine ⟨old, hold, ?_⟩
    rw [(aim_views id _ placed).1, if_pos rfl, hkept, Option.map_some]
  case listed => rw [labelsOf_aim _ hkept, if_pos rfl, hoperand]
  case nodup => exact hnodup
  case fresh => exact fun label hmem => content?_of_placed hplaced hmem
  case owned =>
    intro label hmem
    rw [labelOwner?_aim, if_pos ⟨hoperand ▸ hmem, (hfresh label hmem).1⟩]
  case aimed =>
    have hmembers : ∀ label ∈ labels, label ∈ labels := fun _ hmem => hmem
    have haimed := (List.forall₂_and_left _ _).mpr ⟨hmembers, hplacedAt.aimed.flip⟩
    refine haimed.flip.imp fun target label haimed => ?_
    obtain ⟨hmem, hlanding⟩ := haimed
    have hlabel := (isLabel_aim id { old with operand } label).trans (hfresh label hmem).1
    have hother : t.labelOwner? label ≠ some id := by simp [hnew label hmem]
    rw [← hthins.after.landing?_of_isLabel hlabel, hthins.landing? (hgone label hother), hlanding]
  case released =>
    intro label howner
    have hmem : label ∈ placed.labelsOf id := by rwa [hlisted, ← h.owner_iff]
    have hother : label ∉ operand.targets := fun hin => by
      rw [hnew label (hoperand ▸ hin)] at howner
      exact absurd howner (by simp)
    refine ⟨?_, hplacedAt.wellFormed.parent?_aim _ hmem⟩
    rw [labelOwner?_aim, if_neg fun hboth => hother hboth.1, if_pos hmem]
  case instructions => exact hthins.instructions.trans hplacedAt.instructions
  case others =>
    intro x hx
    rw [(aim_views id _ placed).1, if_neg hx, operation?_of_placed hplaced]
  case kept =>
    intro label hlabel hother
    obtain ⟨owner, hcontent⟩ := isLabel_iff.mp hlabel
    have hexists : label.index < t.size := index_lt_of_content? hcontent
    have hunlisted : label ∉ operand.targets := fun hin => by
      rw [content?_of_placed hplaced (hoperand ▸ hin)] at hcontent
      exact absurd hcontent (by simp)
    have hunowned : label ∉ placed.labelsOf id := by rwa [hlisted, ← h.owner_iff]
    have hlabel' := (isLabel_aim id { old with operand } label).trans (isLabel_of_placed hplaced hlabel)
    constructor
    · rw [labelOwner?_aim, if_neg fun hboth => hunlisted hboth.1, if_neg hunowned,
        labelOwner?_of_placed hplaced]
    · rw [← hthins.after.landing?_of_isLabel hlabel', hstays label hexists hother,
        wf.landing?_of_isLabel hlabel]
  case landing => exact hstays

/-- Aiming a branch or a switch moves no other.  The instruction lists the new labels, which are its own,
and each leads to the first instruction at or below its target, or else to the next one; the labels that it
had are cut off; and all others lead where they led. -/
theorem ReachableBy.retargets (h : t.ReachableBy Edit.ListsOnce) (id : NodeId) :
    (∀ target label t', t.setBranchTarget id target = .ok (label, t') →
      t.Retargets id (.branch label) [target] [label] t') ∧
    ∀ targets labels t', t.setSwitchTargets id targets = .ok (labels, t') →
      t.Retargets id (.switch labels) targets labels t' := by
  have wf := h.reachable.wellFormed
  have hlabeled := h.reachable.targetsLabeled
  constructor
  · intro target label t' hset
    obtain ⟨old, placed, hold, -, hplaced, rfl⟩ := setBranchTarget_eq_ok_iff.mp hset
    obtain ⟨parent, hparent, -, -⟩ := placeLabel_eq_ok_iff.mp hplaced
    refine h.owned.retargets_aim wf hlabeled hold ?_ ?_ rfl
    · intro other hmem
      rw [List.mem_singleton.mp hmem]
      exact (wf.exists_of_parent hparent).1
    · exact bind_eq_ok.mpr ⟨_, hplaced, rfl⟩
  · intro targets labels t' hset
    obtain ⟨old, placed, hold, -, hheld, hplaced, rfl⟩ := setSwitchTargets_eq_ok_iff.mp hset
    refine h.owned.retargets_aim wf hlabeled hold (fun target hmem => ?_) hplaced rfl
    obtain ⟨parent, hparent⟩ := Option.isSome_iff_exists.mp (hheld target hmem)
    exact (wf.exists_of_parent hparent).1

/-- In `mixedBorders`, the switch is aimed at a label of its own, at a block without instructions, at itself
and at the last branch, and that branch at its own label. -/
theorem mixedBorders_retargets : ∃ jump switch, Opcode.find? .single 0x2B = some jump ∧
    Opcode.find? .single 0x45 = some switch ∧
    (mixedBorders jump switch).ReachableBy Edit.ListsOnce ∧
    (∃ t', (mixedBorders jump switch).setSwitchTargets ⟨5⟩ [⟨2⟩, ⟨7⟩, ⟨5⟩, ⟨9⟩] =
        .ok ([⟨10⟩, ⟨11⟩, ⟨12⟩, ⟨13⟩], t') ∧
      (mixedBorders jump switch).Retargets ⟨5⟩ (.switch [⟨10⟩, ⟨11⟩, ⟨12⟩, ⟨13⟩]) [⟨2⟩, ⟨7⟩, ⟨5⟩, ⟨9⟩]
        [⟨10⟩, ⟨11⟩, ⟨12⟩, ⟨13⟩] t' ∧
      [⟨10⟩, ⟨11⟩, ⟨12⟩, ⟨13⟩].map t'.labelTarget? = [some ⟨5⟩, some ⟨9⟩, some ⟨5⟩, some ⟨9⟩] ∧
      t'.children ⟨1⟩ = [⟨10⟩, ⟨12⟩, ⟨5⟩, ⟨4⟩, ⟨6⟩]) ∧
    ∃ t', (mixedBorders jump switch).setBranchTarget ⟨9⟩ ⟨8⟩ = .ok (⟨10⟩, t') ∧
      (mixedBorders jump switch).Retargets ⟨9⟩ (.branch ⟨10⟩) [⟨8⟩] [⟨10⟩] t' ∧
      t'.children ⟨7⟩ = [⟨10⟩] ∧ t'.labelTarget? ⟨10⟩ = some ⟨9⟩ := by
  have hrun : ((Opcode.find? .single 0x2B).any fun jump =>
      (Opcode.find? .single 0x45).any fun switch =>
        ((mixedBorders jump switch).setSwitchTargets ⟨5⟩ [⟨2⟩, ⟨7⟩, ⟨5⟩, ⟨9⟩]).toOption.any (fun made =>
          made.1 == [⟨10⟩, ⟨11⟩, ⟨12⟩, ⟨13⟩] &&
          [⟨10⟩, ⟨11⟩, ⟨12⟩, ⟨13⟩].map made.2.labelTarget? ==
            [some ⟨5⟩, some ⟨9⟩, some ⟨5⟩, some ⟨9⟩] &&
          made.2.children ⟨1⟩ == [⟨10⟩, ⟨12⟩, ⟨5⟩, ⟨4⟩, ⟨6⟩]) &&
        ((mixedBorders jump switch).setBranchTarget ⟨9⟩ ⟨8⟩).toOption.any (fun made =>
          made.1 == ⟨10⟩ && made.2.children ⟨7⟩ == [⟨10⟩] &&
          made.2.labelTarget? ⟨10⟩ == some ⟨9⟩)) = true := by
    decide +kernel
  simp only [Option.any_eq_true, Bool.and_eq_true, beq_iff_eq] at hrun
  obtain ⟨jump, hjump, switch, hswitch, ⟨⟨labels, t'⟩, hset, ⟨rfl, htargets⟩, hchildren⟩,
    ⟨label, t''⟩, hset', ⟨rfl, hchildren'⟩, htarget'⟩ := hrun
  rw [toOption_eq_some_iff] at hset hset'
  have hreachable := mixedBorders_reachable jump switch
  refine ⟨jump, switch, hjump, hswitch, hreachable, ⟨t', hset, ?_, htargets, hchildren⟩,
    t'', hset', ?_, hchildren', htarget'⟩
  · exact (hreachable.retargets ⟨5⟩).2 _ _ _ hset
  · exact (hreachable.retargets ⟨9⟩).1 _ _ _ hset'

end Tree

end MethodIL
