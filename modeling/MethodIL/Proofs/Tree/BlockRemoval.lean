import Mathlib
import MethodIL.Proofs.Tree.Unbinding
set_option autoImplicit false

/-!
# A removed block is cut off cleanly

References cross the border of a block in four ways: an instruction outside refers to a label inside or
the other way round, and a region inside is linked to one outside, in either direction.  A reference
from outside keeps the block from being removed, and so does a link.  What remains are instructions
below the block that refer to labels outside, and these lose all their labels when the block goes.
-/

namespace MethodIL

open Outcome

namespace Tree

variable {t t' : Tree} {block : NodeId}

/-! ## What keeps a block from being removed -/

/-- The block cannot be removed. -/
inductive Obstructed (t : Tree) (block : NodeId) : Prop
  | root (h : block = root)
  | loose (h : t.parent? block = none)
  | linked {kind : BlockKind} (hkind : t.blockKind? block = some kind) (h : kind.isLinked = true)
  /-- an instruction that is not below the block refers to a label below it -/
  | targeted {label owner : NodeId} (hlabel : t.isBelow block label = true)
      (howner : t.labelOwner? label = some owner) (h : t.isBelow block owner = false)
  /-- a region below the block is linked to one that is not below it -/
  | joined {region other : NodeId} (hregion : t.isBelow block region = true)
      (hlinked : t.Mentions region other ∨ t.Mentions other region)
      (h : t.isBelow block other = false)

/-- A node does not hold a block unless it is a label with an owner that is not below the block, or a
region that mentions one that is not. -/
theorem heldBy?_eq_none_iff {member : NodeId} : t.heldBy? block member = none ↔
    (∀ owner, t.labelOwner? member = some owner → t.isBelow block owner = true) ∧
      ∀ other, t.Mentions member other → t.isBelow block other = true := by
  rw [heldBy?, labelOwner?]
  simp only [Mentions, blockKind?]
  cases t.content? member with
  | none => simp
  | some content =>
    cases content with
    | instruction operation => simp
    | block kind children => simp
    | label owner => cases owner <;> simp

/-- A region below a block that is linked to one outside mentions one outside, or is mentioned by a
region below the block that does. -/
theorem RegionsLinked.exists_mention (h : t.RegionsLinked) {region other : NodeId}
    (hregion : t.isBelow block region = true) (hother : t.isBelow block other = false)
    (hlinked : t.Mentions region other ∨ t.Mentions other region) :
    ∃ a b, t.isBelow block a = true ∧ t.Mentions a b ∧ t.isBelow block b = false := by
  cases hlinked with
  | inl hmentions => exact ⟨region, other, hregion, hmentions, hother⟩
  | inr hmentions =>
    cases h.mentions_back hmentions with
    | inl hback => exact ⟨region, other, hregion, hback, hother⟩
    | inr hback =>
      obtain ⟨handler, hhandler, hback⟩ := hback
      cases hinside : t.isBelow block handler with
      | true => exact ⟨handler, other, hinside, hback, hother⟩
      | false => exact ⟨region, handler, hregion, hhandler, hinside⟩

/-- The removal of a block fails if something keeps it from being removed, and otherwise not. -/
theorem RegionsLinked.remove_fails_iff (h : t.RegionsLinked) (wf : t.WellFormed) {kind : BlockKind}
    (hkind : t.blockKind? block = some kind) :
    (∃ fault, t.remove block = .error fault) ↔ t.Obstructed block := by
  have hfails : (∃ fault, t.remove block = .error fault) ↔ ∀ t', t.remove block ≠ .ok t' := by
    cases t.remove block with
    | error fault => simp
    | ok t' => simp
  rw [hfails]
  constructor
  · intro hrefused
    by_contra hfree
    have hroot : block ≠ Tree.root := fun hroot => hfree (.root hroot)
    have hparent : (t.parent? block).isSome = true := by
      rw [Option.isSome_iff_ne_none]
      exact fun hloose => hfree (.loose hloose)
    have hunlinked : kind.isLinked = false := by
      rw [← Bool.not_eq_true]
      exact fun hlinked => hfree (.linked hkind hlinked)
    have hheld : ∀ member ∈ t.descendants block, t.heldBy? block member = none := by
      intro member hmember
      have hbelow := wf.mem_descendants_iff.mp hmember
      rw [heldBy?_eq_none_iff]
      constructor
      · intro owner howner
        rw [← Bool.not_eq_false]
        exact fun houtside => hfree (.targeted hbelow howner houtside)
      · intro other hmentions
        rw [← Bool.not_eq_false]
        exact fun houtside => hfree (.joined hbelow (Or.inl hmentions) houtside)
    have hreleased := releaseBelow_eq_ok_iff.mpr ⟨hheld, rfl⟩
    exact hrefused _ ((removeBlock_eq_ok_iff hkind).mpr
      ⟨hroot, hparent, hunlinked, _, hreleased, rfl⟩)
  · intro hobstructed t' hremove
    obtain ⟨hroot, hparent, hunlinked, released, hreleased, -⟩ :=
      (removeBlock_eq_ok_iff hkind).mp hremove
    obtain ⟨hheld, -⟩ := releaseBelow_eq_ok_iff.mp hreleased
    have hfree : ∀ member, t.isBelow block member = true → _ := fun member hbelow =>
      heldBy?_eq_none_iff.mp (hheld member (wf.mem_descendants_iff.mpr hbelow))
    cases hobstructed with
    | root h => exact hroot h
    | loose h =>
      rw [h] at hparent
      exact absurd hparent (by simp)
    | linked hkind' h =>
      obtain rfl := Option.some.inj (hkind.symm.trans hkind')
      rw [hunlinked] at h
      exact absurd h (by simp)
    | targeted hlabel howner houtside =>
      rw [(hfree _ hlabel).1 _ howner] at houtside
      exact absurd houtside (by simp)
    | joined hregion hlinked houtside =>
      obtain ⟨a, b, ha, hmentions, hb⟩ := h.exists_mention hregion houtside hlinked
      rw [(hfree a ha).2 b hmentions] at hb
      exact absurd hb (by simp)

/-! ## A subtree that is cut off -/

/-- A node that is cut off keeps all that lies below it. -/
theorem WellFormed.preOrder_detach (wf : t.WellFormed) (block : NodeId) :
    (t.detach block).preOrder block = t.preOrder block := by
  apply wf.preOrder_congr wf.detach
  intro x hx
  rw [wf.children_detach, List.erase_of_not_mem]
  intro hmem
  have hdepth := wf.depth_of_parent ((wf.parent_iff block x).mpr hmem)
  cases wf.mem_preOrder_iff.mp hx with
  | inl heq =>
    rw [heq] at hdepth
    omega
  | inr hbelow =>
    have := wf.depth_lt_of_mem_ancestors hbelow
    omega

theorem WellFormed.mem_preOrder_iff_isBelow (wf : t.WellFormed) {x : NodeId} :
    x ∈ t.preOrder block ↔ x = block ∨ t.isBelow block x = true := by
  rw [wf.mem_preOrder_iff, isBelow, List.contains_iff_mem]

/-- The instructions below a block that have labels outside. -/
def outgoing (t : Tree) (block : NodeId) : List NodeId :=
  (t.descendants block).filter (t.reachesOutside block)

/-- What is left of a tree when a block has been removed: the instructions below the block that had labels
outside have lost their labels, and the block has lost its place. -/
structure Releases (t : Tree) (block : NodeId) (t' : Tree) : Prop where
  held : ∀ member, t.isBelow block member = true →
    (∀ owner, t.labelOwner? member = some owner → t.isBelow block owner = true) ∧
      ∀ other, t.Mentions member other → t.isBelow block other = true
  operation : ∀ x, t'.operation? x =
    if x ∈ t.outgoing block then (t.operation? x).map withoutLabels else t.operation? x
  owner : ∀ x, t'.labelOwner? x =
    if t.isReleased (t.outgoing block) x then none else t.labelOwner? x
  parent : ∀ x, t'.parent? x =
    if x = block ∨ t.isReleased (t.outgoing block) x = true then none else t.parent? x
  children : ∀ p, t'.children p =
    (t.children p).filter fun x => x ≠ block && !t.isReleased (t.outgoing block) x
  below : ∀ x, x ∈ t'.preOrder block ↔
    x = block ∨ t.isBelow block x = true ∧ t.isReleased (t.outgoing block) x = false

theorem Owned.releases (h : t.Owned) (wf : t.WellFormed) {kind : BlockKind}
    (hkind : t.blockKind? block = some kind) (hremove : t.remove block = .ok t') :
    t.Releases block t' := by
  obtain ⟨-, -, -, released, hreleased, rfl⟩ := (removeBlock_eq_ok_iff hkind).mp hremove
  obtain ⟨hheld, hfold⟩ := releaseBelow_eq_ok_iff.mp hreleased
  have hnodup : (t.descendants block).Nodup := (wf.nodup_preOrder block).tail
  have hdrops : t.Drops (t.outgoing block) released := by
    rw [hfold]
    exact (h.drops_foldl_dropOutside wf block hnodup).1
  have wf' := hdrops.wellFormed wf
  constructor
  case held =>
    intro member hbelow
    exact heldBy?_eq_none_iff.mp (hheld member (wf.mem_descendants_iff.mpr hbelow))
  case operation =>
    intro x
    rw [operation?_of_payload? (payload?_detach x), hdrops.operation]
  case owner =>
    intro x
    rw [labelOwner?_of_payload? (payload?_detach x), hdrops.owner]
  case parent =>
    intro x
    rw [parent?_detach, hdrops.parent]
    by_cases hx : x = block <;> simp [hx]
  case children =>
    intro p
    rw [wf'.children_detach, (wf'.nodup p).erase_eq_filter, hdrops.children, List.filter_filter]
    apply List.filter_congr
    intro x _
    by_cases hx : x = block <;> simp [hx]
  case below =>
    intro x
    rw [wf'.preOrder_detach, wf'.mem_preOrder_iff_isBelow, hdrops.isBelow wf]
    simp [and_comm]

/-- What has labels is an instruction. -/
theorem isLabel_of_mem_labelsOf {id label : NodeId} (h : label ∈ t.labelsOf id) :
    t.isLabel id = false := by
  rw [labelsOf, operation?] at h
  rw [isLabel]
  cases hcontent : t.content? id with
  | none => rfl
  | some content =>
    cases content with
    | label owner =>
      rw [hcontent] at h
      exact absurd h List.not_mem_nil
    | instruction operation => rfl
    | block kind children => rfl

/-- An instruction keeps its labels if it is not below the block or all of them are. -/
theorem WellFormed.notMem_outgoing (wf : t.WellFormed) {id : NodeId}
    (h : t.isBelow block id = true → ∀ label ∈ t.labelsOf id, t.isBelow block label = true) :
    id ∉ t.outgoing block := by
  intro hmem
  obtain ⟨hbelow, houtside⟩ := List.mem_filter.mp hmem
  obtain ⟨label, hlabel, hnot⟩ := List.any_eq_true.mp houtside
  rw [h (wf.mem_descendants_iff.mp hbelow) label hlabel] at hnot
  exact absurd hnot (by simp)

theorem WellFormed.mem_outgoing (wf : t.WellFormed) {id label : NodeId}
    (hid : t.isBelow block id = true) (hlabel : label ∈ t.labelsOf id)
    (houtside : t.isBelow block label = false) : id ∈ t.outgoing block := by
  apply List.mem_filter.mpr
  refine ⟨wf.mem_descendants_iff.mpr hid, List.any_eq_true.mpr ⟨label, hlabel, ?_⟩⟩
  rw [houtside]
  rfl

/-- A label is not let go if its owner keeps its labels. -/
theorem Owned.isReleased_eq_false (h : t.Owned) {id label : NodeId} (hlabel : label ∈ t.labelsOf id)
    (hid : id ∉ t.outgoing block) : t.isReleased (t.outgoing block) label = false := by
  have howner := (h.owner_iff label id).mpr hlabel
  rw [← Bool.not_eq_true, isReleased_iff]
  intro hreleased
  obtain ⟨owner, hmem, heq⟩ := hreleased
  obtain rfl := Option.some.inj (howner.symm.trans heq)
  exact hid hmem

namespace Releases

variable (h : t.Releases block t')

include h

theorem mem_labelsOf {id label : NodeId} (hlabel : label ∈ t'.labelsOf id) :
    id ∉ t.outgoing block ∧ label ∈ t.labelsOf id := by
  rw [labelsOf, h.operation] at hlabel
  by_cases hid : id ∈ t.outgoing block
  · rw [if_pos hid] at hlabel
    cases hoperation : t.operation? id <;> simp [hoperation, targets_withoutLabels] at hlabel
  · rw [if_neg hid, ← labelsOf] at hlabel
    exact ⟨hid, hlabel⟩

/-- What is no label stays on its side of the border. -/
theorem below_iff (wf : t.WellFormed) {x : NodeId} (hx : t.isLabel x = false) :
    x ∈ t'.preOrder block ↔ x ∈ t.preOrder block := by
  rw [h.below, wf.mem_preOrder_iff_isBelow, and_iff_left (Drops.isReleased_of_not_isLabel hx)]

/-- A label that has stayed below the block is owned from below. -/
theorem incoming (wf : t.WellFormed) (hlabels : t.Owned) (hblock : t.isLabel block = false)
    {label owner : NodeId} (hlabel : label ∈ t'.preOrder block)
    (howner : t'.labelOwner? label = some owner) : owner ∈ t'.preOrder block := by
  rw [h.owner] at howner
  split at howner
  case isTrue => exact absurd howner (by simp)
  case isFalse =>
    have hinside : t.isBelow block label = true := by
      cases (h.below label).mp hlabel with
      | inl heq =>
        rw [heq, labelOwner?_of_not_isLabel hblock] at howner
        exact absurd howner (by simp)
      | inr hinside => exact hinside.1
    have hlisted := (hlabels.owner_iff label owner).mp howner
    rw [h.below_iff wf (isLabel_of_mem_labelsOf hlisted), wf.mem_preOrder_iff_isBelow]
    exact Or.inr ((h.held label hinside).1 owner howner)

/-- An instruction below the block that still has labels has them below the block. -/
theorem inside_of_mem_labelsOf (wf : t.WellFormed) (hlabels : t.Owned) (hnone : t.labelsOf block = [])
    {id label : NodeId} (hid : id ∈ t'.preOrder block) (hlabel : label ∈ t'.labelsOf id) :
    label ∈ t'.preOrder block := by
  obtain ⟨hkeeps, hlisted⟩ := h.mem_labelsOf hlabel
  have hinside : t.isBelow block id = true := by
    cases (h.below id).mp hid with
    | inl heq =>
      rw [heq, hnone] at hlisted
      exact absurd hlisted List.not_mem_nil
    | inr hinside => exact hinside.1
  rw [h.below]
  right
  refine ⟨?_, hlabels.isReleased_eq_false hlisted hkeeps⟩
  rw [← Bool.not_eq_false]
  exact fun houtside => hkeeps (wf.mem_outgoing hinside hlisted houtside)

/-- Outside the block, the labels of instructions below it lose their places, and nothing else does. -/
theorem loses_iff (wf : t.WellFormed) (hlabels : t.Owned) {x : NodeId}
    (hx : x ∉ t.preOrder block) (hplaced : (t.parent? x).isSome = true) :
    t'.parent? x = none ↔
      ∃ owner, t.labelOwner? x = some owner ∧ t.isBelow block owner = true := by
  rw [wf.mem_preOrder_iff_isBelow, not_or, Bool.not_eq_true] at hx
  have hlost : t'.parent? x = none ↔ t.isReleased (t.outgoing block) x = true := by
    rw [h.parent]
    simp only [or_iff_right hx.1]
    split
    case isTrue hreleased => exact iff_of_true rfl hreleased
    case isFalse hkept =>
      refine iff_of_false (fun hnone => ?_) hkept
      rw [hnone] at hplaced
      exact absurd hplaced (by simp)
  rw [hlost, isReleased_iff]
  constructor
  · intro hreleased
    obtain ⟨owner, howner, hlabel⟩ := hreleased
    exact ⟨owner, hlabel, wf.mem_descendants_iff.mp (List.mem_of_mem_filter howner)⟩
  · intro howned
    obtain ⟨owner, hlabel, hinside⟩ := howned
    exact ⟨owner, wf.mem_outgoing hinside ((hlabels.owner_iff x owner).mp hlabel) hx.2, hlabel⟩

end Releases

/-! ## Nothing crosses the border -/

/-- A block has been removed with all below it, so that nothing inside refers to anything outside and
nothing outside to anything inside. -/
structure CutOff (t : Tree) (block : NodeId) (t' : Tree) : Prop where
  loose : t'.parent? block = none
  /-- no label inside is owned from outside -/
  incoming : ∀ label owner, label ∈ t'.preOrder block → t'.labelOwner? label = some owner →
    owner ∈ t'.preOrder block
  /-- no instruction inside lists a label outside -/
  outgoing : ∀ id label, id ∈ t'.preOrder block → label ∈ t'.labelsOf id →
    label ∈ t'.preOrder block
  /-- no link joins a region inside to one outside -/
  together : ∀ a b, t'.Mentions a b → (a ∈ t'.preOrder block ↔ b ∈ t'.preOrder block)
  /-- nothing but labels has moved over the border -/
  below_iff : ∀ x, t.isLabel x = false → (x ∈ t'.preOrder block ↔ x ∈ t.preOrder block)
  below : ∀ x ∈ t'.preOrder block, x ∈ t.preOrder block
  /-- instructions outside keep their operands -/
  outside : ∀ id, id ∉ t.preOrder block → t'.operation? id = t.operation? id
  /-- instructions that have all their labels inside keep their operands, and the labels stay -/
  inside : ∀ id, t.isBelow block id = true →
    (∀ label ∈ t.labelsOf id, t.isBelow block label = true) →
      t'.operation? id = t.operation? id ∧ ∀ label ∈ t.labelsOf id,
        t'.labelOwner? label = some id ∧ t'.parent? label = t.parent? label
  /-- outside, the labels of instructions inside lose their places, and nothing else does -/
  loses : ∀ x, x ∉ t.preOrder block → ((t.parent? x).isSome = true ∧ t'.parent? x = none ↔
    (t.parent? x).isSome = true ∧
      ∃ owner, t.labelOwner? x = some owner ∧ t.isBelow block owner = true)
  /-- what has a place still has it in the block where it was -/
  keeps : ∀ x p, t'.parent? x = some p → t.parent? x = some p
  /-- and where it was among the others that still have theirs -/
  children : ∀ p, t'.children p = (t.children p).filter fun x => (t'.parent? x).isSome

theorem ReachableBy.cutOff (h : t.ReachableBy Edit.ListsOnce) {kind : BlockKind}
    (hkind : t.blockKind? block = some kind) (hremove : t.remove block = .ok t') :
    t.CutOff block t' := by
  have wf := h.reachable.wellFormed
  have hlabels := h.owned
  have htakes := h.reachable.takesAlong hkind hremove
  have hreleases := hlabels.releases wf hkind hremove
  have hblock : t.isLabel block = false := by rw [isLabel, blockKind?_eq_some_iff.mp hkind]
  have hnone : t.labelsOf block = [] := by
    rw [labelsOf, operation?, blockKind?_eq_some_iff.mp hkind]
    rfl
  constructor
  case loose => rw [hreleases.parent, if_pos (Or.inl rfl)]
  case incoming => exact fun label owner => hreleases.incoming wf hlabels hblock
  case outgoing => exact fun id label => hreleases.inside_of_mem_labelsOf wf hlabels hnone
  case together =>
    intro a b hmentions
    apply htakes.together
    obtain ⟨kind, ha, hmem⟩ := hmentions
    exact ⟨kind, by rw [← htakes.kind, ha], hmem⟩
  case below_iff => exact fun x => hreleases.below_iff wf
  case below =>
    intro x hx
    rw [wf.mem_preOrder_iff_isBelow]
    exact ((hreleases.below x).mp hx).imp_right And.left
  case outside =>
    intro id hid
    rw [hreleases.operation, if_neg]
    apply wf.notMem_outgoing
    intro hinside
    exact absurd (wf.mem_preOrder_iff_isBelow.mpr (Or.inr hinside)) hid
  case inside =>
    intro id hid hinside
    have hkeeps := wf.notMem_outgoing fun _ => hinside
    refine ⟨by rw [hreleases.operation, if_neg hkeeps], fun label hlabel => ?_⟩
    have hkept := hlabels.isReleased_eq_false hlabel hkeeps
    have hne : label ≠ block := by
      intro heq
      have hislabel := h.reachable.targetsLabeled id label hlabel
      rw [heq, hblock] at hislabel
      exact absurd hislabel (by simp)
    rw [hreleases.owner, hreleases.parent, hkept, if_neg Bool.false_ne_true]
    exact ⟨(hlabels.owner_iff label id).mpr hlabel, if_neg (by simp [hne])⟩
  case loses =>
    intro x hx
    apply and_congr_right
    intro hplaced
    exact hreleases.loses_iff wf hlabels hx hplaced
  case keeps =>
    intro x p hparent
    rw [hreleases.parent] at hparent
    split at hparent
    case isTrue => exact absurd hparent (by simp)
    case isFalse => exact hparent
  case children =>
    intro p
    rw [hreleases.children]
    apply List.filter_congr
    intro x hx
    rw [hreleases.parent, (wf.parent_iff x p).mpr hx]
    by_cases heq : x = block
    · simp [heq]
    · cases t.isReleased (t.outgoing block) x <;> simp [heq]

/-- As long as no instruction is created that lists a label twice, a block can be removed unless it is the
root, is loose or linked, or something outside holds it, and then nothing crosses its border. -/
theorem ReachableBy.removes_cleanly (h : t.ReachableBy Edit.ListsOnce) {kind : BlockKind}
    (hkind : t.blockKind? block = some kind) :
    ((∃ fault, t.remove block = .error fault) ↔ t.Obstructed block) ∧
      ∀ t', t.remove block = .ok t' → t.CutOff block t' :=
  ⟨h.reachable.regionsLinked.remove_fails_iff h.reachable.wellFormed hkind,
    fun _ hremove => h.cutOff hkind hremove⟩

/-- A switch in a block refers to a label in front of it and to one behind the block, a branch in the block
to a label in the block, and a branch behind to a label in another block. -/
def mixedBorders (jump switch : Opcode) : Tree :=
  (new default).runAll [.newBlock .plain, .newLabel, .newLabel, .newLabel,
    .newInstruction ⟨switch, .switch [⟨2⟩, ⟨3⟩]⟩, .newInstruction ⟨jump, .branch ⟨4⟩⟩,
    .newBlock .plain, .newLabel, .newInstruction ⟨jump, .branch ⟨8⟩⟩,
    .append root ⟨1⟩, .append ⟨1⟩ ⟨2⟩, .append ⟨1⟩ ⟨5⟩, .append ⟨1⟩ ⟨4⟩, .append ⟨1⟩ ⟨6⟩,
    .append root ⟨3⟩, .append root ⟨7⟩, .append ⟨7⟩ ⟨8⟩, .append root ⟨9⟩]

theorem mixedBorders_reachable (jump switch : Opcode) :
    (mixedBorders jump switch).ReachableBy Edit.ListsOnce := by
  apply (ReachableBy.new default).runAll
  intro edit hedit
  simp only [List.mem_cons, List.not_mem_nil, or_false] at hedit
  rcases hedit with rfl | rfl | rfl | rfl | rfl | rfl | rfl | rfl | rfl | hplaced
  case inr.inr.inr.inr.inr.inr.inr.inr.inr =>
    rcases hplaced with rfl | rfl | rfl | rfl | rfl | rfl | rfl | rfl | rfl <;> trivial
  all_goals simp [Edit.ListsOnce, Operand.targets]

/-- The first block of `mixedBorders` can be removed, and only the branch in it keeps its label; the other
block is held. -/
theorem mixedBorders_removed_cleanly : ∃ jump switch, Opcode.find? .single 0x2B = some jump ∧
    Opcode.find? .single 0x45 = some switch ∧
    (mixedBorders jump switch).ReachableBy Edit.ListsOnce ∧
    (∃ t', (mixedBorders jump switch).remove ⟨1⟩ = .ok t' ∧
      (mixedBorders jump switch).CutOff ⟨1⟩ t' ∧ t'.children ⟨1⟩ = [⟨5⟩, ⟨4⟩, ⟨6⟩] ∧
      t'.children root = [⟨7⟩, ⟨9⟩] ∧ t'.labelsOf ⟨5⟩ = [] ∧ t'.labelsOf ⟨6⟩ = [⟨4⟩]) ∧
    (mixedBorders jump switch).Obstructed ⟨7⟩ := by
  have hrun : ((Opcode.find? .single 0x2B).any fun jump =>
      (Opcode.find? .single 0x45).any fun switch =>
        (mixedBorders jump switch).blockKind? ⟨1⟩ == some .plain &&
        (mixedBorders jump switch).blockKind? ⟨7⟩ == some .plain &&
        ((mixedBorders jump switch).remove ⟨1⟩).toOption.any (fun t' =>
          t'.children ⟨1⟩ == [⟨5⟩, ⟨4⟩, ⟨6⟩] && t'.children root == [⟨7⟩, ⟨9⟩] &&
          t'.labelsOf ⟨5⟩ == [] && t'.labelsOf ⟨6⟩ == [⟨4⟩]) &&
        ((mixedBorders jump switch).remove ⟨7⟩).toOption.isNone) = true := by
    decide +kernel
  simp only [Option.any_eq_true, Bool.and_eq_true, beq_iff_eq] at hrun
  obtain ⟨jump, hjump, switch, hswitch, ⟨⟨hkind, hheldKind⟩, t', hremove, hviews⟩, hheld⟩ := hrun
  have hreachable := mixedBorders_reachable jump switch
  rw [toOption_eq_some_iff] at hremove
  refine ⟨jump, switch, hjump, hswitch, hreachable, ⟨t', hremove, ?_, ?_⟩, ?_⟩
  · exact (hreachable.removes_cleanly hkind).2 t' hremove
  · exact ⟨hviews.1.1.1, hviews.1.1.2, hviews.1.2, hviews.2⟩
  · apply (hreachable.removes_cleanly hheldKind).1.mp
    cases houtcome : (mixedBorders jump switch).remove ⟨7⟩ with
    | error fault => exact ⟨fault, rfl⟩
    | ok t' =>
      rw [houtcome] at hheld
      exact absurd hheld (by simp [Except.toOption])

end Tree

end MethodIL
