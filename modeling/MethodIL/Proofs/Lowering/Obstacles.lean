import Mathlib
import MethodIL.Proofs.Lowering.Table
import MethodIL.Proofs.Tree.RegionRemoval
set_option autoImplicit false

/-!
# What keeps a tree from becoming a body

A tree has no body if a label that is referred to marks no instruction, if a branch or a switch lacks its
targets, or if a region that lists handlers, one of the handlers or a filter has no instructions of its
own, or a filter does not end where its handler starts.  There is nothing else: every other fault of
lowering is excluded by the links of the tree or by the size of its code.
-/

namespace MethodIL

open Outcome

namespace Tree

/-- The instructions below a block in flat order. -/
def instructionsBelow (t : Tree) (block : NodeId) : List NodeId :=
  (t.descendants block).filter t.isInstruction

/-- The offset and length of a block in the code that the tree is laid out as, if it has some. -/
def extent? (t : Tree) (block : NodeId) : Option (Nat × Nat) :=
  (Plan.ofTree t).toOption.bind fun p => (p.extent t block).toOption

/-- The offset of the first instruction of a block. -/
def codeStart (t : Tree) (block : NodeId) : Nat := (t.extent? block).elim 0 fun extent => extent.1

/-- The offset behind the last instruction of a block. -/
def codeEnd (t : Tree) (block : NodeId) : Nat :=
  (t.extent? block).elim 0 fun extent => extent.1 + extent.2

/-- What keeps a tree from becoming a body, with the fault that tells it. -/
inductive Obstacle (t : Tree) : LayoutFault → Prop
  /-- a label that an instruction refers to stands behind all instructions -/
  | danglingLabel {label owner : NodeId} (isAttached : t.isAttached label = true)
      (isOwned : t.labelOwner? label = some owner) (isLast : t.labelTarget? label = none) :
      Obstacle t (.danglingLabel label)
  | branchWithoutTarget {id : NodeId} {operation : Operation NodeId}
      (isAttached : t.isAttached id = true) (isInstruction : t.operation? id = some operation)
      (isBranch : operation.opcode.isBranch = true) (hasNoLabel : operation.operand.targets = []) :
      Obstacle t (.branchWithoutTarget operation.opcode)
  | switchWithoutTargets {id : NodeId} {operation : Operation NodeId}
      (isAttached : t.isAttached id = true) (isInstruction : t.operation? id = some operation)
      (isSwitch : operation.opcode.isSwitch = true)
      (hasNoList : ∀ labels, operation.operand ≠ .switch labels) :
      Obstacle t .switchWithoutTargets
  /-- a branch or a switch leads to a label outside the body or behind all instructions -/
  | labelNotPlaced {id label : NodeId} {operation : Operation NodeId}
      (isAttached : t.isAttached id = true) (isInstruction : t.operation? id = some operation)
      (isJump : operation.opcode.isBranch = true ∨ operation.opcode.isSwitch = true)
      (isListed : label ∈ operation.operand.targets)
      (isUnplaced : t.isAttached label = false ∨ t.labelTarget? label = none) :
      Obstacle t (.labelNotPlaced label)
  /-- a handler of a protected region, or a filter, lies outside the body -/
  | outsideTree {region part : NodeId} (isAttached : t.isAttached region = true)
      (isPart : part ∈ t.partsOf region) (isOutside : t.isAttached part = false) :
      Obstacle t (.outsideTree part)
  /-- a region that lists handlers, a handler or a filter has no instructions -/
  | emptyRegion {region part : NodeId} (isAttached : t.isAttached region = true)
      (isProtected : t.handlersOf region ≠ []) (isPart : part ∈ t.partsOf region)
      (isEmpty : t.instructionsBelow part = []) :
      Obstacle t (.emptyRegion part)
  | filterMissing {region handler : NodeId} {owner : Option NodeId} {catchType : Option Token}
      (isAttached : t.isAttached region = true) (isListed : handler ∈ t.handlersOf region)
      (isFilterHandler : t.blockKind? handler = some (.handler .filterClause owner none catchType)) :
      Obstacle t (.filterMissing handler)
  /-- the instructions of a filter do not end where those of its handler start, and the fault tells
  the offsets of both -/
  | filterApart {region handler filterBlock : NodeId} {owner : Option NodeId}
      {catchType : Option Token} (isAttached : t.isAttached region = true)
      (isListed : handler ∈ t.handlersOf region)
      (isFilterHandler : t.blockKind? handler =
        some (.handler .filterClause owner (some filterBlock) catchType))
      (isApart : ∀ before after, t.instructions ≠
        before ++ (t.instructionsBelow filterBlock ++ (t.instructionsBelow handler ++ after))) :
      Obstacle t (.filterApart filterBlock (t.codeEnd filterBlock) (t.codeStart handler))

variable {t : Tree}

namespace WellFormed

variable (wf : t.WellFormed)

include wf

/-! ## Nodes of the body -/

theorem isAttached_iff {id : NodeId} : t.isAttached id = true ↔ id ∈ t.preOrder root := by
  rw [wf.mem_preOrder_iff, isAttached, isBelow, Bool.or_eq_true, beq_iff_eq, List.contains_iff_mem]

theorem isAttached_eq_false_iff {id : NodeId} : t.isAttached id = false ↔ id ∉ t.preOrder root := by
  rw [← wf.isAttached_iff, Bool.not_eq_true]

/-- The operations of the code stream are those of the instructions of the body. -/
theorem mem_operations_iff {operation : Operation NodeId} :
    operation ∈ t.instructions.filterMap t.operation? ↔
      ∃ id, t.isAttached id = true ∧ t.operation? id = some operation := by
  rw [List.mem_filterMap, wf.instructions_eq]
  constructor
  · rintro ⟨id, hid, hoperation⟩
    exact ⟨id, wf.isAttached_iff.mpr (List.mem_filter.mp hid).1, hoperation⟩
  · rintro ⟨id, hid, hoperation⟩
    refine ⟨id, List.mem_filter.mpr ⟨wf.isAttached_iff.mp hid, ?_⟩, hoperation⟩
    rw [isInstruction, hoperation]
    rfl

/-- The place of a label of the body tells what the label leads to. -/
theorem exists_place_of_label {label : NodeId} (hlabel : t.isLabel label = true)
    (hattached : t.isAttached label = true) : ∃ place, place? t.places label = some place ∧
      place ≤ t.instructions.length ∧ (t.labelTarget? label = none ↔ place = t.instructions.length) := by
  obtain ⟨first, last, hcovers⟩ := wf.exists_covers (wf.isAttached_iff.mp hattached)
  obtain ⟨before, after, horder, hfirst, hlast⟩ := wf.coverage?_eq_some_iff.mp hcovers
  have hle : first ≤ t.instructions.length :=
    Nat.le_trans (hlast ▸ Nat.le_add_right _ _) (wf.covers_le_length hcovers)
  refine ⟨first, hcovers.place?_eq, hle, ?_⟩
  rw [wf.labelTarget?_eq (isInstruction_of_isLabel hlabel) hcovers.place?_eq,
    List.getElem?_eq_none_iff]
  omega

/-- A block covers the instructions below it. -/
theorem instructions_split {block : NodeId} {first last : Nat} (hcovers : t.Covers block first last)
    (hother : t.isInstruction block = false) : ∃ before after,
      t.instructions = before ++ (t.instructionsBelow block ++ after) ∧ before.length = first ∧
        last = first + (t.instructionsBelow block).length := by
  obtain ⟨before, after, horder, hfirst, hlast⟩ := wf.coverage?_eq_some_iff.mp hcovers
  have hbelow : (t.preOrder block).filter t.isInstruction = t.instructionsBelow block := by
    rw [instructionsBelow, wf.descendants_eq, wf.preOrder_eq,
      List.filter_cons_of_neg (by simp [hother])]
  refine ⟨before.filter t.isInstruction, after.filter t.isInstruction, ?_, ?_, ?_⟩
  · rw [wf.instructions_eq, horder, List.filter_append, List.filter_append, hbelow]
  · rw [← List.countP_eq_length_filter, hfirst]
  · rw [hlast, ← hbelow, List.countP_eq_length_filter]

/-- The instructions below a block stand at one place only. -/
theorem length_before {block : NodeId} {first last : Nat} (hcovers : t.Covers block first last)
    (hother : t.isInstruction block = false) (hlt : first < last) {before after : List NodeId}
    (h : t.instructions = before ++ (t.instructionsBelow block ++ after)) : before.length = first := by
  obtain ⟨left, right, horder, hleft, hlast⟩ := wf.instructions_split hcovers hother
  have hnodup : t.instructions.Nodup := by
    rw [wf.instructions_eq]
    exact (wf.nodup_preOrder root).filter _
  cases hbelow : t.instructionsBelow block with
  | nil =>
    rw [hbelow, List.length_nil] at hlast
    omega
  | cons x rest =>
    rw [hbelow, List.cons_append] at horder h
    rw [horder] at hnodup h
    rw [← (append_cons_inj_of_nodup hnodup h).1, hleft]

/-- The places that two blocks cover meet exactly if the instructions below the one are followed by
those below the other. -/
theorem meets_iff {a b : NodeId} {first last first' last' : Nat} (ha : t.Covers a first last)
    (hb : t.Covers b first' last') (hothers : t.isInstruction a = false ∧ t.isInstruction b = false)
    (hlt : first < last) (hlt' : first' < last') :
    last = first' ↔ ∃ before after, t.instructions =
      before ++ (t.instructionsBelow a ++ (t.instructionsBelow b ++ after)) := by
  obtain ⟨left, right, horder, hleft, hlast⟩ := wf.instructions_split ha hothers.1
  obtain ⟨left', right', horder', hleft', -⟩ := wf.instructions_split hb hothers.2
  constructor
  · intro hmeet
    refine ⟨left, right', ?_⟩
    have hsame : left' = left ++ t.instructionsBelow a := by
      have htake : left' = t.instructions.take first' := by rw [horder', List.take_left' hleft']
      rw [htake, horder, ← List.append_assoc, List.take_left']
      rw [List.length_append, hleft, ← hmeet, hlast]
    rw [horder', hsame, List.append_assoc]
  · rintro ⟨before, after, hrun⟩
    have hbefore := wf.length_before ha hothers.1 hlt hrun
    rw [← List.append_assoc] at hrun
    have hmiddle := wf.length_before hb hothers.2 hlt' hrun
    rw [List.length_append, hbefore, ← hlast] at hmiddle
    exact hmiddle

/-! ## Faults of the code stream -/

/-- A label without a slot lies outside the body or behind all instructions. -/
theorem labelSlot_error {label : NodeId} (hlabel : t.isLabel label = true) {cause : LayoutFault}
    (h : labelSlot t.places t.instructions.length t label = .error cause) :
    cause = .labelNotPlaced label ∧ (t.isAttached label = false ∨ t.labelTarget? label = none) := by
  cases hattached : t.isAttached label with
  | false =>
    have hplace : place? t.places label = none := by
      rw [Option.eq_none_iff_forall_ne_some]
      intro place hplace
      obtain ⟨before, after, horder, -⟩ := wf.exists_of_place? hplace
      exact wf.isAttached_eq_false_iff.mp hattached (by rw [horder]; simp)
    rw [labelSlot, hplace] at h
    exact ⟨(Except.error.inj h).symm, Or.inl rfl⟩
  | true =>
    obtain ⟨place, hplace, hle, hlast⟩ := wf.exists_place_of_label hlabel hattached
    rw [labelSlot, hplace] at h
    dsimp only at h
    split at h
    case isTrue => exact absurd h (by simp)
    case isFalse hcheck =>
      refine ⟨(Except.error.inj h).symm, Or.inr (hlast.mpr ?_)⟩
      simp only [hlabel, Bool.and_true, decide_eq_true_eq] at hcheck
      omega

/-- A label that is not placed has no slot. -/
theorem labelSlot_of_unplaced {label : NodeId} (hlabel : t.isLabel label = true)
    (h : t.isAttached label = false ∨ t.labelTarget? label = none) (slot : Nat) :
    labelSlot t.places t.instructions.length t label ≠ .ok slot := by
  intro hslot
  unfold labelSlot at hslot
  split at hslot
  case h_1 place hplace =>
    obtain ⟨before, after, horder, -⟩ := wf.exists_of_place? hplace
    have hattached : t.isAttached label = true :=
      wf.isAttached_iff.mpr (by rw [horder]; simp)
    obtain ⟨place', hplace', -, hlast⟩ := wf.exists_place_of_label hlabel hattached
    obtain rfl := Option.some.inj (hplace.symm.trans hplace')
    have hend := hlast.mp (h.resolve_left (by rw [hattached]; simp))
    rw [hend] at hslot
    simp at hslot
  case h_2 => exact absurd hslot (by simp)

end WellFormed

/-- An operation without a slot lacks its targets, or one of its labels has no slot. -/
theorem slotOf_error {places : Array (Option Nat)} {count : Nat} {operation : Operation NodeId}
    {cause : LayoutFault} (h : t.slotOf places count operation = .error cause) :
    (operation.opcode.isBranch = true ∧ operation.operand.targets.length ≠ 1 ∧
      cause = .branchWithoutTarget operation.opcode) ∨
    (operation.opcode.isSwitch = true ∧ (∀ labels, operation.operand ≠ .switch labels) ∧
      cause = .switchWithoutTargets) ∨
    ((operation.opcode.isBranch = true ∨ operation.opcode.isSwitch = true) ∧
      ∃ label ∈ operation.operand.targets, labelSlot places count t label = .error cause) := by
  obtain ⟨opcode, operand⟩ := operation
  have hmapM : Slot.mk ⟨opcode, operand⟩ <$> operand.targets.mapM (labelSlot places count t) =
      .error cause → ∃ label ∈ operand.targets, labelSlot places count t label = .error cause :=
    fun h => exists_of_mapM_eq_error (map_eq_error.mp h)
  simp only [slotOf] at h
  cases htype : opcode.operandType
  case shortBranch | branch =>
    have hbranch : opcode.isBranch = true := by simp [Opcode.isBranch, htype]
    have hswitch : opcode.isSwitch = false := by simp [Opcode.isSwitch, htype]
    by_cases hone : operand.targets.length = 1
    · exact Or.inr (Or.inr ⟨Or.inl hbranch, hmapM (by simpa [hbranch, hswitch, hone] using h)⟩)
    · exact Or.inl ⟨hbranch, hone, Eq.symm (by simpa [hbranch, hone] using h)⟩
  case switch =>
    have hbranch : opcode.isBranch = false := by simp [Opcode.isBranch, htype]
    have hswitch : opcode.isSwitch = true := by simp [Opcode.isSwitch, htype]
    cases operand with
    | switch labels =>
      exact Or.inr (Or.inr ⟨Or.inr hswitch, hmapM (by simpa [hbranch, hswitch] using h)⟩)
    | _ => exact Or.inr (Or.inl ⟨hswitch, by simp, Eq.symm (by simpa [hbranch, hswitch] using h)⟩)
  all_goals
    have hbranch : opcode.isBranch = false := by simp [Opcode.isBranch, htype]
    have hswitch : opcode.isSwitch = false := by simp [Opcode.isSwitch, htype]
    simp [hbranch, hswitch, pure, Except.pure] at h

/-- A branch whose operand suits it leads to one label, or to none yet. -/
theorem targets_of_suits {operation : Operation NodeId} (h : acceptsOperand operation = true)
    (hbranch : operation.opcode.isBranch = true) (hone : operation.operand.targets.length ≠ 1) :
    operation.operand.targets = [] := by
  rw [acceptsOperand, Bool.or_eq_true] at h
  rcases h with hfits | hopen
  · obtain ⟨label, hoperand⟩ := (Operation.isBranch_iff hfits).mp hbranch
    rw [hoperand] at hone
    exact absurd rfl hone
  · rw [Bool.and_eq_true, beq_iff_eq] at hopen
    rw [hopen.1]
    rfl

/-- A fault of the code stream tells an obstacle. -/
theorem Reachable.obstacle_of_slots (h : t.Reachable) {cause : LayoutFault}
    (hslots : t.slots t.places = .error cause) : t.Obstacle cause := by
  have wf := h.wellFormed
  rw [slots, t.length_operations] at hslots
  split at hslots
  case h_1 label hdangling =>
    obtain rfl := throw_eq_error.mp hslots
    rw [danglingLabel?] at hdangling
    have hcheck := List.find?_some hdangling
    have hmem := List.mem_filter.mp (List.mem_of_find?_eq_some hdangling)
    simp only [Bool.and_eq_true, beq_iff_eq, Option.isSome_iff_exists] at hcheck
    obtain ⟨hplace, owner, howner⟩ := hcheck
    have hattached : t.isAttached label = true := by
      obtain ⟨before, after, horder, -⟩ := wf.exists_of_place? hplace
      exact wf.isAttached_iff.mpr (by rw [horder]; simp)
    obtain ⟨place, hplace', -, hlast⟩ := wf.exists_place_of_label hmem.2 hattached
    exact .danglingLabel hattached howner
      (hlast.mpr (Option.some.inj (hplace'.symm.trans hplace)))
  case h_2 =>
    obtain ⟨operation, hmem, hfail⟩ := exists_of_mapM_eq_error hslots
    obtain ⟨id, hattached, hoperation⟩ := wf.mem_operations_iff.mp hmem
    rcases slotOf_error hfail with ⟨hbranch, hone, rfl⟩ | ⟨hswitch, hlist, rfl⟩ |
      ⟨hjump, label, hlisted, hlabel⟩
    · exact .branchWithoutTarget hattached hoperation hbranch
        (targets_of_suits (h.operandsSuit id operation hoperation) hbranch hone)
    · exact .switchWithoutTargets hattached hoperation hswitch hlist
    · have hisLabel : t.isLabel label = true :=
        h.targetsLabeled id label (by rw [labelsOf, hoperation]; exact hlisted)
      obtain ⟨rfl, hunplaced⟩ := wf.labelSlot_error hisLabel hlabel
      exact .labelNotPlaced hattached hoperation hjump hlisted hunplaced

/-! ## Faults of the exception table -/

/-- A block without an extent lies outside the body or has no instructions. -/
theorem WellFormed.extent_error (wf : t.WellFormed) {p : Plan} (hplaces : p.places = t.places)
    {block : NodeId} (hother : t.isInstruction block = false) {cause : LayoutFault}
    (h : p.extent t block = .error cause) :
    cause = .outsideTree block ∧ t.isAttached block = false ∨
      cause = .emptyRegion block ∧ t.instructionsBelow block = [] := by
  rw [Plan.extent, hplaces] at h
  split at h
  case h_1 hnone =>
    refine Or.inl ⟨(Except.error.inj h).symm, wf.isAttached_eq_false_iff.mpr fun hmem => ?_⟩
    obtain ⟨first, last, hcovers⟩ := wf.exists_covers hmem
    rw [Covers, hnone] at hcovers
    exact absurd hcovers (by simp)
  case h_2 first last hcovers =>
    split at h
    case isTrue => exact absurd h (by simp)
    case isFalse hempty =>
      obtain ⟨-, -, -, -, hlast⟩ := wf.instructions_split hcovers hother
      exact Or.inr ⟨(Except.error.inj h).symm, List.eq_nil_of_length_eq_zero (by omega)⟩

/-- A handler that a region lists names the region. -/
theorem RegionsLinked.handlerParts_of_listed (h : t.RegionsLinked) {region handler : NodeId}
    (hlisted : handler ∈ t.handlersOf region) :
    Plan.handlerParts t region handler = .ok (handler :: (t.filterOf? handler).toList) := by
  obtain ⟨kind, filterBlock, catchType, hkind⟩ :=
    protectedBy?_eq_some_iff.mp ((h.handler_iff handler region).mpr hlisted)
  rw [Plan.handlerParts_eq_ok_iff]
  exact ⟨kind, filterBlock, catchType, hkind, by rw [filterOf?, hkind]⟩

/-- A handler that a region lists is one of its parts, and so is its filter. -/
theorem mem_partsOf {region handler : NodeId} (hlisted : handler ∈ t.handlersOf region) :
    handler ∈ t.partsOf region ∧
      ∀ filterBlock, t.filterOf? handler = some filterBlock → filterBlock ∈ t.partsOf region := by
  refine ⟨List.mem_cons_of_mem _ (List.mem_flatMap.mpr ⟨handler, hlisted, List.mem_cons_self⟩),
    fun filterBlock hfilter => ?_⟩
  exact List.mem_cons_of_mem _ (List.mem_flatMap.mpr ⟨handler, hlisted, by simp [hfilter]⟩)

/-- The parts of a region that lists handlers are blocks. -/
theorem RegionsLinked.exists_kind_of_part (h : t.RegionsLinked) {region part : NodeId}
    (hprotected : t.handlersOf region ≠ []) (hpart : part ∈ t.partsOf region) :
    ∃ kind, t.blockKind? part = some kind := by
  rw [partsOf, List.mem_cons, List.mem_flatMap] at hpart
  rcases hpart with rfl | ⟨handler, hlisted, hpart⟩
  · exact ⟨_, (t.handlersOf_eq_iff hprotected).mp rfl⟩
  · obtain ⟨kind, filterBlock, catchType, hkind⟩ :=
      protectedBy?_eq_some_iff.mp ((h.handler_iff handler region).mpr hlisted)
    rw [List.mem_cons, Option.mem_toList] at hpart
    rcases hpart with rfl | hfilter
    · exact ⟨_, hkind⟩
    · obtain ⟨scope, hblock⟩ := h.exists_filterBlock hfilter
      exact ⟨_, hblock⟩

end Tree

namespace Plan

variable {p : Plan} {t : Tree}

/-- A part without a position does not stand in the order. -/
theorem positions_error {order parts : List NodeId} {cause : LayoutFault}
    (h : positions order parts = .error cause) :
    ∃ part ∈ parts, part ∉ order ∧ cause = .outsideTree part := by
  obtain ⟨part, hpart, hfail⟩ := exists_of_mapM_eq_error h
  refine ⟨part, hpart, ?_⟩
  split at hfail
  case h_1 => exact absurd hfail (by simp)
  case h_2 hnone => exact ⟨List.idxOf?_eq_none_iff.mp hnone, (Except.error.inj hfail).symm⟩

theorem handlerPositions_error {order : List NodeId} {region : NodeId} {listed : List NodeId}
    {cause : LayoutFault} (h : handlerPositions t order region listed = .error cause) :
    ∃ handler ∈ listed, handlerParts t region handler = .error cause ∨
      ∃ parts, handlerParts t region handler = .ok parts ∧ positions order parts = .error cause := by
  induction listed with
  | nil => exact absurd h pure_ne_error
  | cons handler listed ih =>
    rw [handlerPositions, bind_eq_error] at h
    rcases h with hparts | ⟨parts, hparts, h⟩
    · exact ⟨handler, List.mem_cons_self, Or.inl hparts⟩
    · rcases bind_eq_error.mp h with hown | ⟨own, -, h⟩
      · exact ⟨handler, List.mem_cons_self, Or.inr ⟨parts, hparts, hown⟩⟩
      · rcases bind_eq_error.mp h with hothers | ⟨others, -, h⟩
        · obtain ⟨other, hother, hfail⟩ := ih hothers
          exact ⟨other, List.mem_cons_of_mem handler hother, hfail⟩
        · exact absurd h pure_ne_error

/-- A handler without a clause has no extent, or is a filter handler whose filter block is missing, has
no extent or does not end where the handler starts. -/
theorem clause_error {region : Nat × Nat} {handler : NodeId} {kind : HandlerKind}
    {owner filterBlock : Option NodeId} {catchType : Option Token}
    (hkind : t.blockKind? handler = some (.handler kind owner filterBlock catchType))
    {cause : LayoutFault} (h : p.clause t region handler = .error cause) :
    p.extent t handler = .error cause ∨
      kind = .filterClause ∧ (filterBlock = none ∧ cause = .filterMissing handler ∨
        ∃ block, filterBlock = some block ∧ (p.extent t block = .error cause ∨
          ∃ extent filter, p.extent t handler = .ok extent ∧ p.extent t block = .ok filter ∧
            filter.1 + filter.2 ≠ extent.1 ∧
              cause = .filterApart block (filter.1 + filter.2) extent.1)) := by
  rw [clause, hkind] at h
  dsimp only at h
  rcases bind_eq_error.mp h with hextent | ⟨extent, hextent, h⟩
  · exact Or.inl hextent
  · refine Or.inr ?_
    cases kind with
    | filterClause =>
      refine ⟨rfl, ?_⟩
      cases filterBlock with
      | none =>
        rw [throw_bind] at h
        exact Or.inl ⟨rfl, (Except.error.inj h).symm⟩
      | some block =>
        refine Or.inr ⟨block, rfl, ?_⟩
        rcases bind_eq_error.mp h with hfilter | ⟨filter, hfilter, h⟩
        · exact Or.inl hfilter
        · rcases guard_eq_error.mp h with ⟨happart, hcause⟩ | ⟨-, hpure⟩
          · exact Or.inr ⟨extent, filter, hextent, hfilter, happart, hcause.symm⟩
          · exact absurd hpure pure_ne_error
    | _ => exact absurd h pure_ne_error

end Plan

namespace Tree

variable {t : Tree}

theorem extent?_eq_some_iff {block : NodeId} {extent : Nat × Nat} :
    t.extent? block = some extent ↔ ∃ p, Plan.ofTree t = .ok p ∧ p.extent t block = .ok extent := by
  simp only [extent?, Option.bind_eq_some_iff, toOption_eq_some_iff]

/-- A part of a protected region has an extent, or tells an obstacle. -/
theorem Reachable.obstacle_of_extent (h : t.Reachable) {p : Plan} (hplaces : p.places = t.places)
    {region part : NodeId} {cause : LayoutFault} (hattached : t.isAttached region = true)
    (hprotected : t.handlersOf region ≠ []) (hpart : part ∈ t.partsOf region)
    (hfault : p.extent t part = .error cause) : t.Obstacle cause := by
  obtain ⟨kind, hkind⟩ := h.regionsLinked.exists_kind_of_part hprotected hpart
  rcases h.wellFormed.extent_error hplaces (isInstruction_of_blockKind? hkind) hfault with
    ⟨rfl, houtside⟩ | ⟨rfl, hempty⟩
  · exact .outsideTree hattached hpart houtside
  · exact .emptyRegion hattached hprotected hpart hempty

/-- A fault in telling the protected regions of the body tells an obstacle. -/
theorem Reachable.obstacle_of_protections (h : t.Reachable) {cause : LayoutFault}
    (hfault : Plan.protections t = .error cause) : t.Obstacle cause := by
  have wf := h.wellFormed
  rcases bind_eq_error.mp hfault with hmapM | ⟨_, -, hpure⟩
  case inr => exact absurd hpure pure_ne_error
  obtain ⟨region, hregion, hfail⟩ := exists_of_mapM_eq_error hmapM
  unfold Plan.protection? at hfail
  split at hfail
  case h_2 => exact absurd hfail (by simp)
  case h_1 first others hkind =>
    rcases bind_eq_error.mp hfail with hpositions | ⟨_, -, hpure⟩
    case inr => exact absurd hpure pure_ne_error
    obtain ⟨handler, hlisted, hfail⟩ := Plan.handlerPositions_error hpositions
    have hlist : t.handlersOf region = first :: others := by rw [handlersOf, hkind]
    rw [← hlist] at hlisted
    have hown := h.regionsLinked.handlerParts_of_listed hlisted
    rcases hfail with hforeign | ⟨parts, hparts, hfail⟩
    · rw [hown] at hforeign
      exact absurd hforeign (by simp)
    · obtain rfl := Except.ok.inj (hown.symm.trans hparts)
      obtain ⟨part, hpart, houtside, rfl⟩ := Plan.positions_error hfail
      refine .outsideTree (wf.isAttached_iff.mpr hregion)
        (List.mem_cons_of_mem _ (List.mem_flatMap.mpr ⟨handler, hlisted, hpart⟩))
        (wf.isAttached_eq_false_iff.mpr fun hmem => houtside ?_)
      exact (wf.postOrder_perm root).mem_iff.mpr hmem

/-- A fault of the exception table tells an obstacle. -/
theorem Reachable.obstacle_of_clauses (h : t.Reachable) {p : Plan} (hplan : Plan.ofTree t = .ok p)
    {cause : LayoutFault} (hfault : p.clauses t = .error cause) : t.Obstacle cause := by
  have wf := h.wellFormed
  have hplaces := (Plan.ofTree_eq_ok_iff.mp hplan).1
  rcases bind_eq_error.mp hfault with hprotections | ⟨found, hfound, hfault⟩
  · exact h.obstacle_of_protections hprotections
  rcases bind_eq_error.mp hfault with hparts | ⟨_, -, hpure⟩
  case inr => exact absurd hpure pure_ne_error
  obtain ⟨protection, hmem, hfail⟩ := exists_of_mapM_eq_error hparts
  obtain ⟨hprotects, hperm, -⟩ := Plan.protections_eq_ok wf hfound
  have hregion := hperm.mem_iff.mp (List.mem_map_of_mem hmem)
  rw [protectedRegions, List.mem_filter] at hregion
  have hattached : t.isAttached protection.region = true := wf.isAttached_iff.mpr hregion.1
  have hprotected : t.handlersOf protection.region ≠ [] := by simpa using hregion.2
  rcases bind_eq_error.mp hfail with hextent | ⟨extent, -, hfail⟩
  · exact h.obstacle_of_extent hplaces hattached hprotected List.mem_cons_self hextent
  obtain ⟨handler, hlisted, hfail⟩ := exists_of_mapM_eq_error hfail
  rw [← (hprotects protection hmem).handlers] at hlisted
  obtain ⟨hpart, hfilterPart⟩ := mem_partsOf hlisted
  obtain ⟨kind, filterBlock, catchType, hkind⟩ :=
    protectedBy?_eq_some_iff.mp ((h.regionsLinked.handler_iff handler protection.region).mpr hlisted)
  rcases Plan.clause_error hkind hfail with hextent |
    ⟨rfl, ⟨rfl, rfl⟩ | ⟨block, rfl, hextent | ⟨own, filter, hown, hfilter, happart, rfl⟩⟩⟩
  · exact h.obstacle_of_extent hplaces hattached hprotected hpart hextent
  · exact .filterMissing hattached hlisted hkind
  · exact h.obstacle_of_extent hplaces hattached hprotected
      (hfilterPart block (by rw [filterOf?, hkind])) hextent
  · have hfilterOf : t.filterOf? handler = some block := by rw [filterOf?, hkind]
    obtain ⟨scope, hblock⟩ := h.regionsLinked.exists_filterBlock hfilterOf
    have hend : t.codeEnd block = filter.1 + filter.2 := by
      rw [codeEnd, extent?_eq_some_iff.mpr ⟨p, hplan, hfilter⟩]
      rfl
    have hstart : t.codeStart handler = own.1 := by
      rw [codeStart, extent?_eq_some_iff.mpr ⟨p, hplan, hown⟩]
      rfl
    rw [← hend, ← hstart]
    refine .filterApart hattached hlisted hkind fun before after hrun => happart ?_
    obtain ⟨first, last, hcovers, hlt, rfl⟩ := Plan.extent_eq_ok_iff.mp hown
    obtain ⟨first', last', hcovers', hlt', rfl⟩ := Plan.extent_eq_ok_iff.mp hfilter
    rw [hplaces] at hcovers hcovers'
    have hmeet := (wf.meets_iff hcovers' hcovers
      ⟨isInstruction_of_blockKind? hblock, isInstruction_of_blockKind? hkind⟩ hlt' hlt).mpr
        ⟨before, after, hrun⟩
    have hle : last' ≤ p.slots.length := by
      rw [(slots_spec (Plan.ofTree_eq_ok_iff.mp hplan).2.1).2.1]
      exact wf.covers_le_length hcovers'
    rw [Nat.add_sub_cancel' (Plan.starts_mono hplan (Nat.le_of_lt hlt') hle), hmeet]

/-! ## No obstacle in front of a body -/

/-- The labels of the body are those of the flat order. -/
theorem WellFormed.mem_labels_iff (wf : t.WellFormed) {label : NodeId} :
    label ∈ t.labels ↔ t.isAttached label = true ∧ t.isLabel label = true := by
  have hroot : t.isLabel root = false := by
    rw [isLabel, blockKind?_eq_some_iff.mp wf.root_kind]
  have hlabels : t.labels = (t.preOrder root).filter t.isLabel := by
    rw [labels, wf.descendants_eq, wf.preOrder_eq root, List.filter_cons_of_neg (by simp [hroot])]
  rw [hlabels, List.mem_filter, wf.isAttached_iff]

namespace Lowers

variable {p : Plan} {b : Body} (h : t.Lowers p b) (hreach : t.Reachable)

include h hreach

/-- Every label of the body that is referred to has an instruction behind it. -/
theorem labelTarget?_ne_none {label owner : NodeId} (hattached : t.isAttached label = true)
    (howner : t.labelOwner? label = some owner) : t.labelTarget? label ≠ none := by
  have wf := hreach.wellFormed
  obtain ⟨-, hslots, -⟩ := Plan.ofTree_eq_ok_iff.mp h.plan
  have hlabel := isLabel_of_labelOwner? howner
  obtain ⟨place, hplace, -, hlast⟩ := wf.exists_place_of_label hlabel hattached
  have hchecked := List.find?_eq_none.mp (slots_eq_ok_iff.mp hslots).1 label
    (wf.mem_labels_iff.mpr ⟨hattached, hlabel⟩)
  intro hnone
  rw [hplace, howner, hlast.mp hnone, t.length_operations] at hchecked
  exact hchecked (by simp)

/-- Every instruction of the body has its slot. -/
theorem exists_slotOf {id : NodeId} {operation : Operation NodeId}
    (hattached : t.isAttached id = true) (hoperation : t.operation? id = some operation) :
    ∃ slot, t.slotOf t.places t.instructions.length operation = .ok slot := by
  obtain ⟨-, hslots, -⟩ := Plan.ofTree_eq_ok_iff.mp h.plan
  obtain ⟨hoperations, -, hmade⟩ := slots_spec hslots
  have hmem := hreach.wellFormed.mem_operations_iff.mpr ⟨id, hattached, hoperation⟩
  rw [← hoperations] at hmem
  obtain ⟨slot, hslot, rfl⟩ := List.mem_map.mp hmem
  exact ⟨slot, hmade slot hslot⟩

/-- Every region of the body that lists handlers has an extent, and every handler that it lists has a
clause. -/
theorem exists_clause {region handler : NodeId} (hattached : t.isAttached region = true)
    (hlisted : handler ∈ t.handlersOf region) :
    ∃ extent clause, p.extent t region = .ok extent ∧ p.clause t extent handler = .ok clause := by
  have wf := hreach.wellFormed
  obtain ⟨regions, hperm, -, -, hclauses⟩ := Plan.clauses_eq_ok wf h.clauses
  have hregion : region ∈ regions := by
    rw [hperm.mem_iff, protectedRegions, List.mem_filter]
    exact ⟨wf.isAttached_iff.mp hattached, by simpa using List.ne_nil_of_mem hlisted⟩
  have hpair : (region, handler) ∈ t.listings regions := t.mem_listings_iff.mpr ⟨hregion, hlisted⟩
  obtain ⟨clause, -, extent, hextent, hclause⟩ := exists_of_mem_right hclauses.flip hpair
  exact ⟨extent, clause, hextent, hclause⟩

/-- Every filter handler of the body has a filter block, which ends where the handler starts. -/
theorem exists_filter {region handler : NodeId} {owner filterBlock : Option NodeId}
    {catchType : Option Token} (hattached : t.isAttached region = true)
    (hlisted : handler ∈ t.handlersOf region)
    (hkind : t.blockKind? handler = some (.handler .filterClause owner filterBlock catchType)) :
    ∃ block own filter, filterBlock = some block ∧ p.extent t handler = .ok own ∧
      p.extent t block = .ok filter ∧ filter.1 + filter.2 = own.1 := by
  obtain ⟨extent, clause, -, hclause⟩ := h.exists_clause hreach hattached hlisted
  obtain ⟨kind, _, ⟨_, _, hkind', -⟩, -, -, own, hown, -, -, hfilter⟩ :=
    Plan.clause_eq_ok_iff.mp hclause
  rw [hkind, Option.some.injEq, BlockKind.handler.injEq] at hkind'
  obtain ⟨rfl, -, rfl, -⟩ := hkind'
  rw [if_pos rfl] at hfilter
  obtain ⟨block, filter, hblock, hfilter, hend, -⟩ := hfilter
  exact ⟨block, own, filter, hblock, hown, hfilter, hend⟩

/-- Every part of a protected region of the body has an extent. -/
theorem exists_extent {region part : NodeId} (hattached : t.isAttached region = true)
    (hprotected : t.handlersOf region ≠ []) (hpart : part ∈ t.partsOf region) :
    ∃ extent, p.extent t part = .ok extent := by
  rw [partsOf, List.mem_cons, List.mem_flatMap] at hpart
  rcases hpart with rfl | ⟨handler, hlisted, hpart⟩
  · obtain ⟨handler, hlisted⟩ := List.exists_mem_of_ne_nil _ hprotected
    obtain ⟨extent, -, hextent, -⟩ := h.exists_clause hreach hattached hlisted
    exact ⟨extent, hextent⟩
  · rw [List.mem_cons, Option.mem_toList] at hpart
    rcases hpart with rfl | hfilterOf
    · obtain ⟨extent, clause, -, hclause⟩ := h.exists_clause hreach hattached hlisted
      obtain ⟨kind, filterBlock, -, -, -, own, hown, -⟩ := Plan.clause_eq_ok_iff.mp hclause
      exact ⟨own, hown⟩
    · -- only filter handlers have a filter block
      obtain ⟨_, _, -, hkind⟩ := hreach.regionsLinked.guarded handler part hfilterOf
      obtain ⟨block, own, filter, hblock, -, hextent, -⟩ :=
        h.exists_filter hreach hattached hlisted hkind
      obtain rfl := Option.some.inj hblock
      exact ⟨filter, hextent⟩

/-- A tree with a body has no obstacle. -/
theorem not_obstacle (cause : LayoutFault) : ¬ t.Obstacle cause := by
  have wf := hreach.wellFormed
  have hplaces := (Plan.ofTree_eq_ok_iff.mp h.plan).1
  intro hobstacle
  cases hobstacle with
  | danglingLabel hattached howner hlast =>
    exact h.labelTarget?_ne_none hreach hattached howner hlast
  | branchWithoutTarget hattached hoperation hbranch hnone =>
    obtain ⟨slot, hslot⟩ := h.exists_slotOf hreach hattached hoperation
    have hone := (slotOf_eq_ok_iff.mp hslot).2.1 hbranch
    rw [hnone] at hone
    exact absurd hone (by simp)
  | switchWithoutTargets hattached hoperation hswitch hnone =>
    obtain ⟨slot, hslot⟩ := h.exists_slotOf hreach hattached hoperation
    obtain ⟨labels, hlabels⟩ := (slotOf_eq_ok_iff.mp hslot).2.2.1 hswitch
    exact hnone labels hlabels
  | @labelNotPlaced id label operation hattached hoperation hjump hlisted hunplaced =>
    obtain ⟨slot, hslot⟩ := h.exists_slotOf hreach hattached hoperation
    obtain ⟨-, -, -, htargets⟩ := slotOf_eq_ok_iff.mp hslot
    rw [if_pos (by simpa using hjump)] at htargets
    obtain ⟨target, -, htarget⟩ := exists_of_mem_right (mapM_eq_ok.mp htargets).flip hlisted
    have hlabel : t.isLabel label = true :=
      hreach.targetsLabeled id label (by rw [labelsOf, hoperation]; exact hlisted)
    exact wf.labelSlot_of_unplaced hlabel hunplaced target htarget
  | @outsideTree region part hattached hpart houtside =>
    have hprotected : t.handlersOf region ≠ [] := by
      intro hnone
      rw [partsOf, hnone, List.flatMap_nil, List.mem_singleton] at hpart
      rw [hpart, hattached] at houtside
      exact absurd houtside (by simp)
    obtain ⟨extent, hextent⟩ := h.exists_extent hreach hattached hprotected hpart
    obtain ⟨first, last, hcovers, -⟩ := Plan.extent_eq_ok_iff.mp hextent
    rw [hplaces] at hcovers
    exact wf.isAttached_eq_false_iff.mp houtside (wf.mem_body_of_covers hcovers)
  | @emptyRegion region part hattached hprotected hpart hempty =>
    obtain ⟨extent, hextent⟩ := h.exists_extent hreach hattached hprotected hpart
    obtain ⟨first, last, hcovers, hlt, -⟩ := Plan.extent_eq_ok_iff.mp hextent
    rw [hplaces] at hcovers
    obtain ⟨kind, hkind⟩ := hreach.regionsLinked.exists_kind_of_part hprotected hpart
    obtain ⟨-, -, -, -, hlast⟩ := wf.instructions_split hcovers (isInstruction_of_blockKind? hkind)
    rw [hempty, List.length_nil] at hlast
    omega
  | @filterMissing region handler owner catchType hattached hlisted hkind =>
    obtain ⟨block, _, _, hblock, -⟩ := h.exists_filter hreach hattached hlisted hkind
    exact absurd hblock (by simp)
  | @filterApart region handler block owner catchType hattached hlisted hkind happart =>
    obtain ⟨block', own, filter, hblock, hown, hfilter, hend⟩ :=
      h.exists_filter hreach hattached hlisted hkind
    obtain rfl := Option.some.inj hblock
    obtain ⟨first, last, hcovers, hlt, rfl⟩ := Plan.extent_eq_ok_iff.mp hown
    obtain ⟨first', last', hcovers', hlt', rfl⟩ := Plan.extent_eq_ok_iff.mp hfilter
    rw [hplaces] at hcovers hcovers'
    obtain ⟨scope, hblock⟩ :=
      hreach.regionsLinked.exists_filterBlock (by rw [filterOf?, hkind] : t.filterOf? handler = some block)
    have hslots := (slots_spec (Plan.ofTree_eq_ok_iff.mp h.plan).2.1).2.1
    have hle := hslots ▸ wf.covers_le_length hcovers
    have hle' := hslots ▸ wf.covers_le_length hcovers'
    -- different places have different starts
    rw [Nat.add_sub_cancel' (Plan.starts_mono h.plan (Nat.le_of_lt hlt') hle'),
      h.starts_eq hle', h.starts_eq (by omega)] at hend
    have hmeet := Body.start_injective h.sized.size_pos (by rwa [h.length_instructions])
      (by rw [h.length_instructions]; omega) hend
    obtain ⟨before, after, hrun⟩ := (wf.meets_iff hcovers' hcovers
      ⟨isInstruction_of_blockKind? hblock, isInstruction_of_blockKind? hkind⟩ hlt' hlt).mp hmeet
    exact happart before after hrun

end Lowers

/-- A fault of lowering tells an obstacle. -/
theorem Reachable.obstacle_of_toBody (h : t.Reachable) (hsize : t.longSize < 2 ^ 31) {fault : Fault}
    (hfault : t.toBody = .error fault) : ∃ cause, fault = .layout cause ∧ t.Obstacle cause := by
  cases hslots : t.slots t.places with
  | error cause =>
    -- there is no plan without slots
    have hplan : Plan.ofTree t = .error cause := bind_eq_error.mpr (Or.inl hslots)
    rw [toBody, hplan] at hfault
    exact ⟨cause, (Except.error.inj hfault).symm, h.obstacle_of_slots hslots⟩
  | ok slots =>
    obtain ⟨p, hplan, hnear⟩ := exists_plan hslots hsize
    obtain ⟨code, hcode⟩ := exists_instructions h.operandsSuit hsize hplan hnear
    rw [toBody, hplan] at hfault
    have hbody : p.body t = .error fault := hfault
    rcases bind_eq_error.mp hbody with hinstructions | ⟨_, -, hbody⟩
    · rw [hcode] at hinstructions
      exact absurd hinstructions (by simp)
    · rcases bind_eq_error.mp hbody with hclauses | ⟨_, -, hpure⟩
      · obtain ⟨cause, hcause, rfl⟩ := mapError_eq_error.mp hclauses
        exact ⟨cause, rfl, h.obstacle_of_clauses hplan hcause⟩
      · exact absurd hpure pure_ne_error

/-- A tree fails to become a body exactly at an obstacle. -/
theorem Reachable.fails_iff_obstacle (h : t.Reachable) (hsize : t.longSize < 2 ^ 31) :
    (∃ fault, t.toBody = .error fault) ↔ ∃ cause, t.Obstacle cause := by
  constructor
  · rintro ⟨fault, hfault⟩
    obtain ⟨cause, -, hobstacle⟩ := h.obstacle_of_toBody hsize hfault
    exact ⟨cause, hobstacle⟩
  · rintro ⟨cause, hobstacle⟩
    rw [exists_error_iff]
    rintro ⟨b, hb⟩
    obtain ⟨p, hlowers⟩ := toBody_eq_ok_iff.mp hb
    exact hlowers.not_obstacle h cause hobstacle

end Tree

end MethodIL
