import Mathlib
import MethodIL.Proofs.Body.Offsets
import MethodIL.Proofs.Instruction.Size
import MethodIL.Proofs.Layout.LeastForms
import MethodIL.Proofs.Opcode.Forms
import MethodIL.Proofs.Outcome
import MethodIL.Tree.ToBody
set_option autoImplicit false

/-!
# What lowering emits

The steps of lowering taken apart: a plan has one slot for each instruction of the tree, the slots
become pieces, and each slot becomes an instruction of exactly the size that relaxation has counted
for its piece.  So the starts of the plan are the starts of the emitted instructions.
-/

namespace MethodIL

open Outcome

/-! ## The steps of lowering -/

/-- A tree lowers to a body by way of a plan. -/
structure Tree.Lowers (t : Tree) (p : Plan) (b : Body) : Prop where
  plan : Plan.ofTree t = .ok p
  instructions : p.instructions = .ok b.instructions
  clauses : p.clauses t = .ok b.clauses
  header : b.header = t.header

theorem Tree.toBody_eq_ok_iff {t : Tree} {b : Body} :
    t.toBody = .ok b ↔ ∃ p, t.Lowers p b := by
  constructor
  · intro h
    obtain ⟨p, hp, hbody⟩ := bind_eq_ok.mp h
    obtain ⟨instructions, hi, hrest⟩ := bind_eq_ok.mp hbody
    obtain ⟨clauses, hc, hb⟩ := bind_eq_ok.mp hrest
    obtain rfl := pure_eq_ok.mp hb
    exact ⟨p, mapError_eq_ok.mp hp, hi, mapError_eq_ok.mp hc, rfl⟩
  · rintro ⟨p, hplan, hi, hc, hheader⟩
    refine bind_eq_ok.mpr ⟨p, mapError_eq_ok.mpr hplan, bind_eq_ok.mpr ⟨_, hi, ?_⟩⟩
    exact bind_eq_ok.mpr ⟨_, mapError_eq_ok.mpr hc, pure_eq_ok.mpr (by rw [← hheader])⟩

/-- A plan holds the slots of the tree, and its layout is the relaxed one of the pieces. -/
theorem Plan.ofTree_eq_ok_iff {t : Tree} {p : Plan} :
    Plan.ofTree t = .ok p ↔
      p.places = t.places ∧ t.slots t.places = .ok p.slots ∧
        ∃ pieces, p.slots.mapM Slot.piece = .ok pieces ∧ p.relaxed = Layout.relax pieces ∧
          p.starts.getD p.slots.length 0 < UInt32.size := by
  constructor
  · intro h
    obtain ⟨slots, hslots, h⟩ := bind_eq_ok.mp h
    obtain ⟨pieces, hpieces, h⟩ := bind_eq_ok.mp h
    obtain ⟨hlimit, h⟩ := guard_eq_ok.mp h
    obtain rfl := pure_eq_ok.mp h
    exact ⟨rfl, hslots, pieces, hpieces, rfl, Nat.lt_of_not_le hlimit⟩
  · rintro ⟨hplaces, hslots, pieces, hpieces, hrelaxed, hlimit⟩
    refine bind_eq_ok.mpr ⟨_, hslots, bind_eq_ok.mpr ⟨_, hpieces, ?_⟩⟩
    rw [Plan.starts, hrelaxed] at hlimit
    refine guard_eq_ok.mpr ⟨Nat.not_le_of_lt hlimit, pure_eq_ok.mpr ?_⟩
    rw [← hplaces, ← hrelaxed]

theorem Tree.slots_eq_ok_iff {t : Tree} {places : Array (Option Nat)} {slots : List Slot} :
    t.slots places = .ok slots ↔
      let operations := t.instructions.filterMap t.operation?
      t.danglingLabel? places operations.length = none ∧
        operations.mapM (t.slotOf places operations.length) = .ok slots := by
  simp only [Tree.slots]
  cases t.danglingLabel? places (t.instructions.filterMap t.operation?).length with
  | none => simp
  | some label => simp [throw, throwThe, MonadExceptOf.throw]

/-! ## Slots -/

/-- A branch slot has one target, a switch slot one for each label, and every target is a slot. -/
theorem Tree.slotOf_eq_ok_iff {t : Tree} {places : Array (Option Nat)} {count : Nat}
    {operation : Operation NodeId} {slot : Slot} :
    t.slotOf places count operation = .ok slot ↔
      slot.operation = operation ∧
      (operation.opcode.isBranch = true → operation.operand.targets.length = 1) ∧
      (operation.opcode.isSwitch = true → ∃ labels, operation.operand = .switch labels) ∧
      (if operation.opcode.isBranch || operation.opcode.isSwitch then
        operation.operand.targets.mapM (labelSlot places count t) = .ok slot.targets
      else slot.targets = []) := by
  obtain ⟨opcode, operand⟩ := operation
  obtain ⟨operation, targets⟩ := slot
  have hmapM : Slot.mk ⟨opcode, operand⟩ <$> operand.targets.mapM (labelSlot places count t) =
        .ok ⟨operation, targets⟩ ↔
      operation = ⟨opcode, operand⟩ ∧
        operand.targets.mapM (labelSlot places count t) = .ok targets := by
    simp only [map_eq_ok, Slot.mk.injEq]
    constructor
    · rintro ⟨_, hmapM, rfl, rfl⟩
      exact ⟨rfl, hmapM⟩
    · rintro ⟨rfl, hmapM⟩
      exact ⟨_, hmapM, rfl, rfl⟩
  have hpure : (pure ⟨⟨opcode, operand⟩, []⟩ : Except LayoutFault Slot) =
      .ok ⟨operation, targets⟩ ↔ operation = ⟨opcode, operand⟩ ∧ targets = [] := by
    rw [pure_eq_ok, Slot.mk.injEq]
    exact and_congr eq_comm eq_comm
  simp only [slotOf]
  cases htype : opcode.operandType
  case shortBranch | branch =>
    have hbranch : opcode.isBranch = true := by simp [Opcode.isBranch, htype]
    have hswitch : opcode.isSwitch = false := by simp [Opcode.isSwitch, htype]
    by_cases hone : operand.targets.length = 1 <;> simp [hbranch, hswitch, hone, hmapM]
  case switch =>
    have hbranch : opcode.isBranch = false := by simp [Opcode.isBranch, htype]
    have hswitch : opcode.isSwitch = true := by simp [Opcode.isSwitch, htype]
    cases operand <;> simp [hbranch, hswitch, hmapM]
  all_goals
    have hbranch : opcode.isBranch = false := by simp [Opcode.isBranch, htype]
    have hswitch : opcode.isSwitch = false := by simp [Opcode.isSwitch, htype]
    simp [hbranch, hswitch, hpure]

/-- The targets of a slot are slots. -/
theorem Tree.target_lt_of_slotOf {t : Tree} {places : Array (Option Nat)} {count : Nat}
    {operation : Operation NodeId} {slot : Slot} (hslot : t.slotOf places count operation = .ok slot)
    {target : Nat} (htarget : target ∈ slot.targets) : target < count := by
  obtain ⟨-, -, -, htargets⟩ := Tree.slotOf_eq_ok_iff.mp hslot
  split at htargets
  case isTrue =>
    obtain ⟨label, -, hlabel⟩ := exists_of_mem_mapM htargets htarget
    unfold labelSlot at hlabel
    split at hlabel
    case h_1 place _ =>
      split at hlabel
      case isTrue hcheck =>
        simp only [Bool.and_eq_true, decide_eq_true_eq] at hcheck
        exact Except.ok.inj hlabel ▸ hcheck.1
      case isFalse => exact absurd hlabel (by simp)
    case h_2 => exact absurd hlabel (by simp)
  case isFalse =>
    rw [htargets] at htarget
    exact absurd htarget List.not_mem_nil

/-- A branch slot has one target. -/
theorem Tree.branch_targets_of_slotOf {t : Tree} {places : Array (Option Nat)} {count : Nat}
    {slot : Slot} (hslot : t.slotOf places count slot.operation = .ok slot)
    (hbranch : slot.operation.opcode.isBranch = true) : slot.targets = [slot.targets.headD 0] := by
  obtain ⟨-, hone, -, htargets⟩ := Tree.slotOf_eq_ok_iff.mp hslot
  rw [if_pos (by simp [hbranch])] at htargets
  obtain ⟨target, htarget⟩ := List.length_eq_one_iff.mp ((mapM_length htargets).trans (hone hbranch))
  rw [htarget]
  rfl

/-- Only branches become branch pieces. -/
theorem Slot.branch_of_piece {slot : Slot} {target : Nat} (h : slot.piece = .ok (.branch target)) :
    slot.operation.opcode.isBranch = true ∧ target = slot.targets.headD 0 := by
  rw [Slot.piece] at h
  dsimp only at h
  split at h
  case isTrue hbranch =>
    rw [Except.ok.injEq, Layout.Piece.branch.injEq] at h
    exact ⟨hbranch, h.symm⟩
  case isFalse =>
    split at h
    case h_1 =>
      split at h
      case isTrue => simp at h
      case isFalse => simp at h
    case h_2 => simp at h

/-- The branches of a code stream lead to its slots. -/
theorem Tree.inRange_pieces {t : Tree} {places : Array (Option Nat)} {slots : List Slot}
    {pieces : List Layout.Piece}
    (hslots : ∀ slot ∈ slots, t.slotOf places slots.length slot.operation = .ok slot)
    (hpieces : slots.mapM Slot.piece = .ok pieces) : Layout.InRange pieces := by
  intro index target hpiece
  obtain ⟨slot, hslot, hmade⟩ := exists_getElem?_right (mapM_eq_ok.mp hpieces) hpiece
  obtain ⟨hbranch, rfl⟩ := Slot.branch_of_piece hmade
  have hown := hslots slot (List.mem_of_getElem? hslot)
  rw [mapM_length hpieces]
  refine Tree.target_lt_of_slotOf hown ?_
  rw [Tree.branch_targets_of_slotOf hown hbranch]
  exact List.mem_singleton_self _

/-! ## Instructions -/

namespace Plan

variable {p : Plan} {index : Nat} {slot : Slot} {isLong : Bool} {i : Instruction}

/-- An offset is emitted exactly if it holds the distance between two slots. -/
theorem relative_eq_ok_iff {target : Nat} {offset : Int32} :
    p.relative index target = .ok offset ↔
      offset.toInt = Layout.distance p.starts index target := by
  have hmin : Int32.minValue.toInt = -2147483648 := by decide
  have hmax : Int32.maxValue.toInt = 2147483647 := by decide
  simp only [relative, hmin, hmax]
  constructor
  · intro h
    split at h
    case isTrue hrange =>
      simp only [Bool.and_eq_true, decide_eq_true_eq] at hrange
      obtain rfl := Except.ok.inj h
      exact Int32.toInt_ofInt_of_le (by omega) (by omega)
    case isFalse => exact absurd h (by simp)
  · intro h
    have hlow := offset.le_toInt
    have hhigh := offset.toInt_lt
    rw [← h, if_pos (by simp; omega), Int32.ofInt_toInt]

/-- What a slot becomes: a branch in one of its forms, a switch, or an operation without targets.
The emitted offsets hold the distances to the slots that the labels mark. -/
inductive Emits (p : Plan) (index : Nat) (slot : Slot) (isLong : Bool) (i : Instruction) : Prop where
  | branch (offset : Int32)
      (isBranch : slot.operation.opcode.isBranch = true)
      (form : (if isLong then slot.operation.opcode.longForm?
        else slot.operation.opcode.shortForm?) = some i.opcode)
      (operand : i.operand = .branch offset)
      (holds : offset.toInt = Layout.distance p.starts index (slot.targets.headD 0))
  | switch (labels : List NodeId) (offsets : List Int32)
      (isOther : slot.operation.opcode.isBranch = false)
      (isSwitch : slot.operation.operand = .switch labels)
      (opcode : i.opcode = slot.operation.opcode)
      (operand : i.operand = .switch offsets)
      (holds : List.Forall₂ (fun target (offset : Int32) =>
        offset.toInt = Layout.distance p.starts index target) slot.targets offsets)
  | plain
      (isOther : slot.operation.opcode.isBranch = false)
      (isPlain : ∀ labels, slot.operation.operand ≠ .switch labels)
      (opcode : i.opcode = slot.operation.opcode)
      (operand : i.operand = slot.operation.operand.withoutTargets)

/-- The form that a branch slot takes is assigned, and is that of the emitted instruction. -/
theorem form_of_isBranch {op : Opcode} (h : op.isBranch = true) (isLong : Bool) :
    ∃ form, (if isLong then op.longForm? else op.shortForm?) = some form ∧
      form.IsFormOf op (if isLong then .branch else .shortBranch) := by
  cases isLong with
  | false => simpa using Opcode.exists_shortForm? h
  | true => simpa using Opcode.exists_longForm? h

/-- What a slot becomes is the operation that is computed for it. -/
theorem operation_eq_ok_iff :
    p.operation index slot isLong = .ok i.toOperation ↔ p.Emits index slot isLong i := by
  simp only [operation]
  cases hbranch : slot.operation.opcode.isBranch with
  | true =>
    obtain ⟨form, hform, -⟩ := form_of_isBranch hbranch isLong
    simp only [if_true, hform, Option.getD_some, bind_eq_ok, pure_eq_ok, relative_eq_ok_iff]
    constructor
    · rintro ⟨offset, hholds, hop⟩
      have hopcode : form = i.opcode := congrArg Operation.opcode hop
      have hoperand : .branch offset = i.operand := congrArg Operation.operand hop
      exact .branch offset hbranch (by rw [hform, hopcode]) hoperand.symm hholds
    · intro h
      cases h with
      | branch offset _ hform' hoperand hholds =>
        rw [hform, Option.some.injEq] at hform'
        exact ⟨offset, hholds, by rw [hform', ← hoperand]⟩
      | switch _ _ hother => simp [hbranch] at hother
      | plain hother => simp [hbranch] at hother
  | false =>
    simp only [Bool.false_eq_true, if_false]
    split
    case h_1 labels hlabels =>
      simp only [bind_eq_ok, pure_eq_ok, mapM_eq_ok, relative_eq_ok_iff]
      constructor
      · rintro ⟨offsets, hholds, hop⟩
        exact .switch labels offsets hbranch hlabels (congrArg Operation.opcode hop).symm
          (congrArg Operation.operand hop).symm hholds
      · intro h
        cases h with
        | branch _ hother => simp [hbranch] at hother
        | switch _ offsets _ _ hopcode hoperand hholds =>
          exact ⟨offsets, hholds, by rw [← hopcode, ← hoperand]⟩
        | plain _ hplain => exact absurd hlabels (hplain labels)
    case h_2 hplain =>
      simp only [pure_eq_ok]
      constructor
      · intro hop
        exact .plain hbranch hplain (congrArg Operation.opcode hop).symm
          (congrArg Operation.operand hop).symm
      · intro h
        cases h with
        | branch _ hother => simp [hbranch] at hother
        | switch labels _ _ hlabels => exact absurd hlabels (hplain labels)
        | plain _ _ hopcode hoperand => rw [← hopcode, ← hoperand]

/-- An instruction records the size that its operation takes. -/
theorem ofOperation_eq_ok_iff {operation : Operation Int32} :
    Instruction.ofOperation operation = .ok i ↔
      i.toOperation = operation ∧ i.toOperation.encodedSize = .ok i.size := by
  rw [Instruction.ofOperation]
  constructor
  · intro h
    split at h
    case h_1 size hsize =>
      obtain rfl := Except.ok.inj h
      exact ⟨rfl, hsize⟩
    case h_2 => exact absurd h (by simp)
  · rintro ⟨rfl, hsize⟩
    rw [hsize]

/-- An instruction is emitted for a slot exactly if it is what the slot becomes and records the size
that it takes. -/
theorem instruction_eq_ok_iff :
    p.instruction index slot isLong = .ok i ↔
      p.Emits index slot isLong i ∧ i.toOperation.encodedSize = .ok i.size := by
  rw [← operation_eq_ok_iff, instruction]
  constructor
  · intro h
    split at h
    case h_1 operation hop =>
      obtain ⟨rfl, hsized⟩ := ofOperation_eq_ok_iff.mp h
      exact ⟨hop, hsized⟩
    case h_2 => exact absurd h (by simp)
  · rintro ⟨hop, hsized⟩
    rw [hop]
    exact ofOperation_eq_ok_iff.mpr ⟨rfl, hsized⟩

/-- An emitted instruction takes the bytes that were counted for its piece. -/
theorem size_of_instruction {t : Tree} {places : Array (Option Nat)} {count : Nat}
    {piece : Layout.Piece} (hslot : t.slotOf places count slot.operation = .ok slot)
    (hpiece : slot.piece = .ok piece) (hi : p.instruction index slot isLong = .ok i) :
    i.size.toNat = piece.size isLong := by
  obtain ⟨-, -, -, htargets⟩ := Tree.slotOf_eq_ok_iff.mp hslot
  obtain ⟨hemits, hsized⟩ := instruction_eq_ok_iff.mp hi
  obtain ⟨hfits, -, hsize⟩ := Operation.encodedSize_eq_ok_iff.mp hsized
  rw [hsize, Operation.operandSize]
  simp only [Slot.piece] at hpiece
  cases hemits with
  | branch offset hbranch hform hoperand _ =>
    obtain ⟨form, hform', htype, hbytes, -⟩ := form_of_isBranch hbranch isLong
    obtain rfl : form = i.opcode := Option.some.inj (hform'.symm.trans hform)
    rw [if_pos hbranch, Except.ok.injEq] at hpiece
    subst hpiece
    rw [hbytes, htype]
    cases isLong <;> rfl
  | switch labels offsets hother hlabels hopcode hoperand hholds =>
    rw [hoperand] at hfits
    have htype : i.opcode.operandType = .switch := by simpa [Operand.fits] using hfits
    have hswitch : slot.operation.opcode.isSwitch = true := by
      rw [← hopcode, Opcode.isSwitch, htype]
      rfl
    rw [if_pos (by simp [hswitch])] at htargets
    have hcount : slot.targets.length = labels.length := by
      rw [mapM_length htargets, hlabels]
      rfl
    rw [if_neg (by simp [hother])] at hpiece
    simp only [hlabels] at hpiece
    split at hpiece
    case isFalse => exact absurd hpiece (by simp)
    case isTrue =>
      obtain rfl := Except.ok.inj hpiece
      rw [htype, hoperand, hopcode]
      simp only [OperandType.size?, Option.getD_none, Operand.targets, Layout.Piece.size,
        ← hholds.length_eq, hcount]
      omega
  | plain hother hplain hopcode hoperand =>
    have hnoSwitch : i.opcode.operandType ≠ .switch := by
      intro htype
      rw [hoperand, htype] at hfits
      cases hcase : slot.operation.operand <;>
        simp [hcase, Operand.withoutTargets, Operand.fits, Immediate.operandType] at hfits
      case immediate value => cases value <;> simp at hfits
    rw [if_neg (by simp [hother])] at hpiece
    split at hpiece
    case h_1 labels hlabels => exact absurd hlabels (hplain labels)
    case h_2 =>
      obtain rfl := Except.ok.inj hpiece
      rw [hopcode] at hnoSwitch ⊢
      cases hwidth : slot.operation.opcode.operandType.size? with
      | some width => rfl
      | none =>
        cases htype : slot.operation.opcode.operandType <;>
          simp [htype, OperandType.size?] at hwidth hnoSwitch

/-- Distances in code of less than two gigabytes can be emitted. -/
theorem exists_offset (hnear : ∀ place, p.starts.getD place 0 < 2 ^ 31) (index target : Nat) :
    ∃ offset : Int32, offset.toInt = Layout.distance p.starts index target := by
  have hsource := hnear (index + 1)
  have htarget := hnear target
  have hlow : Int32.minValue.toInt ≤ Layout.distance p.starts index target := by
    rw [Layout.distance, show Int32.minValue.toInt = -2147483648 by decide]
    omega
  have hhigh : Layout.distance p.starts index target ≤ Int32.maxValue.toInt := by
    rw [Layout.distance, show Int32.maxValue.toInt = 2147483647 by decide]
    omega
  refine ⟨.ofInt (Layout.distance p.starts index target), relative_eq_ok_iff.mp ?_⟩
  rw [relative]
  simp only [hlow, hhigh, decide_true, Bool.and_self, if_true]

/-- In code of less than two gigabytes every slot whose operand suits its opcode becomes an
instruction, unless it has too many targets. -/
theorem exists_instruction (hnear : ∀ place, p.starts.getD place 0 < 2 ^ 31) {t : Tree}
    {places : Array (Option Nat)} {count : Nat}
    (hslot : t.slotOf places count slot.operation = .ok slot)
    (hfits : slot.operation.operand.fits slot.operation.opcode.operandType = true)
    (htable : slot.operation.opcode.operandType = .switch →
      4 * slot.operation.operand.targets.length + 4 < UInt32.size) (index : Nat) (isLong : Bool) :
    ∃ i, p.instruction index slot isLong = .ok i := by
  simp only [instruction_eq_ok_iff]
  cases hbranch : slot.operation.opcode.isBranch with
  | true =>
    obtain ⟨form, hform, htype, -⟩ := form_of_isBranch hbranch isLong
    obtain ⟨offset, hoffset⟩ := exists_offset hnear index (slot.targets.headD 0)
    have hbranchFits : (Operand.branch offset).fits form.operandType = true := by
      cases isLong <;> simp [htype, Operand.fits]
    obtain ⟨size, hsize⟩ := @Operation.exists_encodedSize ⟨form, .branch offset⟩ hbranchFits
      fun hswitch => by cases isLong <;> simp [htype] at hswitch
    exact ⟨⟨⟨form, .branch offset⟩, size⟩, .branch offset hbranch hform rfl hoffset, hsize⟩
  | false =>
    obtain ⟨-, -, -, htargets⟩ := Tree.slotOf_eq_ok_iff.mp hslot
    cases hoperand : slot.operation.operand with
    | branch label =>
      have hjump := (Operation.isBranch_iff hfits).mpr ⟨label, hoperand⟩
      rw [hbranch] at hjump
      exact absurd hjump (by simp)
    | switch labels =>
      have hswitch := (Operation.isSwitch_iff hfits).mpr ⟨labels, hoperand⟩
      rw [if_pos (by simp [hswitch]), hoperand] at htargets
      obtain ⟨offsets, hoffsets⟩ : ∃ offsets, List.Forall₂ (fun target (offset : Int32) =>
          offset.toInt = Layout.distance p.starts index target) slot.targets offsets := by
        have hrelative : ∀ target ∈ slot.targets, ∃ offset, p.relative index target = .ok offset :=
          fun target _ => (exists_offset hnear index target).imp fun _ => relative_eq_ok_iff.mpr
        obtain ⟨offsets, hoffsets⟩ := exists_mapM_eq_ok hrelative
        exact ⟨offsets, (mapM_eq_ok.mp hoffsets).imp fun _ _ => relative_eq_ok_iff.mp⟩
      have hcount : offsets.length = labels.length := by
        rw [← hoffsets.length_eq, mapM_length htargets]
        rfl
      rw [hoperand] at hfits htable
      obtain ⟨size, hsize⟩ :=
        @Operation.exists_encodedSize ⟨slot.operation.opcode, .switch offsets⟩ hfits
          fun htype => by simpa [Operand.targets, hcount] using htable htype
      exact ⟨⟨⟨slot.operation.opcode, .switch offsets⟩, size⟩,
        .switch labels offsets hbranch hoperand rfl rfl hoffsets, hsize⟩
    | none | immediate value | token name =>
      rw [hoperand] at hfits
      obtain ⟨size, hsize⟩ := @Operation.exists_encodedSize
        ⟨slot.operation.opcode, slot.operation.operand.withoutTargets⟩
        (by rw [hoperand]; exact hfits)
        fun htype => by simp [hoperand, Operand.withoutTargets, Operand.targets, UInt32.size]
      exact ⟨⟨⟨slot.operation.opcode, slot.operation.operand.withoutTargets⟩, size⟩,
        .plain hbranch (by simp [hoperand]) rfl rfl, hsize⟩

end Plan

/-! ## The code stream -/

namespace Tree.Lowers

variable {t : Tree} {p : Plan} {b : Body}

/-- The pieces of a plan, and what relaxation makes of them. -/
theorem exists_pieces (h : t.Lowers p b) :
    ∃ pieces, p.slots.mapM Slot.piece = .ok pieces ∧ p.relaxed = Layout.relax pieces := by
  obtain ⟨-, -, pieces, hpieces, hrelaxed, -⟩ := Plan.ofTree_eq_ok_iff.mp h.plan
  exact ⟨pieces, hpieces, hrelaxed⟩

/-- Every slot is the slot of an instruction of the tree. -/
theorem slotOf_slot (h : t.Lowers p b) {index : Nat} {slot : Slot}
    (hslot : p.slots[index]? = some slot) :
    t.slotOf t.places p.slots.length slot.operation = .ok slot := by
  obtain ⟨-, hslots, -⟩ := Plan.ofTree_eq_ok_iff.mp h.plan
  obtain ⟨-, hmapM⟩ := Tree.slots_eq_ok_iff.mp hslots
  have hall := mapM_eq_ok.mp hmapM
  rw [mapM_length hmapM]
  obtain ⟨hi, rfl⟩ := List.getElem?_eq_some_iff.mp hslot
  have hstep := (List.forall₂_iff_get.mp hall).2 index (by rw [hall.length_eq]; exact hi) hi
  have hsame := (Tree.slotOf_eq_ok_iff.mp hstep).1
  simp only [List.get_eq_getElem] at hstep hsame
  rw [hsame]
  exact hstep

theorem target_lt (h : t.Lowers p b) {index target : Nat} {slot : Slot}
    (hslot : p.slots[index]? = some slot) (htarget : target ∈ slot.targets) :
    target < p.slots.length :=
  Tree.target_lt_of_slotOf (h.slotOf_slot hslot) htarget

/-- A branch slot has its one target in front. -/
theorem branch_targets (h : t.Lowers p b) {index : Nat} {slot : Slot}
    (hslot : p.slots[index]? = some slot) (hbranch : slot.operation.opcode.isBranch = true) :
    slot.targets = [slot.targets.headD 0] :=
  Tree.branch_targets_of_slotOf (h.slotOf_slot hslot) hbranch

section Pieces

variable {pieces : List Layout.Piece}

theorem length_pieces (hpieces : p.slots.mapM Slot.piece = .ok pieces) :
    pieces.length = p.slots.length :=
  mapM_length hpieces

theorem length_forms (hpieces : p.slots.mapM Slot.piece = .ok pieces)
    (hrelaxed : p.relaxed = Layout.relax pieces) : p.relaxed.forms.length = p.slots.length := by
  rw [hrelaxed, Layout.length_relax_forms, length_pieces hpieces]

theorem length_instructions (h : t.Lowers p b) : b.instructions.length = p.slots.length := by
  obtain ⟨pieces, hpieces, hrelaxed⟩ := h.exists_pieces
  have hlen := mapM_length h.instructions
  rw [List.length_zipIdx, List.length_zip, length_forms hpieces hrelaxed, Nat.min_self] at hlen
  exact hlen

/-- The instruction at a place is what the slot at that place becomes. -/
theorem instruction_at (h : t.Lowers p b) {index : Nat} {slot : Slot}
    (hslot : p.slots[index]? = some slot) :
    ∃ isLong i, p.relaxed.forms[index]? = some isLong ∧ b.instructions[index]? = some i ∧
      p.instruction index slot isLong = .ok i := by
  obtain ⟨pieces, hpieces, hrelaxed⟩ := h.exists_pieces
  have hindex := (List.getElem?_eq_some_iff.mp hslot).1
  obtain ⟨isLong, hform⟩ : ∃ isLong, p.relaxed.forms[index]? = some isLong :=
    ⟨_, List.getElem?_eq_getElem (by rw [length_forms hpieces hrelaxed]; exact hindex)⟩
  have hzip : (p.slots.zip p.relaxed.forms)[index]? = some (slot, isLong) :=
    List.getElem?_zip_eq_some.mpr ⟨hslot, hform⟩
  have hplace : (p.slots.zip p.relaxed.forms).zipIdx[index]? = some ((slot, isLong), index) := by
    rw [List.getElem?_zipIdx, hzip]
    simp
  obtain ⟨i, hi, hemitted⟩ := mapM_getElem? h.instructions hplace
  exact ⟨isLong, i, hform, hi, hemitted⟩

/-- The recorded sizes of the code are the sizes of the pieces in their final forms. -/
theorem sizes_eq (h : t.Lowers p b) (hpieces : p.slots.mapM Slot.piece = .ok pieces)
    (hrelaxed : p.relaxed = Layout.relax pieces) :
    b.sizes = Layout.sizes pieces p.relaxed.forms := by
  have hforms := length_forms hpieces hrelaxed
  rw [← length_pieces hpieces] at hforms
  apply List.ext_getElem?
  intro index
  by_cases hindex : index < p.slots.length
  · have hslot : p.slots[index]? = some p.slots[index] := List.getElem?_eq_getElem hindex
    obtain ⟨isLong, i, hform, hi, hemitted⟩ := h.instruction_at hslot
    obtain ⟨piece, hpiece, hmade⟩ := mapM_getElem? hpieces hslot
    rw [Body.getElem?_sizes hi, Layout.getElem?_sizes hpiece hform,
      Plan.size_of_instruction (h.slotOf_slot hslot) hmade hemitted]
  · rw [List.getElem?_eq_none (by rw [Body.length_sizes, h.length_instructions]; omega),
      List.getElem?_eq_none (by rw [Layout.length_sizes hforms, length_pieces hpieces]; omega)]

end Pieces

/-- The starts of the plan are the starts of the emitted instructions. -/
theorem starts_eq (h : t.Lowers p b) {index : Nat} (hindex : index ≤ p.slots.length) :
    p.starts.getD index 0 = b.start index := by
  obtain ⟨pieces, hpieces, hrelaxed⟩ := h.exists_pieces
  have hforms := length_forms hpieces hrelaxed
  rw [← length_pieces hpieces] at hforms
  rw [Plan.starts, hrelaxed, Layout.relax_starts, ← hrelaxed, Layout.getD_starts, Body.start,
    h.sizes_eq hpieces hrelaxed]
  rw [Layout.length_sizes hforms, length_pieces hpieces]
  exact hindex

/-- An emitted offset that holds the distance to a slot lands on the instruction of that slot. -/
theorem lands_of_holds (h : t.Lowers p b) {index target : Nat} {offset : Int32}
    (hindex : index < p.slots.length) (htarget : target < p.slots.length)
    (hholds : offset.toInt = Layout.distance p.starts index target) :
    b.Lands index offset target := by
  refine ⟨by rw [h.length_instructions]; exact htarget, ?_⟩
  have hend : index + 1 ≤ p.slots.length := hindex
  rw [hholds, Layout.distance, h.starts_eq (Nat.le_of_lt htarget), h.starts_eq hend]
  omega

end Tree.Lowers

end MethodIL
