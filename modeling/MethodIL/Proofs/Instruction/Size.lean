import Mathlib
import MethodIL.Instruction.Basic
set_option autoImplicit false

/-!
# The size of an instruction

An operation has a size exactly if its operand suits its opcode and a switch table is not too long;
the size is then that of the opcode and the operand together.
-/

namespace MethodIL

theorem Opcode.size_pos (op : Opcode) : 0 < op.size := by
  unfold Opcode.size Opcode.bytes
  split <;> simp

theorem Opcode.size_le (op : Opcode) : op.size ≤ 2 := by
  unfold Opcode.size Opcode.bytes
  split <;> simp

namespace Operation

/-- The number of bytes that encode the operand of an operation. -/
def operandSize (op : Operation Int32) : Nat :=
  op.opcode.operandType.size?.getD (4 * op.operand.targets.length + 4)

/-- The table of a switch can be counted in four bytes. -/
def TableFits (op : Operation Int32) : Prop :=
  op.opcode.operandType = .switch → 4 * op.operand.targets.length + 4 < UInt32.size

theorem size?_le {type : OperandType} {size : Nat} (h : type.size? = some size) : size ≤ 8 := by
  cases type <;> simp [OperandType.size?] at h <;> omega

theorem encodedSize_eq_ok_iff {op : Operation Int32} {size : UInt32} :
    op.encodedSize = .ok size ↔
      op.operand.fits op.opcode.operandType = true ∧ op.TableFits ∧
        size.toNat = op.opcode.size + op.operandSize := by
  have hopcode := op.opcode.size_le
  have hword : ∀ n : Nat, n < UInt32.size → (UInt32.ofNat n = size ↔ size.toNat = n) := by
    intro n hn
    constructor
    · rintro rfl
      exact UInt32.toNat_ofNat_of_lt' hn
    · rintro rfl
      exact UInt32.ofNat_toNat
  unfold encodedSize operandSize TableFits
  by_cases hfits : op.operand.fits op.opcode.operandType = true
  · rw [if_pos hfits]
    cases hsize : op.opcode.operandType.size? with
    | some width =>
      have hwidth := size?_le hsize
      have hfixed : op.opcode.operandType ≠ .switch := by
        intro htype
        simp [htype, OperandType.size?] at hsize
      simp only [Except.ok.injEq, hfits, hfixed, false_implies, true_and, Option.getD_some]
      exact hword _ (by simp only [UInt32.size]; omega)
    | none =>
      have htype : op.opcode.operandType = .switch := by
        cases htype : op.opcode.operandType <;> simp [htype, OperandType.size?] at hsize ⊢
      rw [htype] at hfits
      simp only [hfits, htype, true_implies, true_and, Option.getD_none]
      by_cases htable : 4 * op.operand.targets.length + 4 < UInt32.size
      · rw [if_pos htable, Except.ok.injEq]
        simp only [htable, true_and]
        exact hword _ (by simp only [UInt32.size] at htable ⊢; omega)
      · simp [htable]
  · simp [hfits]

/-- An operation whose operand suits its opcode and whose table is not too long has a size. -/
theorem exists_encodedSize {op : Operation Int32} (hfits : op.operand.fits op.opcode.operandType = true)
    (htable : op.TableFits) : ∃ size, op.encodedSize = .ok size := by
  unfold encodedSize
  rw [if_pos hfits]
  cases hsize : op.opcode.operandType.size? with
  | some width => exact ⟨_, rfl⟩
  | none =>
    have htype : op.opcode.operandType = .switch := by
      cases htype : op.opcode.operandType <;> simp [htype, OperandType.size?] at hsize ⊢
    exact ⟨_, if_pos (htable htype)⟩

/-- A branch is what has the operand of a branch. -/
theorem isBranch_iff {ρ : Type} {op : Operation ρ}
    (hfits : op.operand.fits op.opcode.operandType = true) :
    op.opcode.isBranch = true ↔ ∃ offset, op.operand = .branch offset := by
  rw [Opcode.isBranch]
  cases hoperand : op.operand with
  | immediate value =>
    rw [hoperand] at hfits
    cases value <;> simp_all [Operand.fits, Immediate.operandType] <;> simp [← hfits]
  | _ =>
    rw [hoperand] at hfits
    simp_all [Operand.fits]

/-- A switch is what has the operand of a switch. -/
theorem isSwitch_iff {ρ : Type} {op : Operation ρ}
    (hfits : op.operand.fits op.opcode.operandType = true) :
    op.opcode.isSwitch = true ↔ ∃ offsets, op.operand = .switch offsets := by
  rw [Opcode.isSwitch]
  cases hoperand : op.operand with
  | immediate value =>
    rw [hoperand] at hfits
    cases value <;> simp_all [Operand.fits, Immediate.operandType] <;> simp [← hfits]
  | branch offset =>
    rw [hoperand] at hfits
    simp only [Operand.fits, Bool.or_eq_true, beq_iff_eq] at hfits
    rcases hfits with htype | htype <;> simp [htype]
  | _ =>
    rw [hoperand] at hfits
    simp_all [Operand.fits]

end Operation

/-- Code from opcodes of one byte and their operands, with the sizes that these take; a part that does
not suit is left out. -/
def Instruction.assemble (parts : List (UInt8 × Operand Int32)) : List Instruction :=
  parts.filterMap fun (code, operand) =>
    (Opcode.find? .single code).bind fun opcode =>
      (Instruction.ofOperation ⟨opcode, operand⟩).toOption

end MethodIL
