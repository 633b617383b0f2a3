import Mathlib
import MethodIL.Opcode.Lookup
set_option autoImplicit false

/-!
# The two forms of a branch

Both forms of every branch are assigned, take one byte for the opcode, and agree in everything that
the stack sees.  These are facts about the rows of the instruction set, which is searched here once.
-/

namespace MethodIL.Opcode

theorem mem_all (op : Opcode) : op ∈ all := by
  simp only [all, List.mem_map, List.mem_attach, true_and]
  exact ⟨⟨op.toOpcodeRow, op.assigned⟩, rfl⟩

/-- Two opcodes move the stack and direct control alike. -/
def Alike (a b : Opcode) : Prop :=
  a.flow = b.flow ∧ a.pops = b.pops ∧ a.pushes = b.pushes

instance (a b : Opcode) : Decidable (a.Alike b) :=
  inferInstanceAs (Decidable (_ ∧ _ ∧ _))

/-- A form of a branch: it has the operand type of the form and a single byte, and moves the stack
like the branch. -/
def IsFormOf (form op : Opcode) (type : OperandType) : Prop :=
  form.operandType = type ∧ form.size = 1 ∧ form.Alike op

instance (form op : Opcode) (type : OperandType) : Decidable (form.IsFormOf op type) :=
  inferInstanceAs (Decidable (_ ∧ _ ∧ _))

theorem exists_shortForm? {op : Opcode} (h : op.isBranch = true) :
    ∃ form, op.shortForm? = some form ∧ form.IsFormOf op .shortBranch := by
  have hall : ∀ op ∈ all, op.isBranch = true →
      (op.shortForm?.any fun form => form.IsFormOf op .shortBranch) = true := by decide +kernel
  have hform := hall op (mem_all op) h
  rw [Option.any_eq_true] at hform
  obtain ⟨form, hform, hlike⟩ := hform
  exact ⟨form, hform, of_decide_eq_true hlike⟩

theorem exists_longForm? {op : Opcode} (h : op.isBranch = true) :
    ∃ form, op.longForm? = some form ∧ form.IsFormOf op .branch := by
  have hall : ∀ op ∈ all, op.isBranch = true →
      (op.longForm?.any fun form => form.IsFormOf op .branch) = true := by decide +kernel
  have hform := hall op (mem_all op) h
  rw [Option.any_eq_true] at hform
  obtain ⟨form, hform, hlike⟩ := hform
  exact ⟨form, hform, of_decide_eq_true hlike⟩

/-- The opcode of a branch takes one byte. -/
theorem size_of_isBranch {op : Opcode} (h : op.isBranch = true) : op.size = 1 := by
  have htype : op.operandType = .shortBranch ∨ op.operandType = .branch := by
    simpa [isBranch] using h
  rcases htype with htype | htype
  · obtain ⟨form, hform, -, hsize, -⟩ := exists_shortForm? h
    simp only [shortForm?, htype, Option.some.injEq] at hform
    rw [hform, hsize]
  · obtain ⟨form, hform, -, hsize, -⟩ := exists_longForm? h
    simp only [longForm?, htype, Option.some.injEq] at hform
    rw [hform, hsize]

/-- No branch is a call. -/
theorem isCall_of_isBranch {op : Opcode} (h : op.isBranch = true) : op.isCall = false := by
  have hall : ∀ op ∈ all, op.isBranch = true → op.isCall = false := by decide +kernel
  exact hall op (mem_all op) h

end MethodIL.Opcode
