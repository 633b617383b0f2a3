import Mathlib
import MethodIL.Proofs.Lowering.Table
set_option autoImplicit false

/-!
# Lifting and lowering a body

A body that can be lifted comes out of lowering as it went in, but for the forms of branches and what
follows from these.  Lowering picks the least forms, so the code does not grow either, unless the body
claims that a short branch reaches further than its offset of one byte can tell.
-/

namespace MethodIL

open Outcome

namespace Body

/-- The offsets of the short branches fit one byte. -/
def ShortBranchesFit (x : Body) : Prop :=
  ∀ i ∈ x.instructions, i.opcode.operandType = .shortBranch →
    ∀ offset ∈ i.operand.targets, -128 ≤ offset.toInt ∧ offset.toInt ≤ 127

instance (x : Body) : Decidable x.ShortBranchesFit :=
  inferInstanceAs (Decidable (∀ i ∈ x.instructions, _ → ∀ offset ∈ i.operand.targets, _ ∧ _))

/-- The forms of a body are a valid choice, if its short branches hold offsets of one byte. -/
theorem Sized.validForms_of_fit {x : Body} (h : x.Sized) (hfit : x.ShortBranchesFit) :
    x.ValidForms x.forms := by
  intro k target i offset hi hoperand hlands hshort
  have hmem := List.mem_of_getElem? hi
  obtain ⟨hfits, -⟩ := Operation.encodedSize_eq_ok_iff.mp (h i hmem)
  have hbranch := (Operation.isBranch_iff hfits).mpr ⟨offset, hoperand⟩
  have htype : i.opcode.operandType = .shortBranch := by
    rw [forms, hi, Option.any_some, beq_eq_false_iff_ne] at hshort
    rw [Opcode.isBranch, Bool.or_eq_true, beq_iff_eq, beq_iff_eq] at hbranch
    exact hbranch.resolve_right hshort
  have hdistance : (x.start target : Int) - x.start (k + 1) = offset.toInt := by
    rw [hlands.2]
    omega
  rw [startAs, startAs, h.sizesAs_forms, ← start, ← start, hdistance, Layout.reaches_iff]
  exact hfit i hmem htype offset (by rw [hoperand]; exact List.mem_cons_self)

end Body

namespace Tree.Presents

variable {t : Tree} {x y : Body} {p : Plan} (h : t.Presents x)

include h

/-- A tree that presents a body of less than two gigabytes in long branches lowers to a body. -/
theorem exists_lowers (hsize : x.longSize < 2 ^ 31) : ∃ p y, t.Lowers p y := by
  obtain ⟨handlers, hcarries⟩ := h.carries
  obtain ⟨p, hplan, hnear⟩ := h.exists_plan hsize
  obtain ⟨code, hcode⟩ := h.exists_instructions hplan hnear
  have hcount := h.length_slots (Plan.ofTree_eq_ok_iff.mp hplan).2.1
  obtain ⟨clauses, hclauses⟩ := hcarries.exists_clauses hplan hcount
  exact ⟨p, ⟨t.header, code, clauses⟩, hplan, hcode, hclauses, rfl⟩

section Lowered

variable (hlowers : t.Lowers p y)

include hlowers

theorem length_lowered : y.instructions.length = x.instructions.length := by
  rw [hlowers.length_instructions, h.length_slots (Plan.ofTree_eq_ok_iff.mp hlowers.plan).2.1]

/-! ## Instructions -/

/-- The emitted instruction at a place says the same as the instruction of the body. -/
theorem instruction_lowered {k : Nat} {i j : Instruction} (hi : x.instructions[k]? = some i)
    (hj : y.instructions[k]? = some j) :
    i.opcode.SameUpToForm j.opcode ∧
      i.operand.Matches (fun a b => ∃ target, x.Lands k a target ∧ y.Lands k b target) j.operand := by
  obtain ⟨operand, hoperation, hmatches⟩ := h.operation_at hi
  have hid := h.code.getElem? (List.getElem?_eq_some_iff.mp hi).1
  have haccepts : acceptsOperand ⟨i.opcode, operand⟩ = true := by
    rw [acceptsOperand, hmatches.fits_eq, h.fits hi, Bool.true_or]
  obtain ⟨id, operation, hid', hoperation', -, hemitted⟩ := hlowers.emitted_at hj
  obtain rfl := Option.some.inj (hid.symm.trans hid')
  obtain rfl := Option.some.inj (hoperation.symm.trans hoperation')
  obtain ⟨hsame, hlands⟩ := hemitted haccepts
  refine ⟨hsame, (hmatches.compose hlands).imp ?_⟩
  rintro a b ⟨label, ⟨-, target, hcovers, ha⟩, -, target', hplace, hb⟩
  obtain rfl : target = target' := Option.some.inj (hcovers.place?_eq.symm.trans hplace)
  exact ⟨target, ha, hb⟩

/-- The emitted body agrees with the one presented. -/
theorem agrees_lowered : x.Agrees y where
  header := by
    obtain ⟨handlers, hcarries⟩ := h.carries
    rw [hlowers.header, hcarries.header]
  length := h.length_lowered hlowers
  instructions _ _ _ hi hj := h.instruction_lowered hlowers hi hj
  clauses := by
    obtain ⟨handlers, hcarries⟩ := h.carries
    exact hcarries.sameClauses hlowers

/-! ## Sizes -/

/-- The code does not grow. -/
theorem codeSize_lowered_le (hfit : x.ShortBranchesFit) : y.codeSize ≤ x.codeSize := by
  have hagrees := h.agrees_lowered hlowers
  have hvalid := (hagrees.validForms_iff h.sized hlowers.sized _).mpr (h.sized.validForms_of_fit hfit)
  have hle := hlowers.start_le_startAs hvalid y.instructions.length
  rw [Body.startAs, hagrees.sizesAs_eq h.sized hlowers.sized, h.sized.sizesAs_forms, ← Body.start] at hle
  rw [Body.codeSize_eq, Body.codeSize_eq, ← hagrees.length]
  exact hle

end Lowered

end Tree.Presents

/-! ## The main result -/

/-- A body of less than half a gigabyte that can be lifted can be lowered again, and the result agrees
with it: in the header, in the opcodes up to the forms of branches, in numbers and tokens, in the
instructions that branches and switches lead to, and in the clauses up to their order.  If the offsets
of the short branches fit one byte, the code has not grown. -/
theorem ofBody_toBody_agrees (x : Body) (t : Tree) (hsize : x.codeSize < 2 ^ 29)
    (h : Tree.ofBody x = .ok t) :
    ∃ y, t.toBody = .ok y ∧ x.Agrees y ∧ (x.ShortBranchesFit → y.codeSize ≤ x.codeSize) := by
  have hpresents := Tree.presents_of_ofBody h
  have hlong := hpresents.sized.longSize_le
  obtain ⟨p, y, hlowers⟩ := hpresents.exists_lowers (by omega)
  exact ⟨y, Tree.toBody_eq_ok_iff.mpr ⟨p, hlowers⟩, hpresents.agrees_lowered hlowers,
    hpresents.codeSize_lowered_le hlowers⟩

/-- A guarded instruction with a filter, inside a region with a finally handler whose clause comes
first; the branch out of the inner region is longer than it has to be. -/
def filteredCode : Body where
  header := default
  instructions := Instruction.assemble
    [(0x00, .none), (0xDD, .branch 5), (0x26, .none), (0x26, .none), (0xDE, .branch 1), (0xDC, .none),
     (0x2A, .none)]
  clauses := [Clause.ofFields 2 0 10 10 1 0, Clause.ofFields 1 0 6 7 3 6]

/-- The code of `filteredCode` comes out as it went in, and is no longer than it was. -/
theorem filteredCode_comes_out :
    filteredCode.codeSize < 2 ^ 29 ∧ ∃ t y, Tree.ofBody filteredCode = .ok t ∧ t.toBody = .ok y ∧
      filteredCode.Agrees y ∧ y.codeSize ≤ filteredCode.codeSize := by
  have hsize : filteredCode.codeSize < 2 ^ 29 := by
    have hbytes : filteredCode.codeSize = 12 := by decide +kernel
    omega
  have hnear : (filteredCode.instructions.all fun i : Instruction =>
      i.operand.targets.all fun offset => Layout.reaches offset.toInt) = true := by
    decide +kernel
  have hfit : filteredCode.ShortBranchesFit := fun i hi _ offset hoffset =>
    (Layout.reaches_iff _).mp (List.all_eq_true.mp (List.all_eq_true.mp hnear i hi) offset hoffset)
  have hrun : (Tree.ofBody filteredCode).toOption.isSome = true := by decide +kernel
  obtain ⟨t, ht⟩ := Option.isSome_iff_exists.mp hrun
  rw [toOption_eq_some_iff] at ht
  obtain ⟨y, hy, hagrees, hle⟩ := ofBody_toBody_agrees filteredCode t hsize ht
  exact ⟨hsize, t, y, ht, hy, hagrees, hle hfit⟩

end MethodIL
