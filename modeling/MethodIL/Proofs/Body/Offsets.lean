import Mathlib
import MethodIL.Body.Basic
import MethodIL.Proofs.Layout.Offsets
set_option autoImplicit false

/-!
# Where the instructions of a body stand

The recorded sizes of a code stream place its instructions.  An offset lands on an instruction if it
leads from the end of the instruction that holds it to the start of the other.
-/

namespace MethodIL

namespace Body

/-- The recorded sizes of the instructions. -/
def sizes (b : Body) : List Nat := b.instructions.map fun i : Instruction => i.size.toNat

/-- The offset at which an instruction starts. -/
def start (b : Body) (index : Nat) : Nat := Layout.offset b.sizes index

/-- An offset that the instruction at a place holds leads to the start of another. -/
def Lands (b : Body) (index : Nat) (offset : Int32) (target : Nat) : Prop :=
  target < b.instructions.length ∧ (b.start target : Int) = b.start (index + 1) + offset.toInt

/-- The bytes from `start` up to, but not including, `stop` are those of the instructions from `first`
up to, but not including, `last`. -/
def Spans (b : Body) (start stop first last : Nat) : Prop :=
  first < last ∧ last ≤ b.instructions.length ∧ b.start first = start ∧ b.start last = stop

@[simp] theorem length_sizes (b : Body) : b.sizes.length = b.instructions.length := by
  simp [sizes]

theorem getElem?_sizes {b : Body} {index : Nat} {i : Instruction}
    (h : b.instructions[index]? = some i) : b.sizes[index]? = some i.size.toNat := by
  simp [sizes, h]

theorem start_succ {b : Body} {index : Nat} {i : Instruction}
    (h : b.instructions[index]? = some i) : b.start (index + 1) = b.start index + i.size.toNat := by
  rw [start, Layout.offset_succ, List.getD_eq_getElem?_getD, getElem?_sizes h]
  rfl

/-- Without empty instructions, different places have different offsets. -/
theorem start_injective {b : Body} (hpos : ∀ i ∈ b.instructions, 0 < i.size.toNat) {x y : Nat}
    (hx : x ≤ b.instructions.length) (hy : y ≤ b.instructions.length)
    (h : b.start x = b.start y) : x = y := by
  refine Layout.offset_injective ?_ (by simpa using hx) (by simpa using hy) h
  intro size hsize
  obtain ⟨i, hi, rfl⟩ := List.mem_map.mp hsize
  exact hpos i hi

theorem start_mono (b : Body) {x y : Nat} (h : x ≤ y) : b.start x ≤ b.start y :=
  Layout.offset_mono _ h

/-- Without empty instructions, an instruction stands in front of a place exactly if it starts in
front of it. -/
theorem start_lt_iff {b : Body} (hpos : ∀ i ∈ b.instructions, 0 < i.size.toNat) {x y : Nat}
    (hx : x ≤ b.instructions.length) (hy : y ≤ b.instructions.length) :
    b.start x < b.start y ↔ x < y := by
  constructor
  · intro hlt
    by_contra hle
    exact absurd (b.start_mono (Nat.le_of_not_lt hle)) (Nat.not_le_of_lt hlt)
  · intro hlt
    refine Nat.lt_of_le_of_ne (b.start_mono (Nat.le_of_lt hlt)) fun heq => ?_
    exact absurd (start_injective hpos hx hy heq) (Nat.ne_of_lt hlt)

/-- Without empty instructions, an offset lands on one instruction only. -/
theorem Lands.unique {b : Body} (hpos : ∀ i ∈ b.instructions, 0 < i.size.toNat)
    {index target other : Nat} {offset : Int32} (htarget : b.Lands index offset target)
    (hother : b.Lands index offset other) : target = other := by
  have hstart : b.start target = b.start other := by
    have := htarget.2
    have := hother.2
    omega
  exact start_injective hpos (Nat.le_of_lt htarget.1) (Nat.le_of_lt hother.1) hstart

theorem codeSize_eq (b : Body) : b.codeSize = b.start b.instructions.length := by
  have hsum : ∀ code : List Instruction,
      code.foldr (fun i total => i.size.toNat + total) 0 =
        (code.map fun i : Instruction => i.size.toNat).sum := by
    intro code
    induction code with
    | nil => rfl
    | cons i code ih => simp [ih]
  rw [codeSize, hsum, start, Layout.offset, List.take_of_length_le (by simp), sizes]

end Body

end MethodIL
