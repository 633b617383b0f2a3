import Mathlib
import MethodIL.Proofs.Body.Agreement
import MethodIL.Proofs.Lowering.MinimalForms
set_option autoImplicit false

/-!
# Forms of bodies that agree

Bodies that agree have branches at the same places and differ there only in the forms.  So every choice
of forms induces the same layout on both, and is valid for both or for none of them.
-/

namespace MethodIL

/-- An opcode is told by its form among those that are the same but for the form. -/
theorem Opcode.SameUpToForm.eq_of_form {a b : Opcode} (h : a.SameUpToForm b)
    (hform : (a.operandType == .branch) = (b.operandType == .branch)) : a = b := by
  cases hbranch : a.isBranch with
  | false => exact h.eq_of_other hbranch
  | true =>
    obtain ⟨short, hshort, hshortType, -⟩ := exists_shortForm? hbranch
    obtain ⟨long, hlong, hlongType, -⟩ := exists_longForm? hbranch
    rw [isBranch, Bool.or_eq_true, beq_iff_eq, beq_iff_eq] at hbranch
    rcases h with rfl | h | h
    · rfl
    · obtain rfl := Option.some.inj (hshort.symm.trans h)
      rcases hbranch with hown | hown
      · rw [shortForm?, hown] at h
        exact Option.some.inj h
      · rw [hown, hshortType] at hform
        exact absurd hform (by decide)
    · obtain rfl := Option.some.inj (hlong.symm.trans h)
      rcases hbranch with hown | hown
      · rw [hown, hlongType] at hform
        exact absurd hform (by decide)
      · rw [longForm?, hown] at h
        exact Option.some.inj h

/-- Instructions that agree take as many bytes if their branches take the same form. -/
theorem Operand.Matches.sizeAs_eq {R : Int32 → Int32 → Prop} {i j : Instruction}
    (h : i.operand.Matches R j.operand) (hsame : i.opcode.SameUpToForm j.opcode)
    (hi : i.toOperation.encodedSize = .ok i.size) (hj : j.toOperation.encodedSize = .ok j.size)
    (isLong : Bool) : j.sizeAs isLong = i.sizeAs isLong := by
  obtain ⟨hfits, -, hsize⟩ := Operation.encodedSize_eq_ok_iff.mp hi
  obtain ⟨hfits', -, hsize'⟩ := Operation.encodedSize_eq_ok_iff.mp hj
  have hbranch : j.opcode.isBranch = i.opcode.isBranch := by
    rw [Bool.eq_iff_iff, Operation.isBranch_iff hfits', Operation.isBranch_iff hfits]
    exact h.branch_iff.symm
  rw [Instruction.sizeAs, Instruction.sizeAs, hbranch]
  cases hown : i.opcode.isBranch with
  | true => rfl
  | false =>
    rw [if_neg (by simp), if_neg (by simp), hsize, hsize', Operation.operandSize,
      Operation.operandSize, hsame.eq_of_other hown, h.targets.length_eq]

namespace Body

variable {x y : Body}

/-- The number of bytes of code if all branches are long. -/
def longSize (b : Body) : Nat := b.startAs (fun _ => true) b.instructions.length

/-- No branch has more than five halves of its size in its long form. -/
theorem Sized.longSize_le (h : x.Sized) : 2 * x.longSize ≤ 5 * x.codeSize := by
  rw [codeSize_eq]
  refine Layout.offset_le_of_sizes_le (fun k => ?_) _
  rw [← h.sizesAs_forms, List.getD_eq_getElem?_getD, List.getD_eq_getElem?_getD, sizesAs, sizesAs,
    List.getElem?_mapIdx, List.getElem?_mapIdx]
  cases x.instructions[k]? with
  | none => simp
  | some i =>
    rw [Option.map_some, Option.map_some, Option.getD_some, Option.getD_some, Instruction.sizeAs,
      Instruction.sizeAs]
    split
    case isTrue => cases x.forms k <;> simp
    case isFalse => omega

namespace Agrees

/-- A choice of forms induces the same layout on bodies that agree. -/
theorem sizesAs_eq (h : x.Agrees y) (hx : x.Sized) (hy : y.Sized) (choice : FormChoice) :
    y.sizesAs choice = x.sizesAs choice := by
  refine List.ext_getElem (by simp [sizesAs, h.length]) fun k hk hk' => ?_
  simp only [sizesAs, List.length_mapIdx] at hk hk'
  obtain ⟨hsame, hmatches⟩ := h.instructions k _ _ (List.getElem?_eq_getElem hk')
    (List.getElem?_eq_getElem hk)
  simp only [sizesAs, List.getElem_mapIdx]
  exact hmatches.sizeAs_eq hsame (hx _ (List.getElem_mem hk')) (hy _ (List.getElem_mem hk)) _

theorem longSize_eq (h : x.Agrees y) (hx : x.Sized) (hy : y.Sized) : y.longSize = x.longSize := by
  rw [longSize, longSize, startAs, startAs, h.sizesAs_eq hx hy, h.length]

/-- A choice of forms is valid for both of two bodies that agree, or for none of them. -/
theorem validForms_iff (h : x.Agrees y) (hx : x.Sized) (hy : y.Sized) (choice : FormChoice) :
    y.ValidForms choice ↔ x.ValidForms choice := by
  have hstart : y.startAs choice = x.startAs choice := by
    funext k
    rw [startAs, startAs, h.sizesAs_eq hx hy]
  constructor
  · intro hvalid k target i offset hi hoperand hlands hshort
    obtain ⟨j, hj⟩ : ∃ j, y.instructions[k]? = some j :=
      ⟨_, List.getElem?_eq_getElem (h.length ▸ (List.getElem?_eq_some_iff.mp hi).1)⟩
    obtain ⟨-, hmatches⟩ := h.instructions k i j hi hj
    rw [hoperand] at hmatches
    generalize hown : j.operand = own at hmatches
    cases hmatches with
    | branch hboth =>
      obtain ⟨target', hlands', hlandsOwn⟩ := hboth
      obtain rfl := hlands.unique hx.size_pos hlands'
      rw [← hstart]
      exact hvalid k target j _ hj hown hlandsOwn hshort
  · intro hvalid k target j offset hj hoperand hlands hshort
    obtain ⟨i, hi⟩ : ∃ i, x.instructions[k]? = some i :=
      ⟨_, List.getElem?_eq_getElem (h.length ▸ (List.getElem?_eq_some_iff.mp hj).1)⟩
    obtain ⟨-, hmatches⟩ := h.instructions k i j hi hj
    rw [hoperand] at hmatches
    generalize hown : i.operand = own at hmatches
    cases hmatches with
    | branch hboth =>
      obtain ⟨target', hlandsOwn, hlands'⟩ := hboth
      obtain rfl := hlands.unique hy.size_pos hlands'
      rw [hstart]
      exact hvalid k target i _ hi hown hlandsOwn hshort

end Agrees

end Body

end MethodIL
