import Mathlib
import MethodIL.Proofs.Lowering.Emission
set_option autoImplicit false

/-!
# Lowered code has the least branch forms

A choice of forms assigns to every branch of a body its short or its long form; the other
instructions keep their sizes.  The choice induces a layout of its own, and is valid if every branch
that it makes short reaches its target there.  The main result says that the forms of a lowered body
are valid and that every branch with a long form is long in every valid choice, so that no valid
choice gives less code.
-/

namespace MethodIL

open Outcome

/-- A branch takes five bytes in its long form and two in its short form. -/
theorem Operation.size_of_isBranch {op : Operation Int32} {size : UInt32}
    (hsize : op.encodedSize = .ok size) (hbranch : op.opcode.isBranch = true) :
    size.toNat = if op.opcode.operandType == .branch then 5 else 2 := by
  rw [(Operation.encodedSize_eq_ok_iff.mp hsize).2.2, Opcode.size_of_isBranch hbranch,
    Operation.operandSize]
  rw [Opcode.isBranch, Bool.or_eq_true, beq_iff_eq, beq_iff_eq] at hbranch
  rcases hbranch with htype | htype <;> rw [htype] <;> rfl

/-- The number of bytes of an instruction if a branch takes the given form. -/
def Instruction.sizeAs (i : Instruction) (isLong : Bool) : Nat :=
  if i.opcode.isBranch then (if isLong then 5 else 2) else i.size.toNat

namespace Body

/-- A choice of forms: whether the branch at a place is long. -/
abbrev FormChoice : Type := Nat → Bool

/-- The sizes of the instructions under a choice. -/
def sizesAs (b : Body) (choice : FormChoice) : List Nat :=
  b.instructions.mapIdx fun index i => i.sizeAs (choice index)

/-- The offset of an instruction in the layout that a choice induces. -/
def startAs (b : Body) (choice : FormChoice) (index : Nat) : Nat :=
  Layout.offset (b.sizesAs choice) index

/-- Every branch that the choice makes short reaches its target in the layout of the choice. -/
def ValidForms (b : Body) (choice : FormChoice) : Prop :=
  ∀ (index target : Nat) (i : Instruction) (offset : Int32), b.instructions[index]? = some i →
    i.operand = .branch offset → b.Lands index offset target → choice index = false →
    Layout.reaches ((b.startAs choice target : Int) - b.startAs choice (index + 1)) = true

/-- The forms that the branches of a body have. -/
def forms (b : Body) : FormChoice := fun index =>
  b.instructions[index]?.any fun i => i.opcode.operandType == .branch

/-- The number of branches of a body. -/
def branchCount (b : Body) : Nat := b.instructions.countP fun i => i.opcode.isBranch

/-- Every instruction records the size that it takes. -/
def Sized (b : Body) : Prop := ∀ i ∈ b.instructions, i.toOperation.encodedSize = .ok i.size

namespace Sized

variable {b : Body} (h : b.Sized)

include h

theorem size_pos : ∀ i ∈ b.instructions, 0 < i.size.toNat := by
  intro i hi
  rw [(Operation.encodedSize_eq_ok_iff.mp (h i hi)).2.2]
  exact Nat.lt_of_lt_of_le i.opcode.size_pos (Nat.le_add_right _ _)

/-- The forms of a body induce its layout. -/
theorem sizesAs_forms : b.sizesAs b.forms = b.sizes := by
  apply List.ext_getElem?
  intro index
  rw [sizesAs, List.getElem?_mapIdx]
  cases hi : b.instructions[index]? with
  | none => simpa using hi
  | some i =>
    rw [getElem?_sizes hi, Option.map_some, Instruction.sizeAs, forms, hi, Option.any_some]
    split
    case isTrue hbranch =>
      rw [Operation.size_of_isBranch (h i (List.mem_of_getElem? hi)) hbranch]
    case isFalse => rfl

end Sized

end Body

namespace Tree.Lowers

variable {t : Tree} {p : Plan} {b : Body} {pieces : List Layout.Piece}

/-! ## Branches of the plan and branches of the body -/

/-- A slot, its piece and its instruction are a branch together, or none of them is. -/
theorem isBranch_iff (h : t.Lowers p b) {index : Nat} {slot : Slot} {piece : Layout.Piece}
    {i : Instruction} (hslot : p.slots[index]? = some slot) (hpiece : slot.piece = .ok piece)
    (hi : b.instructions[index]? = some i) :
    i.opcode.isBranch = slot.operation.opcode.isBranch ∧
      piece.isBranch = slot.operation.opcode.isBranch := by
  obtain ⟨isLong, i', -, hi', hemitted⟩ := h.instruction_at hslot
  obtain rfl : i' = i := Option.some.inj (hi'.symm.trans hi)
  obtain ⟨hemits, -⟩ := Plan.instruction_eq_ok_iff.mp hemitted
  simp only [Slot.piece] at hpiece
  cases hbranch : slot.operation.opcode.isBranch with
  | true =>
    rw [if_pos hbranch, Except.ok.injEq] at hpiece
    subst hpiece
    cases hemits with
    | branch _ _ hform _ _ =>
      obtain ⟨form, hform', htype, -⟩ := Plan.form_of_isBranch hbranch isLong
      obtain rfl : form = i'.opcode := Option.some.inj (hform'.symm.trans hform)
      refine ⟨?_, rfl⟩
      rw [Opcode.isBranch, htype]
      cases isLong <;> rfl
    | switch _ _ hother => simp [hbranch] at hother
    | plain hother => simp [hbranch] at hother
  | false =>
    have hopcode : i'.opcode = slot.operation.opcode := by
      cases hemits with
      | branch _ hother => simp [hbranch] at hother
      | switch _ _ _ _ hopcode => exact hopcode
      | plain _ _ hopcode => exact hopcode
    refine ⟨by rw [hopcode, hbranch], ?_⟩
    rw [if_neg (by simp [hbranch])] at hpiece
    split at hpiece
    case h_1 =>
      split at hpiece
      case isTrue => exact Except.ok.inj hpiece ▸ rfl
      case isFalse => exact absurd hpiece (by simp)
    case h_2 => exact Except.ok.inj hpiece ▸ rfl

/-- Under every choice an instruction takes the bytes of its piece. -/
theorem sizeAs_eq (h : t.Lowers p b) {index : Nat} {slot : Slot} {piece : Layout.Piece}
    {i : Instruction} (hslot : p.slots[index]? = some slot) (hpiece : slot.piece = .ok piece)
    (hi : b.instructions[index]? = some i) (isLong : Bool) :
    i.sizeAs isLong = piece.size isLong := by
  obtain ⟨hsame, hkind⟩ := h.isBranch_iff hslot hpiece hi
  rw [Instruction.sizeAs, hsame, ← hkind]
  cases piece with
  | branch target => rfl
  | fixed size =>
    obtain ⟨isLong', i', -, hi', hemitted⟩ := h.instruction_at hslot
    obtain rfl : i' = i := Option.some.inj (hi'.symm.trans hi)
    have hsize := Plan.size_of_instruction (h.slotOf_slot hslot) hpiece hemitted
    exact hsize

/-- The form of an emitted branch is the one that relaxation has chosen; nothing else is long. -/
theorem forms_eq (h : t.Lowers p b) {index : Nat} {slot : Slot} {isLong : Bool}
    (hslot : p.slots[index]? = some slot) (hform : p.relaxed.forms[index]? = some isLong) :
    b.forms index = (slot.operation.opcode.isBranch && isLong) := by
  obtain ⟨isLong', i, hform', hi, hemitted⟩ := h.instruction_at hslot
  obtain rfl : isLong' = isLong := Option.some.inj (hform'.symm.trans hform)
  obtain ⟨hemits, -⟩ := Plan.instruction_eq_ok_iff.mp hemitted
  rw [Body.forms, hi, Option.any_some]
  cases hbranch : slot.operation.opcode.isBranch with
  | true =>
    cases hemits with
    | branch _ _ hform _ _ =>
      obtain ⟨form, hform', htype, -⟩ := Plan.form_of_isBranch hbranch isLong'
      obtain rfl : form = i.opcode := Option.some.inj (hform'.symm.trans hform)
      rw [htype]
      cases isLong' <;> rfl
    | switch _ _ hother => simp [hbranch] at hother
    | plain hother => simp [hbranch] at hother
  | false =>
    have hopcode : i.opcode = slot.operation.opcode := by
      cases hemits with
      | branch _ hother => simp [hbranch] at hother
      | switch _ _ _ _ hopcode => exact hopcode
      | plain _ _ hopcode => exact hopcode
    rw [← hopcode] at hbranch
    simp only [Opcode.isBranch, Bool.or_eq_false_iff] at hbranch
    rw [hbranch.2, Bool.false_and]

/-! ## Choices on the body and choices on the pieces -/

/-- A choice as the list of its forms. -/
def listed (choice : Body.FormChoice) (count : Nat) : Layout.Forms :=
  (List.range count).map choice

theorem getElem?_listed {choice : Body.FormChoice} {count index : Nat} (h : index < count) :
    (listed choice count)[index]? = some (choice index) := by
  simp [listed, h]

/-- The layout that a choice induces on the body is the one that it induces on the pieces. -/
theorem sizesAs_eq (h : t.Lowers p b) (hpieces : p.slots.mapM Slot.piece = .ok pieces)
    (choice : Body.FormChoice) :
    b.sizesAs choice = Layout.sizes pieces (listed choice pieces.length) := by
  have hlen := length_pieces hpieces
  apply List.ext_getElem?
  intro index
  by_cases hindex : index < p.slots.length
  · have hslot : p.slots[index]? = some p.slots[index] := List.getElem?_eq_getElem hindex
    obtain ⟨_, i, -, hi, -⟩ := h.instruction_at hslot
    obtain ⟨piece, hpiece, hmade⟩ := mapM_getElem? hpieces hslot
    rw [Body.sizesAs, List.getElem?_mapIdx, hi,
      Layout.getElem?_sizes hpiece (getElem?_listed (by omega)), Option.map_some,
      h.sizeAs_eq hslot hmade hi]
  · rw [List.getElem?_eq_none (by simp [Body.sizesAs, h.length_instructions]; omega),
      List.getElem?_eq_none (by simp [Layout.sizes, listed]; omega)]

/-- A branch piece is emitted as a branch whose offset lands on the target of the piece. -/
theorem branch_lands (h : t.Lowers p b) (hpieces : p.slots.mapM Slot.piece = .ok pieces)
    {index target : Nat} (hpiece : pieces[index]? = some (.branch target)) :
    ∃ i offset, b.instructions[index]? = some i ∧ i.operand = .branch offset ∧
      b.Lands index offset target := by
  have hlen := length_pieces hpieces
  have hindex : index < p.slots.length := by
    have := (List.getElem?_eq_some_iff.mp hpiece).1
    omega
  have hslot : p.slots[index]? = some p.slots[index] := List.getElem?_eq_getElem hindex
  obtain ⟨piece, hpiece', hmade⟩ := mapM_getElem? hpieces hslot
  obtain rfl : piece = .branch target := Option.some.inj (hpiece'.symm.trans hpiece)
  obtain ⟨isLong, i, -, hi, hemitted⟩ := h.instruction_at hslot
  have hbranch : p.slots[index].operation.opcode.isBranch = true :=
    (h.isBranch_iff hslot hmade hi).2.symm
  simp only [Slot.piece, if_pos hbranch, Except.ok.injEq, Layout.Piece.branch.injEq] at hmade
  obtain ⟨hemits, -⟩ := Plan.instruction_eq_ok_iff.mp hemitted
  cases hemits with
  | branch offset _ _ hoperand hholds =>
    refine ⟨i, offset, hi, hoperand, h.lands_of_holds hindex ?_ (hmade ▸ hholds)⟩
    refine h.target_lt hslot ?_
    rw [h.branch_targets hslot hbranch, hmade]
    exact List.mem_singleton_self target
  | switch _ _ hother => simp [hbranch] at hother
  | plain hother => simp [hbranch] at hother

/-- An emitted branch is the branch of a piece. -/
theorem exists_branch_piece (h : t.Lowers p b) (hpieces : p.slots.mapM Slot.piece = .ok pieces)
    {index : Nat} {i : Instruction} {offset : Int32} (hi : b.instructions[index]? = some i)
    (hoperand : i.operand = .branch offset) :
    ∃ target, pieces[index]? = some (.branch target) := by
  have hindex : index < p.slots.length := by
    have := (List.getElem?_eq_some_iff.mp hi).1
    rwa [h.length_instructions] at this
  have hslot : p.slots[index]? = some p.slots[index] := List.getElem?_eq_getElem hindex
  obtain ⟨piece, hpiece, hmade⟩ := mapM_getElem? hpieces hslot
  obtain ⟨_, i', -, hi', hemitted⟩ := h.instruction_at hslot
  obtain rfl : i' = i := Option.some.inj (hi'.symm.trans hi)
  obtain ⟨-, hsized⟩ := Plan.instruction_eq_ok_iff.mp hemitted
  obtain ⟨hfits, -⟩ := Operation.encodedSize_eq_ok_iff.mp hsized
  rw [hoperand] at hfits
  have hbranch : piece.isBranch = true := by
    rw [(h.isBranch_iff hslot hmade hi).2, ← (h.isBranch_iff hslot hmade hi).1]
    exact hfits
  cases piece with
  | fixed size => exact absurd hbranch (by simp [Layout.Piece.isBranch])
  | branch target => exact ⟨target, hpiece⟩

theorem sized (h : t.Lowers p b) : b.Sized := by
  intro i hi
  obtain ⟨index, hindex⟩ := List.getElem?_of_mem hi
  have hslot : index < p.slots.length := by
    have := (List.getElem?_eq_some_iff.mp hindex).1
    rwa [h.length_instructions] at this
  obtain ⟨_, i', -, hi', hemitted⟩ := h.instruction_at (List.getElem?_eq_getElem hslot)
  obtain rfl : i' = i := Option.some.inj (hi'.symm.trans hindex)
  exact (Plan.instruction_eq_ok_iff.mp hemitted).2

theorem inRange_pieces (h : t.Lowers p b) (hpieces : p.slots.mapM Slot.piece = .ok pieces) :
    Layout.InRange pieces := by
  have hslots : ∀ slot ∈ p.slots,
      t.slotOf t.places p.slots.length slot.operation = .ok slot := by
    intro slot hslot
    obtain ⟨index, hindex⟩ := List.getElem?_of_mem hslot
    exact h.slotOf_slot hindex
  exact Tree.inRange_pieces hslots hpieces

/-- A choice is valid for the body exactly if it is valid for the pieces. -/
theorem validForms_iff (h : t.Lowers p b) (hpieces : p.slots.mapM Slot.piece = .ok pieces)
    (choice : Body.FormChoice) :
    b.ValidForms choice ↔ Layout.Valid pieces (listed choice pieces.length) := by
  have hspan : ∀ index target : Nat, (b.startAs choice target : Int) - b.startAs choice (index + 1) =
      Layout.span (Layout.sizes pieces (listed choice pieces.length)) index target := by
    intro index target
    rw [Body.startAs, Body.startAs, h.sizesAs_eq hpieces, Layout.span]
  constructor
  · intro hvalid index target hpiece hshort
    have hindex := (List.getElem?_eq_some_iff.mp hpiece).1
    rw [getElem?_listed hindex, Option.some.injEq] at hshort
    obtain ⟨i, offset, hi, hoperand, hlands⟩ := h.branch_lands hpieces hpiece
    rw [← hspan]
    exact hvalid index target i offset hi hoperand hlands hshort
  · intro hvalid index target i offset hi hoperand hlands hshort
    obtain ⟨target', hpiece⟩ := h.exists_branch_piece hpieces hi hoperand
    obtain ⟨i', offset', hi', hoperand', hlands'⟩ := h.branch_lands hpieces hpiece
    obtain rfl : i' = i := Option.some.inj (hi'.symm.trans hi)
    obtain rfl : offset' = offset := Operand.branch.inj (hoperand'.symm.trans hoperand)
    obtain rfl : target = target' := hlands.unique h.sized.size_pos hlands'
    rw [hspan]
    have hindex := (List.getElem?_eq_some_iff.mp hpiece).1
    exact hvalid index target hpiece (by rw [getElem?_listed hindex, hshort])

/-- The listed forms and the forms of the plan agree on every branch. -/
theorem listed_forms_branch (h : t.Lowers p b) (hpieces : p.slots.mapM Slot.piece = .ok pieces)
    {index target : Nat} (hpiece : pieces[index]? = some (.branch target)) :
    p.relaxed.forms[index]? = some (b.forms index) := by
  have hlen := length_pieces hpieces
  have hindex : index < p.slots.length := by
    have := (List.getElem?_eq_some_iff.mp hpiece).1
    omega
  have hslot : p.slots[index]? = some p.slots[index] := List.getElem?_eq_getElem hindex
  obtain ⟨isLong, i, hform, hi, -⟩ := h.instruction_at hslot
  obtain ⟨piece, hpiece', hmade⟩ := mapM_getElem? hpieces hslot
  obtain rfl : piece = .branch target := Option.some.inj (hpiece'.symm.trans hpiece)
  have hbranch : true = _ := (h.isBranch_iff hslot hmade hi).2
  rw [hform, h.forms_eq hslot hform, ← hbranch, Bool.true_and]

/-- Whatever is emitted long is a branch. -/
theorem exists_branch_of_forms (h : t.Lowers p b) (hpieces : p.slots.mapM Slot.piece = .ok pieces)
    {index : Nat} (hlong : b.forms index = true) :
    ∃ target, pieces[index]? = some (.branch target) := by
  have hlen := length_pieces hpieces
  have hindex : index < p.slots.length := by
    by_contra hout
    rw [Body.forms, List.getElem?_eq_none (by rw [h.length_instructions]; omega)] at hlong
    exact absurd hlong (by simp)
  have hslot : p.slots[index]? = some p.slots[index] := List.getElem?_eq_getElem hindex
  obtain ⟨isLong, i, hform, hi, -⟩ := h.instruction_at hslot
  obtain ⟨piece, hpiece, hmade⟩ := mapM_getElem? hpieces hslot
  rw [h.forms_eq hslot hform, Bool.and_eq_true, ← (h.isBranch_iff hslot hmade hi).2] at hlong
  cases piece with
  | fixed size => exact absurd hlong.1 (by simp [Layout.Piece.isBranch])
  | branch target => exact ⟨target, hpiece⟩

/-- The emitted forms are valid. -/
theorem validForms (h : t.Lowers p b) : b.ValidForms b.forms := by
  obtain ⟨pieces, hpieces, hrelaxed⟩ := h.exists_pieces
  have hvalid := Layout.relax_valid (h.inRange_pieces hpieces)
  rw [← hrelaxed] at hvalid
  rw [h.validForms_iff hpieces]
  intro index target hpiece hshort
  have hindex := (List.getElem?_eq_some_iff.mp hpiece).1
  rw [getElem?_listed hindex, ← h.listed_forms_branch hpieces hpiece] at hshort
  rw [← h.sizesAs_eq hpieces, h.sized.sizesAs_forms, h.sizes_eq hpieces hrelaxed]
  exact hvalid index target hpiece hshort

/-- A branch that is emitted long is long in every valid choice. -/
theorem forms_least (h : t.Lowers p b) {choice : Body.FormChoice} (hvalid : b.ValidForms choice)
    {index : Nat} (hlong : b.forms index = true) : choice index = true := by
  obtain ⟨pieces, hpieces, hrelaxed⟩ := h.exists_pieces
  rw [h.validForms_iff hpieces] at hvalid
  have hbelow := Layout.relax_below_valid (h.inRange_pieces hpieces) (by simp [listed]) hvalid
  rw [← hrelaxed] at hbelow
  obtain ⟨target, hpiece⟩ := h.exists_branch_of_forms hpieces hlong
  have hindex := (List.getElem?_eq_some_iff.mp hpiece).1
  have hchosen := hbelow index target hpiece (by rw [h.listed_forms_branch hpieces hpiece, hlong])
  rw [getElem?_listed hindex] at hchosen
  exact Option.some.inj hchosen

/-- No valid choice places any instruction further to the front. -/
theorem start_le_startAs (h : t.Lowers p b) {choice : Body.FormChoice}
    (hvalid : b.ValidForms choice) (index : Nat) : b.start index ≤ b.startAs choice index := by
  have hsizes : ∀ k, b.sizes.getD k 0 ≤ (b.sizesAs choice).getD k 0 := by
    intro k
    rw [← h.sized.sizesAs_forms, List.getD_eq_getElem?_getD, List.getD_eq_getElem?_getD, Body.sizesAs,
      Body.sizesAs, List.getElem?_mapIdx, List.getElem?_mapIdx]
    cases b.instructions[k]? with
    | none => exact Nat.le_refl _
    | some i =>
      simp only [Option.map_some, Option.getD_some, Instruction.sizeAs]
      split
      case isTrue =>
        cases hlong : b.forms k with
        | false => cases choice k <;> simp
        | true => simp [h.forms_least hvalid hlong]
      case isFalse => exact Nat.le_refl _
  have hgap := Layout.gap_mono hsizes (Nat.zero_le index)
  simpa [Body.start, Body.startAs] using hgap

/-- The offset of a branch decides the form in which it is emitted. -/
theorem reaches_offset_iff (h : t.Lowers p b) {index : Nat} {i : Instruction} {offset : Int32}
    (hi : b.instructions[index]? = some i) (hoperand : i.operand = .branch offset) :
    Layout.reaches offset.toInt = true ↔ b.forms index = false := by
  obtain ⟨pieces, hpieces, hrelaxed⟩ := h.exists_pieces
  obtain ⟨target, hpiece⟩ := h.exists_branch_piece hpieces hi hoperand
  obtain ⟨i', offset', hi', hoperand', hlands⟩ := h.branch_lands hpieces hpiece
  obtain rfl : i' = i := Option.some.inj (hi'.symm.trans hi)
  obtain rfl : offset' = offset := Operand.branch.inj (hoperand'.symm.trans hoperand)
  have hspan : Layout.span (Layout.sizes pieces p.relaxed.forms) index target = offset'.toInt := by
    have hland := hlands.2
    rw [Body.start, Body.start, h.sizes_eq hpieces hrelaxed] at hland
    rw [Layout.span]
    omega
  have hform := h.listed_forms_branch hpieces hpiece
  rw [← hspan]
  constructor
  · intro hreach
    by_contra hlong
    rw [Bool.not_eq_false] at hlong
    rw [hlong, hrelaxed] at hform
    rw [hrelaxed, Layout.relax_long_is_far (h.inRange_pieces hpieces) hpiece hform] at hreach
    exact absurd hreach (by simp)
  · intro hshort
    have hvalid := Layout.relax_valid (h.inRange_pieces hpieces)
    rw [← hrelaxed] at hvalid
    exact hvalid index target hpiece (by rw [hform, hshort])

/-- There is a branch piece for every emitted branch. -/
theorem branchCount_eq (h : t.Lowers p b) (hpieces : p.slots.mapM Slot.piece = .ok pieces) :
    pieces.countP Layout.Piece.isBranch = b.branchCount := by
  have hsame : pieces.map Layout.Piece.isBranch = b.instructions.map fun i => i.opcode.isBranch := by
    apply List.ext_getElem?
    intro index
    rw [List.getElem?_map, List.getElem?_map]
    by_cases hindex : index < p.slots.length
    · have hslot : p.slots[index]? = some p.slots[index] := List.getElem?_eq_getElem hindex
      obtain ⟨isLong, i, hform, hi, -⟩ := h.instruction_at hslot
      obtain ⟨piece, hpiece, hmade⟩ := mapM_getElem? hpieces hslot
      obtain ⟨hcode, hkind⟩ := h.isBranch_iff hslot hmade hi
      rw [hi, hpiece, Option.map_some, Option.map_some, hcode, hkind]
    · have hlen := length_pieces hpieces
      rw [List.getElem?_eq_none (by omega),
        List.getElem?_eq_none (by rw [h.length_instructions]; omega)]
      rfl
  have hcount := congrArg (List.countP id) hsame
  rw [List.countP_map, List.countP_map] at hcount
  exact hcount

end Tree.Lowers

/-! ## The main result -/

/-- Lowering emits the least valid choice of forms.  The choice it emits is valid and induces the
emitted layout; what it makes long is long in every valid choice, so no valid choice takes fewer
bytes; and a branch is long exactly if its final distance does not fit one byte.  Relaxation gets
there in no more passes than there are branches, and one; it makes each branch long at most once; and
the starts that it keeps from pass to pass end as the prefix sums of the emitted sizes. -/
theorem toBody_forms_least (t : Tree) (b : Body) (h : t.toBody = .ok b) :
    b.ValidForms b.forms ∧
      (∀ index, b.startAs b.forms index = b.start index) ∧
      (∀ choice, b.ValidForms choice →
        (∀ index, b.forms index = true → choice index = true) ∧
          b.codeSize ≤ b.startAs choice b.instructions.length) ∧
      (∀ (index : Nat) (i : Instruction) (offset : Int32), b.instructions[index]? = some i →
        i.operand = .branch offset →
        (∃ target, b.Lands index offset target) ∧
          (b.forms index = true ↔ Layout.reaches offset.toInt = false)) ∧
      ∃ p, Plan.ofTree t = .ok p ∧
        p.relaxed.passes ≤ b.branchCount + 1 ∧
        (p.relaxed.widenings.map Layout.Widening.index).Nodup ∧
        (∀ w ∈ p.relaxed.widenings, b.forms w.index = true) ∧
        p.relaxed.starts = (Layout.startsFrom 0 b.sizes).toArray := by
  obtain ⟨p, hlowers⟩ := Tree.toBody_eq_ok_iff.mp h
  obtain ⟨pieces, hpieces, hrelaxed⟩ := hlowers.exists_pieces
  refine ⟨hlowers.validForms, ?_, ?_, ?_, p, hlowers.plan, ?_, ?_, ?_, ?_⟩
  · intro index
    rw [Body.startAs, hlowers.sized.sizesAs_forms, Body.start]
  · intro choice hvalid
    refine ⟨fun index hlong => hlowers.forms_least hvalid hlong, ?_⟩
    rw [Body.codeSize_eq]
    exact hlowers.start_le_startAs hvalid _
  · intro index i offset hi hoperand
    obtain ⟨target, hpiece⟩ := hlowers.exists_branch_piece hpieces hi hoperand
    obtain ⟨i', offset', hi', hoperand', hlands⟩ := hlowers.branch_lands hpieces hpiece
    obtain rfl : i' = i := Option.some.inj (hi'.symm.trans hi)
    obtain rfl : offset' = offset := Operand.branch.inj (hoperand'.symm.trans hoperand)
    refine ⟨⟨target, hlands⟩, ?_⟩
    have hiff := hlowers.reaches_offset_iff hi hoperand
    cases hform : b.forms index <;> cases hreach : Layout.reaches offset'.toInt <;> simp_all
  · rw [hrelaxed, ← hlowers.branchCount_eq hpieces]
    exact Layout.relax_widenings.2.2.2
  · rw [hrelaxed]
    exact Layout.relax_widenings.1
  · intro w hw
    rw [hrelaxed] at hw
    obtain ⟨hlong, target, hpiece⟩ := Layout.relax_widenings.2.1 w hw
    rw [← hrelaxed, hlowers.listed_forms_branch hpieces hpiece] at hlong
    exact Option.some.inj hlong
  · rw [hrelaxed, Layout.relax_starts, ← hrelaxed, Layout.starts, ← hlowers.sizes_eq hpieces hrelaxed]

/-- A branch over fifteen numbers of nine bytes each. -/
def farBranch : Body where
  header := default
  instructions := Instruction.assemble
    ((0x38, .branch 135) :: List.replicate 15 (0x21, .immediate (.int64 0)) ++ [(0x2A, .none)])
  clauses := []

/-- The branch of `farBranch` stays long when the body is lifted and lowered, and no valid choice of
forms makes it short. -/
theorem farBranch_long_in_valid_choices :
    ∃ t b, Tree.ofBody farBranch = .ok t ∧ t.toBody = .ok b ∧ b.forms 0 = true ∧
      ∀ choice, b.ValidForms choice → choice 0 = true := by
  have hrun : ((Tree.ofBody farBranch >>= Tree.toBody).toOption.any fun b => b.forms 0) = true := by
    decide +kernel
  rw [Option.any_eq_true] at hrun
  obtain ⟨b, hb, hlong⟩ := hrun
  obtain ⟨t, ht, hlower⟩ := bind_eq_ok.mp (toOption_eq_some_iff.mp hb)
  obtain ⟨-, -, hleast, -⟩ := toBody_forms_least t b hlower
  exact ⟨t, b, ht, hlower, hlong, fun choice hvalid => (hleast choice hvalid).1 0 hlong⟩

end MethodIL
