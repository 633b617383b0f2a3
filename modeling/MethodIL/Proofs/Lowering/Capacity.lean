import Mathlib
import MethodIL.Proofs.Lowering.Correspondence
import MethodIL.Proofs.Tree.Step
set_option autoImplicit false

/-!
# Code of less than two gigabytes

The size of the code with all branches long bounds every layout that relaxation goes through.  If it is
less than two gigabytes, a tree whose instructions have their targets can be laid out, no start lies so
far that an offset could not hold the distance to it, and every slot becomes an instruction.
-/

namespace MethodIL

open Outcome

/-- The number of bytes of an operation, a branch being long. -/
def Operation.longSize (operation : Operation NodeId) : Nat :=
  if operation.opcode.isBranch then 5
  else operation.opcode.size +
    match operation.operand with
    | .switch labels => 4 + 4 * labels.length
    | _ => operation.opcode.operandType.size?.getD 0

/-- An operation whose operand suits its opcode takes the bytes of the two. -/
theorem Operation.longSize_eq {operation : Operation NodeId}
    (hfits : operation.operand.fits operation.opcode.operandType = true) :
    operation.longSize = if operation.opcode.isBranch then 5 else operation.opcode.size +
      operation.opcode.operandType.size?.getD (4 * operation.operand.targets.length + 4) := by
  rw [longSize]
  by_cases hswitch : operation.opcode.isSwitch = true
  · obtain ⟨labels, hlabels⟩ := (isSwitch_iff hfits).mp hswitch
    rw [Opcode.isSwitch, beq_iff_eq] at hswitch
    rw [hlabels, hswitch]
    simp only [OperandType.size?, Option.getD_none, Operand.targets, Nat.add_comm 4]
  · have hother : ∀ labels, operation.operand ≠ .switch labels :=
      fun labels hlabels => hswitch ((isSwitch_iff hfits).mpr ⟨labels, hlabels⟩)
    have hfixed : operation.opcode.operandType ≠ .switch := by simpa [Opcode.isSwitch] using hswitch
    cases htype : operation.opcode.operandType with
    | switch => exact absurd htype hfixed
    | _ => cases hoperand : operation.operand <;> simp_all [OperandType.size?]

/-- The number of bytes of code if all branches are long. -/
def Tree.longSize (t : Tree) : Nat := ((t.instructions.filterMap t.operation?).map Operation.longSize).sum

/-! ## Slots -/

/-- The slots hold the operations of the tree, and each is the slot of its operation. -/
theorem Tree.slots_spec {t : Tree} {slots : List Slot} (h : t.slots t.places = .ok slots) :
    slots.map Slot.operation = t.instructions.filterMap t.operation? ∧
      slots.length = t.instructions.length ∧
        ∀ slot ∈ slots, t.slotOf t.places t.instructions.length slot.operation = .ok slot := by
  obtain ⟨-, hmapM⟩ := slots_eq_ok_iff.mp h
  rw [t.length_operations] at hmapM
  have hpairs := mapM_eq_ok.mp hmapM
  refine ⟨?_, by rw [mapM_length hmapM, t.length_operations], fun slot hslot => ?_⟩
  · have hsame : List.Forall₂ (fun operation slot => operation = Slot.operation slot)
        (t.instructions.filterMap t.operation?) slots :=
      hpairs.imp fun _ _ hmade => (slotOf_eq_ok_iff.mp hmade).1.symm
    exact (List.forall₂_eq_eq_eq ▸ (List.forall₂_map_right_iff.mpr hsame)).symm
  · obtain ⟨operation, -, hmade⟩ := exists_of_mem_right hpairs hslot
    rw [(slotOf_eq_ok_iff.mp hmade).1]
    exact hmade

/-! ## Pieces -/

/-- The piece of a slot takes no more bytes, in either form, than the operation does if it is long. -/
theorem Slot.exists_piece {slot : Slot} (hsize : slot.operation.longSize < UInt32.size) :
    ∃ piece, slot.piece = .ok piece ∧ ∀ isLong, piece.size isLong ≤ slot.operation.longSize := by
  rw [Operation.longSize] at hsize ⊢
  rw [Slot.piece]
  dsimp only
  cases hbranch : slot.operation.opcode.isBranch with
  | true =>
    refine ⟨_, if_pos rfl, fun isLong => ?_⟩
    cases isLong <;> simp [Layout.Piece.size]
  | false =>
    rw [hbranch] at hsize
    cases hoperand : slot.operation.operand with
    | switch labels =>
      rw [hoperand] at hsize
      simp only [Bool.false_eq_true, if_false] at hsize ⊢
      rw [if_pos (by omega)]
      exact ⟨_, rfl, fun isLong => by simp only [Layout.Piece.size]; omega⟩
    | _ => exact ⟨_, rfl, fun isLong => Nat.le_refl _⟩

/-- The pieces of the slots. -/
theorem Tree.exists_pieces {t : Tree} {slots : List Slot} (hslots : t.slots t.places = .ok slots)
    (hsize : t.longSize < UInt32.size) :
    ∃ pieces, slots.mapM Slot.piece = .ok pieces ∧ ∀ forms k, (Layout.sizes pieces forms).getD k 0 ≤
      ((t.instructions.filterMap t.operation?).map Operation.longSize).getD k 0 := by
  obtain ⟨hoperations, -, -⟩ := slots_spec hslots
  have hfits : ∀ slot ∈ slots, slot.operation.longSize < UInt32.size := fun slot hslot => by
    refine Nat.lt_of_le_of_lt (List.le_sum_of_mem ?_) hsize
    rw [← hoperations]
    exact List.mem_map_of_mem (List.mem_map_of_mem hslot)
  obtain ⟨pieces, hpieces⟩ : ∃ pieces, slots.mapM Slot.piece = .ok pieces :=
    exists_mapM_eq_ok fun slot hslot => (Slot.exists_piece (hfits slot hslot)).imp fun _ => And.left
  refine ⟨pieces, hpieces, fun forms k => ?_⟩
  rw [List.getD_eq_getElem?_getD, List.getD_eq_getElem?_getD, Layout.sizes, List.getElem?_zipWith,
    ← hoperations, List.map_map, List.getElem?_map]
  cases hslot : slots[k]? with
  | none =>
    rw [List.getElem?_eq_none (by rw [mapM_length hpieces]; exact List.getElem?_eq_none_iff.mp hslot)]
    simp
  | some slot =>
    obtain ⟨piece, hpiece, hmade⟩ := mapM_getElem? hpieces hslot
    obtain ⟨piece', hmade', hle⟩ := Slot.exists_piece (hfits slot (List.mem_of_getElem? hslot))
    obtain rfl := Except.ok.inj (hmade.symm.trans hmade')
    rw [hpiece]
    cases forms[k]? with
    | none => simp
    | some isLong => exact hle isLong

/-- No layout of the pieces reaches further than the code with all branches long. -/
theorem Tree.sum_sizes_le_longSize {t : Tree} {pieces : List Layout.Piece} {forms : Layout.Forms}
    (hle : ∀ k, (Layout.sizes pieces forms).getD k 0 ≤
      ((t.instructions.filterMap t.operation?).map Operation.longSize).getD k 0) :
    (Layout.sizes pieces forms).sum ≤ t.longSize := by
  have hlonger := Layout.gap_mono hle (Nat.zero_le (Layout.sizes pieces forms).length)
  have hwhole := (List.take_sublist (Layout.sizes pieces forms).length
    ((t.instructions.filterMap t.operation?).map Operation.longSize)).sum_le_sum
      (fun _ _ => Nat.zero_le _)
  rw [Layout.offset_zero, Layout.offset_zero, Layout.offset, List.take_length] at hlonger
  rw [← Layout.offset] at hwhole
  rw [Tree.longSize]
  omega

/-- A tree whose instructions have their targets can be laid out, and no start lies as far as two
gigabytes. -/
theorem Tree.exists_plan {t : Tree} {slots : List Slot} (hslots : t.slots t.places = .ok slots)
    (hsize : t.longSize < 2 ^ 31) :
    ∃ p, Plan.ofTree t = .ok p ∧ ∀ place, p.starts.getD place 0 < 2 ^ 31 := by
  obtain ⟨pieces, hpieces, hle⟩ := exists_pieces hslots (by simp only [UInt32.size]; omega)
  have hnear : ∀ place, (Layout.relax pieces).starts.getD place 0 < 2 ^ 31 := fun place => by
    have hend := Layout.getD_starts_le pieces (Layout.relax pieces).forms place
    have hwhole := sum_sizes_le_longSize (hle (Layout.relax pieces).forms)
    rw [Layout.offset, List.take_length] at hend
    rw [Layout.relax_starts]
    omega
  refine ⟨⟨t.places, slots, Layout.relax pieces⟩, ?_, hnear⟩
  rw [Plan.ofTree_eq_ok_iff]
  refine ⟨rfl, hslots, pieces, hpieces, rfl, ?_⟩
  have := hnear slots.length
  simp only [Plan.starts, UInt32.size]
  omega

/-! ## Instructions -/

/-- An operation with a slot has the operand that its opcode asks for. -/
theorem Tree.fits_of_slotOf {t : Tree} {places : Array (Option Nat)} {count : Nat}
    {operation : Operation NodeId} {slot : Slot} (haccepts : acceptsOperand operation = true)
    (hslot : t.slotOf places count operation = .ok slot) :
    operation.operand.fits operation.opcode.operandType = true := by
  obtain ⟨-, hbranch, hswitch, -⟩ := slotOf_eq_ok_iff.mp hslot
  rw [acceptsOperand, Bool.or_eq_true] at haccepts
  rcases haccepts with hfits | hopen
  · exact hfits
  · -- an operand that is still open has no slot
    rw [Bool.and_eq_true, beq_iff_eq, Bool.or_eq_true] at hopen
    obtain ⟨hnone, hjump | hjump⟩ := hopen
    · have hone := hbranch hjump
      rw [hnone] at hone
      exact absurd hone (by simp [Operand.targets])
    · obtain ⟨labels, hlabels⟩ := hswitch hjump
      rw [hnone] at hlabels
      exact absurd hlabels (by simp)

/-- The slots of a tree have the operands that their opcodes ask for. -/
theorem Tree.OperandsSuit.fits {t : Tree} (h : t.OperandsSuit) {slots : List Slot}
    (hslots : t.slots t.places = .ok slots) {slot : Slot} (hslot : slot ∈ slots) :
    slot.operation.operand.fits slot.operation.opcode.operandType = true := by
  obtain ⟨hoperations, -, hmade⟩ := slots_spec hslots
  have hmem : slot.operation ∈ t.instructions.filterMap t.operation? :=
    hoperations ▸ List.mem_map_of_mem hslot
  obtain ⟨id, -, hoperation⟩ := List.mem_filterMap.mp hmem
  exact fits_of_slotOf (h id _ hoperation) (hmade slot hslot)

/-- Every slot becomes an instruction. -/
theorem Tree.exists_instructions {t : Tree} {p : Plan} (hsuit : t.OperandsSuit)
    (hsize : t.longSize < 2 ^ 31) (hplan : Plan.ofTree t = .ok p)
    (hnear : ∀ place, p.starts.getD place 0 < 2 ^ 31) : ∃ code, p.instructions = .ok code := by
  obtain ⟨-, hslots, -⟩ := Plan.ofTree_eq_ok_iff.mp hplan
  obtain ⟨hoperations, -, hmade⟩ := slots_spec hslots
  refine exists_mapM_eq_ok fun item hitem => ?_
  obtain ⟨⟨slot, isLong⟩, index⟩ := item
  rw [List.mem_zipIdx_iff_getElem?, List.getElem?_zip_eq_some] at hitem
  have hslot := List.mem_of_getElem? hitem.1
  have hfits := hsuit.fits hslots hslot
  refine Plan.exists_instruction hnear (hmade slot hslot) hfits (fun htype => ?_) index isLong
  -- a switch takes four bytes for each of its labels
  have hswitch : slot.operation.opcode.isSwitch = true := by simp [Opcode.isSwitch, htype]
  have hbranch : slot.operation.opcode.isBranch = false := by simp [Opcode.isBranch, htype]
  obtain ⟨labels, hlabels⟩ := (Operation.isSwitch_iff hfits).mp hswitch
  have hown : slot.operation.longSize ≤ t.longSize :=
    List.le_sum_of_mem (List.mem_map_of_mem (hoperations ▸ List.mem_map_of_mem hslot))
  rw [Operation.longSize, hbranch, if_neg Bool.false_ne_true, hlabels] at hown
  rw [hlabels]
  simp only [Operand.targets, UInt32.size] at hown ⊢
  omega

end MethodIL
