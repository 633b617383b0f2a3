import Mathlib
import MethodIL.Proofs.Lifting.Labels
import MethodIL.Proofs.Lowering.AgreeingForms
import MethodIL.Proofs.Lowering.Capacity
set_option autoImplicit false

/-!
# Lowering what has been lifted

A tree that presents a body can be lowered, if the body stays below two gigabytes with all its branches
long.  Its labels mark instructions, so every slot has its targets; no start lies behind that of the
long body, so no distance is too great for an offset; and the regions of its clauses cover instructions of
the body, so every clause has its ranges.
-/

namespace MethodIL

open Outcome

namespace Tree.Presents

variable {t : Tree} {x : Body} (h : t.Presents x)

include h

theorem wellFormed : t.WellFormed := by
  obtain ⟨handlers, hcarries⟩ := h.carries
  exact hcarries.wellFormed

theorem code : t.HasCode x := by
  obtain ⟨handlers, hcarries⟩ := h.carries
  exact hcarries.code

theorem sized : x.Sized := h.sizes

theorem fits {k : Nat} {i : Instruction} (hi : x.instructions[k]? = some i) :
    i.operand.fits i.opcode.operandType = true :=
  (Operation.encodedSize_eq_ok_iff.mp (h.sizes i (List.mem_of_getElem? hi))).1

/-! ## Slots -/

/-- Every instruction of the body has a node with its opcode, and with labels that mark what its
offsets land on. -/
theorem operation_at {k : Nat} {i : Instruction} (hi : x.instructions[k]? = some i) :
    ∃ operand, t.operation? (instructionNode k) = some ⟨i.opcode, operand⟩ ∧
      operand.Matches (t.Marks x k) i.operand := by
  obtain ⟨operand, hoperation, hmatches⟩ := h.aimed.operations k i hi
  rw [if_pos (List.getElem?_eq_some_iff.mp hi).1] at hmatches
  exact ⟨operand, hoperation, hmatches⟩

theorem length_operations :
    (t.instructions.filterMap t.operation?).length = x.instructions.length := by
  rw [t.length_operations, h.code]
  simp

/-- Every operation of the tree has a slot. -/
theorem exists_slotOf {k : Nat} {i : Instruction} {operand : Operand NodeId}
    (hi : x.instructions[k]? = some i) (hmatches : operand.Matches (t.Marks x k) i.operand) :
    ∃ slot, t.slotOf t.places x.instructions.length ⟨i.opcode, operand⟩ = .ok slot := by
  have hfits := h.fits hi
  obtain ⟨targets, htargets⟩ : ∃ targets,
      operand.targets.mapM (labelSlot t.places x.instructions.length t) = .ok targets := by
    refine exists_mapM_eq_ok fun label hlabel => ?_
    obtain ⟨offset, -, hisLabel, target, hcovers, hlands⟩ :=
      exists_of_mem_right hmatches.targets.flip hlabel
    exact ⟨target, by rw [labelSlot, hcovers.place?_eq]; simp [hlands.1, hisLabel]⟩
  refine ⟨⟨⟨i.opcode, operand⟩,
    if i.opcode.isBranch || i.opcode.isSwitch then targets else []⟩, ?_⟩
  rw [Tree.slotOf_eq_ok_iff]
  refine ⟨rfl, fun hbranch => ?_, fun hswitch => ?_, ?_⟩
  · obtain ⟨offset, hoperand⟩ := (Operation.isBranch_iff hfits).mp hbranch
    rw [hmatches.targets.length_eq, hoperand]
    rfl
  · obtain ⟨offsets, hoperand⟩ := (Operation.isSwitch_iff hfits).mp hswitch
    rw [hoperand] at hmatches
    cases hmatches with
    | switch => exact ⟨_, rfl⟩
  · split
    · exact htargets
    · rfl

/-- The slots of the tree. -/
theorem exists_slots : ∃ slots, t.slots t.places = .ok slots := by
  obtain ⟨slots, hslots⟩ : ∃ slots, (t.instructions.filterMap t.operation?).mapM
      (t.slotOf t.places (t.instructions.filterMap t.operation?).length) = .ok slots := by
    refine exists_mapM_eq_ok fun operation hoperation => ?_
    obtain ⟨k, hk⟩ := List.getElem?_of_mem hoperation
    have hlt := (List.getElem?_eq_some_iff.mp hk).1
    rw [h.length_operations] at hlt ⊢
    have hi : x.instructions[k]? = some x.instructions[k] := List.getElem?_eq_getElem hlt
    obtain ⟨operand, hnode, hmatches⟩ := h.operation_at hi
    rw [t.getElem?_operations, h.code.getElem? hlt, Option.bind_some, hnode] at hk
    obtain rfl := Option.some.inj hk
    exact h.exists_slotOf hi hmatches
  refine ⟨slots, Tree.slots_eq_ok_iff.mpr ⟨?_, hslots⟩⟩
  rw [danglingLabel?, List.find?_eq_none, h.length_operations]
  intro label hlabel
  obtain ⟨k, hk, hcovers⟩ := h.aimed.labels label (List.mem_filter.mp hlabel).2
  rw [hcovers.place?_eq]
  simp [Nat.ne_of_lt hk]

/-- The slot at a place is that of the instruction at the place. -/
theorem slot_at {slots : List Slot} (hslots : t.slots t.places = .ok slots) {k : Nat}
    {i : Instruction} (hi : x.instructions[k]? = some i) :
    ∃ slot operand, slots[k]? = some slot ∧ slot.operation = ⟨i.opcode, operand⟩ ∧
      operand.Matches (t.Marks x k) i.operand ∧
        t.slotOf t.places x.instructions.length slot.operation = .ok slot := by
  obtain ⟨-, hmapM⟩ := Tree.slots_eq_ok_iff.mp hslots
  obtain ⟨operand, hnode, hmatches⟩ := h.operation_at hi
  have hk : (t.instructions.filterMap t.operation?)[k]? = some ⟨i.opcode, operand⟩ := by
    rw [t.getElem?_operations, h.code.getElem? (List.getElem?_eq_some_iff.mp hi).1,
      Option.bind_some, hnode]
  obtain ⟨slot, hslot, hmade⟩ := mapM_getElem? hmapM hk
  rw [h.length_operations] at hmade
  have hsame := (Tree.slotOf_eq_ok_iff.mp hmade).1
  exact ⟨slot, operand, hslot, hsame, hmatches, by rwa [hsame]⟩

theorem length_slots {slots : List Slot} (hslots : t.slots t.places = .ok slots) :
    slots.length = x.instructions.length := by
  rw [mapM_length (Tree.slots_eq_ok_iff.mp hslots).2, h.length_operations]

/-! ## Sizes -/

/-- The operations of the tree take as many bytes as the instructions of the body do if branches are
long. -/
theorem longSize_eq : t.longSize = x.longSize := by
  have hsame : (t.instructions.filterMap t.operation?).map Operation.longSize =
      x.sizesAs fun _ => true := by
    apply List.ext_getElem?
    intro k
    rw [List.getElem?_map, t.getElem?_operations, Body.sizesAs, List.getElem?_mapIdx]
    cases hi : x.instructions[k]? with
    | none =>
      rw [h.code, List.getElem?_eq_none (by simpa using hi)]
      rfl
    | some i =>
      obtain ⟨operand, hoperation, hmatches⟩ := h.operation_at hi
      obtain ⟨hfits, -, htotal⟩ := Operation.encodedSize_eq_ok_iff.mp (h.sizes i (List.mem_of_getElem? hi))
      rw [h.code.getElem? (List.getElem?_eq_some_iff.mp hi).1, Option.bind_some, hoperation]
      simp only [Option.map_some, Option.some.injEq]
      rw [Operation.longSize_eq (by rw [hmatches.fits_eq, hfits]), Instruction.sizeAs, htotal,
        Operation.operandSize, hmatches.targets.length_eq]
      simp only [if_true]
  rw [Tree.longSize, Body.longSize, Body.startAs, Layout.offset, hsame, List.take_of_length_le]
  simp [Body.sizesAs]

/-- The tree can be laid out, and no start lies as far as two gigabytes. -/
theorem exists_plan (hsize : x.longSize < 2 ^ 31) :
    ∃ p, Plan.ofTree t = .ok p ∧ ∀ place, p.starts.getD place 0 < 2 ^ 31 := by
  obtain ⟨slots, hslots⟩ := h.exists_slots
  exact Tree.exists_plan hslots (h.longSize_eq ▸ hsize)

/-! ## Instructions -/

/-- Every slot becomes an instruction. -/
theorem exists_instruction {p : Plan} (hnear : ∀ place, p.starts.getD place 0 < 2 ^ 31) {k : Nat}
    {i : Instruction} {slot : Slot} {operand : Operand NodeId} (isLong : Bool)
    (hi : x.instructions[k]? = some i) (hslot : slot.operation = ⟨i.opcode, operand⟩)
    (hmatches : operand.Matches (t.Marks x k) i.operand)
    (hmade : t.slotOf t.places x.instructions.length slot.operation = .ok slot) :
    ∃ j, p.instruction k slot isLong = .ok j := by
  obtain ⟨hfits, htable, -⟩ :=
    Operation.encodedSize_eq_ok_iff.mp (h.sizes i (List.mem_of_getElem? hi))
  refine Plan.exists_instruction hnear hmade ?_ ?_ k isLong
  · rw [hslot, hmatches.fits_eq, hfits]
  · rw [hslot, hmatches.targets.length_eq]
    exact htable

/-- The instructions of the plan. -/
theorem exists_instructions {p : Plan} (hplan : Plan.ofTree t = .ok p)
    (hnear : ∀ place, p.starts.getD place 0 < 2 ^ 31) : ∃ code, p.instructions = .ok code := by
  obtain ⟨-, hslots, -⟩ := Plan.ofTree_eq_ok_iff.mp hplan
  refine exists_mapM_eq_ok fun item hitem => ?_
  obtain ⟨⟨slot, isLong⟩, k⟩ := item
  rw [List.mem_zipIdx_iff_getElem?, List.getElem?_zip_eq_some] at hitem
  have hk := (List.getElem?_eq_some_iff.mp hitem.1).1
  rw [h.length_slots hslots] at hk
  have hi : x.instructions[k]? = some x.instructions[k] := List.getElem?_eq_getElem hk
  obtain ⟨slot', operand, hslot', hoperation, hmatches, hmade⟩ := h.slot_at hslots hi
  obtain rfl := Option.some.inj (hitem.1.symm.trans hslot')
  exact h.exists_instruction hnear isLong hi hoperation hmatches hmade

end Tree.Presents

end MethodIL
