import Mathlib
import MethodIL.Proofs.Body.Agreement
import MethodIL.Proofs.Body.Machine
import MethodIL.Proofs.Lowering.Clauses
import MethodIL.Proofs.Lowering.MinimalForms
set_option autoImplicit false

/-!
# Instructions and their nodes

The instruction at a place of the emitted code is that of the node at the same place of the tree:
it moves the stack like the node, its offsets land on the places of the labels of the node, and the
ranges of the clauses hold the places that the regions cover.
-/

namespace MethodIL

open Outcome

/-- Where every item has a value, the values stand at the places of the items. -/
theorem getElem?_filterMap_of_isSome {α β : Type} {f : α → Option β} {items : List α}
    (h : ∀ a ∈ items, (f a).isSome) (k : Nat) : (items.filterMap f)[k]? = items[k]?.bind f := by
  induction items generalizing k with
  | nil => rfl
  | cons a items ih =>
    obtain ⟨b, hb⟩ := Option.isSome_iff_exists.mp (h a List.mem_cons_self)
    rw [List.filterMap_cons_some hb]
    cases k with
    | zero => rw [List.getElem?_cons_zero, List.getElem?_cons_zero, Option.bind_some, hb]
    | succ k => exact ih (fun x hx => h x (List.mem_cons_of_mem a hx)) k

/-- The operations of the instructions stand at their places. -/
theorem Tree.getElem?_operations (t : Tree) (k : Nat) :
    (t.instructions.filterMap t.operation?)[k]? = t.instructions[k]?.bind t.operation? := by
  have hall : ∀ id ∈ t.instructions, (t.operation? id).isSome :=
    fun id hid => (List.mem_filter.mp hid).2
  exact getElem?_filterMap_of_isSome hall k

theorem Tree.length_operations (t : Tree) :
    (t.instructions.filterMap t.operation?).length = t.instructions.length := by
  have hsome : ∀ k : Nat, (t.instructions.filterMap t.operation?)[k]? = none ↔
      t.instructions[k]? = none := by
    intro k
    rw [t.getElem?_operations]
    cases hid : t.instructions[k]? with
    | none => simp
    | some id =>
      have hinstruction := (List.mem_filter.mp (List.mem_of_getElem? hid)).2
      simpa [isInstruction, Option.isSome_iff_ne_none] using hinstruction
  simp only [List.getElem?_eq_none_iff] at hsome
  exact Nat.le_antisymm ((hsome _).mpr (Nat.le_refl _)) ((hsome _).mp (Nat.le_refl _))

/-- An offset that the instruction at a place of a body holds lands on the place of a label. -/
def Tree.LandsOn (t : Tree) (b : Body) (index : Nat) (label : NodeId) (offset : Int32) : Prop :=
  t.isLabel label = true ∧ ∃ target, place? t.places label = some target ∧ b.Lands index offset target

namespace Tree.Lowers

variable {t : Tree} {p : Plan} {b : Body} (h : t.Lowers p b)

include h

/-! ## Slots -/

/-- Every slot holds the operation of the instruction at its place. -/
theorem slots_eq {k : Nat} : (p.slots[k]?).map Slot.operation = t.instructions[k]?.bind t.operation? := by
  obtain ⟨-, hslots, -⟩ := Plan.ofTree_eq_ok_iff.mp h.plan
  obtain ⟨-, hmapM⟩ := Tree.slots_eq_ok_iff.mp hslots
  rw [← t.getElem?_operations]
  cases hop : (t.instructions.filterMap t.operation?)[k]? with
  | none =>
    have hk := mapM_length hmapM
    rw [List.getElem?_eq_none_iff] at hop
    rw [List.getElem?_eq_none (by omega)]
    rfl
  | some operation =>
    obtain ⟨slot, hslot, hmade⟩ := mapM_getElem? hmapM hop
    rw [hslot, Option.map_some, (Tree.slotOf_eq_ok_iff.mp hmade).1]

theorem length_slots : p.slots.length = t.instructions.length := by
  obtain ⟨-, hslots, -⟩ := Plan.ofTree_eq_ok_iff.mp h.plan
  rw [mapM_length (Tree.slots_eq_ok_iff.mp hslots).2, t.length_operations]

/-- The emitted instruction at a place, and the node and the slot that it comes from. -/
theorem node_at {k : Nat} {i : Instruction} (hi : b.instructions[k]? = some i) :
    ∃ id operation slot isLong, t.instructions[k]? = some id ∧ t.operation? id = some operation ∧
      p.slots[k]? = some slot ∧ slot.operation = operation ∧
        p.relaxed.forms[k]? = some isLong ∧ p.Emits k slot isLong i ∧
          i.toOperation.encodedSize = .ok i.size := by
  have hk := (List.getElem?_eq_some_iff.mp hi).1
  rw [h.length_instructions] at hk
  have hslot : p.slots[k]? = some p.slots[k] := List.getElem?_eq_getElem hk
  obtain ⟨isLong, i', hform, hi', hmade⟩ := h.instruction_at hslot
  obtain rfl := Option.some.inj (hi.symm.trans hi')
  obtain ⟨hemits, hsize⟩ := Plan.instruction_eq_ok_iff.mp hmade
  have hop := h.slots_eq (k := k)
  rw [hslot, Option.map_some, eq_comm, Option.bind_eq_some_iff] at hop
  obtain ⟨id, hid, hop⟩ := hop
  exact ⟨id, _, _, isLong, hid, hop, hslot, rfl, hform, hemits, hsize⟩

/-! ## Effects -/

omit h in
/-- The emitted instruction moves the stack and directs control like its slot. -/
theorem alike_of_emits {k : Nat} {slot : Slot} {isLong : Bool} {i : Instruction}
    (hemits : p.Emits k slot isLong i) :
    i.opcode.flow = slot.operation.opcode.flow ∧
      ∀ r, i.toOperation.stackEffect r = slot.operation.stackEffect r := by
  cases hemits with
  | branch offset hbranch hform hoperand _ =>
    obtain ⟨form, hform', _, _, halike⟩ := Plan.form_of_isBranch hbranch isLong
    obtain rfl : form = i.opcode := Option.some.inj (hform'.symm.trans hform)
    refine ⟨halike.1, fun r => (Operation.stackEffect_of_alike halike ?_)⟩
    have hcall := Opcode.isCall_of_isBranch hbranch
    rw [Opcode.isCall] at hcall ⊢
    rwa [halike.1]
  | switch labels offsets _ hlabels hopcode hoperand _ =>
    refine ⟨by rw [hopcode], fun r => Operation.stackEffect_congr hopcode fun token => ?_⟩
    rw [hoperand, hlabels]
    simp
  | plain _ hplain hopcode hoperand =>
    refine ⟨by rw [hopcode], fun r => Operation.stackEffect_congr hopcode fun token => ?_⟩
    rw [hoperand]
    cases slot.operation.operand <;> simp [Operand.withoutTargets]

/-! ## Targets -/

omit h in
/-- A label of a slot marks the slot at its own place. -/
theorem place?_of_labelSlot {places : Array (Option Nat)} {count target : Nat} {label : NodeId}
    (hlabel : labelSlot places count t label = .ok target) :
    place? places label = some target ∧ target < count ∧ t.isLabel label = true := by
  unfold labelSlot at hlabel
  split at hlabel
  · next slot hplace =>
    split at hlabel
    case isTrue hcheck =>
      simp only [Bool.and_eq_true, decide_eq_true_eq] at hcheck
      obtain rfl := Except.ok.inj hlabel
      exact ⟨hplace, hcheck⟩
    case isFalse => exact absurd hlabel (by simp)
  · exact absurd hlabel (by simp)

/-- The offsets of an emitted instruction land on the places of the labels of its node, in order, if
the node is a branch or a switch; other instructions have no offsets. -/
theorem lands_labels {k : Nat} {i : Instruction} {id : NodeId} {operation : Operation NodeId}
    (hi : b.instructions[k]? = some i) (hid : t.instructions[k]? = some id)
    (hop : t.operation? id = some operation) :
    if operation.opcode.isBranch || operation.opcode.isSwitch then
      List.Forall₂ (t.LandsOn b k) operation.operand.targets i.operand.targets
    else i.operand.targets = [] := by
  obtain ⟨id', operation', slot, isLong, hid', hop', hslot, rfl, -, hemits, hsize⟩ := h.node_at hi
  obtain rfl := Option.some.inj (hid.symm.trans hid')
  obtain rfl := Option.some.inj (hop.symm.trans hop')
  obtain ⟨-, -, hswitch, htargets⟩ := Tree.slotOf_eq_ok_iff.mp (h.slotOf_slot hslot)
  have hk := (List.getElem?_eq_some_iff.mp hslot).1
  -- it is enough that the offsets hold the distances to the targets of the slot
  have hcompose : (slot.operation.opcode.isBranch || slot.operation.opcode.isSwitch) = true →
      List.Forall₂ (fun target (offset : Int32) =>
        offset.toInt = Layout.distance p.starts k target) slot.targets i.operand.targets →
      List.Forall₂ (t.LandsOn b k) slot.operation.operand.targets i.operand.targets := by
    intro hflow hholds
    rw [if_pos hflow, mapM_eq_ok] at htargets
    refine (forall₂_compose htargets hholds).imp fun label offset hlabel => ?_
    obtain ⟨target, hlabel, hholds⟩ := hlabel
    obtain ⟨hplace, hlt, hisLabel⟩ := place?_of_labelSlot hlabel
    exact ⟨hisLabel, target, hplace, h.lands_of_holds hk hlt hholds⟩
  cases hemits with
  | branch offset hbranch _ hoperand hholds =>
    have hflow : (slot.operation.opcode.isBranch || slot.operation.opcode.isSwitch) = true := by
      simp [hbranch]
    rw [if_pos hflow]
    refine hcompose hflow ?_
    rw [h.branch_targets hslot hbranch, hoperand]
    exact .cons hholds .nil
  | switch labels offsets _ _ hopcode hoperand hholds =>
    obtain ⟨hfits, -⟩ := Operation.encodedSize_eq_ok_iff.mp hsize
    have hflow : (slot.operation.opcode.isBranch || slot.operation.opcode.isSwitch) = true := by
      rw [hoperand, hopcode] at hfits
      simp only [Operand.fits] at hfits
      simp [Opcode.isSwitch, hfits]
    rw [if_pos hflow]
    refine hcompose hflow ?_
    rw [hoperand]
    exact hholds
  | plain hother hplain _ hoperand =>
    have hflow : (slot.operation.opcode.isBranch || slot.operation.opcode.isSwitch) = false := by
      cases hcase : slot.operation.opcode.isSwitch with
      | true =>
        obtain ⟨labels, hlabels⟩ := hswitch hcase
        exact absurd hlabels (hplain labels)
      | false => simp [hother]
    rw [if_neg (by simp [hflow]), hoperand]
    cases slot.operation.operand <;> rfl

omit h in
/-- An operand that is there tells a branch. -/
theorem isBranch_iff_of_accepted {operation : Operation NodeId}
    (haccepts : acceptsOperand operation = true) (hsome : operation.operand ≠ .none) :
    operation.opcode.isBranch = true ↔ ∃ label, operation.operand = .branch label := by
  refine Operation.isBranch_iff ?_
  rw [acceptsOperand, beq_eq_false_iff_ne.mpr hsome, Bool.false_and, Bool.or_false] at haccepts
  exact haccepts

/-- The emitted instruction at a place says the same as its node, if the operand of the node suits its
opcode. -/
theorem emitted_at {k : Nat} {i : Instruction} (hi : b.instructions[k]? = some i) :
    ∃ id operation, t.instructions[k]? = some id ∧ t.operation? id = some operation ∧
      i.toOperation.encodedSize = .ok i.size ∧ (acceptsOperand operation = true →
        operation.opcode.SameUpToForm i.opcode ∧
          operation.operand.Matches (t.LandsOn b k) i.operand) := by
  obtain ⟨id, operation, slot, isLong, hid, hoperation, hslot, rfl, -, hemits, hsize⟩ := h.node_at hi
  have hlands := h.lands_labels hi hid hoperation
  refine ⟨id, _, hid, hoperation, hsize, fun haccepts => ?_⟩
  cases hemits with
  | branch offset hbranch hform hoperand _ =>
    refine ⟨?_, ?_⟩
    · cases isLong with
      | false => exact Or.inr (Or.inl hform)
      | true => exact Or.inr (Or.inr hform)
    · rw [if_pos (by rw [hbranch, Bool.true_or]), hoperand] at hlands
      have hsome : slot.operation.operand ≠ .none := by
        intro hnone
        rw [hnone] at hlands
        exact absurd hlands.length_eq (by simp [Operand.targets])
      obtain ⟨label, hlabel⟩ := (isBranch_iff_of_accepted haccepts hsome).mp hbranch
      rw [hlabel] at hlands ⊢
      rw [hoperand]
      exact .branch (List.forall₂_cons.mp hlands).1
  | switch labels offsets hother hlabels hopcode hoperand _ =>
    refine ⟨Or.inl hopcode.symm, ?_⟩
    obtain ⟨hfits, -⟩ := Operation.encodedSize_eq_ok_iff.mp hsize
    have hswitch := (Operation.isSwitch_iff hfits).mpr ⟨offsets, hoperand⟩
    rw [hopcode] at hswitch
    rw [if_pos (by rw [hswitch, Bool.or_true]), hlabels, hoperand] at hlands
    rw [hlabels, hoperand]
    exact .switch hlands
  | plain hother hplain hopcode hoperand =>
    refine ⟨Or.inl hopcode.symm, ?_⟩
    rw [hoperand]
    cases hown : slot.operation.operand with
    | none => exact .none
    | immediate value => exact .immediate value
    | token name => exact .token name
    | branch label =>
      have hbranch := (isBranch_iff_of_accepted haccepts (by simp [hown])).mpr ⟨label, hown⟩
      exact absurd hbranch (by simp [hother])
    | switch labels => exact absurd hown (hplain labels)

/-! ## Ranges -/

/-- An instruction stands in front of a place if and only if it starts in front of it. -/
theorem start_lt_iff {k other : Nat} (hk : k ≤ b.instructions.length)
    (hother : other ≤ b.instructions.length) : b.start k < b.start other ↔ k < other :=
  Body.start_lt_iff h.sized.size_pos hk hother

theorem start_lt_limit {k : Nat} (hk : k ≤ b.instructions.length) : b.start k < UInt32.size := by
  obtain ⟨-, -, _, _, _, hlimit⟩ := Plan.ofTree_eq_ok_iff.mp h.plan
  rw [h.starts_eq (Nat.le_refl _), ← h.length_instructions] at hlimit
  exact Nat.lt_of_le_of_lt (Layout.offset_mono _ hk) hlimit

/-- A region of the body covers places of the code, and its extent has the bytes of the instructions
at these places. -/
theorem exists_covered (wf : t.WellFormed) {region : NodeId} {extent : Nat × Nat}
    (hextent : p.extent t region = .ok extent) :
    ∃ first last, t.coverage? t.places region = some (first, last) ∧ first < last ∧
      last ≤ b.instructions.length ∧ extent.1 = b.start first ∧
        extent.1 + extent.2 = b.start last ∧ extent.1 + extent.2 < UInt32.size := by
  obtain ⟨hplaces, -⟩ := Plan.ofTree_eq_ok_iff.mp h.plan
  obtain ⟨first, last, hcoverage, hlt, rfl⟩ := Plan.extent_eq_ok_iff.mp hextent
  rw [hplaces] at hcoverage
  have hlast : last ≤ p.slots.length := by
    obtain ⟨before, after, horder, rfl, rfl⟩ := wf.coverage?_eq_some_iff.mp hcoverage
    rw [h.length_slots, wf.instructions_eq, horder, ← List.countP_eq_length_filter,
      List.countP_append, List.countP_append]
    omega
  rw [h.starts_eq hlast, h.starts_eq (by omega : first ≤ p.slots.length)]
  rw [← h.length_instructions] at hlast
  have hmono : b.start first ≤ b.start last := Layout.offset_mono _ (Nat.le_of_lt hlt)
  have hlimit := h.start_lt_limit hlast
  exact ⟨first, last, hcoverage, hlt, hlast, rfl, by dsimp only; omega, by dsimp only; omega⟩

end Tree.Lowers

end MethodIL
