import Mathlib
import MethodIL.Proofs.Body.Offsets
import MethodIL.Proofs.Instruction.Size
import MethodIL.Proofs.Outcome
import MethodIL.Tree.OfBody
set_option autoImplicit false

/-!
# The map of a code stream

The map that lifting makes of a code stream has the starts of its instructions and the end of the
code, and there is a map only if every recorded size is right.  So an offset that is looked up there
is the start of the instruction that is found, ranges are made of whole instructions, and branches
land where they are said to lead.
-/

namespace MethodIL

open Outcome

namespace CodeMap

variable {map : CodeMap} {x : Body}

/-- The map has the starts of the instructions and the end of the code, and every recorded size is
right. -/
structure Maps (map : CodeMap) (x : Body) : Prop where
  starts : map.starts = (List.range x.instructions.length).map x.start
  size : map.size = x.codeSize
  sizes : ∀ i ∈ x.instructions, i.toOperation.encodedSize = .ok i.size

theorem startsFrom_eq_ok {position : Nat} {code : List Instruction} {starts : List Nat}
    (h : startsFrom position code = .ok starts) :
    starts = Layout.startsFrom position (code.map fun i : Instruction => i.size.toNat) ∧
      ∀ i ∈ code, i.toOperation.encodedSize = .ok i.size := by
  induction code generalizing position starts with
  | nil => exact ⟨(Except.ok.inj h).symm, by simp⟩
  | cons i code ih =>
    rw [startsFrom] at h
    split at h
    · exact absurd h throw_ne_ok
    · next size hsize =>
      obtain ⟨hsame, h⟩ := guard_eq_ok.mp h
      obtain ⟨_, h⟩ := guard_eq_ok.mp h
      obtain ⟨others, hothers, h⟩ := bind_eq_ok.mp h
      obtain rfl := not_not.mp hsame
      obtain ⟨rfl, hsizes⟩ := ih hothers
      refine ⟨(pure_eq_ok.mp h).symm, fun j hj => ?_⟩
      rcases List.mem_cons.mp hj with rfl | hj
      · exact hsize
      · exact hsizes j hj

theorem maps_of_ofCode (h : ofCode x.instructions = .ok map) : map.Maps x := by
  obtain ⟨starts, hstarts, h⟩ := bind_eq_ok.mp h
  obtain rfl := pure_eq_ok.mp h
  obtain ⟨rfl, hsizes⟩ := startsFrom_eq_ok hstarts
  have hlookup : ∀ k ≤ x.instructions.length, (Layout.startsFrom 0 x.sizes)[k]? = some (x.start k) := by
    intro k hk
    rw [Layout.getElem?_startsFrom 0 _ (by simpa using hk), Nat.zero_add]
    rfl
  refine ⟨?_, ?_, hsizes⟩
  · apply List.ext_getElem?
    intro k
    have hlength : (Layout.startsFrom 0 x.sizes).length - 1 = x.instructions.length := by simp
    change (Layout.startsFrom 0 x.sizes).dropLast[k]? = _
    rw [List.getElem?_dropLast, hlength, List.getElem?_map]
    split
    case isTrue hk => rw [hlookup k (Nat.le_of_lt hk), List.getElem?_range hk, Option.map_some]
    case isFalse hk =>
      rw [List.getElem?_eq_none (by simpa using hk)]
      rfl
  · change (Layout.startsFrom 0 x.sizes).getLastD 0 = _
    rw [List.getLastD_eq_getLast?, List.getLast?_eq_getElem?, Body.codeSize_eq, Layout.length_startsFrom,
      Body.length_sizes, Nat.add_sub_cancel, hlookup _ (Nat.le_refl _)]
    rfl

namespace Maps

variable (h : map.Maps x)

include h

theorem size_pos {i : Instruction} (hi : i ∈ x.instructions) : 0 < i.size.toNat := by
  have hopcode := i.opcode.size_pos
  rw [(Operation.encodedSize_eq_ok_iff.mp (h.sizes i hi)).2.2]
  omega

theorem indexAt_eq_ok {offset index : Nat} (hindex : map.indexAt offset = .ok index) :
    index < x.instructions.length ∧ x.start index = offset := by
  unfold indexAt at hindex
  split at hindex
  · next found hfound =>
    obtain rfl := Except.ok.inj hindex
    rw [h.starts, List.idxOf?_eq_some_iff] at hfound
    obtain ⟨hlt, hstart, -⟩ := hfound
    exact ⟨by simpa using hlt, by simpa using hstart⟩
  · exact absurd hindex (by simp)

/-- A range that has instructions is not empty and starts in the code. -/
theorem lt_of_span {offset length : Nat} {span : Nat × Nat} (hspan : map.span offset length = .ok span) :
    0 < length ∧ offset < x.codeSize := by
  unfold CodeMap.span at hspan
  obtain ⟨hlength, hspan⟩ := guard_eq_ok.mp hspan
  obtain ⟨index, hindex, -⟩ := bind_eq_ok.mp hspan
  obtain ⟨hlt, rfl⟩ := h.indexAt_eq_ok hindex
  refine ⟨Nat.pos_of_ne_zero (by simpa using hlength), ?_⟩
  rwa [Body.codeSize_eq, Body.start_lt_iff (fun i hi => h.size_pos hi) (Nat.le_of_lt hlt) (Nat.le_refl _)]

/-- A range that has instructions is made of them, once it is clipped to the end of the code. -/
theorem spans_of_span {offset length first last : Nat}
    (hspan : map.span offset length = .ok (first, last)) :
    x.Spans offset (min (offset + length) x.codeSize) first (last + 1) := by
  unfold span at hspan
  obtain ⟨hlength, hspan⟩ := guard_eq_ok.mp hspan
  obtain ⟨index, hindex, hspan⟩ := bind_eq_ok.mp hspan
  obtain ⟨hlt, hstart⟩ := h.indexAt_eq_ok hindex
  have hcount : map.starts.length = x.instructions.length := by rw [h.starts]; simp
  split at hspan
  case isTrue hbeyond =>
    obtain ⟨rfl, rfl⟩ := Prod.mk.inj (pure_eq_ok.mp hspan)
    rw [h.size] at hbeyond
    refine ⟨by omega, by omega, hstart, ?_⟩
    rw [hcount, Nat.sub_add_cancel (by omega), Nat.min_eq_right hbeyond, Body.codeSize_eq]
  case isFalse hwithin =>
    obtain ⟨behind, hbehind, hspan⟩ := bind_eq_ok.mp hspan
    obtain ⟨rfl, rfl⟩ := Prod.mk.inj (pure_eq_ok.mp hspan)
    obtain ⟨hlt', hstart'⟩ := h.indexAt_eq_ok hbehind
    rw [h.size] at hwithin
    have hafter : index < behind := by
      rw [← Body.start_lt_iff (fun i hi => h.size_pos hi) (Nat.le_of_lt hlt) (Nat.le_of_lt hlt'),
        hstart, hstart']
      simp only [beq_iff_eq] at hlength
      omega
    rw [Nat.min_eq_left (by omega), Nat.sub_add_cancel (by omega)]
    exact ⟨hafter, Nat.le_of_lt hlt', hstart, hstart'⟩

/-- A branch leads to the instruction that its offset lands on. -/
theorem lands_of_branchTarget {k target : Nat} {i : Instruction} {relative : Int32}
    (hi : x.instructions[k]? = some i)
    (htarget : map.branchTarget (x.start k + i.size.toNat) relative = .ok target) :
    x.Lands k relative target := by
  unfold branchTarget at htarget
  dsimp only at htarget
  split at htarget
  case isTrue hinside =>
    simp only [Bool.and_eq_true, decide_eq_true_eq] at hinside
    obtain ⟨hlt, hstart⟩ := h.indexAt_eq_ok htarget
    refine ⟨hlt, ?_⟩
    rw [hstart, Body.start_succ hi, Int.toNat_of_nonneg hinside.1]
  case isFalse => exact absurd htarget (by simp)

/-- The instructions are listed with their starts. -/
theorem of_getElem?_zip {k start : Nat} {i : Instruction}
    (hk : (map.starts.zip x.instructions)[k]? = some (start, i)) :
    x.instructions[k]? = some i ∧ start = x.start k := by
  obtain ⟨hstart, hi⟩ := List.getElem?_zip_eq_some.mp hk
  have hlt := (List.getElem?_eq_some_iff.mp hi).1
  rw [h.starts, List.getElem?_map, List.getElem?_range hlt, Option.map_some,
    Option.some.injEq] at hstart
  exact ⟨hi, hstart.symm⟩

end Maps

end CodeMap

end MethodIL
