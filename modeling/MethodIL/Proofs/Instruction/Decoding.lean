import Mathlib
import MethodIL.Instruction.Codec
import MethodIL.Proofs.Bytes.Reads
import MethodIL.Proofs.Instruction.Size
import MethodIL.Proofs.Opcode.Forms
import MethodIL.Proofs.Outcome
set_option autoImplicit false

/-!
# Reading back what was written

The bytes of an instruction are read back as the instruction: its opcode by its place in the table, its
operand as the opcode asks for it, and its size by counting.  A code stream is read back instruction by
instruction.
-/

namespace MethodIL

open Outcome

variable {before after : List UInt8}

/-! ## Opcodes -/

/-- The place of an opcode on the two code pages, one behind the other. -/
def Opcode.place (op : Opcode) : Nat :=
  match op.page with
  | .single => op.code.toNat
  | .extended => 256 + op.code.toNat

/-- Opcodes are told by their places, since the table goes up from place to place. -/
theorem Opcode.place_injective : Function.Injective place := by
  have hsorted : (all.map place).Pairwise (· < ·) := by
    have hchain : (all.map place).IsChain (· < ·) := by decide +kernel
    exact hchain.pairwise
  have hnodup : (all.map place).Nodup := hsorted.imp Nat.ne_of_lt
  exact fun a b h => List.inj_on_of_nodup_map hnodup (mem_all a) (mem_all b) h

/-- An opcode is found by its page and its code. -/
theorem Opcode.find?_place (op : Opcode) : find? op.page op.code = some op := by
  unfold find?
  cases hfound : all.find? fun other => other.code == op.code && other.page == op.page with
  | none =>
    have hself := List.find?_eq_none.mp hfound op (mem_all op)
    exact absurd hself (by simp)
  | some other =>
    have hsame := List.find?_some hfound
    rw [Bool.and_eq_true, beq_iff_eq, beq_iff_eq] at hsame
    have hplace : other.place = op.place := by rw [place, place, hsame.1, hsame.2]
    rw [place_injective hplace]

/-- The byte in front of the opcodes of the second page is no opcode of the first. -/
theorem Opcode.code_ne_prefix {op : Opcode} (h : op.page = .single) : op.code ≠ 0xFE := by
  have hall : ∀ op ∈ all, op.page = .single → op.code ≠ 0xFE := by decide +kernel
  exact hall op (mem_all op) h

namespace Instruction

open Reader

theorem reads_opcode (op : Opcode) : readOpcode.Reads before op.bytes after op := by
  have hfind := op.find?_place
  unfold readOpcode Opcode.bytes
  cases hpage : op.page with
  | single =>
    have hfound : Opcode.ofBytes 0 op.code = .ok op := by
      rw [Opcode.ofBytes, ← hpage, hfind]
      rfl
    refine (Reads.byte op.code).bind_nil ?_
    rw [if_neg (by simpa using Opcode.code_ne_prefix hpage)]
    exact Reads.lift hfound
  | extended =>
    have hfound : Opcode.ofBytes 0xFE op.code = .ok op := by
      rw [Opcode.ofBytes, ← hpage, hfind]
      rfl
    rw [← List.singleton_append]
    refine (Reads.byte 0xFE).bind ?_
    rw [if_pos (by decide)]
    exact (Reads.byte op.code).bind_nil (Reads.lift hfound)

theorem reads_offsets (offsets : List Int32) :
    (readOffsets offsets.length).Reads before
      (offsets.flatMap fun offset => FixedWidth.toBytes offset) after offsets := by
  induction offsets generalizing before with
  | nil => exact Reads.pure []
  | cons offset offsets ih =>
    rw [List.flatMap_cons]
    exact (Reads.read offset).bind (ih.bind_nil (Reads.pure (offset :: offsets)))

/-- A short branch keeps its offset. -/
theorem toInt32_toInt8 {offset : Int32} (hlow : -128 ≤ offset.toInt) (hhigh : offset.toInt ≤ 127) :
    offset.toInt8.toInt32 = offset := by
  rw [← Int32.toInt_inj, Int8.toInt_toInt32, Int32.toInt_toInt8]
  exact Int.bmod_eq_of_le_mul_two (by omega) (by omega)

/-- A number is read back as the opcode asks for it. -/
theorem reads_immediate (value : Immediate) :
    (readOperand value.operandType).Reads before value.bytes after (.immediate value) := by
  cases value with
  | int8 value => exact Reads.read_map value fun value => Operand.immediate (.int8 value)
  | uint8 value => exact Reads.read_map value fun value => Operand.immediate (.uint8 value)
  | uint16 value => exact Reads.read_map value fun value => Operand.immediate (.uint16 value)
  | int32 value => exact Reads.read_map value fun value => Operand.immediate (.int32 value)
  | int64 value => exact Reads.read_map value fun value => Operand.immediate (.int64 value)
  | float32 bits => exact Reads.read_map bits fun bits => Operand.immediate (.float32 bits)
  | float64 bits => exact Reads.read_map bits fun bits => Operand.immediate (.float64 bits)

theorem length_offsetBytes (offsets : List Int32) :
    (offsets.flatMap fun offset => FixedWidth.toBytes offset).length = 4 * offsets.length := by
  rw [List.length_flatMap]
  simp only [FixedWidth.length_toBytes, List.map_const', List.sum_replicate, smul_eq_mul]
  exact Nat.mul_comm ..

/-- A switch table is read back, since all of it is there. -/
theorem reads_switch {offsets : List Int32} (hcount : offsets.length < UInt32.size) :
    (readOperand .switch).Reads before (FixedWidth.toBytes (UInt32.ofNat offsets.length) ++
      offsets.flatMap fun offset => FixedWidth.toBytes offset) after (.switch offsets) := by
  have hword : (UInt32.ofNat offsets.length).toNat = offsets.length :=
    UInt32.toNat_ofNat_of_lt' hcount
  refine (Reads.read (UInt32.ofNat offsets.length)).bind (Reads.get (Reads.guard ?_ ?_))
  · rw [Cursor.remaining_between, hword, List.length_append, length_offsetBytes]
    omega
  · rw [hword]
    exact (reads_offsets offsets).bind_nil (Reads.pure (Operand.switch offsets))

/-- An operand is read back as the opcode asks for it. -/
theorem reads_operand {op : Operation Int32} {bytes : List UInt8} (h : op.operandBytes = .ok bytes) :
    (readOperand op.opcode.operandType).Reads before bytes after op.operand := by
  unfold Operation.operandBytes at h
  split at h
  case h_1 htype hoperand =>
    rw [htype, hoperand, ← Except.ok.inj h]
    exact Reads.pure Operand.none
  case h_2 offset htype hoperand =>
    split at h
    case isTrue hrange =>
      rw [Bool.and_eq_true, decide_eq_true_eq, decide_eq_true_eq] at hrange
      have hread : (readOperand .shortBranch).Reads before (FixedWidth.toBytes offset.toInt8) after
          (.branch offset.toInt8.toInt32) :=
        Reads.read_map offset.toInt8 fun offset => Operand.branch offset.toInt32
      rw [toInt32_toInt8 hrange.1 hrange.2] at hread
      rw [htype, hoperand, ← Except.ok.inj h]
      exact hread
    case isFalse => exact absurd h (by simp)
  case h_3 offset htype hoperand =>
    rw [htype, hoperand, ← Except.ok.inj h]
    exact Reads.read_map offset fun offset => Operand.branch offset
  case h_4 name htype hoperand =>
    rw [htype, hoperand, ← Except.ok.inj h]
    exact Reads.read_map name.value fun value => Operand.token ⟨value⟩
  case h_5 offsets htype hoperand =>
    split at h
    case isTrue hcount =>
      rw [htype, hoperand, ← Except.ok.inj h]
      exact reads_switch hcount
    case isFalse => exact absurd h (by simp)
  case h_6 value hoperand =>
    split at h
    case isTrue htype =>
      rw [← beq_iff_eq.mp htype, hoperand, ← Except.ok.inj h]
      exact reads_immediate value
    case isFalse => exact absurd h (by simp)
  case h_7 => exact absurd h (by simp)

/-! ## Instructions -/

/-- The bytes of an instruction are those of its opcode and its operand, as many as it records. -/
theorem encode_eq_ok_iff {i : Instruction} {bytes : List UInt8} :
    i.encode = .ok bytes ↔ ∃ operand, i.operandBytes = .ok operand ∧
      bytes = i.opcode.bytes ++ operand ∧ bytes.length = i.size.toNat := by
  unfold encode written
  cases i.operandBytes with
  | error cause => simp
  | ok operand =>
    simp only [Except.ok.injEq, exists_eq_left', beq_iff_eq]
    constructor
    · intro h
      split at h
      case isTrue hsize =>
        rw [Except.ok.injEq] at h
        exact ⟨h.symm, h ▸ hsize⟩
      case isFalse => exact absurd h (by simp)
    · rintro ⟨rfl, hsize⟩
      rw [if_pos hsize]

theorem length_pos_of_encode {i : Instruction} {bytes : List UInt8} (h : i.encode = .ok bytes) :
    0 < bytes.length := by
  obtain ⟨operand, -, rfl, -⟩ := encode_eq_ok_iff.mp h
  have hopcode : 0 < i.opcode.bytes.length := i.opcode.size_pos
  rw [List.length_append]
  exact Nat.add_pos_left hopcode _

/-- An instruction is read back. -/
theorem reads_decode {i : Instruction} {bytes : List UInt8} (h : i.encode = .ok bytes) :
    decode.Reads before bytes after i := by
  obtain ⟨operand, hoperand, rfl, hlength⟩ := encode_eq_ok_iff.mp h
  have hsize : (before ++ i.opcode.bytes ++ operand).length - before.length = i.size.toNat := by
    rw [← hlength, List.append_assoc, List.length_append, Nat.add_sub_cancel_left]
  refine Reads.get ((reads_opcode i.opcode).bind ((reads_operand hoperand).bind_nil
    (Reads.get (Reads.guard ?_ ?_))))
  · rw [Cursor.position_between, Cursor.position_between, hsize]
    exact Nat.not_le.mpr i.size.toNat_lt
  · rw [Cursor.position_between, Cursor.position_between, hsize, UInt32.ofNat_toNat]
    exact Reads.pure i

/-! ## Code streams -/

theorem encodeAll_nil : encodeAll [] = .ok [] := rfl

theorem encodeAll_cons_eq_ok_iff {i : Instruction} {code : List Instruction} {bytes : List UInt8} :
    encodeAll (i :: code) = .ok bytes ↔ ∃ first rest, i.encode = .ok first ∧
      encodeAll code = .ok rest ∧ bytes = first ++ rest := by
  simp only [encodeAll, List.mapM_cons, bind_eq_ok, pure_eq_ok]
  constructor
  · rintro ⟨parts, ⟨first, hfirst, others, hothers, rfl⟩, rfl⟩
    exact ⟨first, others.flatten, hfirst, ⟨others, hothers, rfl⟩, List.flatten_cons⟩
  · rintro ⟨first, rest, hfirst, ⟨others, hothers, rfl⟩, rfl⟩
    exact ⟨first :: others, ⟨first, hfirst, others, hothers, rfl⟩, List.flatten_cons⟩

/-- A code stream takes the bytes that its instructions record. -/
theorem length_of_encodeAll {code : List Instruction} {bytes : List UInt8}
    (h : encodeAll code = .ok bytes) :
    bytes.length = code.foldr (fun i total => i.size.toNat + total) 0 := by
  induction code generalizing bytes with
  | nil =>
    rw [encodeAll_nil, Except.ok.injEq] at h
    rw [← h]
    rfl
  | cons i code ih =>
    obtain ⟨first, rest, hfirst, hrest, rfl⟩ := encodeAll_cons_eq_ok_iff.mp h
    obtain ⟨-, -, -, hsize⟩ := encode_eq_ok_iff.mp hfirst
    rw [List.length_append, List.foldr_cons, hsize, ih hrest]

/-- A code stream is read back, given as many steps as it has bytes. -/
theorem reads_decodeUpTo {code : List Instruction} {bytes : List UInt8}
    (h : encodeAll code = .ok bytes) {limit : Nat} (hlimit : bytes.length ≤ limit) :
    (decodeUpTo limit).Reads before bytes [] code := by
  induction code generalizing before bytes limit with
  | nil =>
    rw [encodeAll_nil, Except.ok.injEq] at h
    rw [← h]
    cases limit with
    | zero => exact Reads.pure []
    | succ limit => exact Reads.get (Reads.pure [])
  | cons i code ih =>
    obtain ⟨first, rest, hfirst, hrest, rfl⟩ := encodeAll_cons_eq_ok_iff.mp h
    have hpos := length_pos_of_encode hfirst
    rw [List.length_append] at hlimit
    obtain ⟨limit, rfl⟩ : ∃ limit', limit = limit' + 1 := ⟨limit - 1, by omega⟩
    rw [decodeUpTo]
    refine Reads.get ?_
    rw [if_pos (by simp [Cursor.hasMore, Cursor.between, List.ne_nil_of_length_pos hpos])]
    exact (reads_decode hfirst).bind ((ih hrest (by omega)).bind_nil (Reads.pure (i :: code)))

/-- What is written as a code stream is read back. -/
theorem decodeAll_of_encodeAll {code : List Instruction} {bytes : List UInt8}
    (h : encodeAll code = .ok bytes) : decodeAll bytes = .ok code := by
  have hread : (decodeUpTo bytes.length).Reads [] bytes [] code := reads_decodeUpTo h (Nat.le_refl _)
  rw [← runOn_of_reads hread, List.append_nil]
  rfl

end Instruction

end MethodIL
