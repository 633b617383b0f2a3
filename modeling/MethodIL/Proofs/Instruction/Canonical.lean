import Mathlib
import MethodIL.Proofs.Bytes.Takes
import MethodIL.Proofs.Instruction.Decoding
set_option autoImplicit false

/-!
# One encoded form

Reading a code stream answers only what would be written as the very bytes that were read, so a code
stream has one encoded form and the codec is a bijection between the bytes that are read and the
instructions that are written.  Which instructions are written is told by the operand, the recorded size
and the reach of short branches of each of them.
-/

namespace MethodIL

open Outcome

variable {before : List UInt8}

/-! ## What is written -/

/-- An offset lies within the reach of the opcode, which is that of one byte for a short branch. -/
def Operation.OffsetFits (op : Operation Int32) : Prop :=
  op.opcode.isShortBranch = true → ∀ offset, op.operand = .branch offset →
    -128 ≤ offset.toInt ∧ offset.toInt ≤ 127

/-- What makes an instruction one that can be written. -/
structure Instruction.Encodable (i : Instruction) : Prop where
  fits : i.operand.fits i.opcode.operandType = true
  size : i.toOperation.encodedSize = .ok i.size
  offset : i.toOperation.OffsetFits

theorem Immediate.length_bytes (value : Immediate) :
    value.operandType.size? = some value.bytes.length := by
  cases value <;> simp [bytes, operandType, OperandType.size?, FixedWidth.width]

namespace Operation

variable {op : Operation Int32}

theorem offsetFits_of_type (h : op.opcode.operandType ≠ .shortBranch) : op.OffsetFits :=
  fun hshort => absurd (beq_iff_eq.mp hshort) h

theorem offsetFits_of_operand (h : ∀ offset, op.operand ≠ .branch offset) : op.OffsetFits :=
  fun _ offset heq => absurd heq (h offset)

/-- An operand that is written suits its opcode and takes the bytes that are counted for it. -/
theorem operandBytes_of_ok {bytes : List UInt8} (h : op.operandBytes = .ok bytes) :
    op.operand.fits op.opcode.operandType = true ∧ op.OffsetFits ∧ bytes.length = op.operandSize := by
  unfold operandBytes at h
  unfold operandSize
  split at h
  case h_1 htype hoperand =>
    refine ⟨by rw [hoperand, htype]; rfl, offsetFits_of_operand (by simp [hoperand]), ?_⟩
    rw [htype, ← Except.ok.inj h]
    rfl
  case h_2 offset htype hoperand =>
    split at h
    case isTrue hrange =>
      rw [Bool.and_eq_true, decide_eq_true_eq, decide_eq_true_eq] at hrange
      refine ⟨by rw [hoperand, htype]; rfl, fun _ other hother => ?_, ?_⟩
      · rw [hoperand, Operand.branch.injEq] at hother
        exact hother ▸ hrange
      · rw [htype, ← Except.ok.inj h, FixedWidth.length_toBytes]
        rfl
    case isFalse => exact absurd h (by simp)
  case h_3 offset htype hoperand =>
    refine ⟨by rw [hoperand, htype]; rfl, offsetFits_of_type (by simp [htype]), ?_⟩
    rw [htype, ← Except.ok.inj h, FixedWidth.length_toBytes]
    rfl
  case h_4 name htype hoperand =>
    refine ⟨by rw [hoperand, htype]; rfl, offsetFits_of_type (by simp [htype]), ?_⟩
    rw [htype, ← Except.ok.inj h, FixedWidth.length_toBytes]
    rfl
  case h_5 offsets htype hoperand =>
    split at h
    case isTrue hcount =>
      refine ⟨by rw [hoperand, htype]; rfl, offsetFits_of_type (by simp [htype]), ?_⟩
      rw [htype, hoperand, ← Except.ok.inj h, List.length_append, FixedWidth.length_toBytes,
        Instruction.length_offsetBytes]
      exact Nat.add_comm ..
    case isFalse => exact absurd h (by simp)
  case h_6 value hoperand =>
    split at h
    case isTrue htype =>
      refine ⟨by rw [hoperand]; exact htype, offsetFits_of_operand (by simp [hoperand]), ?_⟩
      rw [← beq_iff_eq.mp htype, ← Except.ok.inj h, value.length_bytes]
      rfl
    case isFalse => exact absurd h (by simp)
  case h_7 => exact absurd h (by simp)

/-- An operand is written if it suits its opcode and neither its offset nor its table is too large. -/
theorem exists_operandBytes (hfits : op.operand.fits op.opcode.operandType = true)
    (hoffset : op.OffsetFits) (htable : op.TableFits) : ∃ bytes, op.operandBytes = .ok bytes := by
  unfold operandBytes
  split
  case h_1 => exact ⟨_, rfl⟩
  case h_2 offset htype hoperand =>
    have hrange := hoffset (by rw [Opcode.isShortBranch, htype]; rfl) offset hoperand
    exact ⟨_, if_pos (by simpa using hrange)⟩
  case h_3 => exact ⟨_, rfl⟩
  case h_4 => exact ⟨_, rfl⟩
  case h_5 offsets htype hoperand =>
    have hcount : 4 * offsets.length + 4 < UInt32.size := by
      have := htable htype
      rwa [hoperand] at this
    exact ⟨_, if_pos (by omega)⟩
  case h_6 value hoperand =>
    rw [hoperand] at hfits
    exact ⟨_, if_pos hfits⟩
  case h_7 hnone hshort hbranch htoken hswitch himmediate =>
    cases hoperand : op.operand <;> simp_all [Operand.fits]

end Operation

namespace Instruction

theorem exists_encode_iff {i : Instruction} : (∃ bytes, i.encode = .ok bytes) ↔ i.Encodable := by
  constructor
  · rintro ⟨bytes, h⟩
    obtain ⟨operand, hoperand, rfl, hlength⟩ := encode_eq_ok_iff.mp h
    obtain ⟨hfits, hoffset, hsize⟩ := Operation.operandBytes_of_ok hoperand
    rw [List.length_append, hsize] at hlength
    refine ⟨hfits, Operation.encodedSize_eq_ok_iff.mpr ⟨hfits, fun htype => ?_, hlength.symm⟩, hoffset⟩
    have hcount : i.operandSize = 4 * i.operand.targets.length + 4 := by
      rw [Operation.operandSize, htype]
      rfl
    have := i.size.toNat_lt
    rw [← hcount]
    exact Nat.lt_of_le_of_lt (Nat.le_add_left ..) (hlength ▸ this)
  · intro h
    obtain ⟨-, htable, hsize⟩ := Operation.encodedSize_eq_ok_iff.mp h.size
    obtain ⟨operand, hoperand⟩ := Operation.exists_operandBytes h.fits h.offset htable
    refine ⟨_, encode_eq_ok_iff.mpr ⟨operand, hoperand, rfl, ?_⟩⟩
    rw [List.length_append, (Operation.operandBytes_of_ok hoperand).2.2, hsize]
    rfl

theorem exists_encodeAll_iff {code : List Instruction} :
    (∃ bytes, encodeAll code = .ok bytes) ↔ ∀ i ∈ code, i.Encodable := by
  induction code with
  | nil => simp [encodeAll_nil]
  | cons i code ih =>
    rw [List.forall_mem_cons, ← ih, ← exists_encode_iff]
    constructor
    · rintro ⟨bytes, h⟩
      obtain ⟨first, rest, hfirst, hrest, -⟩ := encodeAll_cons_eq_ok_iff.mp h
      exact ⟨⟨first, hfirst⟩, rest, hrest⟩
    · rintro ⟨⟨first, hfirst⟩, rest, hrest⟩
      exact ⟨_, encodeAll_cons_eq_ok_iff.mpr ⟨first, rest, hfirst, hrest, rfl⟩⟩

/-! ## What is read -/

end Instruction

namespace Opcode

theorem find?_eq_some {page : Page} {code : UInt8} {op : Opcode} (h : find? page code = some op) :
    op.page = page ∧ op.code = code := by
  have hsame := List.find?_some h
  rw [Bool.and_eq_true, beq_iff_eq, beq_iff_eq] at hsame
  exact ⟨hsame.2, hsame.1⟩

/-- An opcode is found behind the byte of its page. -/
theorem ofBytes_eq_ok {page code : UInt8} {op : Opcode} (h : ofBytes page code = .ok op) :
    (if page == 0 then find? .single code
      else if page == 0xFE then find? .extended code else none) = some op := by
  unfold ofBytes at h
  dsimp only at h
  split at h
  case h_1 found hfound => rw [hfound, Except.ok.inj h]
  case h_2 => exact absurd h (by simp)

end Opcode

namespace Instruction

open Reader

/-- The bytes of an opcode are those that it is written as. -/
theorem takes_opcode : readOpcode.Takes before fun taken op => taken = op.bytes := by
  refine Takes.read.bind fun first code hfirst => ?_
  rw [FixedWidth.toBytes_byte] at hfirst
  split
  case isTrue hprefix =>
    refine Takes.read.bind fun second code' hsecond => Takes.lift fun op hop => ?_
    rw [FixedWidth.toBytes_byte] at hsecond
    obtain ⟨hpage, hcode⟩ := Opcode.find?_eq_some (Opcode.ofBytes_eq_ok hop)
    rw [hfirst, hsecond, Opcode.bytes, hpage, hcode, beq_iff_eq.mp hprefix]
    rfl
  case isFalse =>
    refine Takes.lift fun op hop => ?_
    obtain ⟨hpage, hcode⟩ := Opcode.find?_eq_some (Opcode.ofBytes_eq_ok hop)
    rw [hfirst, Opcode.bytes, hpage, hcode]
    rfl

theorem takes_offsets (count : Nat) : (readOffsets count).Takes before fun taken offsets =>
    offsets.length = count ∧ taken = offsets.flatMap fun offset => FixedWidth.toBytes offset := by
  induction count generalizing before with
  | zero => exact Takes.pure ⟨rfl, rfl⟩
  | succ count ih =>
    refine Takes.read.bind fun first offset hfirst => ih.bind fun others offsets hothers =>
      Takes.pure ⟨congrArg (· + 1) hothers.1, ?_⟩
    rw [List.append_nil, hfirst, hothers.2, List.flatMap_cons]

/-- The bytes of an operand are those that it is written as. -/
theorem takes_operand (opcode : Opcode) : (readOperand opcode.operandType).Takes before
    fun taken operand => Operation.operandBytes ⟨opcode, operand⟩ = .ok taken := by
  unfold Operation.operandBytes
  cases htype : opcode.operandType with
  | none => exact Takes.pure (by simp only [htype])
  | shortBranch =>
    refine Takes.read_map fun offset => ?_
    have hrange : (-128 ≤ offset.toInt32.toInt && offset.toInt32.toInt ≤ 127) = true := by
      rw [Int8.toInt_toInt32, Bool.and_eq_true, decide_eq_true_eq, decide_eq_true_eq]
      exact ⟨offset.le_toInt, Int.le_of_lt_add_one offset.toInt_lt⟩
    simp only [htype, if_pos hrange, Int8.toInt8_toInt32]
  | switch =>
    refine Takes.read.bind fun first count hfirst => Takes.get fun c hc => Takes.guard fun hroom =>
      (takes_offsets count.toNat).bind fun table offsets htable => Takes.pure ?_
    have hcount : offsets.length < UInt32.size := htable.1 ▸ count.toNat_lt
    simp only [htype, if_pos hcount, List.append_nil, hfirst, htable.2]
    rw [htable.1, UInt32.ofNat_toNat]
  | branch => exact Takes.read_map fun offset => by simp only [htype]
  | token => exact Takes.read_map fun value => by simp only [htype]
  | _ => exact Takes.read_map fun value => by simp [htype, Immediate.operandType, Immediate.bytes]

/-- The bytes of an instruction are those that it is written as. -/
theorem takes_decode : decode.Takes before fun taken i => i.encode = .ok taken := by
  refine Takes.get fun c hc => takes_opcode.bind fun head opcode hhead =>
    (takes_operand opcode).bind fun taken operand hoperand => Takes.get fun d hd =>
      Takes.guard fun hsize => Takes.pure ?_
  have hcounted : d.position - c.position = (head ++ taken).length := by
    rw [hc, hd, List.append_assoc, List.length_append, Nat.add_sub_cancel_left]
  rw [hcounted] at hsize
  refine encode_eq_ok_iff.mpr ⟨taken, hoperand, by rw [List.append_nil, hhead], ?_⟩
  rw [List.append_nil, hcounted]
  exact (UInt32.toNat_ofNat_of_lt' (Nat.lt_of_not_le hsize)).symm

/-- A code stream that is read to its end is written as the bytes it was read from. -/
theorem encodeAll_of_decodeUpTo {limit : Nat} {behind : List UInt8} {code : List Instruction} {c : Cursor}
    (h : decodeUpTo limit (.between before behind) = (.ok code, c)) (hlimit : behind.length ≤ limit) :
    encodeAll code = .ok behind := by
  induction limit generalizing before behind code c with
  | zero =>
    rw [List.length_eq_zero_iff.mp (Nat.le_zero.mp hlimit), ← Except.ok.inj (Prod.mk.inj h).1]
    rfl
  | succ limit ih =>
    rw [decodeUpTo] at h
    obtain ⟨d, e, hget, h⟩ := bind_run_eq_ok.mp h
    obtain ⟨hd, rfl⟩ := Prod.mk.inj hget
    rw [← Except.ok.inj hd] at h
    split at h
    case isTrue =>
      obtain ⟨i, d', hi, h⟩ := bind_run_eq_ok.mp h
      obtain ⟨taken, after, rfl, rfl, hencode⟩ := takes_decode behind i d' hi
      obtain ⟨others, d'', hothers, h⟩ := bind_run_eq_ok.mp h
      have hpos := length_pos_of_encode hencode
      obtain ⟨hcode, -⟩ := Prod.mk.inj (h : (Except.ok (i :: others), d'') = (.ok code, c))
      rw [List.length_append] at hlimit
      rw [← Except.ok.inj hcode]
      exact encodeAll_cons_eq_ok_iff.mpr ⟨taken, after, hencode, ih hothers (by omega), rfl⟩
    case isFalse hmore =>
      have hempty : behind = [] := by simpa [Cursor.hasMore, Cursor.between] using hmore
      rw [hempty, ← Except.ok.inj (Prod.mk.inj h).1]
      rfl

theorem encodeAll_of_decodeAll {data : List UInt8} {code : List Instruction}
    (h : decodeAll data = .ok code) : encodeAll code = .ok data := by
  rw [decodeAll, runOn, Cursor.start_eq] at h
  exact encodeAll_of_decodeUpTo (Prod.ext h rfl) (Nat.le_refl _)

/-- Reading and writing code streams are inverse to each other.  What is read records the sizes that its
operations take, and what can be written is told instruction by instruction: by an operand that suits the
opcode, the size that the operation takes, and offsets of short branches that a byte can hold. -/
theorem decodeAll_inverts_encodeAll :
    (∀ data code, decodeAll data = .ok code ↔ encodeAll code = .ok data) ∧
      (∀ data code, decodeAll data = .ok code → ∀ i ∈ code, i.toOperation.encodedSize = .ok i.size) ∧
      ∀ code, (∃ data, encodeAll code = .ok data) ↔ ∀ i ∈ code, i.Encodable := by
  refine ⟨fun data code => ⟨encodeAll_of_decodeAll, decodeAll_of_encodeAll⟩, fun data code h i hi => ?_,
    fun code => exists_encodeAll_iff⟩
  have hencodable := exists_encodeAll_iff.mp ⟨data, encodeAll_of_decodeAll h⟩
  exact (hencodable i hi).size

end Instruction

end MethodIL
