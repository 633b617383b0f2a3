set_option autoImplicit false

/-!
# Little-endian numbers

A number of fixed width is written as its bytes, least significant first.  `FixedWidth` collects
the types whose values are exactly the bit patterns of some number of bytes; for those, writing and
reading are inverse to each other.  Floating-point operands are handled as their bit patterns, so
the unsigned words serve them too.
-/

namespace MethodIL

namespace LittleEndian

/-- The `width` low bytes of a number, least significant first. -/
def ofNat : Nat → Nat → List UInt8
  | 0, _ => []
  | width + 1, n => UInt8.ofNat n :: ofNat width (n / 256)

/-- How many numbers `width` bytes can tell apart. -/
def capacity (width : Nat) : Nat := Nat.pow 256 width

/-- The number with the given bytes, least significant first. -/
def toNat : List UInt8 → Nat
  | [] => 0
  | b :: bytes => b.toNat + 256 * toNat bytes

@[simp] theorem length_ofNat (width n : Nat) : (ofNat width n).length = width := by
  induction width generalizing n with
  | zero => rfl
  | succ width ih => simp [ofNat, ih]

@[simp] theorem capacity_zero : capacity 0 = 1 := rfl

theorem capacity_succ (width : Nat) : capacity (width + 1) = 256 * capacity width :=
  Nat.mul_comm (capacity width) 256

theorem toNat_ofNat (width n : Nat) : toNat (ofNat width n) = n % capacity width := by
  induction width generalizing n with
  | zero => simp [ofNat, toNat, Nat.mod_one]
  | succ width ih =>
    have byte : (UInt8.ofNat n).toNat = n % 256 := by simp
    rw [ofNat, toNat, ih, byte, capacity_succ, Nat.mod_mul]

theorem toNat_lt (bytes : List UInt8) : toNat bytes < capacity bytes.length := by
  induction bytes with
  | nil => simp [toNat]
  | cons b bytes ih =>
    have low : b.toNat < 256 := b.toNat_lt
    simp only [toNat, List.length_cons, capacity_succ]
    omega

theorem ofNat_toNat (bytes : List UInt8) : ofNat bytes.length (toNat bytes) = bytes := by
  induction bytes with
  | nil => rfl
  | cons b bytes ih =>
    have low : b.toNat < 256 := b.toNat_lt
    have rest : (b.toNat + 256 * toNat bytes) / 256 = toNat bytes := by omega
    have byte : UInt8.ofNat (b.toNat + 256 * toNat bytes) = b := by
      apply UInt8.toNat_inj.mp
      simp only [UInt8.toNat_ofNat']
      omega
    simp [ofNat, toNat, rest, byte, ih]

end LittleEndian

/-- A type whose values are exactly the bit patterns of `width` bytes. -/
class FixedWidth (α : Type) where
  width : Nat
  bits : α → Nat
  ofBits : Nat → α
  bits_lt : ∀ a, bits a < LittleEndian.capacity width
  ofBits_bits : ∀ a, ofBits (bits a) = a
  bits_ofBits : ∀ n, n < LittleEndian.capacity width → bits (ofBits n) = n

namespace FixedWidth

instance : FixedWidth UInt8 where
  width := 1
  bits := UInt8.toNat
  ofBits := UInt8.ofNat
  bits_lt := UInt8.toNat_lt
  ofBits_bits _ := UInt8.ofNat_toNat
  bits_ofBits _ h := UInt8.toNat_ofNat_of_lt h

instance : FixedWidth UInt16 where
  width := 2
  bits := UInt16.toNat
  ofBits := UInt16.ofNat
  bits_lt := UInt16.toNat_lt
  ofBits_bits _ := UInt16.ofNat_toNat
  bits_ofBits _ h := UInt16.toNat_ofNat_of_lt h

instance : FixedWidth UInt32 where
  width := 4
  bits := UInt32.toNat
  ofBits := UInt32.ofNat
  bits_lt := UInt32.toNat_lt
  ofBits_bits _ := UInt32.ofNat_toNat
  bits_ofBits _ h := UInt32.toNat_ofNat_of_lt h

instance : FixedWidth UInt64 where
  width := 8
  bits := UInt64.toNat
  ofBits := UInt64.ofNat
  bits_lt := UInt64.toNat_lt
  ofBits_bits _ := UInt64.ofNat_toNat
  bits_ofBits _ h := UInt64.toNat_ofNat_of_lt h

instance : FixedWidth Int8 where
  width := 1
  bits a := a.toUInt8.toNat
  ofBits n := ⟨UInt8.ofNat n⟩
  bits_lt a := a.toUInt8.toNat_lt
  ofBits_bits a := congrArg Int8.ofUInt8 (UInt8.ofNat_toNat (x := a.toUInt8))
  bits_ofBits _ h := UInt8.toNat_ofNat_of_lt h

instance : FixedWidth Int16 where
  width := 2
  bits a := a.toUInt16.toNat
  ofBits n := ⟨UInt16.ofNat n⟩
  bits_lt a := a.toUInt16.toNat_lt
  ofBits_bits a := congrArg Int16.ofUInt16 (UInt16.ofNat_toNat (x := a.toUInt16))
  bits_ofBits _ h := UInt16.toNat_ofNat_of_lt h

instance : FixedWidth Int32 where
  width := 4
  bits a := a.toUInt32.toNat
  ofBits n := ⟨UInt32.ofNat n⟩
  bits_lt a := a.toUInt32.toNat_lt
  ofBits_bits a := congrArg Int32.ofUInt32 (UInt32.ofNat_toNat (x := a.toUInt32))
  bits_ofBits _ h := UInt32.toNat_ofNat_of_lt h

instance : FixedWidth Int64 where
  width := 8
  bits a := a.toUInt64.toNat
  ofBits n := ⟨UInt64.ofNat n⟩
  bits_lt a := a.toUInt64.toNat_lt
  ofBits_bits a := congrArg Int64.ofUInt64 (UInt64.ofNat_toNat (x := a.toUInt64))
  bits_ofBits _ h := UInt64.toNat_ofNat_of_lt h

variable {α : Type} [FixedWidth α]

/-- The bytes of a value. -/
def toBytes (a : α) : List UInt8 :=
  LittleEndian.ofNat (width α) (bits a)

/-- The value with the given bytes. -/
def ofBytes (bytes : List UInt8) : α :=
  ofBits (LittleEndian.toNat bytes)

@[simp] theorem length_toBytes (a : α) : (toBytes a).length = width α := by
  simp [toBytes]

theorem ofBytes_toBytes (a : α) : ofBytes (toBytes a) = a := by
  rw [ofBytes, toBytes, LittleEndian.toNat_ofNat, Nat.mod_eq_of_lt (bits_lt a), ofBits_bits]

theorem toBytes_ofBytes {bytes : List UInt8} (h : bytes.length = width α) :
    toBytes (ofBytes (α := α) bytes) = bytes := by
  rw [toBytes, ofBytes, bits_ofBits _ (h ▸ LittleEndian.toNat_lt bytes), ← h,
    LittleEndian.ofNat_toNat]

/-- The value at an offset, unless it would reach past the end. -/
def readAt? (data : List UInt8) (offset : Nat) : Option α :=
  if offset + width α ≤ data.length then
    some (ofBytes ((data.drop offset).take (width α)))
  else none

/-- The bytes with a value put over those at an offset, unless it would reach past the end. -/
def writeAt? (data : List UInt8) (offset : Nat) (a : α) : Option (List UInt8) :=
  if offset + width α ≤ data.length then
    some (data.take offset ++ toBytes a ++ data.drop (offset + width α))
  else none

end FixedWidth

end MethodIL
