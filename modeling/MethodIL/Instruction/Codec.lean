import MethodIL.Bytes.Reader
import MethodIL.Instruction.Basic
set_option autoImplicit false

/-!
# The encoded form of instructions

An instruction is its opcode followed by its operand, and a code stream is its instructions back to
back.  Writing refuses operands that do not suit the opcode, offsets that a short branch cannot
hold, and recorded sizes that disagree with what is written.  Reading takes the operand that the
opcode asks for and records the bytes it took.
-/

namespace MethodIL

/-! ## Writing -/

/-- The bytes of an immediate number. -/
def Immediate.bytes : Immediate → List UInt8
  | .int8 value => FixedWidth.toBytes value
  | .uint8 value => FixedWidth.toBytes value
  | .uint16 value => FixedWidth.toBytes value
  | .int32 value => FixedWidth.toBytes value
  | .int64 value => FixedWidth.toBytes value
  | .float32 bits => FixedWidth.toBytes bits
  | .float64 bits => FixedWidth.toBytes bits

/-- The bytes of an operand, as the opcode wants it. -/
def Operation.operandBytes (op : Operation Int32) : Except OperandFault (List UInt8) :=
  match op.opcode.operandType, op.operand with
  | .none, .none => .ok []
  | .shortBranch, .branch offset =>
    if -128 ≤ offset.toInt && offset.toInt ≤ 127 then .ok (FixedWidth.toBytes offset.toInt8)
    else .error (.offsetBeyondByte op.opcode offset)
  | .branch, .branch offset => .ok (FixedWidth.toBytes offset)
  | .token, .token name => .ok (FixedWidth.toBytes name.value)
  | .switch, .switch offsets =>
    if offsets.length < UInt32.size then
      .ok (FixedWidth.toBytes (UInt32.ofNat offsets.length)
        ++ offsets.flatMap fun offset => FixedWidth.toBytes offset)
    else .error (.oversizedSwitch offsets.length)
  | type, .immediate value =>
    if value.operandType == type then .ok value.bytes
    else .error (.mismatch op.opcode op.operand)
  | _, _ => .error (.mismatch op.opcode op.operand)

namespace Instruction

/-- The bytes an instruction puts out, be it refused in the end or not: the opcode, and the operand
if it has bytes. -/
def written (i : Instruction) : List UInt8 :=
  i.opcode.bytes ++ match i.operandBytes with
    | .ok bytes => bytes
    | .error _ => []

/-- The bytes of an instruction. -/
def encode (i : Instruction) : Except Fault (List UInt8) :=
  match i.operandBytes with
  | .error cause => .error (.unsupportedOperand cause)
  | .ok _ =>
    let size := i.written.length
    if size == i.size.toNat then .ok i.written
    else .error (.unsupportedOperand (.wrongSize i.opcode size i.size.toNat))

/-- The bytes of a code stream. -/
def encodeAll (code : List Instruction) : Except Fault (List UInt8) := do
  let parts ← code.mapM encode
  return parts.flatten

/-! ## Reading -/

/-- Read `count` branch offsets. -/
def readOffsets : Nat → Reader (List Int32)
  | 0 => return []
  | count + 1 => do
    let offset ← Reader.read Int32
    let offsets ← readOffsets count
    return offset :: offsets

/-- Read an operand of the given type.  A switch table that the bytes cannot hold is refused before
any of its offsets is read. -/
def readOperand : OperandType → Reader (Operand Int32)
  | .none => return .none
  | .int8 => return .immediate (.int8 (← Reader.read Int8))
  | .uint8 => return .immediate (.uint8 (← Reader.read UInt8))
  | .uint16 => return .immediate (.uint16 (← Reader.read UInt16))
  | .int32 => return .immediate (.int32 (← Reader.read Int32))
  | .int64 => return .immediate (.int64 (← Reader.read Int64))
  | .float32 => return .immediate (.float32 (← Reader.read UInt32))
  | .float64 => return .immediate (.float64 (← Reader.read UInt64))
  | .token => return .token ⟨← Reader.read UInt32⟩
  | .shortBranch => return .branch (← Reader.read Int8).toInt32
  | .branch => return .branch (← Reader.read Int32)
  | .switch => do
    let count ← Reader.read UInt32
    if (← get).remaining / 4 < count.toNat then throw .outOfBounds
    return .switch (← readOffsets count.toNat)

/-- Read an opcode of one or two bytes. -/
def readOpcode : Reader Opcode := do
  let first ← Reader.read UInt8
  if first == 0xFE then Opcode.ofBytes 0xFE (← Reader.read UInt8)
  else Opcode.ofBytes 0 first

/-- Read one instruction. -/
def decode : Reader Instruction := do
  let start := (← get).position
  let opcode ← readOpcode
  let operand ← readOperand opcode.operandType
  let size := (← get).position - start
  if UInt32.size ≤ size then throw (.malformed (.oversizedInstruction start))
  return { opcode, operand, size := .ofNat size }

/-- Read instructions to the end of the bytes, but no more than `limit`. -/
def decodeUpTo : Nat → Reader (List Instruction)
  | 0 => return []
  | limit + 1 => do
    if (← get).hasMore then
      let instruction ← decode
      let others ← decodeUpTo limit
      return instruction :: others
    else return []

/-- Read a code stream.  Every instruction takes a byte at least, so there are no more instructions
than bytes. -/
def decodeAll (data : List UInt8) : Except Fault (List Instruction) :=
  (decodeUpTo data.length).runOn data

end Instruction

end MethodIL
