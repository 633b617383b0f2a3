import MethodIL.Fault
set_option autoImplicit false

/-!
# Instructions of a code stream

An instruction of a code stream is an operation whose branch targets are offsets from the end of
the instruction, together with the number of bytes that it is recorded to take.  The record may be
wrong; `Operation.encodedSize` says what the operation really takes.
-/

namespace MethodIL

/-- The number of bytes that encode an operation. -/
def Operation.encodedSize (op : Operation Int32) : Except OperandFault UInt32 :=
  if op.operand.fits op.opcode.operandType then
    match op.opcode.operandType.size? with
    | some size => .ok (.ofNat (op.opcode.size + size))
    | none =>
      let count := op.operand.targets.length
      if 4 * count + 4 < UInt32.size then .ok (.ofNat (op.opcode.size + (4 * count + 4)))
      else .error (.oversizedSwitch count)
  else .error (.mismatch op.opcode op.operand)

/-- An instruction of a code stream. -/
structure Instruction extends Operation Int32 where
  size : UInt32
  deriving DecidableEq

namespace Instruction

/-- The instruction of an operation, with the size that the operation takes. -/
def ofOperation (op : Operation Int32) : Except Fault Instruction :=
  match op.encodedSize with
  | .ok size => .ok { op with size }
  | .error cause => .error (.unsupportedOperand cause)

/-- The offset of a branch. -/
def branchOffset? (i : Instruction) : Option Int32 :=
  match i.operand with
  | .branch offset => some offset
  | _ => none

/-- An instruction with its operand and its recorded size.  Offsets show their sign. -/
def describe (i : Instruction) : String :=
  let operand := match i.operand with
    | .none => ""
    | .immediate value => " " ++ value.text
    | .token token => " " ++ token.text
    | .branch offset => " " ++ Text.signed offset.toInt
    | .switch offsets =>
        " (" ++ Text.commaList (offsets.map fun (offset : Int32) => Text.signed offset.toInt) ++ ")"
  s!"{i.opcode.mnemonic}{operand} [{i.size.toNat} bytes]"

end Instruction

end MethodIL
