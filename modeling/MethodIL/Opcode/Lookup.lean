import MethodIL.Opcode.Table
import MethodIL.Text.Hex
set_option autoImplicit false

/-!
# Opcodes

An opcode is a row of the instruction set, so every opcode is assigned.  The lookups find one by
its bytes or by its mnemonic; the two forms of a branch, with an offset of one byte and of four,
lead to each other.
-/

namespace MethodIL

/-- An assigned opcode. -/
structure Opcode extends OpcodeRow where
  assigned : toOpcodeRow ∈ OpcodeRow.table
  deriving DecidableEq

namespace Opcode

/-- Every opcode once, in the order of the table. -/
def all : List Opcode :=
  OpcodeRow.table.attach.map fun r => ⟨r.1, r.2⟩

/-- The opcode at a place of a code page. -/
def find? (page : Page) (code : UInt8) : Option Opcode :=
  all.find? fun op => op.code == code && op.page == page

/-- The opcode of a mnemonic. -/
def ofMnemonic? (mnemonic : String) : Option Opcode :=
  all.find? fun op => op.mnemonic == mnemonic

/-- The bytes that encode the opcode itself. -/
def bytes (op : Opcode) : List UInt8 :=
  match op.page with
  | .single => [op.code]
  | .extended => [0xFE, op.code]

/-- The number of bytes that encode the opcode itself. -/
def size (op : Opcode) : Nat :=
  op.bytes.length

/-- The opcode carries one branch target; `leave` counts. -/
def isBranch (op : Opcode) : Bool :=
  op.operandType == .shortBranch || op.operandType == .branch

/-- The opcode carries a branch offset of one byte. -/
def isShortBranch (op : Opcode) : Bool :=
  op.operandType == .shortBranch

/-- The opcode carries a table of branch targets. -/
def isSwitch (op : Opcode) : Bool :=
  op.operandType == .switch

/-- The opcode leaves a protected region and empties the stack. -/
def isLeave (op : Opcode) : Bool :=
  op.flow == .leave

/-- The stack effect of the opcode is that of a call site. -/
def isCall (op : Opcode) : Bool :=
  op.flow == .call

/-- The branch with an offset of one byte.  The short forms lie thirteen places below the long
ones, `leave.s` right behind `leave`. -/
def shortForm? (op : Opcode) : Option Opcode :=
  match op.operandType with
  | .shortBranch => some op
  | .branch => find? .single (if op.isLeave then op.code + 1 else op.code - 13)
  | _ => none

/-- The branch with an offset of four bytes. -/
def longForm? (op : Opcode) : Option Opcode :=
  match op.operandType with
  | .branch => some op
  | .shortBranch => find? .single (if op.isLeave then op.code - 1 else op.code + 13)
  | _ => none

/-- An opcode taken apart: its bytes and its mnemonic. -/
def describe (op : Opcode) : String :=
  let bytes := " ".intercalate (op.bytes.map fun b => Text.hexUpper 2 b.toNat)
  s!"OpCode({bytes} {op.mnemonic})"

end Opcode

end MethodIL
