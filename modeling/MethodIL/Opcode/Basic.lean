set_option autoImplicit false

/-!
# Opcode properties

What the instruction set fixes for each opcode: where it lives on the two code pages, its
mnemonic, the kind of operand that follows it, how many values it takes from and puts on the
evaluation stack, and where control goes next.  The rows themselves are in `Opcode.Table`.
-/

namespace MethodIL

/-- The two code pages: one byte opcodes, and opcodes behind the byte `0xFE`. -/
inductive Page where
  | single
  | extended
  deriving DecidableEq, Repr

/-- The kind of operand an opcode carries. -/
inductive OperandType where
  | none
  | int8
  | uint8
  | uint16
  | int32
  | int64
  | float32
  | float64
  | token
  | shortBranch
  | branch
  | switch
  deriving DecidableEq, Repr

/-- The number of bytes of an operand; a switch table has no fixed size. -/
def OperandType.size? : OperandType → Option Nat
  | .none => some 0
  | .int8 | .uint8 | .shortBranch => some 1
  | .uint16 => some 2
  | .int32 | .float32 | .token | .branch => some 4
  | .int64 | .float64 => some 8
  | .switch => Option.none

/-- The name of an operand type in messages. -/
def OperandType.name : OperandType → String
  | .none => "None"
  | .int8 => "Int8"
  | .uint8 => "UInt8"
  | .uint16 => "UInt16"
  | .int32 => "Int32"
  | .int64 => "Int64"
  | .float32 => "Float32"
  | .float64 => "Float64"
  | .token => "Token"
  | .shortBranch => "ShortBranch"
  | .branch => "Branch"
  | .switch => "Switch"

/-- Where control goes after an instruction. -/
inductive Flow where
  | sequential
  | conditionalBranch
  | unconditionalBranch
  | call
  | methodReturn
  | switch
  | raise
  | endFinally
  | endFilter
  | leave
  | modifier
  deriving DecidableEq, Repr

/-- Control never falls through to the instruction behind. -/
def Flow.endsBlock : Flow → Bool
  | .unconditionalBranch | .methodReturn | .raise | .endFinally | .endFilter | .leave => true
  | .sequential | .conditionalBranch | .call | .switch | .modifier => false

/-- How many values an instruction takes from the evaluation stack. -/
inductive Pops where
  /-- as many as the opcode says -/
  | fixed (count : Nat)
  /-- the arguments of the call site -/
  | arguments
  /-- the value the method returns, if it returns one -/
  | returned
  /-- the whole stack -/
  | everything
  deriving DecidableEq, Repr

/-- How many values an instruction puts on the evaluation stack. -/
inductive Pushes where
  /-- as many as the opcode says -/
  | fixed (count : Nat)
  /-- the result of the call site, if it has one -/
  | result
  deriving DecidableEq, Repr

/-- The count, where the opcode alone decides it. -/
def Pops.fixed? : Pops → Option Nat
  | .fixed count => some count
  | .arguments | .returned | .everything => Option.none

/-- The count, where the opcode alone decides it. -/
def Pushes.fixed? : Pushes → Option Nat
  | .fixed count => some count
  | .result => Option.none

/-- One assigned place of a code page. -/
structure OpcodeRow where
  page : Page
  code : UInt8
  mnemonic : String
  operandType : OperandType
  pops : Pops
  pushes : Pushes
  flow : Flow
  deriving DecidableEq, Repr

end MethodIL
