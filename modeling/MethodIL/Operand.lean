import MethodIL.Floating.Notation
import MethodIL.Opcode.Lookup
import MethodIL.Token
set_option autoImplicit false

/-!
# Operands

An operand is an immediate number, a token, or one or many branch targets.  What a branch target is
depends on where the instruction stands: in a code stream it is an offset, in a tree a label.  The
type `Operand` therefore takes the targets as a parameter, and everything but the targets is shared
between the two.
-/

namespace MethodIL

/-- A number embedded in an instruction.  Floating-point numbers are kept as bit patterns. -/
inductive Immediate where
  | int8 (value : Int8)
  | uint8 (value : UInt8)
  | uint16 (value : UInt16)
  | int32 (value : Int32)
  | int64 (value : Int64)
  | float32 (bits : UInt32)
  | float64 (bits : UInt64)
  deriving DecidableEq, Repr

namespace Immediate

/-- The operand type the number is written as. -/
def operandType : Immediate → OperandType
  | .int8 _ => .int8
  | .uint8 _ => .uint8
  | .uint16 _ => .uint16
  | .int32 _ => .int32
  | .int64 _ => .int64
  | .float32 _ => .float32
  | .float64 _ => .float64

/-- The number in listings and instructions. -/
def text : Immediate → String
  | .int8 value => toString value.toInt
  | .uint8 value => toString value.toNat
  | .uint16 value => toString value.toNat
  | .int32 value => toString value.toInt
  | .int64 value => toString value.toInt
  | .float32 bits => (Floating.binary32.decode bits.toNat).plain
  | .float64 bits => (Floating.binary64.decode bits.toNat).plain

/-- The bit pattern in upper case, two digits a byte. -/
def hex : Immediate → String
  | .int8 value => Text.hexUpper 2 value.toUInt8.toNat
  | .uint8 value => Text.hexUpper 2 value.toNat
  | .uint16 value => Text.hexUpper 4 value.toNat
  | .int32 value => Text.hexUpper 8 value.toUInt32.toNat
  | .int64 value => Text.hexUpper 16 value.toUInt64.toNat
  | .float32 bits => Text.hexUpper 8 bits.toNat
  | .float64 bits => Text.hexUpper 16 bits.toNat

/-- The number with its type, as messages show it. -/
def describe (imm : Immediate) : String :=
  let value := match imm with
    | .float32 bits => (Floating.binary32.decode bits.toNat).exact
    | .float64 bits => (Floating.binary64.decode bits.toNat).exact
    | _ => imm.text
  s!"{imm.operandType.name}({value})"

end Immediate

/-- An operand whose branch targets are of type `ρ`. -/
inductive Operand (ρ : Type) where
  | none
  | immediate (value : Immediate)
  | token (name : Token)
  | branch (target : ρ)
  | switch (targets : List ρ)
  deriving DecidableEq, Repr

namespace Operand

variable {ρ : Type}

/-- The branch targets in order. -/
def targets : Operand ρ → List ρ
  | .branch target => [target]
  | .switch targets => targets
  | .none | .immediate _ | .token _ => []

/-- The operand without its branch targets. -/
def withoutTargets {σ : Type} : Operand ρ → Operand σ
  | .immediate value => .immediate value
  | .token name => .token name
  | .none | .branch _ | .switch _ => .none

/-- The operand is of the kind that an opcode asks for. -/
def fits : Operand ρ → OperandType → Bool
  | .none, type => type == .none
  | .immediate value, type => value.operandType == type
  | .token _, type => type == .token
  | .branch _, type => type == .shortBranch || type == .branch
  | .switch _, type => type == .switch

/-- The operand as messages show it, given how one target and how many are shown. -/
def describe (one : ρ → String) (many : List ρ → String) : Operand ρ → String
  | .none => "None"
  | .immediate value => s!"Immediate({value.describe})"
  | .token name => s!"Token({name.describe})"
  | .branch target => one target
  | .switch targets => many targets

end Operand

/-- An opcode together with an operand. -/
structure Operation (ρ : Type) where
  opcode : Opcode
  operand : Operand ρ
  deriving DecidableEq

end MethodIL
