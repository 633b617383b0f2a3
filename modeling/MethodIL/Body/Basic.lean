import MethodIL.Clause
import MethodIL.Instruction.Basic
set_option autoImplicit false

/-!
# Method bodies

A method body is a header, a code stream and an exception table.  Bodies with little code and
nothing special about them have a tiny form, whose header is a single byte.
-/

namespace MethodIL

/-- A local variable; its type is the bytes of its signature. -/
structure Local where
  isByRef : Bool
  isPinned : Bool
  signature : List UInt8
  deriving DecidableEq, Repr, Inhabited

/-- What a method body says about itself besides its code. -/
structure Header where
  maxStack : UInt16
  initLocals : Bool
  localsToken : Token
  locals : List Local
  deriving DecidableEq, Repr, Inhabited

/-- A method body in flat form. -/
structure Body where
  header : Header
  instructions : List Instruction
  clauses : List Clause
  deriving DecidableEq

namespace Body

/-- The number of bytes of code, as recorded by the instructions. -/
def codeSize (b : Body) : Nat :=
  b.instructions.foldr (fun i total => i.size.toNat + total) 0

/-- The largest code size that a tiny header can tell. -/
def tinyCodeLimit : Nat := 63

/-- The stack size that a tiny header stands for. -/
def tinyMaxStack : UInt16 := 8

/-- The body can be written with a tiny header. -/
def isTiny (b : Body) : Bool :=
  b.codeSize ≤ tinyCodeLimit && b.header.maxStack ≤ tinyMaxStack && b.header.localsToken.isNull
    && b.clauses.isEmpty && !b.header.initLocals

end Body

end MethodIL
