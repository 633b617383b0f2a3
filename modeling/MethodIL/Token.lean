import MethodIL.Text.Hex
set_option autoImplicit false

/-!
# Metadata tokens

A token names a row of a metadata table: the high byte is the table, the low three bytes the row.
Method bodies carry tokens in operands and in catch clauses; nothing here looks up what a token
stands for.
-/

namespace MethodIL

/-- A reference into the metadata of a module. -/
structure Token where
  value : UInt32
  deriving DecidableEq, Repr, Inhabited

namespace Token

/-- The token that names nothing. -/
def null : Token := ⟨0⟩

/-- The table, from the high byte. -/
def table (t : Token) : UInt8 := (t.value >>> 24).toUInt8

/-- The row, from the low three bytes. -/
def row (t : Token) : UInt32 := t.value &&& 0x00FFFFFF

/-- The token names nothing. -/
def isNull (t : Token) : Bool := t.value == 0

/-- The table holds something that can be called: a method definition, a member reference or a
method instantiation. -/
def isMethodLike (t : Token) : Bool :=
  t.table == 0x06 || t.table == 0x0A || t.table == 0x2B

/-- A token in listings and instructions: all eight digits. -/
def text (t : Token) : String :=
  "0x" ++ Text.hex 8 t.value.toNat

/-- A token taken apart, as messages show it. -/
def describe (t : Token) : String :=
  s!"Token({t.text}, table: 0x{Text.hex 2 t.table.toNat}, row: {t.row.toNat})"

end Token

end MethodIL
