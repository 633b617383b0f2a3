import MethodIL.Bytes.Cursor
import MethodIL.Bytes.LittleEndian
import MethodIL.Fault
set_option autoImplicit false

/-!
# Reading bytes

A reader is a program over a cursor that may stop with a fault.  The cursor outlives the fault, so
what was read before stays read; a single move that fails leaves the cursor where it was.
-/

namespace MethodIL

/-- A program that moves a cursor and may stop with a fault. -/
abbrev Reader (α : Type) : Type := ExceptT Fault (StateM Cursor) α

namespace Reader

/-- Make a move of the cursor that may be refused. -/
def move {α : Type} (step : Cursor → Option (α × Cursor)) : Reader α := fun cursor =>
  match step cursor with
  | some (a, next) => (.ok a, next)
  | none => (.error .outOfBounds, cursor)

/-- Read a number. -/
def read (α : Type) [FixedWidth α] : Reader α :=
  move fun cursor => (cursor.take? (FixedWidth.width α)).map fun (bytes, next) =>
    (FixedWidth.ofBytes bytes, next)

/-- Read `n` bytes. -/
def take (n : Nat) : Reader (List UInt8) :=
  move fun cursor => cursor.take? n

/-- Look at the next byte without moving. -/
def peek : Reader UInt8 :=
  move fun cursor => cursor.peek?.map fun byte => (byte, cursor)

/-- Move to a position. -/
def seek (position : Nat) : Reader Unit :=
  move fun cursor => (cursor.seek? position).map fun next => ((), next)

/-- Move on by `n` bytes. -/
def advance (n : Nat) : Reader Unit :=
  move fun cursor => (cursor.advance? n).map fun next => ((), next)

/-- Move on to a multiple of `alignment`. -/
def align (alignment : Nat) : Reader Unit :=
  move fun cursor => (cursor.align? alignment).map fun next => ((), next)

/-- The outcome of reading bytes from their start. -/
def runOn {α : Type} (reader : Reader α) (data : List UInt8) : Except Fault α :=
  (reader (.start data)).1

end Reader

end MethodIL
