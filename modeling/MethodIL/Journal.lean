import MethodIL.Fault
set_option autoImplicit false

/-!
# Journals

The steps of a revision note what they have done.  Notes are data with a level and a text; a
journaled computation may stop with a fault, and what it noted before stays.
-/

namespace MethodIL

/-- How much a note matters. -/
inductive Level where
  | trace
  | debug
  | warn
  deriving DecidableEq, Repr

/-- The name of a level in a journal. -/
def Level.name : Level → String
  | .trace => "TRACE"
  | .debug => "DEBUG"
  | .warn => "WARN"

/-- A note. -/
inductive Event where
  /-- a body has become a tree -/
  | lifted (instructions bytes clauses labels : Nat)
  /-- the stack heights of a tree are known -/
  | analyzed (maxStack walks reached : Nat)
  /-- a branch does not reach its target with an offset of one byte -/
  | widened (opcode : Opcode) (offset : Nat) (distance : Int)
  /-- a tree has become a body -/
  | lowered (instructions bytes clauses passes branches : Nat)
  /-- a job of a batch has failed -/
  | jobFailed (index : Nat)
  /-- a batch is done -/
  | batchDone (jobs failed : Nat)
  deriving DecidableEq

/-- The level of a note. -/
def Event.level : Event → Level
  | .widened .. => .trace
  | .jobFailed .. => .warn
  | .lifted .. | .analyzed .. | .lowered .. | .batchDone .. => .debug

/-- The text of a note. -/
def Event.text : Event → String
  | .lifted instructions bytes clauses labels =>
      s!"lifted {instructions} instructions ({bytes} bytes), {clauses} exception clauses, " ++
        s!"{labels} labels"
  | .analyzed maxStack walks reached =>
      s!"stack analysis: max stack {maxStack}, {walks} walks, {reached} instructions reached"
  | .widened opcode offset distance =>
      s!"widening {opcode.mnemonic} at {offsetText offset}, distance {distance}"
  | .lowered instructions bytes clauses passes branches =>
      s!"lowered {instructions} instructions ({bytes} bytes), {clauses} exception clauses, " ++
        s!"{passes} relaxation passes, {branches} widened branches"
  | .jobFailed index => s!"Method body {index} failed"
  | .batchDone jobs failed => s!"Transformed {jobs} method bodies, {failed} failed"

/-- A note as a line of a journal. -/
def Event.line (event : Event) : String :=
  event.level.name ++ " " ++ event.text

/-- A computation that takes notes and may stop with a fault. -/
abbrev Journaled (α : Type) : Type := ExceptT Fault (StateM (List Event)) α

namespace Journaled

/-- Take notes. -/
def note (events : List Event) : Journaled Unit :=
  modify fun journal => journal ++ events

/-- A computation without notes. -/
def ofExcept {α : Type} (outcome : Except Fault α) : Journaled α :=
  ExceptT.mk (pure outcome)

/-- The outcome of a computation and its notes. -/
def start {α : Type} (computation : Journaled α) : Except Fault α × List Event :=
  computation.run []

end Journaled

end MethodIL
