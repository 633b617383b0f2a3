import MethodIL.Fault
import MethodIL.Layout.Relaxation
import MethodIL.Tree.Order
set_option autoImplicit false

/-!
# The code stream of a tree

Read in flat order, the instructions of a tree become slots of a code stream, and every other node
stands in front of one of them: a label marks the slot behind it, and a block covers the slots of
the instructions below it.
-/

namespace MethodIL

/-- An instruction of a code stream whose targets are the places of other slots. -/
structure Slot where
  operation : Operation NodeId
  targets : List Nat
  deriving DecidableEq

namespace Tree

/-- For nodes in flat order: the number of instructions in front of each. -/
def placesOf (t : Tree) : List NodeId → Nat → Array (Option Nat) → Array (Option Nat)
  | [], _, places => places
  | id :: ids, count, places =>
    placesOf t ids (if t.isInstruction id then count + 1 else count)
      (places.setIfInBounds id.index (some count))

/-- For every node of the body: the number of instructions in front of it. -/
def places (t : Tree) : Array (Option Nat) :=
  placesOf t (t.preOrder root) 0 (Array.replicate t.size none)

/-- The number of instructions in front of a node of the body. -/
def place? (places : Array (Option Nat)) (id : NodeId) : Option Nat :=
  places.getD id.index none

/-- The slots that a node of the body covers, from the first up to, but not including, the last. -/
def coverage? (t : Tree) (places : Array (Option Nat)) (id : NodeId) : Option (Nat × Nat) :=
  (place? places id).map fun start => (start, start + (t.preOrder id).countP t.isInstruction)

/-- The first label with an owner that no instruction follows. -/
def danglingLabel? (t : Tree) (places : Array (Option Nat)) (count : Nat) : Option NodeId :=
  t.labels.find? fun label => place? places label == some count && (t.labelOwner? label).isSome

/-- The slot that a label marks. -/
def labelSlot (places : Array (Option Nat)) (count : Nat) (t : Tree) (label : NodeId) :
    Except LayoutFault Nat :=
  match place? places label with
  | some slot =>
    if slot < count && t.isLabel label then .ok slot else .error (.labelNotPlaced label)
  | none => .error (.labelNotPlaced label)

/-- The slot of an operation.  A branch has one target, and a switch a table of them. -/
def slotOf (t : Tree) (places : Array (Option Nat)) (count : Nat) (operation : Operation NodeId) :
    Except LayoutFault Slot := do
  let opcode := operation.opcode
  if opcode.isBranch && operation.operand.targets.length ≠ 1 then
    throw (.branchWithoutTarget opcode)
  if opcode.isSwitch then
    match operation.operand with
    | .switch _ => pure ()
    | _ => throw .switchWithoutTargets
  if opcode.isBranch || opcode.isSwitch then
    return ⟨operation, ← operation.operand.targets.mapM (labelSlot places count t)⟩
  else return ⟨operation, []⟩

/-- The slots of a tree. -/
def slots (t : Tree) (places : Array (Option Nat)) : Except LayoutFault (List Slot) := do
  let operations := t.instructions.filterMap t.operation?
  match t.danglingLabel? places operations.length with
  | some label => throw (.danglingLabel label)
  | none => operations.mapM (t.slotOf places operations.length)

end Tree

/-- The piece that a slot becomes. -/
def Slot.piece (slot : Slot) : Except LayoutFault Layout.Piece :=
  let opcode := slot.operation.opcode
  if opcode.isBranch then .ok (.branch (slot.targets.headD 0))
  else match slot.operation.operand with
    | .switch labels =>
      let size := opcode.size + 4 + 4 * labels.length
      if size < UInt32.size then .ok (.fixed size) else .error (.oversizedSwitch labels.length)
    | _ => .ok (.fixed (opcode.size + opcode.operandType.size?.getD 0))

end MethodIL
