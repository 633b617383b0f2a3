import MethodIL.Fault
import MethodIL.Tree.Basic
set_option autoImplicit false

/-!
# New nodes and new operands

Nodes are created apart from the tree and placed later.  A branch or switch may be created without
targets; if it is created with labels, every one of them must be a label that no instruction refers
to yet, and refers to the new instruction afterwards.
-/

namespace MethodIL

namespace Tree

/-- The node is a label that no instruction refers to. -/
def checkUnbound (t : Tree) (label : NodeId) : Except EditFault Unit := do
  match ← t.content label with
  | .label none => return ()
  | .label (some owner) => throw (.alreadyBound label owner)
  | _ => throw (.notLabel label)

/-- Let labels refer to an instruction, one after the other, as long as they are unbound. -/
def bindLabels (owner : NodeId) : List NodeId → Tree → Except EditFault Unit × Tree
  | [], t => (.ok (), t)
  | label :: labels, t =>
    match t.checkUnbound label with
    | .error cause => (.error cause, t)
    | .ok () => bindLabels owner labels (t.setOwner label (some owner))

/-- The operand suits the opcode, where a branch or switch may lack its targets. -/
def acceptsOperand (operation : Operation NodeId) : Bool :=
  let opcode := operation.opcode
  operation.operand.fits opcode.operandType
    || operation.operand == .none && (opcode.isBranch || opcode.isSwitch)

/-- Create an instruction.  The labels are all checked before the instruction exists and bound one
by one afterwards, so a label listed twice is refused with the instruction in place. -/
def newInstruction (t : Tree) (operation : Operation NodeId) : Except Fault NodeId × Tree :=
  if !acceptsOperand operation then
    (.error (.unsupportedOperand (.treeMismatch operation.opcode operation.operand)), t)
  else
    let labels := operation.operand.targets
    match labels.forM t.checkUnbound with
    | .error cause => (.error (.edit cause), t)
    | .ok () =>
      let (id, grown) := t.push (.instruction operation)
      match bindLabels id labels grown with
      | (.error cause, bound) => (.error (.edit cause), bound)
      | (.ok (), bound) => (.ok id, bound)

/-- Create an empty block of a kind that mentions no other region. -/
def newBlock (t : Tree) (kind : BlockKind) : Except EditFault (NodeId × Tree) :=
  if kind == .body then .error .secondBody
  else if kind.isLinked then .error .linkedBlock
  else .ok (t.push (.block kind []))

/-- Create a label that no instruction refers to. -/
def newLabel (t : Tree) : NodeId × Tree :=
  t.push (.label none)

/-- The operation can take another opcode and keep its operand.  Branches can replace each other,
in either form. -/
def acceptsOpcode (operation : Operation NodeId) (opcode : Opcode) : Bool :=
  match opcode.operandType with
  | .shortBranch | .branch => operation.opcode.isBranch
  | .switch => operation.opcode.isSwitch
  | .none =>
    operation.operand == .none && !operation.opcode.isBranch && !operation.opcode.isSwitch
  | type => operation.operand.fits type

/-- Replace the opcode of an instruction. -/
def setOpcode (t : Tree) (id : NodeId) (opcode : Opcode) : Except Fault Tree :=
  match t.operation id with
  | .error cause => .error (.edit cause)
  | .ok operation =>
    if acceptsOpcode operation opcode then .ok (t.setOperation id { operation with opcode })
    else .error (.unsupportedOperand (.incompatible operation.opcode opcode))

/-- Replace the operand of an instruction that has no targets. -/
def setOperand (t : Tree) (id : NodeId) (operand : Operand NodeId) : Except Fault Tree :=
  match t.operation id with
  | .error cause => .error (.edit cause)
  | .ok operation =>
    let opcode := operation.opcode
    if operand.fits opcode.operandType && !opcode.isBranch && !opcode.isSwitch then
      .ok (t.setOperation id { operation with operand })
    else .error (.unsupportedOperand (.treeMismatch opcode operand))

end Tree

end MethodIL
