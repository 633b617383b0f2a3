import MethodIL.Tree.Creation
import MethodIL.Tree.Order
import MethodIL.Tree.Placement
set_option autoImplicit false

/-!
# Branch targets

A branch or switch is aimed at nodes by placing a new label in front of each of them.  The labels
that the instruction referred to before are cut off.
-/

namespace MethodIL

namespace Tree

/-- Place a new label in front of a node that a block holds. -/
def placeLabel (t : Tree) (anchor : NodeId) : Except EditFault (NodeId × Tree) :=
  match t.parent? anchor with
  | none => .error (.noParent anchor)
  | some parent =>
    let (label, grown) := t.newLabel
    .ok (label, grown.attach parent label (MethodIL.insertBefore anchor label))

/-- Place a new label in front of each node. -/
def placeLabels : List NodeId → Tree → Except EditFault (List NodeId × Tree)
  | [], t => .ok ([], t)
  | anchor :: anchors, t => do
    let (label, placed) ← t.placeLabel anchor
    let (labels, done) ← placeLabels anchors placed
    return (label :: labels, done)

/-- Give an instruction an operand of labels that are its own from now on. -/
def aim (t : Tree) (id : NodeId) (operation : Operation NodeId) : Tree :=
  let released := (t.unbindLabels id).setOperation id operation
  operation.operand.targets.foldl (fun t label => t.setOwner label (some id)) released

/-- Aim a branch at a node; the answer is the new label. -/
def setBranchTarget (t : Tree) (id target : NodeId) : Except EditFault (NodeId × Tree) :=
  match t.operation? id with
  | some operation =>
    if operation.opcode.isBranch then do
      let (label, placed) ← t.placeLabel target
      return (label, placed.aim id { operation with operand := .branch label })
    else .error (.notBranch id)
  | none => .error (.notBranch id)

/-- Aim a switch at nodes; the answer is the new labels.  All targets are checked before the first
label is placed, so the new labels themselves are no targets. -/
def setSwitchTargets (t : Tree) (id : NodeId) (targets : List NodeId) :
    Except EditFault (List NodeId × Tree) :=
  match t.operation? id with
  | some operation =>
    if operation.opcode.isSwitch then
      match targets.find? fun target => (t.parent? target).isNone with
      | some orphan => .error (.noParent orphan)
      | none => do
        let (labels, placed) ← placeLabels targets t
        return (labels, placed.aim id { operation with operand := .switch labels })
    else .error (.notSwitch id)
  | none => .error (.notSwitch id)

end Tree

end MethodIL
