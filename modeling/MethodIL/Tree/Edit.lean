import MethodIL.Tree.Region
import MethodIL.Tree.Target
import MethodIL.Tree.Wrap
set_option autoImplicit false

/-!
# Edits

Every way to change a tree, as data.  Running an edit answers what it made, or why it was refused,
together with the tree that stands afterwards.  A refused edit leaves the tree as it was, with one
exception: an instruction created with a label listed twice.
-/

namespace MethodIL

/-- A change of a tree. -/
inductive Edit where
  | newInstruction (operation : Operation NodeId)
  | newBlock (kind : BlockKind)
  | newLabel
  | append (parent node : NodeId)
  | prepend (parent node : NodeId)
  | insertBefore (anchor node : NodeId)
  | insertAfter (anchor node : NodeId)
  | remove (node : NodeId)
  | ungroup (block : NodeId)
  | group (start stop : NodeId) (kind : BlockKind)
  | setOpcode (node : NodeId) (opcode : Opcode)
  | setOperand (node : NodeId) (operand : Operand NodeId)
  | setCatchType (handler : NodeId) (token : Token)
  | linkHandler (region handler : NodeId)
  | linkFilter (filterBlock handler : NodeId)
  | unlinkHandler (handler : NodeId)
  | setBranchTarget (node target : NodeId)
  | setSwitchTargets (node : NodeId) (targets : List NodeId)
  | setHeader (header : Header)
  deriving DecidableEq

/-- What an edit made. -/
inductive Reply where
  | done
  | node (id : NodeId)
  | nodes (ids : List NodeId)
  deriving DecidableEq, Repr

namespace Edit

/-- The outcome of a change that may be refused and leaves the tree as it was if it is. -/
def settle (t : Tree) (outcome : Except Fault (Reply × Tree)) : Except Fault Reply × Tree :=
  match outcome with
  | .ok (reply, changed) => (.ok reply, changed)
  | .error fault => (.error fault, t)

/-- A change without an answer of its own. -/
def silently (outcome : Except EditFault Tree) : Except Fault (Reply × Tree) :=
  match outcome with
  | .ok changed => .ok (.done, changed)
  | .error cause => .error (.edit cause)

/-- A change that answers a node. -/
def answering (outcome : Except EditFault (NodeId × Tree)) : Except Fault (Reply × Tree) :=
  match outcome with
  | .ok (id, changed) => .ok (.node id, changed)
  | .error cause => .error (.edit cause)

/-- Run an edit. -/
def run (t : Tree) : Edit → Except Fault Reply × Tree
  | newInstruction operation =>
    let (outcome, changed) := t.newInstruction operation
    (outcome.map .node, changed)
  | newBlock kind => settle t (answering (t.newBlock kind))
  | newLabel => settle t (answering (.ok t.newLabel))
  | append parent node => settle t (silently (t.append parent node))
  | prepend parent node => settle t (silently (t.prepend parent node))
  | insertBefore anchor node => settle t (silently (t.insertBefore anchor node))
  | insertAfter anchor node => settle t (silently (t.insertAfter anchor node))
  | remove node => settle t (silently (t.remove node))
  | ungroup block => settle t (silently (t.ungroup block))
  | group start stop kind => settle t (answering (t.group start stop kind))
  | setOpcode node opcode => settle t ((t.setOpcode node opcode).map (Reply.done, ·))
  | setOperand node operand => settle t ((t.setOperand node operand).map (Reply.done, ·))
  | setCatchType handler token => settle t (silently (t.setCatchType handler token))
  | linkHandler region handler => settle t (silently (t.linkHandler region handler))
  | linkFilter filterBlock handler => settle t (silently (t.linkFilter filterBlock handler))
  | unlinkHandler handler => settle t (silently (t.unlinkHandler handler))
  | setBranchTarget node target => settle t (answering (t.setBranchTarget node target))
  | setSwitchTargets node targets =>
    settle t (match t.setSwitchTargets node targets with
      | .ok (labels, changed) => .ok (.nodes labels, changed)
      | .error cause => .error (.edit cause))
  | setHeader header => (.ok .done, { t with header })

end Edit

end MethodIL
