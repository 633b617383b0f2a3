import MethodIL.Tree.Basic
set_option autoImplicit false

/-!
# The order of a tree

The flat order of a tree lists every node before its children and the children of a block one after
the other.  This module has the ways to move through it: to siblings, up to the blocks around a
node, and to the next or the previous node.

The blocks around a node are different nodes, so a walk upwards takes no more steps than there are
nodes; the same holds for a walk downwards and for a walk along the flat order.  The size of the
tree bounds each of these walks.
-/

namespace MethodIL

/-- The item behind `a`. -/
def following? {α : Type} [DecidableEq α] (a : α) : List α → Option α
  | b :: c :: items => if b = a then some c else following? a (c :: items)
  | _ => none

/-- The item in front of `a`. -/
def preceding? {α : Type} [DecidableEq α] (a : α) : List α → Option α
  | b :: c :: items => if c = a then some b else preceding? a (c :: items)
  | _ => none

namespace Tree

variable (t : Tree)

/-! ## Siblings and children -/

/-- The children of the block that holds a node. -/
def siblings (id : NodeId) : List NodeId :=
  match t.parent? id with
  | some parent => t.children parent
  | none => []

/-- The next sibling. -/
def next? (id : NodeId) : Option NodeId := following? id (t.siblings id)

/-- The previous sibling. -/
def prev? (id : NodeId) : Option NodeId := preceding? id (t.siblings id)

/-- The first child. -/
def firstChild? (id : NodeId) : Option NodeId := (t.children id).head?

/-- The last child. -/
def lastChild? (id : NodeId) : Option NodeId := (t.children id).getLast?

/-! ## Upwards -/

/-- The nearest blocks around a node, from the inside, but no more than `limit`. -/
def ancestorsUpTo : Nat → NodeId → List NodeId
  | 0, _ => []
  | limit + 1, id =>
    match t.parent? id with
    | some parent => parent :: ancestorsUpTo limit parent
    | none => []

/-- The blocks around a node, from the inside. -/
def ancestors (id : NodeId) : List NodeId := t.ancestorsUpTo t.size id

/-- The number of blocks around a node. -/
def depth (id : NodeId) : Nat := (t.ancestors id).length

/-- The node lies strictly below a block. -/
def isBelow (block id : NodeId) : Bool := (t.ancestors id).contains block

/-- The node is the root or lies below it. -/
def isAttached (id : NodeId) : Bool := id == root || t.isBelow root id

/-! ## The flat order -/

/-- A node and all below it in flat order, down to `limit` levels. -/
def preOrderUpTo : Nat → NodeId → List NodeId
  | 0, id => [id]
  | limit + 1, id => id :: (t.children id).flatMap (preOrderUpTo limit)

/-- A node and all below it in flat order. -/
def preOrder (id : NodeId) : List NodeId := t.preOrderUpTo t.size id

/-- All below a node in flat order. -/
def descendants (id : NodeId) : List NodeId := (t.preOrder id).tail

/-- A node and all below it, every block behind what lies below it, down to `limit` levels. -/
def postOrderUpTo : Nat → NodeId → List NodeId
  | 0, id => [id]
  | limit + 1, id => (t.children id).flatMap (postOrderUpTo limit) ++ [id]

/-- A node and all below it, every block behind what lies below it. -/
def postOrder (id : NodeId) : List NodeId := t.postOrderUpTo t.size id

/-- The instructions of the body in flat order. -/
def instructions : List NodeId := (t.descendants root).filter t.isInstruction

/-- The labels of the body in flat order. -/
def labels : List NodeId := (t.descendants root).filter t.isLabel

/-! ## Forwards -/

/-- The node after a node and all below it: its next sibling, or that of the nearest block around
it that has one. -/
def successor? (id : NodeId) : Option NodeId :=
  (id :: t.ancestors id).findSome? t.next?

/-- The next node in flat order. -/
def nextInOrder? (id : NodeId) : Option NodeId :=
  match t.firstChild? id with
  | some child => some child
  | none => t.successor? id

/-- The nearest of the next `limit` nodes that is an instruction. -/
def nextInstructionUpTo : Nat → NodeId → Option NodeId
  | 0, _ => none
  | limit + 1, id =>
    match t.nextInOrder? id with
    | none => none
    | some next => if t.isInstruction next then some next else nextInstructionUpTo limit next

/-- The next instruction in flat order. -/
def nextInstruction? (id : NodeId) : Option NodeId := t.nextInstructionUpTo t.size id

/-- The instruction that a jump to a label reaches. -/
def labelTarget? (label : NodeId) : Option NodeId := t.nextInstruction? label

/-! ## Backwards -/

/-- The last node in flat order of a node and all below it, down to `limit` levels. -/
def lastBelowUpTo : Nat → NodeId → NodeId
  | 0, id => id
  | limit + 1, id =>
    match t.lastChild? id with
    | some child => lastBelowUpTo limit child
    | none => id

/-- The last node in flat order of a node and all below it. -/
def lastBelow (id : NodeId) : NodeId := t.lastBelowUpTo t.size id

/-- The previous node in flat order. -/
def prevInOrder? (id : NodeId) : Option NodeId :=
  match t.prev? id with
  | some prev => some (t.lastBelow prev)
  | none => t.parent? id

/-- The nearest of the previous `limit` nodes that is an instruction. -/
def prevInstructionUpTo : Nat → NodeId → Option NodeId
  | 0, _ => none
  | limit + 1, id =>
    match t.prevInOrder? id with
    | none => none
    | some prev => if t.isInstruction prev then some prev else prevInstructionUpTo limit prev

/-- The previous instruction in flat order. -/
def prevInstruction? (id : NodeId) : Option NodeId := t.prevInstructionUpTo t.size id

/-! ## Searching below a node -/

/-- The first node below a node that passes a test. -/
def findFirst? (id : NodeId) (test : NodeId → Bool) : Option NodeId :=
  (t.descendants id).find? test

/-- The first node to pass a test on the way back from `id` to `bound`, `bound` excluded, among the
next `limit`. -/
def findBackUpTo (bound : NodeId) (test : NodeId → Bool) : Nat → NodeId → Option NodeId
  | 0, _ => none
  | limit + 1, id =>
    if id = bound then none
    else if test id then some id
    else (t.prevInOrder? id).bind (findBackUpTo bound test limit)

/-- The last node below a node that passes a test, searched for from the end. -/
def findLast? (id : NodeId) (test : NodeId → Bool) : Option NodeId :=
  t.findBackUpTo id test (t.size + 1) (t.lastBelow id)

/-- The first instruction below a node. -/
def firstInstruction? (id : NodeId) : Option NodeId := t.findFirst? id t.isInstruction

/-- The last instruction below a node. -/
def lastInstruction? (id : NodeId) : Option NodeId := t.findLast? id t.isInstruction

end Tree

end MethodIL
