import MethodIL.Fault
import MethodIL.Tree.Order
set_option autoImplicit false

/-!
# Placing and removing nodes

A node can be placed anywhere as long as no block holds it, and everything below it comes along.
Taking an instruction out cuts off its labels.  A block can be taken out if nothing outside refers
into it; what refers out of it from inside loses its labels.  Dissolving a block leaves its
children in its place.
-/

namespace MethodIL

namespace Tree

/-! ## Placing -/

/-- The node can become a child of the block: no block holds it, and it is not the block itself or
around it. -/
def checkInsertable (t : Tree) (parent node : NodeId) : Except EditFault Unit := do
  match ← t.content parent with
  | .block .. => pure ()
  | _ => throw (.notBlock parent)
  let _ ← t.content node
  if node == root || (t.parent? node).isSome then throw (.alreadyAttached node)
  if node == parent || t.isBelow node parent then throw (.containsItself node)

/-- Place a node among the children of a block. -/
def place (t : Tree) (parent node : NodeId) (into : List NodeId → List NodeId) :
    Except EditFault Tree := do
  t.checkInsertable parent node
  return t.attach parent node into

/-- Place a node behind the children of a block. -/
def append (t : Tree) (parent node : NodeId) : Except EditFault Tree :=
  t.place parent node fun children => children ++ [node]

/-- Place a node in front of the children of a block. -/
def prepend (t : Tree) (parent node : NodeId) : Except EditFault Tree :=
  t.place parent node fun children => node :: children

/-- Place a node in front of another. -/
def insertBefore (t : Tree) (anchor node : NodeId) : Except EditFault Tree :=
  match t.parent? anchor with
  | none => .error (.noParent anchor)
  | some parent => t.place parent node (MethodIL.insertBefore anchor node)

/-- Place a node behind another. -/
def insertAfter (t : Tree) (anchor node : NodeId) : Except EditFault Tree :=
  match t.parent? anchor with
  | none => .error (.noParent anchor)
  | some parent => t.place parent node (MethodIL.insertAfter anchor node)

/-! ## Cutting off -/

/-- Take the labels from an instruction and out of the tree. -/
def unbindLabels (t : Tree) (id : NodeId) : Tree :=
  match t.operation? id with
  | none => t
  | some operation =>
    let labels := operation.operand.targets
    if labels.isEmpty then t
    else
      labels.foldl (fun t label => (t.setOwner label none).detach label)
        (t.setOperation id { operation with operand := .none })

/-- Why a node below a block keeps the block from being cut off: an instruction outside refers to
it, or it mentions a region outside. -/
def heldBy? (t : Tree) (block member : NodeId) : Option EditFault :=
  match t.content? member with
  | some (.label (some owner)) =>
    if t.isBelow block owner then none else some (.targetedInside member block owner)
  | some (.block kind _) =>
    (kind.links.find? fun region => !t.isBelow block region).map (.linkedInside member block ·)
  | _ => none

/-- Take the labels from an instruction below a block if one of them lies outside. -/
def dropOutside (block : NodeId) (t : Tree) (member : NodeId) : Tree :=
  if (t.labelsOf member).any fun label => !t.isBelow block label then t.unbindLabels member else t

/-- Prepare what lies below a block for being cut off. -/
def releaseBelow (t : Tree) (block : NodeId) : Except EditFault Tree :=
  let members := t.descendants block
  match members.findSome? (t.heldBy? block) with
  | some cause => .error cause
  | none => .ok (members.foldl (dropOutside block) t)

/-- Take a node, with all below it, out of the block that holds it. -/
def remove (t : Tree) (node : NodeId) : Except EditFault Tree := do
  if node == root then throw .removesRoot
  if (t.parent? node).isNone then throw (.notAttached node)
  match ← t.content node with
  | .label (some owner) => throw (.stillTarget node owner)
  | .label none => return t.detach node
  | .instruction _ => return (t.unbindLabels node).detach node
  | .block kind _ =>
    if kind.isLinked then throw (.linkedRegion node)
    return (← t.releaseBelow node).detach node

/-! ## Dissolving -/

/-- Put the children of a block in its place. -/
def splice (t : Tree) (parent block : NodeId) : Tree :=
  let children := t.children block
  let moved := children.foldl (fun t child => t.setParent child (some parent)) t
  ((moved.mapChildren block fun _ => []).setParent block none).mapChildren parent fun siblings =>
    siblings.flatMap fun child => if child = block then children else [child]

/-- Dissolve a block. -/
def ungroup (t : Tree) (block : NodeId) : Except EditFault Tree := do
  if block == root then throw .ungroupsRoot
  let kind ← t.blockKind block
  if kind.isLinked then throw (.linkedRegion block)
  match t.parent? block with
  | none => throw (.notAttached block)
  | some parent => return t.splice parent block

end Tree

end MethodIL
