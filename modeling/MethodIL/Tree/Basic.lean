import MethodIL.Body.Basic
set_option autoImplicit false

/-!
# Trees of a method body

A tree holds a method body in a form that can be edited.  Its nodes are instructions, labels and
blocks.  A label takes no room; it marks the place in front of the node behind it, so that a jump
to a label reaches the next instruction.  A block owns an ordered list of children, and protected
regions, their handlers and their filters are blocks, so that a region covers what lies below it
whatever is edited there.

Nodes are numbered in the order of their creation and never vanish: a node that is cut off keeps
its number, its content and everything below it.  Node zero is the root, the one block that stands
for the whole body.
-/

namespace MethodIL

/-- What a block is for. -/
inductive BlockKind where
  /-- the root of a tree -/
  | body
  /-- a grouping that means nothing at run time -/
  | plain
  /-- a protected region and its handlers, in the order of their clauses -/
  | tryBlock (handlers : List NodeId)
  /-- a handler, the region it protects, its filter block, and the type it catches -/
  | handler (kind : HandlerKind) (region filterBlock : Option NodeId) (catchType : Option Token)
  /-- a filter, the region it protects, and the handler it decides about -/
  | filter (region handlerBlock : Option NodeId)
  deriving DecidableEq, Repr

namespace BlockKind

/-- A protected region without handlers. -/
def newTry : BlockKind := .tryBlock []

/-- A handler that protects nothing yet. -/
def newHandler (kind : HandlerKind) : BlockKind := .handler kind none none none

/-- A filter that decides about nothing yet. -/
def newFilter : BlockKind := .filter none none

/-- The two kinds are alike but for the nodes and types they mention. -/
def sameVariant : BlockKind → BlockKind → Bool
  | .body, .body | .plain, .plain => true
  | .tryBlock _, .tryBlock _ => true
  | .handler .., .handler .. => true
  | .filter .., .filter .. => true
  | _, _ => false

/-- The other regions that a block mentions. -/
def links : BlockKind → List NodeId
  | .body | .plain => []
  | .tryBlock handlers => handlers
  | .handler _ region filterBlock _ => region.toList ++ filterBlock.toList
  | .filter region handlerBlock => region.toList ++ handlerBlock.toList

/-- The block mentions another region. -/
def isLinked (kind : BlockKind) : Bool := !kind.links.isEmpty

/-- The block is a protected region. -/
def isTry : BlockKind → Bool
  | .tryBlock _ => true
  | _ => false

/-- Control that enters the block finds the exception object on the stack. -/
def receivesException : BlockKind → Bool
  | .filter .. => true
  | .handler kind .. => kind.receivesException
  | .body | .plain | .tryBlock _ => false

end BlockKind

/-- What a node is.  Only blocks have children. -/
inductive Content where
  | block (kind : BlockKind) (children : List NodeId)
  | instruction (operation : Operation NodeId)
  /-- a label and the instruction that refers to it -/
  | label (owner : Option NodeId)
  deriving DecidableEq

/-- A node and the block that holds it. -/
structure Node where
  parent : Option NodeId
  content : Content
  deriving DecidableEq

/-- A method body as a tree. -/
structure Tree where
  header : Header
  nodes : Array Node
  deriving DecidableEq

namespace Tree

/-- The root block. -/
def root : NodeId := ⟨0⟩

/-- A tree that holds nothing but the root. -/
def new (header : Header) : Tree :=
  ⟨header, #[⟨none, .block .body []⟩]⟩

/-- The number of nodes, cut off ones included. -/
def size (t : Tree) : Nat := t.nodes.size

/-- The tree holds nothing but the root. -/
def isEmpty (t : Tree) : Bool := t.size == 1

/-! ## Looking at a node -/

/-- A node. -/
def node? (t : Tree) (id : NodeId) : Option Node := t.nodes[id.index]?

/-- What a node is. -/
def content? (t : Tree) (id : NodeId) : Option Content := (t.node? id).map Node.content

/-- The block that holds a node. -/
def parent? (t : Tree) (id : NodeId) : Option NodeId := (t.node? id).bind Node.parent

/-- The children of a block, in order. -/
def children (t : Tree) (id : NodeId) : List NodeId :=
  match t.content? id with
  | some (.block _ children) => children
  | _ => []

/-- What a block is for. -/
def blockKind? (t : Tree) (id : NodeId) : Option BlockKind :=
  match t.content? id with
  | some (.block kind _) => some kind
  | _ => none

/-- The operation of an instruction. -/
def operation? (t : Tree) (id : NodeId) : Option (Operation NodeId) :=
  match t.content? id with
  | some (.instruction operation) => some operation
  | _ => none

/-- The node is an instruction. -/
def isInstruction (t : Tree) (id : NodeId) : Bool := (t.operation? id).isSome

/-- The node is a label. -/
def isLabel (t : Tree) (id : NodeId) : Bool :=
  match t.content? id with
  | some (.label _) => true
  | _ => false

/-- The instruction that refers to a label. -/
def labelOwner? (t : Tree) (id : NodeId) : Option NodeId :=
  match t.content? id with
  | some (.label owner) => owner
  | _ => none

/-- The labels that an instruction refers to. -/
def labelsOf (t : Tree) (id : NodeId) : List NodeId :=
  ((t.operation? id).map fun operation => operation.operand.targets).getD []

/-- What a node is, or the fault that there is no such node. -/
def content (t : Tree) (id : NodeId) : Except EditFault Content :=
  match t.content? id with
  | some content => .ok content
  | none => .error (.unknownNode id)

/-- What a block is for, or why there is no such block. -/
def blockKind (t : Tree) (id : NodeId) : Except EditFault BlockKind := do
  match ← t.content id with
  | .block kind _ => return kind
  | _ => throw (.notBlock id)

/-- The operation of an instruction, or why there is no such instruction. -/
def operation (t : Tree) (id : NodeId) : Except EditFault (Operation NodeId) := do
  match ← t.content id with
  | .instruction operation => return operation
  | _ => throw (.notInstruction id)

/-! ## Changing a node -/

/-- Change one node; a number that no node has changes nothing. -/
def modify (t : Tree) (id : NodeId) (f : Node → Node) : Tree :=
  { t with nodes := t.nodes.modify id.index f }

/-- Set the block that holds a node. -/
def setParent (t : Tree) (id : NodeId) (parent : Option NodeId) : Tree :=
  t.modify id fun node => { node with parent }

/-- Change the children of a block. -/
def mapChildren (t : Tree) (id : NodeId) (f : List NodeId → List NodeId) : Tree :=
  t.modify id fun node =>
    match node.content with
    | .block kind children => { node with content := .block kind (f children) }
    | _ => node

/-- Change what a block is for. -/
def mapKind (t : Tree) (id : NodeId) (f : BlockKind → BlockKind) : Tree :=
  t.modify id fun node =>
    match node.content with
    | .block kind children => { node with content := .block (f kind) children }
    | _ => node

/-- Replace the operation of an instruction. -/
def setOperation (t : Tree) (id : NodeId) (operation : Operation NodeId) : Tree :=
  t.modify id fun node =>
    match node.content with
    | .instruction _ => { node with content := .instruction operation }
    | _ => node

/-- Set the instruction that refers to a label. -/
def setOwner (t : Tree) (id : NodeId) (owner : Option NodeId) : Tree :=
  t.modify id fun node =>
    match node.content with
    | .label _ => { node with content := .label owner }
    | _ => node

/-- Add a node that no block holds. -/
def push (t : Tree) (content : Content) : NodeId × Tree :=
  (⟨t.nodes.size⟩, { t with nodes := t.nodes.push ⟨none, content⟩ })

/-! ## Placing a node -/

/-- Put a node among the children of a block. -/
def attach (t : Tree) (parent node : NodeId) (place : List NodeId → List NodeId) : Tree :=
  (t.setParent node (some parent)).mapChildren parent place

/-- Take a node, with all below it, from the block that holds it. -/
def detach (t : Tree) (node : NodeId) : Tree :=
  match t.parent? node with
  | none => t
  | some parent => (t.mapChildren parent fun children => children.erase node).setParent node none

end Tree

/-- Put an item in front of the first `anchor`. -/
def insertBefore {α : Type} [DecidableEq α] (anchor item : α) : List α → List α
  | [] => [item]
  | a :: items => if a = anchor then item :: a :: items else a :: insertBefore anchor item items

/-- Put an item behind the first `anchor`. -/
def insertAfter {α : Type} [DecidableEq α] (anchor item : α) : List α → List α
  | [] => [item]
  | a :: items => if a = anchor then a :: item :: items else a :: insertAfter anchor item items

end MethodIL
