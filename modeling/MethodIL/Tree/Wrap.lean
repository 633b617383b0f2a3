import MethodIL.Fault
import MethodIL.Tree.Order
set_option autoImplicit false

/-!
# Wrapping runs

A run of siblings is wrapped into a new block.  The ends of the run are given by two nodes that may
lie deeper: the first may be replaced by the block around it as long as it is the first child of
that block, the last as long as it is the last child.  The ends are raised to the same depth and
then together, until one block holds both.  A block is never split.
-/

namespace MethodIL

/-- Split a list in front of the first `first` and behind the next `last`. -/
def splitRun? {α : Type} [DecidableEq α] (first last : α) (items : List α) :
    Option (List α × List α × List α) :=
  let before := items.takeWhile (· ≠ first)
  let tail := items.dropWhile (· ≠ first)
  match tail.dropWhile (· ≠ last) with
  | [] => none
  | end_ :: after => some (before, tail.takeWhile (· ≠ last) ++ [end_], after)

namespace Tree

/-- The block that a node opens. -/
def raiseFirst (t : Tree) (node : NodeId) : Except EditFault NodeId :=
  if (t.prev? node).isSome then .error (.notFirstChild node)
  else match t.parent? node with
    | some parent => .ok parent
    | none => .error (.noParent node)

/-- The block that a node closes. -/
def raiseLast (t : Tree) (node : NodeId) : Except EditFault NodeId :=
  if (t.next? node).isSome then .error (.notLastChild node)
  else match t.parent? node with
    | some parent => .ok parent
    | none => .error (.noParent node)

/-- The block that a node opens, `count` levels up. -/
def raiseFirstBy (t : Tree) : Nat → NodeId → Except EditFault NodeId
  | 0, node => .ok node
  | count + 1, node => do raiseFirstBy t count (← t.raiseFirst node)

/-- The block that a node closes, `count` levels up. -/
def raiseLastBy (t : Tree) : Nat → NodeId → Except EditFault NodeId
  | 0, node => .ok node
  | count + 1, node => do raiseLastBy t count (← t.raiseLast node)

/-- Raise both ends together until one block holds both, but no more than `limit` levels. -/
def raiseTogether (t : Tree) : Nat → NodeId → NodeId → Except EditFault (NodeId × NodeId)
  | 0, first, last => .ok (first, last)
  | limit + 1, first, last =>
    if t.parent? first = t.parent? last then .ok (first, last)
    else do
      let first ← t.raiseFirst first
      let last ← t.raiseLast last
      raiseTogether t limit first last

/-- The ends of the run that two nodes stand for.  The ends have the same depth when they are
raised together, so they are roots at the latest when that depth is used up. -/
def runEnds (t : Tree) (start stop : NodeId) : Except EditFault (NodeId × NodeId) := do
  let depths := (t.depth start, t.depth stop)
  let first ← t.raiseFirstBy (depths.1 - depths.2) start
  let last ← t.raiseLastBy (depths.2 - depths.1) stop
  t.raiseTogether (min depths.1 depths.2) first last

/-- Put a new block in place of a run of children. -/
def enclose (t : Tree) (parent : NodeId) (before run after : List NodeId) (kind : BlockKind) :
    NodeId × Tree :=
  let (block, grown) := t.push (.block kind run)
  let moved := run.foldl (fun t member => t.setParent member (some block)) grown
  (block, moved.attach parent block fun _ => before ++ block :: after)

/-- Wrap a run into a block.  If the run is all that a block of the same variant holds, the answer
is that block and nothing changes; the second part of the answer tells whether a block is new. -/
def wrap (t : Tree) (start stop : NodeId) (kind : BlockKind) :
    Except EditFault (NodeId × Bool × Tree) := do
  if kind == .body then throw .groupsBody
  if kind.isLinked then throw .groupsLinked
  let _ ← t.content start
  let _ ← t.content stop
  let (first, last) ← t.runEnds start stop
  match t.parent? first with
  | none => throw (.noSharedParent start stop)
  | some parent =>
    match splitRun? first last (t.children parent) with
    | none => throw (.outOfOrder start stop)
    | some (before, run, after) =>
      if before.isEmpty && after.isEmpty && ((t.blockKind? parent).any (·.sameVariant kind)) then
        return (parent, false, t)
      let (block, wrapped) := t.enclose parent before run after kind
      return (block, true, wrapped)

/-- Wrap a run into a block and answer the block. -/
def group (t : Tree) (start stop : NodeId) (kind : BlockKind) :
    Except EditFault (NodeId × Tree) := do
  let (block, _, wrapped) ← t.wrap start stop kind
  return (block, wrapped)

end Tree

end MethodIL
