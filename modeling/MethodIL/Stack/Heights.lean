import MethodIL.Journal
import MethodIL.Stack.Signature
import MethodIL.Tree.Order
set_option autoImplicit false

/-!
# Stack heights

The analysis finds the largest stack height with which each instruction is entered.  It walks the
tree from where control can arrive: the start of the body with an empty stack, the targets of
branches with the height they leave behind, and the handlers and filters of a protected region as
soon as anything in the region is reached.  A walk follows the flat order and stops where control
does not go on, and at instructions that were entered at least as high before.

Heights stay within sixteen bits, so an instruction is recorded no more than `2 ^ 16` times, and a
walk moves forwards all the time.  These two facts bound the work.
-/

namespace MethodIL

/-- How an instruction moves the stack height. -/
structure StackEffect where
  pops : Nat
  pushes : Nat
  deriving DecidableEq, Repr

/-- The effect of an operation, with the help of a resolver.  A `leave` empties the stack, which is
not an effect of this kind; the analysis steps over it before it asks. -/
def Operation.stackEffect {ρ : Type} (resolver : Resolver) (operation : Operation ρ) :
    Except Fault StackEffect := do
  let opcode := operation.opcode
  if opcode.isCall then
    match operation.operand with
    | .token token =>
      let site ← resolver.callSite opcode token
      return ⟨(site.pops opcode).toNat, (site.pushes opcode).toNat⟩
    | _ => throw (.unsupportedOperand (.withoutSignature opcode))
  let pushes := opcode.pushes.fixed?.getD 0
  match opcode.pops with
  | .fixed pops => return ⟨pops, pushes⟩
  | .returned => return ⟨resolver.returnsValue.toNat, pushes⟩
  | .arguments | .everything => return ⟨0, pushes⟩

/-- The heights of a tree. -/
structure StackHeights where
  maxStack : UInt16
  /-- for every node: the largest height with which it is entered, if it is a reached instruction -/
  entries : Array (Option Int)
  walks : Nat
  deriving DecidableEq, Repr

namespace StackHeights

/-- The height with which an instruction is entered. -/
def heightAt (heights : StackHeights) (id : NodeId) : Option Int :=
  heights.entries.getD id.index none

/-- The instructions of the body that are entered with an empty stack. -/
def emptyPoints (heights : StackHeights) (t : Tree) : List NodeId :=
  t.instructions.filter fun id => heights.heightAt id == some 0

/-- The number of instructions that are entered at all. -/
def reached (heights : StackHeights) : Nat :=
  heights.entries.toList.countP Option.isSome

/-- A place where control arrives, and the height it brings. -/
structure Arrival where
  node : NodeId
  height : Int
  deriving DecidableEq, Repr

/-- What is known in the middle of an analysis. -/
structure State where
  entries : Array (Option Int)
  /-- the protected regions whose handlers are on the list -/
  entered : Array Bool
  /-- arrivals found during the current walk, the latest first -/
  found : List Arrival
  highest : Int

/-- What is fixed during an analysis. -/
structure Context where
  tree : Tree
  resolver : Resolver
  /-- the node behind each node and all below it -/
  successors : Array (Option NodeId)

namespace Context

/-- Prepare an analysis. -/
def ofTree (tree : Tree) (resolver : Resolver) : Context :=
  ⟨tree, resolver, Array.ofFn fun i : Fin tree.size => tree.successor? ⟨i⟩⟩

/-- The node behind a node and all below it. -/
def successor? (c : Context) (id : NodeId) : Option NodeId :=
  c.successors.getD id.index none

/-- The next node in flat order. -/
def nextInOrder? (c : Context) (id : NodeId) : Option NodeId :=
  match c.tree.firstChild? id with
  | some child => some child
  | none => c.successor? id

end Context

namespace State

/-- Nothing is reached. -/
def start (t : Tree) : State :=
  ⟨Array.replicate t.size none, Array.replicate t.size false, [], 0⟩

/-- Note that control arrives at labels. -/
def arrive (s : State) (labels : List NodeId) (height : Int) : State :=
  { s with found := labels.foldl (fun found label => ⟨label, height⟩ :: found) s.found }

/-- The places where control arrives when a handler runs: its filter first. -/
def handlerEntries (t : Tree) (handler : NodeId) : List NodeId :=
  match t.blockKind? handler with
  | some (.handler _ _ (some filterBlock) _) => [filterBlock, handler]
  | _ => [handler]

/-- Enter a block.  The first time that a protected region is entered, control may arrive at its
handlers with an empty stack. -/
def enter (t : Tree) (s : State) (block : NodeId) : State :=
  match t.blockKind? block with
  | some (.tryBlock handlers) =>
    if s.entered.getD block.index true then s
    else
      { s with entered := s.entered.setIfInBounds block.index true }.arrive
        (handlers.flatMap (handlerEntries t)) 0
  | _ => s

/-- Record the height with which an instruction is entered. -/
def record (s : State) (id : NodeId) (height : Int) : State :=
  { s with
    entries := s.entries.setIfInBounds id.index (some height)
    highest := max s.highest height }

/-- Record the height that an instruction leaves behind. -/
def raiseMax (s : State) (height : Int) : State :=
  { s with highest := max s.highest height }

end State

/-- The height is one of sixteen bits. -/
def checkBounds (id : NodeId) (height : Int) : Except Fault Unit :=
  if Int16.minValue.toInt ≤ height && height ≤ Int16.maxValue.toInt then .ok ()
  else .error (.stackBound height id)

/-- An instruction was entered at least as high before. -/
def seen (s : State) (id : NodeId) (height : Int) : Bool :=
  (s.entries.getD id.index none).any fun known => height ≤ known

/-- Execute an instruction.  The answer has the height for the instruction behind it, unless
control does not go there. -/
def execute (c : Context) (s : State) (id : NodeId) (operation : Operation NodeId) (height : Int) :
    Except Fault (State × Option Int) := do
  if seen s id height then return (s, none)
  checkBounds id height
  let s := s.record id height
  let labels := operation.operand.targets
  if operation.opcode.isLeave then return (s.arrive labels 0, none)
  let effect ← operation.stackEffect c.resolver
  let exit := height - effect.pops + effect.pushes
  checkBounds id exit
  let s := s.raiseMax exit
  match operation.opcode.flow with
  | .unconditionalBranch => return (s.arrive labels exit, none)
  | .conditionalBranch | .switch => return (s.arrive labels exit, some exit)
  | .methodReturn | .raise | .endFinally | .endFilter | .leave => return (s, none)
  | .sequential | .call | .modifier => return (s, some exit)

/-- Walk along the flat order from a node, but over no more than `limit` nodes. -/
def walkUpTo (c : Context) : Nat → State → Option NodeId → Int → Except Fault State
  | 0, s, _, _ => .ok s
  | _, s, none, _ => .ok s
  | limit + 1, s, some id, height =>
    match c.tree.content? id with
    | none => .error (.edit (.unknownNode id))
    | some (.label _) => walkUpTo c limit s (c.successor? id) height
    | some (.block kind _) =>
      let height := if kind.receivesException then max height 1 else height
      walkUpTo c limit (s.enter c.tree id) (c.nextInOrder? id) height
    | some (.instruction operation) =>
      match execute c s id operation height with
      | .error fault => .error fault
      | .ok (s, none) => .ok s
      | .ok (s, some exit) => walkUpTo c limit s (c.successor? id) exit

/-- Walk from an arrival.  It may lie inside of blocks that were not entered from their top. -/
def walk (c : Context) (s : State) (arrival : Arrival) : Except Fault State :=
  let s := (c.tree.ancestors arrival.node).foldl (State.enter c.tree) s
  walkUpTo c c.tree.size s (some arrival.node) arrival.height

/-- Walk from arrivals, first come first served, but no more than `limit` times. -/
def walkAllUpTo (c : Context) : Nat → Nat → State → List Arrival → Except Fault (State × Nat)
  | 0, walks, s, _ => .ok (s, walks)
  | _, walks, s, [] => .ok (s, walks)
  | limit + 1, walks, s, arrival :: waiting =>
    match walk c s arrival with
    | .error fault => .error fault
    | .ok s => walkAllUpTo c limit (walks + 1) { s with found := [] } (waiting ++ s.found.reverse)

/-- A number of walks that is never exceeded: one for the start, two for every handler, and one for
every target each time that an instruction is recorded. -/
def walkLimit (t : Tree) : Nat :=
  t.nodes.foldl (fun sum node =>
    match node.content with
    | .block (.tryBlock handlers) _ => sum + 2 * handlers.length
    | .instruction operation => sum + UInt16.size * operation.operand.targets.length
    | _ => sum) 1

/-- Analyse a tree. -/
def ofTree (t : Tree) (resolver : Resolver) : Except Fault StackHeights := do
  let c := Context.ofTree t resolver
  let first := (t.firstChild? Tree.root).toList.map fun id => ⟨id, 0⟩
  let (s, walks) ← walkAllUpTo c (walkLimit t) 0 (.start t) first
  return ⟨.ofNat s.highest.toNat, s.entries, walks⟩

/-- Analyse a tree, with notes. -/
def ofTreeJournaled (t : Tree) (resolver : Resolver) : Journaled StackHeights := do
  let heights ← Journaled.ofExcept (ofTree t resolver)
  Journaled.note [.analyzed heights.maxStack.toNat heights.walks heights.reached]
  return heights

/-- Declare the stack size of a body.  If larger declarations are kept, the size never shrinks. -/
def apply (heights : StackHeights) (t : Tree) (keepLarger : Bool) : Tree :=
  let declared := t.header.maxStack
  let maxStack :=
    if keepLarger && heights.maxStack ≤ declared then declared else heights.maxStack
  { t with header := { t.header with maxStack } }

end StackHeights

end MethodIL
