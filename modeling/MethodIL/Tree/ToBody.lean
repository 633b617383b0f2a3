import MethodIL.Journal
import MethodIL.Layout.Slots
import MethodIL.Tree.OfBody
set_option autoImplicit false

/-!
# The body of a tree

A tree becomes a flat body.  Its instructions are laid out in flat order, every branch in the
shortest form that reaches its target, and labels turn into offsets.  Each protected region of the
body gives one clause for every handler it lists.  Regions come in the order in which the last of
their parts ends, so that clauses of inner regions precede those of outer ones.
-/

namespace MethodIL

/-- The layout of a tree as code. -/
structure Plan where
  places : Array (Option Nat)
  slots : List Slot
  relaxed : Layout.Relaxed

namespace Plan

/-- The offsets of the slots, and the end of the last. -/
def starts (p : Plan) : Array Nat := p.relaxed.starts

/-- Lay out a tree. -/
def ofTree (t : Tree) : Except LayoutFault Plan := do
  let places := t.places
  let slots ← t.slots places
  let pieces ← slots.mapM Slot.piece
  let relaxed := Layout.relax pieces
  if UInt32.size ≤ relaxed.starts.getD slots.length 0 then throw .codeBeyondLimit
  return { places, slots, relaxed }

/-- The number of bytes of code. -/
def codeSize (p : Plan) : Nat := p.starts.getD p.slots.length 0

/-! ## Instructions -/

/-- The offset from the end of a slot to another. -/
def relative (p : Plan) (index target : Nat) : Except LayoutFault Int32 :=
  let distance := Layout.distance p.starts index target
  if Int32.minValue.toInt ≤ distance && distance ≤ Int32.maxValue.toInt then .ok (.ofInt distance)
  else .error .distanceBeyondLimit

/-- The operation that a slot becomes. -/
def operation (p : Plan) (index : Nat) (slot : Slot) (isLong : Bool) :
    Except LayoutFault (Operation Int32) := do
  let opcode := slot.operation.opcode
  if opcode.isBranch then
    let form := if isLong then opcode.longForm? else opcode.shortForm?
    return ⟨form.getD opcode, .branch (← p.relative index (slot.targets.headD 0))⟩
  match slot.operation.operand with
  | .switch _ => return ⟨opcode, .switch (← slot.targets.mapM (p.relative index))⟩
  | operand => return ⟨opcode, operand.withoutTargets⟩

/-- The instruction that a slot becomes. -/
def instruction (p : Plan) (index : Nat) (slot : Slot) (isLong : Bool) : Except Fault Instruction :=
  match p.operation index slot isLong with
  | .ok operation => Instruction.ofOperation operation
  | .error cause => .error (.layout cause)

/-- The instructions of the code. -/
def instructions (p : Plan) : Except Fault (List Instruction) :=
  (p.slots.zip p.relaxed.forms).zipIdx.mapM fun ((slot, isLong), index) =>
    p.instruction index slot isLong

/-! ## Clauses -/

/-- The offset and length of a region. -/
def extent (p : Plan) (t : Tree) (region : NodeId) : Except LayoutFault (Nat × Nat) :=
  match t.coverage? p.places region with
  | none => .error (.outsideTree region)
  | some (first, last) =>
    if first < last then
      let start := p.starts.getD first 0
      .ok (start, p.starts.getD last 0 - start)
    else .error (.emptyRegion region)

/-- A protected region of the body with its handlers. -/
structure Protection where
  region : NodeId
  handlers : List NodeId
  /-- where in the post-order of the body the last part of the region stands -/
  completed : Nat

/-- Where parts of a region stand in the post-order of the body. -/
def positions (order : List NodeId) (parts : List NodeId) : Except LayoutFault (List Nat) :=
  parts.mapM fun part =>
    match order.idxOf? part with
    | some position => .ok position
    | none => .error (.outsideTree part)

/-- The handler and its filter block, if the handler is one of the region. -/
def handlerParts (t : Tree) (region handler : NodeId) : Except LayoutFault (List NodeId) :=
  match t.blockKind? handler with
  | some (.handler _ (some owner) filterBlock _) =>
    if owner = region then .ok (handler :: filterBlock.toList)
    else .error (.foreignHandler handler region)
  | _ => .error (.foreignHandler handler region)

/-- Where the handlers of a region and their filters stand. -/
def handlerPositions (t : Tree) (order : List NodeId) (region : NodeId) :
    List NodeId → Except LayoutFault (List Nat)
  | [] => return []
  | handler :: handlers => do
    let own ← positions order (← handlerParts t region handler)
    let others ← handlerPositions t order region handlers
    return own ++ others

/-- The protection that a node stands for, unless it protects nothing. -/
def protection? (t : Tree) (order : List NodeId) (region : NodeId) :
    Except LayoutFault (Option Protection) :=
  match t.blockKind? region with
  | some (.tryBlock (first :: others)) => do
    let handlers := first :: others
    let own := (order.idxOf? region).getD 0
    let parts ← handlerPositions t order region handlers
    return some ⟨region, handlers, parts.foldl max own⟩
  | _ => .ok none

/-- The protected regions of the body in the order of their clauses. -/
def protections (t : Tree) : Except LayoutFault (List Protection) := do
  let order := t.postOrder Tree.root
  let found ← (t.preOrder Tree.root).mapM (protection? t order)
  return (found.filterMap id).mergeSort fun a b => a.completed ≤ b.completed

/-- The clause of one handler, given the extent of the region it protects. -/
def clause (p : Plan) (t : Tree) (region : Nat × Nat) (handler : NodeId) :
    Except LayoutFault Clause :=
  match t.blockKind? handler with
  | some (.handler kind _ filterBlock catchType) => do
    let extent ← p.extent t handler
    let filterOffset ←
      match kind, filterBlock with
      | .filterClause, some filterBlock => do
        let (start, length) ← p.extent t filterBlock
        if start + length ≠ extent.1 then
          throw (.filterApart filterBlock (start + length) extent.1)
        pure (some (UInt32.ofNat start))
      | .filterClause, none => throw (.filterMissing handler)
      | _, _ => pure none
    return { flags := kind.flags
             tryOffset := .ofNat region.1, tryLength := .ofNat region.2
             handlerOffset := .ofNat extent.1, handlerLength := .ofNat extent.2
             filterOffset
             catchType := if kind = .catchClause then catchType else none }
  | _ => .error (.foreignHandler handler handler)

/-- The clauses of a protected region. -/
def clausesOf (p : Plan) (t : Tree) (protection : Protection) :
    Except LayoutFault (List Clause) := do
  let region ← p.extent t protection.region
  protection.handlers.mapM (p.clause t region)

/-- The exception table. -/
def clauses (p : Plan) (t : Tree) : Except LayoutFault (List Clause) := do
  let parts ← (← protections t).mapM (p.clausesOf t)
  return parts.flatten

/-- The body that a tree becomes. -/
def body (p : Plan) (t : Tree) : Except Fault Body := do
  let instructions ← p.instructions
  let clauses ← (p.clauses t).mapError .layout
  return { header := t.header, instructions, clauses }

/-! ## Notes -/

/-- The notes on the branches that became long. -/
def widenings (p : Plan) : List Event :=
  p.relaxed.widenings.filterMap fun w =>
    p.slots[w.index]?.map fun slot => .widened slot.operation.opcode w.offset w.distance

end Plan

namespace Tree

/-- The body of a tree. -/
def toBody (t : Tree) : Except Fault Body := do
  let plan ← (Plan.ofTree t).mapError .layout
  plan.body t

/-- The body of a tree, with notes. -/
def toBodyJournaled (t : Tree) : Journaled Body := do
  let plan ← Journaled.ofExcept ((Plan.ofTree t).mapError .layout)
  Journaled.note plan.widenings
  let body ← Journaled.ofExcept (plan.body t)
  Journaled.note [.lowered body.instructions.length plan.codeSize body.clauses.length
    plan.relaxed.passes plan.relaxed.widenings.length]
  return body

/-- The tree of a body, with notes. -/
def ofBodyJournaled (body : Body) : Journaled Tree := do
  let t ← Journaled.ofExcept (ofBody body)
  Journaled.note [.lifted body.instructions.length body.codeSize body.clauses.length
    t.labels.length]
  return t

end Tree

end MethodIL
