import MethodIL.Tree.Edit
set_option autoImplicit false

/-!
# The tree of a body

A flat body becomes a tree in three steps.  Every instruction becomes a child of the root.  Every
clause of the exception table wraps the ranges it names into blocks and links them.  Every branch
offset becomes a label in front of the instruction it leads to, or in front of the region that this
instruction opens if the region lies deeper than the branch.
-/

namespace MethodIL

/-! ## Where instructions stand -/

/-- The offsets at which instructions start, and the size of the code. -/
structure CodeMap where
  starts : List Nat
  size : Nat
  deriving DecidableEq, Repr

namespace CodeMap

/-- The offsets of instructions from a position on, if every recorded size is right and the code
stays within its limit; the last offset is the end of the code. -/
def startsFrom (position : Nat) : List Instruction → Except Fault (List Nat)
  | [] => .ok [position]
  | i :: code => do
    match i.encodedSize with
    | .error cause => throw (.unsupportedOperand cause)
    | .ok size =>
      if size ≠ i.size then
        throw (.malformed (.wrongSize i.opcode position i.size.toNat size.toNat))
      if UInt32.size ≤ position + size.toNat then throw (.malformed .codeBeyondLimit)
      let starts ← startsFrom (position + size.toNat) code
      return position :: starts

/-- The map of a code stream. -/
def ofCode (code : List Instruction) : Except Fault CodeMap := do
  let starts ← startsFrom 0 code
  return ⟨starts.dropLast, starts.getLastD 0⟩

/-- The place of the instruction that starts at an offset. -/
def indexAt (map : CodeMap) (offset : Nat) : Except FormatFault Nat :=
  match map.starts.idxOf? offset with
  | some index => .ok index
  | none => .error (.offBoundary offset)

/-- The first and the last instruction of a range.  A range that runs past the code ends with the
code. -/
def span (map : CodeMap) (offset length : Nat) : Except FormatFault (Nat × Nat) := do
  if length == 0 then throw (.emptyRange offset)
  let first ← map.indexAt offset
  if map.size ≤ offset + length then return (first, map.starts.length - 1)
  return (first, (← map.indexAt (offset + length)) - 1)

/-- The place of the instruction that an offset from the end of an instruction leads to. -/
def branchTarget (map : CodeMap) (behind : Nat) (relative : Int32) : Except FormatFault Nat :=
  let target := behind + relative.toInt
  if 0 ≤ target && target < map.size then map.indexAt target.toNat
  else .error (.targetOutside target map.size)

end CodeMap

/-- Two ranges, each an offset and a length, share a byte. -/
def rangesOverlap (a b : Nat × Nat) : Bool :=
  a.1 < b.1 + b.2 && b.1 < a.1 + a.2

namespace Tree

/-! ## Instructions -/

/-- The node that stands for an instruction of the body. -/
def instructionNode (index : Nat) : NodeId := ⟨index + 1⟩

/-- A tree of a root with instructions below it, still without branch targets. -/
def ofCode (header : Header) (code : List Instruction) : Tree :=
  let below := (List.range code.length).map instructionNode
  let leaves := code.map fun i : Instruction =>
    (⟨some root, .instruction ⟨i.opcode, i.operand.withoutTargets⟩⟩ : Node)
  ⟨header, (⟨none, .block .body below⟩ :: leaves).toArray⟩

/-! ## Clauses -/

/-- Wrap a range of instructions for a clause. -/
def wrapSpan (t : Tree) (clause : Nat) (span : Nat × Nat) (kind : BlockKind) :
    Except Fault (NodeId × Bool × Tree) :=
  match t.wrap (instructionNode span.1) (instructionNode span.2) kind with
  | .ok wrapped => .ok wrapped
  | .error cause => .error (.malformed (.clauseRegion clause cause))

/-- A handler or filter block that no clause has taken yet. -/
def isOpenRegion (t : Tree) (region : NodeId) : Bool :=
  match t.blockKind? region with
  | some (.handler _ none _ _) => true
  | some (.filter none _) => true
  | _ => false

/-- Turn a refused edit into a fault. -/
def orFault {α : Type} (outcome : Except EditFault α) : Except Fault α :=
  outcome.mapError .edit

/-- Turn a format fault into a fault. -/
def orMalformed {α : Type} (outcome : Except FormatFault α) : Except Fault α :=
  outcome.mapError .malformed

/-- Wrap the handler of a clause, and its filter.  A filter and its handler have to become
siblings, so the range of both is wrapped first and dissolved again afterwards. -/
def wrapHandler (map : CodeMap) (index : Nat) (clause : Clause) (handlerSpan : Nat × Nat)
    (t : Tree) : Except Fault (NodeId × Option NodeId × Tree) := do
  if clause.kind ≠ .filterClause then
    let (handler, _, t) ← t.wrapSpan index handlerSpan (.newHandler clause.kind)
    return (handler, none, t)
  match clause.filterOffset with
  | none => throw (.malformed (.filterWithoutOffset index))
  | some filterStart =>
    let start := filterStart.toNat
    let handlerStart := clause.handlerOffset.toNat
    let handlerLength := clause.handlerLength.toNat
    if handlerStart ≤ start then throw (.malformed (.filterBehindHandler index start))
    let length := handlerStart - start
    if rangesOverlap (clause.tryOffset.toNat, clause.tryLength.toNat) (start, length) then
      throw (.malformed (.filterOverlap index))
    if UInt32.size ≤ length + handlerLength then throw (.malformed (.oversizedHandler index))
    let bothSpan ← orMalformed (map.span start (length + handlerLength))
    let filterSpan ← orMalformed (map.span start length)
    let (scope, isNew, t) ← t.wrapSpan index bothSpan .plain
    let (filterBlock, _, t) ← t.wrapSpan index filterSpan .newFilter
    let (handler, _, t) ← t.wrapSpan index handlerSpan (.newHandler .filterClause)
    let t ← if isNew then orFault (t.ungroup scope) else pure t
    return (handler, some filterBlock, t)

/-- Wrap and link the regions of a clause. -/
def addClause (map : CodeMap) (t : Tree) (index : Nat) (clause : Clause) : Except Fault Tree := do
  let tryRange := (clause.tryOffset.toNat, clause.tryLength.toNat)
  let handlerRange := (clause.handlerOffset.toNat, clause.handlerLength.toNat)
  if rangesOverlap tryRange handlerRange then throw (.malformed (.handlerOverlap index))
  let trySpan ← orMalformed (map.span tryRange.1 tryRange.2)
  let handlerSpan ← orMalformed (map.span handlerRange.1 handlerRange.2)
  let (region, _, t) ← t.wrapSpan index trySpan .newTry
  let (handler, filterBlock, t) ← wrapHandler map index clause handlerSpan t
  match (handler :: filterBlock.toList).find? fun block => !t.isOpenRegion block with
  | some block => throw (.malformed (.regionInUse index block))
  | none =>
    let t ← orFault (t.linkHandler region handler)
    let t ← match filterBlock with
      | some filterBlock => orFault (t.linkFilter filterBlock handler)
      | none => pure t
    if clause.kind ≠ .catchClause then return t
    match clause.catchType with
    | some token => orFault (t.setCatchType handler token)
    | none => return t

/-- Wrap and link the regions of clauses in the order of the table, from place `index` on. -/
def addClauses (map : CodeMap) : Nat → List Clause → Tree → Except Fault Tree
  | _, [], t => return t
  | index, clause :: clauses, t => do
    if map.starts.isEmpty then throw (.malformed (.clauseWithoutCode index))
    addClauses map (index + 1) clauses (← addClause map t index clause)

/-! ## Branches -/

/-- Only labels stand in front of the node among its siblings. -/
def leadsBlock (t : Tree) (id : NodeId) : Bool :=
  ((t.siblings id).takeWhile (· ≠ id)).all t.isLabel

/-- Raise a node of the given depth to the block that it opens, as long as it lies deeper than
`level`; the root is never reached. -/
def raiseTo (t : Tree) (level : Nat) : Nat → NodeId → NodeId
  | 0, id => id
  | depth + 1, id =>
    if level < depth + 1 && t.leadsBlock id then
      match t.parent? id with
      | some parent => if parent = root then id else raiseTo t level depth parent
      | none => id
    else id

/-- The node that the label of a jump goes in front of.  A jump to the first instruction of a
deeper region leads to the region.  A `leave` steps out of its own block, so for it one level less
counts. -/
def labelAnchor (t : Tree) (branch target : NodeId) (isLeave : Bool) : NodeId :=
  let level := if isLeave then t.depth branch - 1 else t.depth branch
  t.raiseTo level (t.depth target) target

/-- Replace the offsets of an instruction by labels. -/
def aimInstruction (map : CodeMap) (t : Tree) (index start : Nat) (i : Instruction) :
    Except Fault Tree := do
  let node := instructionNode index
  let anchor (isLeave : Bool) (relative : Int32) : Except Fault NodeId := do
    let target ← orMalformed (map.branchTarget (start + i.size.toNat) relative)
    return t.labelAnchor node (instructionNode target) isLeave
  match i.operand with
  | .branch relative =>
    let target ← anchor i.opcode.isLeave relative
    return (← orFault (t.setBranchTarget node target)).2
  | .switch relatives =>
    let targets ← relatives.mapM (anchor false)
    return (← orFault (t.setSwitchTargets node targets)).2
  | _ => return t

/-- Replace the offsets of instructions by labels, in order, from place `index` on. -/
def aimInstructions (map : CodeMap) : Nat → List (Nat × Instruction) → Tree → Except Fault Tree
  | _, [], t => return t
  | index, (start, i) :: code, t => do
    aimInstructions map (index + 1) code (← aimInstruction map t index start i)

/-! ## The whole body -/

/-- The tree of a body. -/
def ofBody (body : Body) : Except Fault Tree := do
  let map ← CodeMap.ofCode body.instructions
  let t ← addClauses map 0 body.clauses (ofCode body.header body.instructions)
  aimInstructions map 0 (map.starts.zip body.instructions) t

end Tree

end MethodIL
