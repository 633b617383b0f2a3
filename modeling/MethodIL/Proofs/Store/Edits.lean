import Mathlib
import MethodIL.Proofs.Store.Work
import MethodIL.Tree.Edit
set_option autoImplicit false

/-!
# Edits of stored nodes

Every edit as work: what it asks before it rewrites the first node, in which order the nodes are rewritten,
and what is asked again on the way.  A label that has just been placed is checked like any other node, and
a handler is linked on its own side first.
-/

namespace MethodIL

namespace Work

/-- Something that is there, or the refusal for want of it. -/
def found {α : Type} (found? : Option α) (cause : EditFault) : Except EditFault α :=
  match found? with
  | some a => .ok a
  | none => .error cause

/-- A refusal, if it is due. -/
def denied (refused : Bool) (cause : EditFault) : Except EditFault Unit :=
  if refused then .error cause else .ok ()

theorem bind_denied {β : Type} (refused : Store → Bool) (cause : EditFault) (next : Unit → Work β)
    (s : Store) : (ask (fun s => denied (refused s) cause) >>= next) s =
      if refused s then (.error (.edit cause), s) else next () s := by
  rw [bind_ask, denied]
  cases refused s <;> rfl

/-! ## Placing -/

/-- Place a node behind the children of a block. -/
def append (parent node : NodeId) : Work Unit := do
  ask (·.checkInsertable parent node)
  let last ← look (·.lastChild? parent)
  link parent last none node

/-- Place a node in front of the children of a block. -/
def prepend (parent node : NodeId) : Work Unit := do
  ask (·.checkInsertable parent node)
  let first ← look (·.firstChild? parent)
  link parent none first node

/-- Place a node in front of another. -/
def insertBefore (anchor node : NodeId) : Work Unit := do
  let parent ← ask fun s => found (s.parent? anchor) (.noParent anchor)
  ask (·.checkInsertable parent node)
  let prev ← look (·.prev? anchor)
  link parent prev (some anchor) node

/-- Place a node behind another. -/
def insertAfter (anchor node : NodeId) : Work Unit := do
  let parent ← ask fun s => found (s.parent? anchor) (.noParent anchor)
  ask (·.checkInsertable parent node)
  let next ← look (·.next? anchor)
  link parent (some anchor) next node

/-! ## Cutting off -/

/-- Cut off a label that an instruction no longer refers to. -/
def cutOff (label : NodeId) : Work Unit := do
  recast label (Content.setOwner none)
  unlink label

/-- Take the labels from an instruction and out of the tree. -/
def unbindLabels (id : NodeId) : Work Unit := do
  let operation ← ask (·.operation id)
  let labels := operation.operand.targets
  if labels.isEmpty then return ()
  else
    recast id (Content.setOperation { operation with operand := .none })
    labels.forM cutOff

/-- Take the labels from an instruction below a block if one of them lies outside. -/
def dropOutside (block member : NodeId) : Work Unit := do
  match ← look (·.operation? member) with
  | none => return ()
  | some operation =>
    let outside ← look fun s => operation.operand.targets.any fun label => !s.isBelow block label
    if outside then unbindLabels member else return ()

/-- Prepare what lies below a block for being cut off. -/
def releaseBelow (block : NodeId) : Work Unit := do
  let members ← look (·.descendants block)
  members.forM fun member => ask (·.checkReleased block member)
  members.forM (dropOutside block)

/-- Take a node, with all below it, out of the block that holds it. -/
def remove (node : NodeId) : Work Unit := do
  ask fun _ => denied (node == Tree.root) .removesRoot
  ask fun s => denied (s.parent? node).isNone (.notAttached node)
  match ← ask (·.content node) with
  | .label (some owner) => refuse (.stillTarget node owner)
  | .label none => unlink node
  | .instruction _ =>
    unbindLabels node
    unlink node
  | .block kind _ =>
    ask fun _ => denied kind.isLinked (.linkedRegion node)
    releaseBelow node
    unlink node

/-! ## Dissolving and wrapping -/

/-- Link the children of a block, the first and the last of which are given, in its place. -/
def dissolve (block parent first last : NodeId) : Work Unit := do
  let old ← look (·.links block)
  let children ← look (·.children block)
  children.forM fun child => relink child ({ · with parent := some parent })
  relink first ({ · with prev := old.prev })
  relink last ({ · with next := old.next })
  leadOn parent old.prev (some first)
  leadBack parent old.next (some last)
  relink block fun _ => {}

/-- Dissolve a block. -/
def ungroup (block : NodeId) : Work Unit := do
  ask fun _ => denied (block == Tree.root) .ungroupsRoot
  let kind ← ask (·.blockKind block)
  ask fun _ => denied kind.isLinked (.linkedRegion block)
  let parent ← ask fun s => found (s.parent? block) (.notAttached block)
  let old ← look (·.links block)
  match old.first, old.last with
  | some first, some last => dissolve block parent first last
  | _, _ => unlink block

/-- Link a new block in place of a run of children. -/
def enclose (parent first last : NodeId) (run : List NodeId) (kind : BlockKind) : Work NodeId := do
  let prev ← look (·.prev? first)
  let next ← look (·.next? last)
  let block ← push (.block kind [])
  run.forM fun member => relink member ({ · with parent := some block })
  relink first ({ · with prev := none })
  relink last ({ · with next := none })
  relink block ({ · with first := some first, last := some last })
  link parent prev next block
  return block

/-- All nodes that are rewritten for a new block exist if those beside the run do. -/
theorem enclose_run {s : Store} {parent first last : NodeId} {run : List NodeId} {kind : BlockKind}
    (hlinks : (s.push (.block kind [])).links = s.links) (hparent : s.Has parent)
    (hrun : ∀ x ∈ run, s.Has x) (hfirst : first ∈ run) (hlast : last ∈ run)
    (hprev : ∀ x ∈ s.prev? first, s.Has x) (hnext : ∀ x ∈ s.next? last, s.Has x) :
    enclose parent first last run kind s = (.ok ⟨s.size⟩, { s.push (.block kind []) with
      links := s.links.enclose parent first last ⟨s.size⟩ run }) := by
  have hold : ∀ x, s.Has x → (s.push (.block kind [])).Has x := fun x hx => s.has_push.mpr (.inr hx)
  have hblock : (s.push (.block kind [])).Has ⟨s.size⟩ := s.has_push.mpr (.inl rfl)
  rw [enclose, bind_look, bind_look, bind_run_of_ok (push_run _)]
  generalize s.push (.block kind []) = grown at hlinks hold hblock ⊢
  obtain ⟨header, size, links, payload⟩ := grown
  obtain rfl : links = s.links := hlinks
  refine (bind_run_of_ok (adopt_run _ fun x hx => hold x (hrun x hx))).trans ?_
  refine (bind_run_of_ok (write_run (hold first (hrun first hfirst)))).trans ?_
  refine (bind_run_of_ok (write_run (hold last (hrun last hlast)))).trans ?_
  refine (bind_run_of_ok (write_run hblock)).trans ?_
  exact bind_run_of_ok (link_run hblock (hold parent hparent) (fun x hx => hold x (hprev x hx))
    fun x hx => hold x (hnext x hx))

/-- Wrap the run with the given ends into a block and answer the block. -/
def wrapRun (start stop first last : NodeId) (kind : BlockKind) : Work NodeId := do
  let parent ← ask fun s => found (s.parent? first) (.noSharedParent start stop)
  let run ← ask fun s => found (s.runTo last s.size first) (.outOfOrder start stop)
  let whole ← look fun s => (s.prev? first).isNone && (s.next? last).isNone
  let alike ← look fun s => (s.blockKind? parent).any (·.sameVariant kind)
  if whole && alike then return parent else enclose parent first last run kind

/-- Wrap a run into a block and answer the block. -/
def group (start stop : NodeId) (kind : BlockKind) : Work NodeId := do
  ask fun _ => denied (kind == .body) .groupsBody
  ask fun _ => denied kind.isLinked .groupsLinked
  let _ ← ask (·.content start)
  let _ ← ask (·.content stop)
  let (first, last) ← ask (·.runEnds start stop)
  wrapRun start stop first last kind

/-! ## New nodes and new operands -/

/-- Create an empty block of a kind that mentions no other region. -/
def newBlock (kind : BlockKind) : Work NodeId := do
  ask fun _ => denied (kind == .body) .secondBody
  ask fun _ => denied kind.isLinked .linkedBlock
  push (.block kind [])

/-- Create a label that no instruction refers to. -/
def newLabel : Work NodeId := push (.label none)

/-- Let a label refer to an instruction. -/
def bindLabel (owner label : NodeId) : Work Unit := do
  ask (·.checkUnbound label)
  recast label (Content.setOwner (some owner))

/-- Create an instruction and bind its labels one by one. -/
def newInstruction (operation : Operation NodeId) : Work NodeId := do
  let labels := operation.operand.targets
  if !Tree.acceptsOperand operation then
    throw (.unsupportedOperand (.treeMismatch operation.opcode operation.operand))
  else
    labels.forM fun label => ask (·.checkUnbound label)
    let id ← push (.instruction operation)
    labels.forM (bindLabel id)
    return id

/-- Replace the opcode of an instruction. -/
def setOpcode (id : NodeId) (opcode : Opcode) : Work Unit := do
  let operation ← ask (·.operation id)
  if Tree.acceptsOpcode operation opcode then recast id (Content.setOperation { operation with opcode })
  else throw (.unsupportedOperand (.incompatible operation.opcode opcode))

/-- Replace the operand of an instruction that has no targets. -/
def setOperand (id : NodeId) (operand : Operand NodeId) : Work Unit := do
  let operation ← ask (·.operation id)
  let opcode := operation.opcode
  if operand.fits opcode.operandType && !opcode.isBranch && !opcode.isSwitch then
    recast id (Content.setOperation { operation with operand })
  else throw (.unsupportedOperand (.treeMismatch opcode operand))

/-! ## Branch targets -/

/-- Place a new label in front of a node that a block holds. -/
def placeLabel (anchor : NodeId) : Work NodeId := do
  let _ ← ask fun s => found (s.parent? anchor) (.noParent anchor)
  let label ← newLabel
  insertBefore anchor label
  return label

/-- Place a new label in front of each node. -/
def placeLabels : List NodeId → Work (List NodeId)
  | [] => return []
  | anchor :: anchors => do
    let label ← placeLabel anchor
    let labels ← placeLabels anchors
    return label :: labels

/-- Give an instruction an operand of labels that are its own from now on. -/
def aim (id : NodeId) (operand : Operand NodeId) : Work Unit := do
  unbindLabels id
  let operation ← ask (·.operation id)
  recast id (Content.setOperation { operation with operand })
  operand.targets.forM (bindLabel id)

/-- Aim a branch at a node; the answer is the new label. -/
def setBranchTarget (id target : NodeId) : Work NodeId := do
  let isBranch ← look fun s => (s.operation? id).any fun operation => operation.opcode.isBranch
  ask fun _ => denied (!isBranch) (.notBranch id)
  let label ← placeLabel target
  aim id (.branch label)
  return label

/-- Aim a switch at nodes; the answer is the new labels. -/
def setSwitchTargets (id : NodeId) (targets : List NodeId) : Work (List NodeId) := do
  let isSwitch ← look fun s => (s.operation? id).any fun operation => operation.opcode.isSwitch
  ask fun _ => denied (!isSwitch) (.notSwitch id)
  match ← look fun s => targets.find? fun target => (s.parent? target).isNone with
  | some orphan => refuse (.noParent orphan)
  | none =>
    let labels ← placeLabels targets
    aim id (.switch labels)
    return labels

/-! ## Protected regions -/

/-- Change what a block is for; a node that is no block is refused. -/
def rekind (id : NodeId) (f : BlockKind → BlockKind) : Work Unit := do
  let _ ← ask (·.blockKind id)
  recast id (Content.mapKind f)

/-- Set the type that a catch handler catches. -/
def setCatchType (handler : NodeId) (token : Token) : Work Unit := do
  match ← ask (·.blockKind handler) with
  | .handler .catchClause region filterBlock _ =>
    recast handler (Content.mapKind fun _ => .handler .catchClause region filterBlock (some token))
  | _ => refuse (.notCatchHandler handler)

/-- Let a handler protect a region, behind the handlers that the region has. -/
def linkHandler (region handler : NodeId) : Work Unit := do
  let isTry ← look fun s => (s.blockKind? region).any (·.isTry)
  ask fun _ => denied (!isTry) (.notTry region)
  match ← ask (·.blockKind handler) with
  | .handler kind none filterBlock catchType =>
    recast handler (Content.mapKind fun _ => .handler kind (some region) filterBlock catchType)
    rekind region fun
      | .tryBlock handlers => .tryBlock (handlers ++ [handler])
      | kind => kind
  | .handler _ (some _) _ _ => refuse (.handlerTaken handler)
  | _ => refuse (.notHandler handler)

/-- Let a filter block decide about a filter handler that protects a region. -/
def linkFilter (filterBlock handler : NodeId) : Work Unit := do
  match ← look (·.blockKind? handler) with
  | some (.handler .filterClause (some region) none _) =>
    match ← ask (·.blockKind filterBlock) with
    | .filter none none =>
      recast filterBlock (Content.mapKind fun _ => .filter (some region) (some handler))
      rekind handler fun
        | .handler kind region _ catchType => .handler kind region (some filterBlock) catchType
        | kind => kind
    | _ => refuse (.notOpenFilter filterBlock)
  | _ => refuse (.notOpenFilterHandler handler)

/-- Undo all links of a handler: with its region and with its filter block. -/
def unlinkHandler (handler : NodeId) : Work Unit := do
  match ← ask (·.blockKind handler) with
  | .handler kind region filterBlock catchType =>
    recast handler (Content.mapKind fun _ => .handler kind none none catchType)
    region.forM fun region => rekind region fun
      | .tryBlock handlers => .tryBlock (handlers.filter fun other => other ≠ handler)
      | kind => kind
    filterBlock.forM fun filterBlock => rekind filterBlock fun
      | .filter _ _ => .newFilter
      | kind => kind
  | _ => refuse (.notHandler handler)

end Work

namespace Edit

/-- Do the work of an edit. -/
def perform : Edit → Work Reply
  | newInstruction operation => .node <$> Work.newInstruction operation
  | newBlock kind => .node <$> Work.newBlock kind
  | newLabel => .node <$> Work.newLabel
  | append parent node => (fun _ => .done) <$> Work.append parent node
  | prepend parent node => (fun _ => .done) <$> Work.prepend parent node
  | insertBefore anchor node => (fun _ => .done) <$> Work.insertBefore anchor node
  | insertAfter anchor node => (fun _ => .done) <$> Work.insertAfter anchor node
  | remove node => (fun _ => .done) <$> Work.remove node
  | ungroup block => (fun _ => .done) <$> Work.ungroup block
  | group start stop kind => .node <$> Work.group start stop kind
  | setOpcode node opcode => (fun _ => .done) <$> Work.setOpcode node opcode
  | setOperand node operand => (fun _ => .done) <$> Work.setOperand node operand
  | setCatchType handler token => (fun _ => .done) <$> Work.setCatchType handler token
  | linkHandler region handler => (fun _ => .done) <$> Work.linkHandler region handler
  | linkFilter filterBlock handler => (fun _ => .done) <$> Work.linkFilter filterBlock handler
  | unlinkHandler handler => (fun _ => .done) <$> Work.unlinkHandler handler
  | setBranchTarget node target => .node <$> Work.setBranchTarget node target
  | setSwitchTargets node targets => .nodes <$> Work.setSwitchTargets node targets
  | setHeader header => do
    modify fun s => { s with header }
    return .done

end Edit

end MethodIL
