import Mathlib
import MethodIL.Proofs.Tree.Links
set_option autoImplicit false

/-!
# Nodes as they are stored

A tree is stored as nodes with links.  Everything that an edit has to know before it changes anything is
read from the links: the blocks around a node, the nodes below it, the run that two nodes stand for.  On
the links of a well-formed tree the walks end, and read what the tree holds.
-/

namespace MethodIL

/-- The items of a chain, but no more than `limit`. -/
def chain {α : Type} (next : α → Option α) : Nat → Option α → List α
  | 0, _ => []
  | _ + 1, none => []
  | limit + 1, some a => a :: chain next limit (next a)

theorem Follows.chain_eq {α : Type} {next : α → Option α} {start : Option α} {items : List α}
    (h : Follows next start items) {limit : Nat} (hlimit : items.length ≤ limit) :
    chain next limit start = items := by
  induction h generalizing limit with
  | done => cases limit <;> rfl
  | visit _ ih =>
    cases limit with
    | zero => exact absurd hlimit (Nat.not_succ_le_zero _)
    | succ limit => rw [chain, ih (Nat.le_of_succ_le_succ hlimit)]

/-- The nodes of a tree with their links.  What a block is for is kept with the block, and which nodes it
holds is told by the links. -/
@[ext] structure Store where
  header : Header
  size : Nat
  links : Linkage
  payload : NodeId → Option Content

namespace Store

variable (s : Store)

/-! ## Looking at a node -/

def parent? (id : NodeId) : Option NodeId := (s.links id).parent

def prev? (id : NodeId) : Option NodeId := (s.links id).prev

def next? (id : NodeId) : Option NodeId := (s.links id).next

def firstChild? (id : NodeId) : Option NodeId := (s.links id).first

def lastChild? (id : NodeId) : Option NodeId := (s.links id).last

/-- What a block is for. -/
def blockKind? (id : NodeId) : Option BlockKind :=
  match s.payload id with
  | some (.block kind _) => some kind
  | _ => none

/-- The operation of an instruction. -/
def operation? (id : NodeId) : Option (Operation NodeId) :=
  match s.payload id with
  | some (.instruction operation) => some operation
  | _ => none

/-- What a node is, or the fault that there is no such node. -/
def content (id : NodeId) : Except EditFault Content :=
  match s.payload id with
  | some content => .ok content
  | none => .error (.unknownNode id)

/-- What a block is for, or why there is no such block. -/
def blockKind (id : NodeId) : Except EditFault BlockKind := do
  match ← s.content id with
  | .block kind _ => return kind
  | _ => throw (.notBlock id)

/-- The operation of an instruction, or why there is no such instruction. -/
def operation (id : NodeId) : Except EditFault (Operation NodeId) := do
  match ← s.content id with
  | .instruction operation => return operation
  | _ => throw (.notInstruction id)

/-- The node is a label that no instruction refers to. -/
def checkUnbound (label : NodeId) : Except EditFault Unit := do
  match ← s.content label with
  | .label none => return ()
  | .label (some owner) => throw (.alreadyBound label owner)
  | _ => throw (.notLabel label)

/-! ## Walks -/

/-- The blocks around a node, from the inside. -/
def ancestors (id : NodeId) : List NodeId := chain s.parent? s.size (s.parent? id)

/-- The number of blocks around a node. -/
def depth (id : NodeId) : Nat := (s.ancestors id).length

/-- The node lies strictly below a block. -/
def isBelow (block id : NodeId) : Bool := (s.ancestors id).contains block

/-- The children of a block, in order. -/
def children (id : NodeId) : List NodeId := chain s.next? s.size (s.firstChild? id)

/-- Where a node at or below a block is left for without leaving the block. -/
def successorWithin? (bound id : NodeId) : Option NodeId :=
  ((id :: s.ancestors id).takeWhile (· ≠ bound)).findSome? s.next?

/-- The node behind a node in flat order, if it lies below the bound as well. -/
def nextBelow? (bound id : NodeId) : Option NodeId :=
  match s.firstChild? id with
  | some child => some child
  | none => s.successorWithin? bound id

/-- All below a node in flat order. -/
def descendants (id : NodeId) : List NodeId := chain (s.nextBelow? id) s.size (s.firstChild? id)

/-- The search for a node with a next sibling goes on with the block around a node that has none. -/
def searchUp (id : NodeId) : Option NodeId :=
  if (s.next? id).isSome then none else s.parent? id

/-- The node after a node and all below it. -/
def successor? (id : NodeId) : Option NodeId := (id :: s.ancestors id).findSome? s.next?

/-- The next node in flat order. -/
def nextInOrder? (id : NodeId) : Option NodeId :=
  match s.firstChild? id with
  | some child => some child
  | none => s.successor? id

/-- The nodes from one to its sibling `last`, but no more than `limit`. -/
def runTo (last : NodeId) : Nat → NodeId → Option (List NodeId)
  | 0, _ => none
  | limit + 1, id =>
    if id = last then some [id]
    else (s.next? id).bind fun next => (runTo last limit next).map (id :: ·)

/-! ## Questions of edits -/

/-- The node can become a child of the block. -/
def checkInsertable (parent node : NodeId) : Except EditFault Unit := do
  match ← s.content parent with
  | .block .. => pure ()
  | _ => throw (.notBlock parent)
  let _ ← s.content node
  if node == Tree.root || (s.parent? node).isSome then throw (.alreadyAttached node)
  if node == parent || s.isBelow node parent then throw (.containsItself node)

/-- Nothing about a node below a block keeps the block from being cut off. -/
def checkReleased (block member : NodeId) : Except EditFault Unit := do
  match ← s.content member with
  | .label (some owner) => if !s.isBelow block owner then throw (.targetedInside member block owner)
  | .block kind _ =>
    match kind.links.find? fun region => !s.isBelow block region with
    | some outside => throw (.linkedInside member block outside)
    | none => return ()
  | _ => return ()

/-- The block that a node opens. -/
def raiseFirst (node : NodeId) : Except EditFault NodeId :=
  if (s.prev? node).isSome then .error (.notFirstChild node)
  else match s.parent? node with
    | some parent => .ok parent
    | none => .error (.noParent node)

/-- The block that a node closes. -/
def raiseLast (node : NodeId) : Except EditFault NodeId :=
  if (s.next? node).isSome then .error (.notLastChild node)
  else match s.parent? node with
    | some parent => .ok parent
    | none => .error (.noParent node)

/-- The block that a node opens, `count` levels up. -/
def raiseFirstBy : Nat → NodeId → Except EditFault NodeId
  | 0, node => .ok node
  | count + 1, node => do raiseFirstBy count (← s.raiseFirst node)

/-- The block that a node closes, `count` levels up. -/
def raiseLastBy : Nat → NodeId → Except EditFault NodeId
  | 0, node => .ok node
  | count + 1, node => do raiseLastBy count (← s.raiseLast node)

/-- Raise both ends together until one block holds both, but no more than `limit` levels. -/
def raiseTogether : Nat → NodeId → NodeId → Except EditFault (NodeId × NodeId)
  | 0, first, last => .ok (first, last)
  | limit + 1, first, last =>
    if s.parent? first = s.parent? last then .ok (first, last)
    else do
      let first ← s.raiseFirst first
      let last ← s.raiseLast last
      raiseTogether limit first last

/-- The ends of the run that two nodes stand for. -/
def runEnds (start stop : NodeId) : Except EditFault (NodeId × NodeId) := do
  let depths := (s.depth start, s.depth stop)
  let first ← s.raiseFirstBy (depths.1 - depths.2) start
  let last ← s.raiseLastBy (depths.2 - depths.1) stop
  s.raiseTogether (min depths.1 depths.2) first last

end Store

/-! ## Trees as they are stored -/

namespace Tree

variable {t : Tree}

/-- The nodes of a tree with their links. -/
def stored (t : Tree) : Store := ⟨t.header, t.size, t.links, t.payload?⟩

@[simp] theorem stored_parent? (id : NodeId) : t.stored.parent? id = t.parent? id := rfl

@[simp] theorem stored_prev? (id : NodeId) : t.stored.prev? id = t.prev? id := rfl

@[simp] theorem stored_next? (id : NodeId) : t.stored.next? id = t.next? id := rfl

@[simp] theorem stored_firstChild? (id : NodeId) : t.stored.firstChild? id = t.firstChild? id := rfl

@[simp] theorem stored_lastChild? (id : NodeId) : t.stored.lastChild? id = t.lastChild? id := rfl

@[simp] theorem stored_blockKind? (id : NodeId) : t.stored.blockKind? id = t.blockKind? id := by
  simp only [Store.blockKind?, stored, payload?, blockKind?]
  cases t.content? id with
  | none => rfl
  | some content => cases content <;> rfl

@[simp] theorem stored_operation? (id : NodeId) : t.stored.operation? id = t.operation? id := by
  simp only [Store.operation?, stored, payload?, operation?]
  cases t.content? id with
  | none => rfl
  | some content => cases content <;> rfl

theorem stored_content (id : NodeId) :
    t.stored.content id = (Content.mapChildren fun _ => []) <$> t.content id := by
  simp only [Store.content, stored, payload?, content]
  cases t.content? id <;> rfl

@[simp] theorem stored_blockKind (id : NodeId) : t.stored.blockKind id = t.blockKind id := by
  rw [Store.blockKind, blockKind, stored_content]
  cases t.content id with
  | error => rfl
  | ok content => cases content <;> rfl

@[simp] theorem stored_operation (id : NodeId) : t.stored.operation id = t.operation id := by
  rw [Store.operation, operation, stored_content]
  cases t.content id with
  | error => rfl
  | ok content => cases content <;> rfl

@[simp] theorem stored_checkUnbound (label : NodeId) :
    t.stored.checkUnbound label = t.checkUnbound label := by
  rw [Store.checkUnbound, checkUnbound, stored_content]
  cases t.content label with
  | error => rfl
  | ok content => cases content <;> rfl

@[simp] theorem stored_raiseFirst (id : NodeId) : t.stored.raiseFirst id = t.raiseFirst id := rfl

@[simp] theorem stored_raiseLast (id : NodeId) : t.stored.raiseLast id = t.raiseLast id := rfl

theorem stored_raiseFirstBy (count : Nat) (id : NodeId) :
    t.stored.raiseFirstBy count id = t.raiseFirstBy count id := by
  induction count generalizing id with
  | zero => rfl
  | succ count ih => simp only [Store.raiseFirstBy, raiseFirstBy, stored_raiseFirst, ih]

theorem stored_raiseLastBy (count : Nat) (id : NodeId) :
    t.stored.raiseLastBy count id = t.raiseLastBy count id := by
  induction count generalizing id with
  | zero => rfl
  | succ count ih => simp only [Store.raiseLastBy, raiseLastBy, stored_raiseLast, ih]

theorem stored_raiseTogether (limit : Nat) (first last : NodeId) :
    t.stored.raiseTogether limit first last = t.raiseTogether limit first last := by
  induction limit generalizing first last with
  | zero => rfl
  | succ limit ih =>
    simp only [Store.raiseTogether, raiseTogether, stored_raiseFirst, stored_raiseLast, ih]
    rfl

/-- Nodes that are all different and exist are no more than there are. -/
theorem length_le_size {ids : List NodeId} (hnodup : ids.Nodup) (h : ∀ id ∈ ids, id.index < t.size) :
    ids.length ≤ t.size := by
  have hindexes : (ids.map NodeId.index).Nodup :=
    hnodup.map fun a b hab => by cases a; cases b; exact congrArg NodeId.mk hab
  have hsub : ids.map NodeId.index ⊆ List.range t.size := fun i hi => by
    obtain ⟨id, hid, rfl⟩ := List.mem_map.mp hi
    exact List.mem_range.mpr (h id hid)
  simpa using (hindexes.subperm hsub).length_le

namespace WellFormed

variable (wf : t.WellFormed)

include wf

@[simp] theorem stored_ancestors (id : NodeId) : t.stored.ancestors id = t.ancestors id := by
  refine (wf.follows_ancestors id).chain_eq ?_
  cases hparent : t.parent? id with
  | none => simp [wf.ancestors_of_no_parent hparent]
  | some p => exact Nat.le_of_lt (wf.length_ancestorsUpTo_lt _ (wf.exists_of_parent hparent).1)

@[simp] theorem stored_isBelow (block id : NodeId) : t.stored.isBelow block id = t.isBelow block id := by
  rw [Store.isBelow, isBelow, wf.stored_ancestors]

theorem exists_of_mem_children {block id : NodeId} (h : id ∈ t.children block) : id.index < t.size :=
  (wf.exists_of_parent ((wf.parent_iff id block).mpr h)).1

@[simp] theorem stored_children (block : NodeId) : t.stored.children block = t.children block :=
  (wf.follows_children block).chain_eq
    (length_le_size (wf.nodup block) fun _ => wf.exists_of_mem_children)

theorem exists_of_mem_descendants {block id : NodeId} (h : id ∈ t.descendants block) :
    id.index < t.size := by
  rw [wf.descendants_eq] at h
  obtain ⟨child, hchild, hid⟩ := List.mem_flatMap.mp h
  rcases wf.mem_preOrder_iff.mp hid with rfl | habove
  · exact wf.exists_of_mem_children hchild
  · cases hparent : t.parent? id with
    | none => exact absurd habove (by simp [wf.ancestors_of_no_parent hparent])
    | some p => exact (wf.exists_of_parent hparent).1

theorem stored_nextBelow? (bound : NodeId) :
    t.stored.nextBelow? bound = t.stepInto (t.successorWithin? bound) := by
  funext id
  simp only [Store.nextBelow?, stepInto, Store.successorWithin?, successorWithin?,
    wf.stored_ancestors, stored_firstChild?]
  rfl

@[simp] theorem stored_descendants (block : NodeId) :
    t.stored.descendants block = t.descendants block := by
  have hwalk := wf.follows_preOrder block
  have hself : t.stepInto (t.successorWithin? block) block = t.firstChild? block := by
    rw [stepInto, successorWithin?, List.takeWhile_cons_of_neg (by simp)]
    cases t.firstChild? block <;> rfl
  have hnodup := wf.nodup_preOrder block
  rw [wf.preOrder_eq, ← wf.descendants_eq] at hwalk hnodup
  cases hwalk with
  | visit hwalk =>
    rw [hself] at hwalk
    rw [Store.descendants, wf.stored_nextBelow?]
    exact hwalk.chain_eq (length_le_size (List.nodup_cons.mp hnodup).2 fun _ =>
      wf.exists_of_mem_descendants)

theorem stored_successor? (id : NodeId) : t.stored.successor? id = t.successor? id := by
  rw [Store.successor?, successor?, wf.stored_ancestors]
  rfl

theorem stored_nextInOrder? : t.stored.nextInOrder? = t.nextInOrder? := by
  funext id
  rw [Store.nextInOrder?, nextInOrder?, wf.stored_successor?]
  rfl

theorem stored_checkInsertable (parent node : NodeId) :
    t.stored.checkInsertable parent node = t.checkInsertable parent node := by
  simp only [Store.checkInsertable, checkInsertable, stored_content, wf.stored_isBelow, stored_parent?]
  cases t.content parent with
  | error => rfl
  | ok content =>
    cases content with
    | block => cases t.content node <;> rfl
    | _ => rfl

/-- A node that exists is found to keep a block from being cut off as in the tree. -/
theorem stored_checkReleased (block : NodeId) {member : NodeId} (hmember : member.index < t.size) :
    t.stored.checkReleased block member = Option.elim (t.heldBy? block member) (.ok ()) .error := by
  obtain ⟨content, hcontent⟩ := Option.isSome_iff_exists.mp ((isSome_content?_iff t member).mpr hmember)
  simp only [Store.checkReleased, heldBy?, stored_content, Tree.content, hcontent, wf.stored_isBelow]
  cases content with
  | block kind items =>
    cases hfind : kind.links.find? fun region => !t.isBelow block region <;>
      simp only [Functor.map, Except.map, Content.mapChildren, bind, Except.bind, hfind] <;> rfl
  | instruction => rfl
  | label owner =>
    cases owner with
    | none => rfl
    | some owner =>
      cases hbelow : t.isBelow block owner <;>
        simp only [Functor.map, Except.map, Content.mapChildren, bind, Except.bind, hbelow] <;> rfl

theorem stored_runEnds (start stop : NodeId) : t.stored.runEnds start stop = t.runEnds start stop := by
  simp only [Store.runEnds, runEnds, Store.depth, depth, wf.stored_ancestors, stored_raiseFirstBy,
    stored_raiseLastBy, stored_raiseTogether]

/-- From a child on, the next siblings are read up to the first that is the last of the run. -/
theorem stored_runTo_child {parent last : NodeId} {rest : List NodeId} :
    ∀ {id : NodeId} {before : List NodeId} {limit : Nat}, t.children parent = before ++ id :: rest →
      rest.length < limit → t.stored.runTo last limit id =
        ((id :: rest).dropWhile (· ≠ last)).head?.map fun stop =>
          (id :: rest).takeWhile (· ≠ last) ++ [stop] := by
  induction rest with
  | nil =>
    intro id before limit hitems hlimit
    obtain ⟨limit, rfl⟩ := Nat.exists_eq_succ_of_ne_zero (Nat.ne_of_gt hlimit)
    rw [Store.runTo, stored_next?, wf.next?_eq hitems]
    by_cases hid : id = last <;> simp [hid]
  | cons next rest ih =>
    intro id before limit hitems hlimit
    obtain ⟨limit, rfl⟩ := Nat.exists_eq_succ_of_ne_zero (Nat.ne_of_gt (Nat.zero_lt_of_lt hlimit))
    have hrest : t.children parent = before ++ [id] ++ next :: rest := by simp [hitems]
    rw [Store.runTo, stored_next?, wf.next?_eq hitems, List.head?_cons, Option.bind_some,
      ih hrest (Nat.lt_of_succ_lt_succ hlimit)]
    by_cases hid : id = last
    · simp [hid]
    · rw [if_neg hid, List.dropWhile_cons_of_pos (a := id) (by simpa using hid),
        List.takeWhile_cons_of_pos (a := id) (by simpa using hid), Option.map_map]
      rfl

/-- A run is read along the next siblings from its first node as it is cut out of the children. -/
theorem stored_runTo {parent first last : NodeId} (hfirst : t.parent? first = some parent) :
    t.stored.runTo last t.size first =
      (splitRun? first last (t.children parent)).map fun parts => parts.2.1 := by
  have hitems := List.takeWhile_append_dropWhile (p := (· ≠ first)) (l := t.children parent)
  obtain ⟨rest, hrest⟩ : ∃ rest, (t.children parent).dropWhile (· ≠ first) = first :: rest := by
    have hmem := (wf.parent_iff first parent).mp hfirst
    cases hdrop : (t.children parent).dropWhile (· ≠ first) with
    | nil => exact absurd (List.dropWhile_eq_nil_iff.mp hdrop first hmem) (by simp)
    | cons id rest =>
      have hhead := List.head?_dropWhile_not (p := (· ≠ first)) (l := t.children parent)
      rw [hdrop] at hhead
      exact ⟨rest, by simpa using hhead⟩
  rw [hrest] at hitems
  have hlength : rest.length < t.size := by
    have := length_le_size (wf.nodup parent) fun _ => wf.exists_of_mem_children
    rw [← hitems, List.length_append, List.length_cons] at this
    omega
  rw [wf.stored_runTo_child hitems.symm hlength, splitRun?, hrest]
  cases (first :: rest).dropWhile (· ≠ last) <;> rfl

end WellFormed

end Tree

end MethodIL
