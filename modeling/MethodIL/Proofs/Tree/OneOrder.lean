import Mathlib
import MethodIL.Tree.Listing
import MethodIL.Proofs.Tree.Traversals
import MethodIL.Proofs.Tree.Reachable
set_option autoImplicit false

/-!
# One order for all walks

A tree is walked along its links forwards and backwards, within a subtree, from its end, and with a
stack of nodes to come.  All of these walks follow the flat order.

A walk with a stack replaces the node on top by what is to come for it.  So what it does with a node
and all below it is told by induction on the tree, whatever waits beneath the node on the stack.
-/

namespace MethodIL

/-! ## Stacks of nodes to come -/

/-- What a walk has on its stack: a node to open or a block to close, and the level of the node. -/
structure Pending where
  node : NodeId
  level : Nat
  closing : Bool
  deriving DecidableEq

namespace Pending

/-- A node to open. -/
def toOpen (level : Nat) (node : NodeId) : Pending := ⟨node, level, false⟩

/-- A block to close. -/
def toClose (level : Nat) (node : NodeId) : Pending := ⟨node, level, true⟩

/-- What takes the place of an entry on the stack: an opened block leaves its children there, and
beneath them itself. -/
def replacement (t : Tree) (entry : Pending) : List Pending :=
  match entry.closing, t.content? entry.node with
  | false, some (.block _ children) =>
    children.map (toOpen (entry.level + 1)) ++ [toClose entry.level entry.node]
  | _, _ => []

/-- What a listing shows for an entry. -/
def lines (t : Tree) (labels : List NodeId) (entry : Pending) : List String :=
  match entry.closing, t.content? entry.node with
  | true, _ => [Tree.listedLine entry.level "\x7d"]
  | false, some (.block kind _) => [Tree.listedLine entry.level kind.opening]
  | false, some (.label _) => [Tree.listedLine entry.level (labelName labels entry.node ++ ":")]
  | false, some (.instruction operation) => [Tree.listedLine entry.level (operation.listed labels)]
  | false, none => []

/-- The nodes that are opened, in order. -/
def opened (entries : List Pending) : List NodeId :=
  (entries.filter fun entry => !entry.closing).map Pending.node

/-- The nodes that are closed, in order. -/
def closed (entries : List Pending) : List NodeId :=
  (entries.filter Pending.closing).map Pending.node

@[simp] theorem opened_append (entries entries' : List Pending) :
    opened (entries ++ entries') = opened entries ++ opened entries' := by
  simp [opened]

@[simp] theorem closed_append (entries entries' : List Pending) :
    closed (entries ++ entries') = closed entries ++ closed entries' := by
  simp [closed]

@[simp] theorem opened_toOpen (level : Nat) (node : NodeId) (entries : List Pending) :
    opened (toOpen level node :: entries) = node :: opened entries := rfl

@[simp] theorem closed_toOpen (level : Nat) (node : NodeId) (entries : List Pending) :
    closed (toOpen level node :: entries) = closed entries := rfl

@[simp] theorem opened_toClose (level : Nat) (node : NodeId) (entries : List Pending) :
    opened (toClose level node :: entries) = opened entries := rfl

@[simp] theorem closed_toClose (level : Nat) (node : NodeId) (entries : List Pending) :
    closed (toClose level node :: entries) = node :: closed entries := rfl

end Pending

namespace Tree

open Pending (toOpen toClose)

/-- A walk takes these entries from the top of its stack, one after the other, until the stack is
empty. -/
inductive WorksOff (t : Tree) : List Pending → List Pending → Prop
  | done : WorksOff t [] []
  | take {entry : Pending} {stack taken : List Pending}
      (h : WorksOff t (entry.replacement t ++ stack) taken) :
      WorksOff t (entry :: stack) (entry :: taken)

/-- From one stack there is only one walk. -/
theorem WorksOff.unique {t : Tree} {stack taken taken' : List Pending} (h : t.WorksOff stack taken)
    (h' : t.WorksOff stack taken') : taken = taken' := by
  induction h generalizing taken' with
  | done =>
    cases h'
    rfl
  | take _ ih =>
    cases h' with
    | take h' => rw [ih h']

/-- What a walk takes from its stack for nodes on top of it, all to be opened. -/
structure Passes (t : Tree) (level : Nat) (nodes : List NodeId) (own : List Pending) : Prop where
  /-- whatever waits beneath the nodes -/
  worksOff : ∀ {stack taken}, t.WorksOff stack taken →
    t.WorksOff (nodes.map (toOpen level) ++ stack) (own ++ taken)
  opened : Pending.opened own = nodes.flatMap t.preOrder
  closed : Pending.closed own =
    (nodes.flatMap t.postOrder).filter fun node => (t.blockKind? node).isSome
  /-- a block is closed when all below it has been opened -/
  spans : ∀ {before entry after}, own = before ++ entry :: after → entry.closing = true →
    ∃ outer, Pending.opened before = outer ++ t.preOrder entry.node
  lines : ∀ (labels : List NodeId) {limit : Nat}, (∀ id ∈ nodes, t.size ≤ limit + t.depth id) →
    own.flatMap (Pending.lines t labels) = nodes.flatMap (t.linesUpTo labels limit level)

variable {t : Tree}

/-! ## Walks with a stack -/

namespace Passes

variable {level : Nat}

theorem nil : t.Passes level [] [] where
  worksOff h := h
  opened := rfl
  closed := rfl
  spans h := absurd h (by simp)
  lines _ _ _ := rfl

theorem append {nodes nodes' : List NodeId} {own own' : List Pending} (h : t.Passes level nodes own)
    (h' : t.Passes level nodes' own') : t.Passes level (nodes ++ nodes') (own ++ own') where
  worksOff hrest := by
    rw [List.map_append, List.append_assoc, List.append_assoc]
    exact h.worksOff (h'.worksOff hrest)
  opened := by rw [Pending.opened_append, h.opened, h'.opened, List.flatMap_append]
  closed := by
    rw [Pending.closed_append, h.closed, h'.closed, List.flatMap_append, List.filter_append]
  spans {before entry after} hsplit hclosing := by
    cases List.append_eq_append_iff.mp hsplit with
    | inl hright =>
      obtain ⟨inner, hbefore, hown'⟩ := hright
      obtain ⟨outer, houter⟩ := h'.spans hown' hclosing
      refine ⟨Pending.opened own ++ outer, ?_⟩
      rw [hbefore, Pending.opened_append, houter, List.append_assoc]
    | inr hleft =>
      obtain ⟨inner, hown, hrest⟩ := hleft
      cases inner with
      | nil =>
        have hown' : own' = [] ++ entry :: after := hrest.symm
        obtain ⟨outer, houter⟩ := h'.spans hown' hclosing
        refine ⟨Pending.opened own ++ outer, ?_⟩
        rw [List.append_nil] at hown
        rw [← hown, List.append_assoc, ← houter]
        simp [Pending.opened]
      | cons first inner =>
        rw [List.cons_append, List.cons.injEq] at hrest
        rw [← hrest.1] at hown
        exact h.spans hown hclosing
  lines labels limit hlimit := by
    rw [List.flatMap_append, List.flatMap_append,
      h.lines labels fun id hid => hlimit id (List.mem_append_left _ hid),
      h'.lines labels fun id hid => hlimit id (List.mem_append_right _ hid)]

/-- A node that is no block is opened and done with. -/
theorem single (wf : t.WellFormed) {id : NodeId} (h : t.blockKind? id = none) :
    t.Passes level [id] [toOpen level id] := by
  have hplain : ∀ kind children, t.content? id ≠ some (.block kind children) := by
    intro kind children hcontent
    rw [blockKind?, hcontent] at h
    exact absurd h (by simp)
  have hchildren : t.children id = [] := children_eq_nil_of_blockKind? h
  refine ⟨fun hrest => .take ?_, ?_, ?_, fun {before entry after} hsplit hclosing => ?_,
    fun labels limit hlimit => ?_⟩
  · have hnothing : (toOpen level id).replacement t = [] := by
      rw [Pending.replacement, toOpen]
      split
      · next hcontent => exact absurd hcontent (hplain _ _)
      · rfl
    rwa [hnothing]
  · rw [List.flatMap_singleton, wf.preOrder_eq, hchildren]
    rfl
  · rw [List.flatMap_singleton, wf.postOrder_eq, hchildren]
    simp [h, Pending.closed, toOpen]
  · have hmem : entry ∈ [toOpen level id] := by
      rw [hsplit]
      exact List.mem_append_right _ List.mem_cons_self
    rw [List.mem_singleton.mp hmem] at hclosing
    exact absurd hclosing (by simp [toOpen])
  · have hlevel := hlimit id List.mem_cons_self
    rw [List.flatMap_singleton, List.flatMap_singleton, Pending.lines, toOpen]
    cases hcontent : t.content? id with
    | none => cases limit <;> simp [linesUpTo, hcontent]
    | some content =>
      have hexists : id.index < t.size := index_lt_of_content? hcontent
      have hdepth := wf.depth_lt hexists
      obtain ⟨limit, rfl⟩ : ∃ fewer, limit = fewer + 1 := ⟨limit - 1, by omega⟩
      rw [linesUpTo, hcontent]
      cases content with
      | block kind children => exact absurd hcontent (hplain kind children)
      | instruction operation => rfl
      | label owner => rfl

/-- A block is opened, then its children are, and then it is closed. -/
theorem block (wf : t.WellFormed) {id : NodeId} {kind : BlockKind} {inner : List Pending}
    (hkind : t.blockKind? id = some kind) (h : t.Passes (level + 1) (t.children id) inner) :
    t.Passes level [id] (toOpen level id :: (inner ++ [toClose level id])) := by
  have hcontent : t.content? id = some (.block kind (t.children id)) :=
    blockKind?_eq_some_iff.mp hkind
  have hopened : Pending.opened (toOpen level id :: inner) = t.preOrder id := by
    rw [Pending.opened_toOpen, h.opened, ← wf.preOrder_eq]
  refine ⟨fun {stack taken} hrest => .take ?_, ?_, ?_,
    fun {before entry after} hsplit hclosing => ?_, fun labels limit hlimit => ?_⟩
  · have hreplaced : (toOpen level id).replacement t =
        (t.children id).map (toOpen (level + 1)) ++ [toClose level id] := by
      rw [Pending.replacement, toOpen, hcontent]
    have hclose : t.WorksOff (toClose level id :: stack) (toClose level id :: taken) := .take hrest
    have hinner := h.worksOff hclose
    rw [hreplaced]
    simpa using hinner
  · rw [← List.cons_append, Pending.opened_append, hopened, List.flatMap_singleton]
    exact List.append_nil _
  · rw [Pending.closed_toOpen, Pending.closed_append, h.closed, List.flatMap_singleton,
      wf.postOrder_eq, List.filter_append]
    simp [hkind, Pending.closed, toClose]
  · cases before with
    | nil =>
      rw [List.nil_append, List.cons.injEq] at hsplit
      rw [← hsplit.1] at hclosing
      exact absurd hclosing (by simp [toOpen])
    | cons first before =>
      rw [List.cons_append, List.cons.injEq] at hsplit
      rw [← hsplit.1]
      cases List.eq_nil_or_concat after with
      | inl hnil =>
        rw [hnil] at hsplit
        obtain ⟨hinner, hentry⟩ := List.append_inj' hsplit.2 rfl
        refine ⟨[], ?_⟩
        rw [← hinner, hopened, ← (List.cons.inj hentry).1]
        rfl
      | inr hconcat =>
        obtain ⟨after, last, rfl⟩ := hconcat
        have hinner : inner = before ++ entry :: after := by
          have hsplit' : inner ++ [toClose level id] = (before ++ entry :: after) ++ [last] := by
            rw [hsplit.2]
            simp
          exact (List.append_inj' hsplit' rfl).1
        obtain ⟨outer, houter⟩ := h.spans hinner hclosing
        exact ⟨id :: outer, by rw [Pending.opened_toOpen, houter, List.cons_append]⟩
  · have hlevel := hlimit id List.mem_cons_self
    have hexists : id.index < t.size := index_lt_of_content? hcontent
    have hdepth := wf.depth_lt hexists
    obtain ⟨limit, rfl⟩ : ∃ fewer, limit = fewer + 1 := ⟨limit - 1, by omega⟩
    have hbelow : ∀ child ∈ t.children id, t.size ≤ limit + t.depth child := by
      intro child hchild
      have := wf.depth_of_parent ((wf.parent_iff child id).mpr hchild)
      omega
    rw [List.flatMap_cons, List.flatMap_append, h.lines labels hbelow, List.flatMap_singleton,
      List.flatMap_singleton, linesUpTo, hcontent]
    simp [Pending.lines, toOpen, toClose, hcontent]

end Passes

/-- A walk with a stack comes to its end with whatever nodes it has been given. -/
theorem WellFormed.exists_passes (wf : t.WellFormed) (level : Nat) (nodes : List NodeId) :
    ∃ own, t.Passes level nodes own := by
  have hlist : ∀ (level : Nat) (nodes : List NodeId),
      (∀ id ∈ nodes, ∃ own, t.Passes level [id] own) → ∃ own, t.Passes level nodes own := by
    intro level nodes hnodes
    induction nodes with
    | nil => exact ⟨[], .nil⟩
    | cons id nodes ih =>
      obtain ⟨own, hown⟩ := hnodes id List.mem_cons_self
      obtain ⟨others, hothers⟩ := ih fun x hx => hnodes x (List.mem_cons_of_mem id hx)
      exact ⟨own ++ others, hown.append hothers⟩
  apply hlist
  intro id hid
  clear hid
  induction id using wf.induction_below generalizing level with
  | step id ih =>
    cases hkind : t.blockKind? id with
    | none => exact ⟨_, .single wf hkind⟩
    | some kind =>
      obtain ⟨inner, hinner⟩ := hlist (level + 1) (t.children id) fun child hchild =>
        ih child hchild (level + 1)
      exact ⟨_, .block wf hkind hinner⟩

/-! ## The order -/

/-- All walks through a tree follow one order. -/
structure InOneOrder (t : Tree) : Prop where
  /-- the walk below a node ends, and does not leave what lies below the node -/
  below : ∀ id, Follows (t.stepInto (t.successorWithin? id)) (t.firstChild? id) (t.descendants id)
  once : ∀ id, (t.descendants id).Nodup
  isBelow_iff : ∀ id x, x ∈ t.descendants id ↔ t.isBelow id x = true
  depthFirst : ∀ id, t.descendants id = (t.children id).flatMap fun c => c :: t.descendants c
  siblings : ∀ id, Follows t.next? (t.firstChild? id) (t.children id)
  /-- the walk from the root visits the whole body -/
  whole : Follows t.nextInOrder? (some root) (root :: t.descendants root)
  back : ∀ a b, t.nextInOrder? a = some b ↔ t.prevInOrder? b = some a
  /-- a subtree is left for the first of the following nodes that does not lie below its top -/
  successor : ∀ a, ∃ after, Follows t.nextInOrder? (t.nextInOrder? a) after ∧
    t.successor? a = after.find? fun x => !t.isBelow a x
  /-- an instruction of the body stands between the next and the previous one -/
  neighbours : ∀ a, t.isAttached a = true → t.isInstruction a = true →
    ∃ before after, t.instructions = before ++ a :: after ∧ a ∉ before ∧ a ∉ after ∧
      t.nextInstruction? a = after.head? ∧ t.prevInstruction? a = before.getLast?
  last : ∀ id test, t.findLast? id test = ((t.descendants id).filter test).getLast?
  /-- the walk that lays out the code; what it has opened when it opens a node is the place of the
  node, and what it has opened in the meantime when it closes a block is what the block covers -/
  laidOut : ∃ taken, t.WorksOff [toOpen 0 root] taken ∧
    Pending.opened taken = root :: t.descendants root ∧
    Pending.closed taken = (t.postOrder root).filter (fun node => (t.blockKind? node).isSome) ∧
    ∀ before entry after, taken = before ++ entry :: after →
      if entry.closing then ∃ first, t.coverage? t.places entry.node =
        some (first, (Pending.opened before).countP t.isInstruction)
      else place? t.places entry.node = some ((Pending.opened before).countP t.isInstruction)
  /-- the walk that writes the listing -/
  listed : ∃ taken, t.WorksOff ((t.children root).map (toOpen 0)) taken ∧
    Pending.opened taken = t.descendants root ∧
    t.listing = s!".maxstack {t.header.maxStack.toNat}\n" ++
      String.join (taken.flatMap (Pending.lines t t.labels))

namespace WellFormed

variable (wf : t.WellFormed)

include wf

/-- The walk below a node does not leave what lies below it. -/
theorem follows_descendants (id : NodeId) :
    Follows (t.stepInto (t.successorWithin? id)) (t.firstChild? id) (t.descendants id) := by
  have hwalk := wf.follows_preOrder id
  rw [wf.preOrder_eq, ← wf.descendants_eq] at hwalk
  cases hwalk with
  | visit hrest =>
    rw [stepInto] at hrest
    cases hfirst : t.firstChild? id with
    | some child => rwa [hfirst] at hrest
    | none =>
      rw [firstChild?, List.head?_eq_none_iff] at hfirst
      rw [wf.descendants_eq, hfirst]
      exact .done

/-- The instructions next to an instruction of the body are its neighbours among the instructions. -/
theorem neighbours_of_isInstruction {a : NodeId} (hbody : a ∈ t.preOrder root)
    (ha : t.isInstruction a = true) :
    ∃ before after, t.instructions = before ++ a :: after ∧ a ∉ before ∧ a ∉ after ∧
      t.nextInstruction? a = after.head? ∧ t.prevInstruction? a = before.getLast? := by
  obtain ⟨before, after, horder⟩ := List.append_of_mem hbody
  have hnodup := wf.nodup_preOrder root
  have hlength := wf.length_preOrder_le root
  rw [horder, List.length_append, List.length_cons] at hlength
  rw [horder, List.append_cons] at hnodup
  obtain ⟨hbefore, hafter⟩ := notMem_beside_of_nodup hnodup (List.mem_singleton_self a)
  refine ⟨before.filter t.isInstruction, after.filter t.isInstruction, ?_, ?_, ?_, ?_, ?_⟩
  · rw [wf.instructions_eq, horder, List.filter_append, List.filter_cons_of_pos ha]
  · exact fun hmem => hbefore (List.mem_of_mem_filter hmem)
  · exact fun hmem => hafter (List.mem_of_mem_filter hmem)
  · rw [wf.nextInstruction?_eq wf.root_parent horder, List.head?_filter]
  · rw [prevInstruction?, wf.prevInstructionUpTo_eq horder (by omega)]

/-- The walk over the body with a stack knows the place of every node that it opens, and what every
block covers that it closes. -/
theorem place_of_passes {level : Nat} {before after : List Pending} {entry : Pending}
    (h : t.Passes level [root] (before ++ entry :: after)) :
    if entry.closing then ∃ first, t.coverage? t.places entry.node =
      some (first, (Pending.opened before).countP t.isInstruction)
    else place? t.places entry.node = some ((Pending.opened before).countP t.isInstruction) := by
  have hopened := h.opened
  rw [List.flatMap_singleton, Pending.opened_append] at hopened
  cases hclosing : entry.closing with
  | false =>
    rw [if_neg Bool.false_ne_true]
    have hentry : Pending.opened (entry :: after) = entry.node :: Pending.opened after := by
      simp [Pending.opened, hclosing]
    rw [hentry] at hopened
    exact wf.place?_eq hopened.symm
  | true =>
    rw [if_pos rfl]
    obtain ⟨outer, houter⟩ := h.spans rfl hclosing
    rw [houter, List.append_assoc] at hopened
    refine ⟨outer.countP t.isInstruction, wf.coverage?_eq_some_iff.mpr
      ⟨outer, _, hopened.symm, rfl, ?_⟩⟩
    rw [houter, List.countP_append]

end WellFormed

theorem Reachable.inOneOrder (h : t.Reachable) : t.InOneOrder := by
  have wf := h.wellFormed
  have hroot : t.preOrder root = [] ++ root :: t.descendants root := by
    rw [wf.descendants_eq, List.nil_append, ← wf.preOrder_eq]
  constructor
  case below => exact wf.follows_descendants
  case once => exact fun id => (wf.nodup_preOrder id).tail
  case isBelow_iff => exact fun id x => wf.mem_descendants_iff
  case depthFirst =>
    intro id
    rw [wf.descendants_eq]
    apply List.flatMap_congr
    intro c _
    rw [wf.descendants_eq, ← wf.preOrder_eq]
  case siblings => exact wf.follows_children
  case whole =>
    apply Follows.visit
    exact wf.follows_rest wf.root_parent hroot
  case back => exact fun a b => wf.nextInOrder?_eq_some_iff
  case successor =>
    intro a
    obtain ⟨top, htop, hmem⟩ := wf.exists_top a
    obtain ⟨before, after, horder⟩ := wf.exists_preOrder_append hmem
    refine ⟨t.descendants a ++ after, ?_, wf.successor?_eq_find? htop horder⟩
    apply wf.follows_rest htop
    rw [horder, wf.preOrder_eq a, ← wf.descendants_eq, List.cons_append]
  case neighbours =>
    intro a hattached ha
    apply wf.neighbours_of_isInstruction _ ha
    rw [isAttached, Bool.or_eq_true, beq_iff_eq] at hattached
    rw [wf.mem_preOrder_iff]
    simpa [isBelow] using hattached
  case last => exact wf.findLast?_eq
  case laidOut =>
    obtain ⟨taken, htaken⟩ := wf.exists_passes 0 [root]
    refine ⟨taken, ?_, ?_, ?_, ?_⟩
    · have hwalk := htaken.worksOff .done
      rwa [List.append_nil, List.append_nil] at hwalk
    · rw [htaken.opened, List.flatMap_singleton, wf.descendants_eq, ← wf.preOrder_eq]
    · rw [htaken.closed, List.flatMap_singleton]
    · intro before entry after hsplit
      rw [hsplit] at htaken
      exact wf.place_of_passes htaken
  case listed =>
    obtain ⟨taken, htaken⟩ := wf.exists_passes 0 (t.children root)
    refine ⟨taken, ?_, ?_, ?_⟩
    · have hwalk := htaken.worksOff .done
      rwa [List.append_nil, List.append_nil] at hwalk
    · rw [htaken.opened, wf.descendants_eq]
    · have hlevels : ∀ id ∈ t.children root, t.size ≤ t.size + t.depth id := fun _ _ =>
        Nat.le_add_right _ _
      rw [htaken.lines t.labels hlevels]
      rfl

/-- The last child of a block is a block without children, and a block that holds an instruction is no
part of the body. -/
def strayBlock : Tree :=
  (new default).runAll (List.replicate 3 (Edit.newBlock .plain) ++
    ((Opcode.find? .single 0x00).map fun nop =>
      List.replicate 3 (Edit.newInstruction ⟨nop, .none⟩)).getD [] ++
    [.append root ⟨4⟩, .append root ⟨1⟩, .append ⟨1⟩ ⟨5⟩, .append ⟨1⟩ ⟨2⟩, .append ⟨3⟩ ⟨6⟩])

/-- All walks through `strayBlock` follow one order, in which the empty block stands last. -/
theorem strayBlock_inOneOrder : strayBlock.Reachable ∧ strayBlock.InOneOrder ∧
    strayBlock.descendants root = [⟨4⟩, ⟨1⟩, ⟨5⟩, ⟨2⟩] ∧
    strayBlock.instructions = [⟨4⟩, ⟨5⟩] ∧ strayBlock.prevInOrder? ⟨6⟩ = some ⟨3⟩ := by
  have hreachable : strayBlock.Reachable := (Reachable.new default).runAll _
  have hviews : strayBlock.descendants root = [⟨4⟩, ⟨1⟩, ⟨5⟩, ⟨2⟩] ∧
      strayBlock.instructions = [⟨4⟩, ⟨5⟩] ∧ strayBlock.prevInOrder? ⟨6⟩ = some ⟨3⟩ := by
    decide +kernel
  exact ⟨hreachable, hreachable.inOneOrder, hviews⟩

end Tree

end MethodIL
