import Mathlib
import MethodIL.Proofs.Opcode.Forms
import MethodIL.Proofs.Tree.FlatOrder
import MethodIL.Stack.Heights
set_option autoImplicit false

/-!
# The machine of a tree

The machine says how control and the stack height move through a tree: what can be visited with
which height.  Labels and blocks pass control on, instructions change the height, and whatever is
visited in a protected region may raise an exception and end up in a handler.
-/

namespace MethodIL

/-! ## Where control goes after an instruction -/

namespace Opcode

/-- Only branches and switches that are not `leave` hand their height to labels. -/
theorem flow_of_hasTargets {op : Opcode} (hleave : op.isLeave = false)
    (h : (op.isBranch || op.isSwitch) = true) :
    op.flow = .unconditionalBranch ∨ op.flow = .conditionalBranch ∨ op.flow = .switch := by
  have hall : ∀ op ∈ all, op.isLeave = false → (op.isBranch || op.isSwitch) = true →
      (op.flow = .unconditionalBranch ∨ op.flow = .conditionalBranch ∨ op.flow = .switch) := by
    decide +kernel
  exact hall op (mem_all op) hleave h

/-- An instruction after which control may go to labels is a branch or a switch. -/
theorem hasTargets_of_flow {op : Opcode}
    (h : op.flow = .unconditionalBranch ∨ op.flow = .conditionalBranch ∨ op.flow = .switch) :
    (op.isBranch || op.isSwitch) = true := by
  have hall : ∀ op ∈ all,
      (op.flow = .unconditionalBranch ∨ op.flow = .conditionalBranch ∨ op.flow = .switch) →
        (op.isBranch || op.isSwitch) = true := by
    decide +kernel
  exact hall op (mem_all op) h

end Opcode

/-- The height behind the entry of a block: a handler that receives an exception finds it on the
stack. -/
def BlockKind.entryHeight (kind : BlockKind) (height : Int) : Int :=
  if kind.receivesException then max height 1 else height

theorem BlockKind.le_entryHeight (kind : BlockKind) (height : Int) :
    height ≤ kind.entryHeight height := by
  unfold entryHeight
  split
  · exact le_max_left height 1
  · exact le_refl height

theorem BlockKind.entryHeight_mono (kind : BlockKind) {a b : Int} (h : a ≤ b) :
    kind.entryHeight a ≤ kind.entryHeight b := by
  unfold entryHeight
  split
  · exact max_le_max_right 1 h
  · exact h

namespace Tree

variable (t : Tree) (r : Resolver)

/-- An instruction that is no `leave` and is entered with one height leaves another behind. -/
inductive Exits (id : NodeId) (height exit : Int) : Prop
  | intro {operation : Operation NodeId} {effect : StackEffect}
      (hoperation : t.operation? id = some operation)
      (hleave : operation.opcode.isLeave = false)
      (heffect : operation.stackEffect r = .ok effect)
      (hexit : exit = height - effect.pops + effect.pushes)

/-- Control moves from one node to another, and the height changes with it. -/
inductive Moves (id : NodeId) (height : Int) : NodeId → Int → Prop
  | label {next : NodeId} (hlabel : t.isLabel id = true) (hnext : t.successor? id = some next) :
      Moves id height next height
  | block {kind : BlockKind} {next : NodeId} (hkind : t.blockKind? id = some kind)
      (hnext : t.nextInOrder? id = some next) :
      Moves id height next (kind.entryHeight height)
  | next {operation : Operation NodeId} {next : NodeId} {exit : Int}
      (hoperation : t.operation? id = some operation)
      (hflow : operation.opcode.flow.endsBlock = false)
      (hexits : t.Exits r id height exit) (hnext : t.successor? id = some next) :
      Moves id height next exit
  | target {operation : Operation NodeId} {label : NodeId} {exit : Int}
      (hoperation : t.operation? id = some operation)
      (hbranch : (operation.opcode.isBranch || operation.opcode.isSwitch) = true)
      (hexits : t.Exits r id height exit) (hlabel : label ∈ t.labelsOf id) :
      Moves id height label exit
  | leave {operation : Operation NodeId} {label : NodeId}
      (hoperation : t.operation? id = some operation)
      (hleave : operation.opcode.isLeave = true) (hlabel : label ∈ t.labelsOf id) :
      Moves id height label 0

/-- A node is visited with a height. -/
inductive Visits : NodeId → Int → Prop
  | start {first : NodeId} (hfirst : t.firstChild? root = some first) : Visits first 0
  | moves {id next : NodeId} {height height' : Int} (h : Visits id height)
      (hmoves : t.Moves r id height next height') : Visits next height'
  | handler {region handler id : NodeId} {height : Int} {handlers : List NodeId}
      (hregion : t.blockKind? region = some (.tryBlock handlers))
      (h : Visits id height) (hinside : id = region ∨ t.isBelow region id = true)
      (hhandler : handler ∈ handlers) : Visits handler 0
  | filter {region handler filterBlock id : NodeId} {height : Int} {handlers : List NodeId}
      {kind : HandlerKind} {owner : Option NodeId} {catchType : Option Token}
      (hregion : t.blockKind? region = some (.tryBlock handlers))
      (h : Visits id height) (hinside : id = region ∨ t.isBelow region id = true)
      (hhandler : handler ∈ handlers)
      (hfilter : t.blockKind? handler =
        some (.handler kind owner (some filterBlock) catchType)) :
      Visits filterBlock 0

variable {t r}

/-! ## Exits -/

theorem Exits.unique {id : NodeId} {height a b : Int} (ha : t.Exits r id height a)
    (hb : t.Exits r id height b) : a = b := by
  obtain ⟨hop, _, heffect, rfl⟩ := ha
  obtain ⟨hop', _, heffect', rfl⟩ := hb
  obtain rfl := Option.some.inj (hop.symm.trans hop')
  obtain rfl := Except.ok.inj (heffect.symm.trans heffect')
  rfl

/-- What is entered higher is left higher. -/
theorem Exits.raise {id : NodeId} {height exit : Int} (h : t.Exits r id height exit)
    {higher : Int} (hle : height ≤ higher) : ∃ exit', t.Exits r id higher exit' ∧ exit ≤ exit' := by
  obtain ⟨hop, hleave, heffect, rfl⟩ := h
  exact ⟨_, ⟨hop, hleave, heffect, rfl⟩, by omega⟩

/-- The height does not decide whether there is an exit. -/
theorem Exits.exists_at {id : NodeId} {height exit : Int} (h : t.Exits r id height exit)
    (other : Int) : ∃ exit', t.Exits r id other exit' := by
  obtain ⟨hop, hleave, heffect, _⟩ := h
  exact ⟨_, hop, hleave, heffect, rfl⟩

/-- From a greater height every move leads to the same node with a height that is no smaller. -/
theorem Moves.raise {id next : NodeId} {height height' : Int}
    (h : t.Moves r id height next height') {higher : Int} (hle : height ≤ higher) :
    ∃ higher', t.Moves r id higher next higher' ∧ height' ≤ higher' := by
  cases h with
  | label hlabel hnext => exact ⟨higher, .label hlabel hnext, hle⟩
  | block hkind hnext => exact ⟨_, .block hkind hnext, BlockKind.entryHeight_mono _ hle⟩
  | next hop hflow hexits hnext =>
    obtain ⟨exit', hexits', hle'⟩ := hexits.raise hle
    exact ⟨exit', .next hop hflow hexits' hnext, hle'⟩
  | target hop hbranch hexits hlabel =>
    obtain ⟨exit', hexits', hle'⟩ := hexits.raise hle
    exact ⟨exit', .target hop hbranch hexits' hlabel, hle'⟩
  | leave hop hleave hlabel => exact ⟨0, .leave hop hleave hlabel, le_refl 0⟩

/-! ## Where control goes from each kind of node -/

section Kinds

variable {id next : NodeId} {height higher : Int}

/-- A label passes control on to what stands behind it. -/
theorem moves_of_isLabel_iff (h : t.isLabel id = true) :
    t.Moves r id height next higher ↔ t.successor? id = some next ∧ higher = height := by
  obtain ⟨owner, hcontent⟩ := isLabel_iff.mp h
  constructor
  · intro hmoves
    cases hmoves with
    | label _ hnext => exact ⟨hnext, rfl⟩
    | block hkind => simp [blockKind?, hcontent] at hkind
    | next hop | target hop | leave hop => simp [operation?, hcontent] at hop
  · rintro ⟨hnext, rfl⟩
    exact .label h hnext

/-- A block passes control on to its first child, or to what stands behind it. -/
theorem moves_of_blockKind?_iff {kind : BlockKind} (h : t.blockKind? id = some kind) :
    t.Moves r id height next higher ↔
      t.nextInOrder? id = some next ∧ higher = kind.entryHeight height := by
  have hcontent := blockKind?_eq_some_iff.mp h
  constructor
  · intro hmoves
    cases hmoves with
    | label hlabel => simp [isLabel, hcontent] at hlabel
    | block hkind hnext =>
      obtain rfl := Option.some.inj (h.symm.trans hkind)
      exact ⟨hnext, rfl⟩
    | next hop | target hop | leave hop => simp [operation?, hcontent] at hop
  · rintro ⟨hnext, rfl⟩
    exact .block h hnext

variable {operation : Operation NodeId} (hop : t.operation? id = some operation)

include hop

theorem Exits.isLeave_eq_false {exit : Int} (h : t.Exits r id height exit) :
    operation.opcode.isLeave = false := by
  obtain ⟨hop', hleave, -, -⟩ := h
  obtain rfl := Option.some.inj (hop.symm.trans hop')
  exact hleave

/-- A `leave` goes to its labels with an empty stack. -/
theorem moves_of_isLeave_iff (hleave : operation.opcode.isLeave = true) :
    t.Moves r id height next higher ↔ next ∈ t.labelsOf id ∧ higher = 0 := by
  have hcontent := operation?_eq_some_iff.mp hop
  constructor
  · intro hmoves
    cases hmoves with
    | label hlabel => simp [isLabel, hcontent] at hlabel
    | block hkind => simp [blockKind?, hcontent] at hkind
    | next _ _ hexits | target _ _ hexits =>
      exact absurd (hexits.isLeave_eq_false hop) (by simp [hleave])
    | leave _ _ hlabel => exact ⟨hlabel, rfl⟩
  · rintro ⟨hlabel, rfl⟩
    exact .leave hop hleave hlabel

/-- Any other instruction hands on the height that it leaves behind: to the next node, unless it ends its
block, and to its labels if it is a branch or a switch. -/
theorem moves_of_exits_iff {exit : Int} (hexits : t.Exits r id height exit) :
    t.Moves r id height next higher ↔ higher = exit ∧
      (operation.opcode.flow.endsBlock = false ∧ t.successor? id = some next ∨
        (operation.opcode.isBranch || operation.opcode.isSwitch) = true ∧ next ∈ t.labelsOf id) := by
  have hcontent := operation?_eq_some_iff.mp hop
  have hother := hexits.isLeave_eq_false hop
  constructor
  · intro hmoves
    cases hmoves with
    | label hlabel => simp [isLabel, hcontent] at hlabel
    | block hkind => simp [blockKind?, hcontent] at hkind
    | next hop' hflow hexits' hnext =>
      obtain rfl := Option.some.inj (hop.symm.trans hop')
      exact ⟨hexits'.unique hexits, Or.inl ⟨hflow, hnext⟩⟩
    | target hop' hbranch hexits' hlabel =>
      obtain rfl := Option.some.inj (hop.symm.trans hop')
      exact ⟨hexits'.unique hexits, Or.inr ⟨hbranch, hlabel⟩⟩
    | leave hop' hleave =>
      obtain rfl := Option.some.inj (hop.symm.trans hop')
      simp [hother] at hleave
  · rintro ⟨rfl, ⟨hflow, hnext⟩ | ⟨hbranch, hlabel⟩⟩
    · exact .next hop hflow hexits hnext
    · exact .target hop hbranch hexits hlabel

end Kinds

/-! ## The header -/

theorem ancestors_header (t : Tree) (header : Header) (id : NodeId) :
    ({ t with header } : Tree).ancestors id = t.ancestors id := by
  have hupTo : ∀ limit id, ({ t with header } : Tree).ancestorsUpTo limit id =
      t.ancestorsUpTo limit id := by
    intro limit
    induction limit with
    | zero => exact fun _ => rfl
    | succ limit ih =>
      intro id
      rw [ancestorsUpTo, ancestorsUpTo, show ({ t with header } : Tree).parent? id = t.parent? id
        from rfl]
      cases t.parent? id with
      | none => rfl
      | some parent => exact congrArg (parent :: ·) (ih parent)
  exact hupTo t.size id

theorem preOrder_header (t : Tree) (header : Header) (id : NodeId) :
    ({ t with header } : Tree).preOrder id = t.preOrder id := by
  have hupTo : ∀ limit id, ({ t with header } : Tree).preOrderUpTo limit id =
      t.preOrderUpTo limit id := by
    intro limit
    induction limit with
    | zero => exact fun _ => rfl
    | succ limit ih =>
      intro id
      rw [preOrderUpTo, preOrderUpTo, funext ih]
      rfl
  exact hupTo t.size id

theorem instructions_header (t : Tree) (header : Header) :
    ({ t with header } : Tree).instructions = t.instructions := by
  rw [instructions, instructions, descendants, descendants, preOrder_header]
  rfl

theorem successor?_header (t : Tree) (header : Header) (id : NodeId) :
    ({ t with header } : Tree).successor? id = t.successor? id := by
  rw [successor?, successor?, ancestors_header]
  rfl

theorem nextInOrder?_header (t : Tree) (header : Header) (id : NodeId) :
    ({ t with header } : Tree).nextInOrder? id = t.nextInOrder? id := by
  rw [nextInOrder?, nextInOrder?, successor?_header]
  rfl

theorem exits_header {header : Header} {id : NodeId} {height exit : Int} :
    ({ t with header } : Tree).Exits r id height exit ↔ t.Exits r id height exit := by
  constructor <;> exact fun ⟨hop, hleave, heffect, hexit⟩ => ⟨hop, hleave, heffect, hexit⟩

/-- The machine does not read the header. -/
theorem Moves.of_header {header : Header} {id next : NodeId} {height height' : Int}
    (h : ({ t with header } : Tree).Moves r id height next height') :
    t.Moves r id height next height' := by
  cases h with
  | label hlabel hnext =>
    rw [successor?_header] at hnext
    exact .label hlabel hnext
  | block hkind hnext =>
    rw [nextInOrder?_header] at hnext
    exact .block hkind hnext
  | next hop hflow hexit hnext =>
    rw [successor?_header] at hnext
    exact .next hop hflow (exits_header.mp hexit) hnext
  | target hop hbranch hexit hlabel => exact .target hop hbranch (exits_header.mp hexit) hlabel
  | leave hop hleave hlabel => exact .leave hop hleave hlabel

/-- The machine does not read the header. -/
theorem Visits.of_header {header : Header} {id : NodeId} {height : Int}
    (h : ({ t with header } : Tree).Visits r id height) : t.Visits r id height := by
  induction h with
  | start hfirst => exact .start hfirst
  | moves _ hmoves ih => exact .moves ih hmoves.of_header
  | handler hregion _ hinside hhandler ih =>
    rw [isBelow, ancestors_header] at hinside
    exact .handler hregion ih hinside hhandler
  | filter hregion _ hinside hhandler hfilter ih =>
    rw [isBelow, ancestors_header] at hinside
    exact .filter hregion ih hinside hhandler hfilter

end Tree

end MethodIL
