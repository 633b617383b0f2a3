import Mathlib
import MethodIL.Proofs.Stack.Exact
set_option autoImplicit false

/-!
# An analysis step by step

The analysis as a machine that nothing limits.  It takes the first arrival from its list, climbs
through the blocks around it, and walks from it until the walk stops; what it finds on the way joins
the end of the list.

A step of a walk leads to the node right behind in flat order.  A step records an instruction only
with a height of sixteen bits above the one recorded before, and it puts the handlers of a protected
region on the list only when the region was not entered before.  So there are no more than `2 ^ 16`
records of an instruction, and the handlers of a region come on the list once.
-/

namespace MethodIL

namespace StackHeights

variable {t : Tree} {r : Resolver}

instance (height : Int) : Decidable (InBounds height) := inferInstanceAs (Decidable (_ ∧ _))

theorem State.entries_enter (t : Tree) (s : State) (block : NodeId) :
    (s.enter t block).entries = s.entries := by
  rcases s.enter_cases t block with ⟨hsame, _⟩ | ⟨_, _, _, henter⟩
  · rw [hsame]
  · rw [henter]
    rfl

theorem seen_eq_false_iff {s : State} {id : NodeId} {height : Int} :
    seen s id height = false ↔ ∀ known, s.entry id = some known → known < height := by
  rw [seen, State.entry, Option.any_eq_false]
  simp

/-! ## The machine -/

/-- What an analysis is at: between two walks, on the way up through the blocks around an arrival,
or on a walk. -/
inductive Phase where
  | waiting
  | climbing (block? : Option NodeId) (arrival : Arrival)
  | walking (next? : Option NodeId) (height : Int)
  deriving DecidableEq, Repr

/-- A walk goes on behind an instruction that has an exit, and stops at others. -/
def Phase.behind (t : Tree) (id : NodeId) (height : Int) : Option Int → Phase
  | some exit => .walking (t.successor? id) exit
  | none => .walking none height

/-- An analysis between two steps. -/
structure Config where
  walks : Nat
  state : State
  /-- the arrivals from before the current walk -/
  waiting : List Arrival
  phase : Phase

namespace Config

/-- Control arrives at the start of the body. -/
def start (t : Tree) : Config :=
  ⟨0, .start t, standing (t.firstChild? Tree.root) 0, .waiting⟩

/-- Make a step, unless no arrival is left. -/
def next? (t : Tree) (r : Resolver) (c : Config) : Except Fault (Option Config) :=
  match c.phase with
  | .waiting =>
    match c.waiting with
    | [] => .ok none
    | a :: waiting =>
      .ok (some { c with
        walks := c.walks + 1, waiting, phase := .climbing (t.parent? a.node) a })
  | .climbing (some block) a =>
    .ok (some { c with
      state := c.state.enter t block, phase := .climbing (t.parent? block) a })
  | .climbing none a => .ok (some { c with phase := .walking (some a.node) a.height })
  | .walking none _ =>
    .ok (some { c with
      state := { c.state with found := [] }
      waiting := c.waiting ++ c.state.found.reverse
      phase := .waiting })
  | .walking (some id) height =>
    match t.content? id with
    | none => .error (.edit (.unknownNode id))
    | some (.label _) => .ok (some { c with phase := .walking (t.successor? id) height })
    | some (.block kind _) =>
      .ok (some { c with
        state := c.state.enter t id
        phase := .walking (t.nextInOrder? id) (kind.entryHeight height) })
    | some (.instruction operation) =>
      match execute (Context.ofTree t r) c.state id operation height with
      | .error fault => .error fault
      | .ok (state, exit) => .ok (some { c with state, phase := .behind t id height exit })

/-- The arrivals that are noted, in the order in which they are taken. -/
def noted (c : Config) : List Arrival := c.waiting ++ c.state.found.reverse

/-- The node that the next step deals with. -/
def node? (c : Config) : Option NodeId :=
  match c.phase with
  | .waiting => none
  | .climbing block? _ => block?
  | .walking next? _ => next?

/-- The protected region whose handlers the next step puts on the list. -/
def queued? (t : Tree) (c : Config) : Option NodeId :=
  c.node?.filter fun id => (t.blockKind? id).any (·.isTry) && !c.state.isEntered id

/-- The height with which the next step records an instruction. -/
def recorded? (t : Tree) (id : NodeId) (c : Config) : Option Int :=
  match c.phase with
  | .walking next? height =>
    if next? = some id ∧ t.isInstruction id = true ∧ seen c.state id height = false ∧
        InBounds height then some height
    else none
  | _ => none

theorem recorded?_eq_some_iff {c : Config} {id : NodeId} {height : Int} :
    c.recorded? t id = some height ↔
      c.phase = .walking (some id) height ∧ t.isInstruction id = true ∧
        (∀ known, c.state.entry id = some known → known < height) ∧ InBounds height := by
  obtain ⟨walks, s, waiting, phase⟩ := c
  rw [← seen_eq_false_iff]
  cases phase with
  | waiting | climbing => simp [recorded?]
  | walking next? height' =>
    simp only [recorded?, Option.ite_none_right_eq_some, Option.some.injEq, Phase.walking.injEq]
    constructor
    · rintro ⟨⟨rfl, hinstruction, hseen, hbounds⟩, rfl⟩
      exact ⟨⟨rfl, rfl⟩, hinstruction, hseen, hbounds⟩
    · rintro ⟨⟨rfl, rfl⟩, hinstruction, hseen, hbounds⟩
      exact ⟨⟨rfl, hinstruction, hseen, hbounds⟩, rfl⟩

/-- A step that deals with no instruction, or with another one, does not record this one. -/
theorem recorded?_eq_none {c : Config} {id : NodeId}
    (h : c.node? = some id → t.isInstruction id = false) : c.recorded? t id = none := by
  rw [Option.eq_none_iff_forall_ne_some]
  intro height hrecorded
  obtain ⟨hphase, hinstruction, -, -⟩ := recorded?_eq_some_iff.mp hrecorded
  rw [h (by rw [node?, hphase])] at hinstruction
  exact absurd hinstruction (by simp)

theorem queued?_eq_some_iff {c : Config} {region : NodeId} :
    c.queued? t = some region ↔
      c.node? = some region ∧ (∃ handlers, t.blockKind? region = some (.tryBlock handlers)) ∧
        c.state.isEntered region = false := by
  have htry : (t.blockKind? region).any (·.isTry) = true ↔
      ∃ handlers, t.blockKind? region = some (.tryBlock handlers) := by
    cases t.blockKind? region with
    | none => simp
    | some kind => cases kind <;> simp [BlockKind.isTry]
  rw [queued?, Option.filter_eq_some_iff, Bool.and_eq_true, htry, Bool.not_eq_true']

end Config

/-! ## What a step does -/

/-- The steps of an analysis that do not fail. -/
inductive Steps (t : Tree) (r : Resolver) : Config → Config → Prop
  | take (walks : Nat) (s : State) (waiting : List Arrival) (a : Arrival) :
      Steps t r ⟨walks, s, a :: waiting, .waiting⟩
        ⟨walks + 1, s, waiting, .climbing (t.parent? a.node) a⟩
  | climb (walks : Nat) (s : State) (waiting : List Arrival) (block : NodeId) (a : Arrival) :
      Steps t r ⟨walks, s, waiting, .climbing (some block) a⟩
        ⟨walks, s.enter t block, waiting, .climbing (t.parent? block) a⟩
  | arrive (walks : Nat) (s : State) (waiting : List Arrival) (a : Arrival) :
      Steps t r ⟨walks, s, waiting, .climbing none a⟩
        ⟨walks, s, waiting, .walking (some a.node) a.height⟩
  | label (walks : Nat) (s : State) (waiting : List Arrival) {id : NodeId} (height : Int)
      (hlabel : t.isLabel id = true) :
      Steps t r ⟨walks, s, waiting, .walking (some id) height⟩
        ⟨walks, s, waiting, .walking (t.successor? id) height⟩
  | block (walks : Nat) (s : State) (waiting : List Arrival) {id : NodeId} (height : Int)
      {kind : BlockKind} (hkind : t.blockKind? id = some kind) :
      Steps t r ⟨walks, s, waiting, .walking (some id) height⟩
        ⟨walks, s.enter t id, waiting, .walking (t.nextInOrder? id) (kind.entryHeight height)⟩
  | instruction (walks : Nat) {s s' : State} (waiting : List Arrival) {id : NodeId} {height : Int}
      {operation : Operation NodeId} {exit : Option Int} (hop : t.operation? id = some operation)
      (hexec : Executes r s id operation height s' exit) :
      Steps t r ⟨walks, s, waiting, .walking (some id) height⟩
        ⟨walks, s', waiting, .behind t id height exit⟩
  | stop (walks : Nat) (s : State) (waiting : List Arrival) (height : Int) :
      Steps t r ⟨walks, s, waiting, .walking none height⟩
        ⟨walks, { s with found := [] }, waiting ++ s.found.reverse, .waiting⟩

theorem steps_of_next? {c c' : Config} (h : c.next? t r = .ok (some c')) : Steps t r c c' := by
  obtain ⟨walks, s, waiting, phase⟩ := c
  rcases phase with _ | ⟨_ | block, a⟩ | ⟨_ | id, height⟩
  case waiting =>
    cases waiting with
    | nil => simp [Config.next?] at h
    | cons a waiting =>
      obtain rfl := Option.some.inj (Except.ok.inj h)
      exact .take walks s waiting a
  case climbing.none =>
    obtain rfl := Option.some.inj (Except.ok.inj h)
    exact .arrive walks s waiting a
  case climbing.some =>
    obtain rfl := Option.some.inj (Except.ok.inj h)
    exact .climb walks s waiting block a
  case walking.none =>
    obtain rfl := Option.some.inj (Except.ok.inj h)
    exact .stop walks s waiting height
  case walking.some =>
    simp only [Config.next?] at h
    split at h
    · exact absurd h (by simp)
    · next owner hcontent =>
      obtain rfl := Option.some.inj (Except.ok.inj h)
      exact .label walks s waiting height (by rw [Tree.isLabel, hcontent])
    · next kind children hcontent =>
      obtain rfl := Option.some.inj (Except.ok.inj h)
      exact .block walks s waiting height (by rw [Tree.blockKind?, hcontent])
    · next operation hcontent =>
      split at h
      · exact absurd h (by simp)
      · next s' exit hexec =>
        obtain rfl := Option.some.inj (Except.ok.inj h)
        exact .instruction walks waiting (Tree.operation?_eq_some_iff.mpr hcontent)
          (executes_of_execute hexec)

/-- How the list of arrivals changes in a step: the first is taken, or handlers join it, which come
with a region that is entered, or targets, which come with an instruction that is recorded. -/
inductive Notes (t : Tree) (c c' : Config) : Prop
  | kept (h : c'.noted = c.noted)
  | taken {a : Arrival} (h : c.noted = a :: c'.noted)
  | handlers {region : NodeId} {handlers : List NodeId} (hqueued : c.queued? t = some region)
      (hkind : t.blockKind? region = some (.tryBlock handlers))
      (h : c'.noted = c.noted ++
        (handlers.flatMap (State.handlerEntries t)).map fun entry => ⟨entry, 0⟩)
  | targets {id : NodeId} {operation : Operation NodeId} {labels : List NodeId} (exit : Int)
      (hrecorded : (c.recorded? t id).isSome = true) (hop : t.operation? id = some operation)
      (hlabels : labels = operation.operand.targets ∨ labels = [])
      (h : c'.noted = c.noted ++ labels.map fun label => ⟨label, exit⟩)

/-- What one step does to heights, regions and the list. -/
structure Changes (t : Tree) (c c' : Config) : Prop where
  /-- heights change where they are recorded, and nowhere else -/
  recorded : ∀ id, c'.state.entry id = (c.recorded? t id).or (c.state.entry id)
  /-- regions are entered where their handlers come on the list, and nowhere else -/
  entered : ∀ region, c'.state.isEntered region =
    (c.state.isEntered region || decide (c.queued? t = some region))
  list : Notes t c c'

/-- An instruction that is executed was seen as high before, and nothing changes, or it is recorded,
and its targets join the list. -/
theorem Executes.seen_or_recorded {s s' : State} {id : NodeId} {operation : Operation NodeId}
    {height : Int} {exit : Option Int} (h : Executes r s id operation height s' exit)
    (hindex : id.index < s.entries.size) :
    ((∃ known, s.entry id = some known ∧ height ≤ known) ∧ s' = s) ∨
      (∀ known, s.entry id = some known → known < height) ∧ InBounds height ∧
        (∀ x, s'.entry x = if x = id then some height else s.entry x) ∧
          ∃ (labels : List NodeId) (out : Int),
            (labels = operation.operand.targets ∨ labels = []) ∧
              s'.found = (labels.map fun label => (⟨label, out⟩ : Arrival)).reverse ++ s.found := by
  cases h with
  | seen hentry hle => exact Or.inl ⟨⟨_, hentry, hle⟩, rfl⟩
  | leave hnew hbounds _ =>
    exact Or.inr ⟨hnew, hbounds, State.entry_record hindex height, _, 0, Or.inl rfl,
      State.found_arrive _ _ _⟩
  | moves hnew hbounds =>
    refine Or.inr ⟨hnew, hbounds, State.entry_record hindex height, _, _, ?_,
      State.found_arrive _ _ _⟩
    split
    · exact Or.inl rfl
    · exact Or.inr rfl

namespace Config

/-- A step that deals with no block does not put handlers on the list. -/
theorem queued?_eq_none {c : Config} (h : ∀ id, c.node? = some id → t.blockKind? id = none) :
    c.queued? t = none := by
  rw [Option.eq_none_iff_forall_ne_some]
  intro region hqueued
  obtain ⟨hnode, ⟨handlers, hkind⟩, -⟩ := queued?_eq_some_iff.mp hqueued
  rw [h region hnode] at hkind
  exact absurd hkind (by simp)

end Config

namespace Changes

variable {c c' : Config}

/-- A step that neither records an instruction nor enters a region. -/
theorem of_idle (hrecorded : ∀ id, c.recorded? t id = none) (hqueued : c.queued? t = none)
    (hentries : c'.state.entries = c.state.entries) (hentered : c'.state.entered = c.state.entered)
    (hlist : Notes t c c') : Changes t c c' where
  recorded id := by rw [hrecorded, Option.none_or, State.entry, hentries, State.entry]
  entered region := by
    rw [hqueued, decide_eq_false (by simp), Bool.or_false, State.isEntered, hentered,
      State.isEntered]
  list := hlist

/-- A step that enters a block, which may be a region. -/
theorem of_enter {block : NodeId} (hrecorded : ∀ id, c.recorded? t id = none)
    (hnode : c.node? = some block) (hstate : c'.state = c.state.enter t block)
    (hwaiting : c'.waiting = c.waiting) : Changes t c c' := by
  rcases c.state.enter_cases t block with ⟨hsame, hold⟩ | ⟨handlers, hkind, hnew, henter⟩
  · have hqueued : c.queued? t = none := by
      rw [Option.eq_none_iff_forall_ne_some]
      intro region hqueued
      obtain ⟨hnode', ⟨handlers, hkind⟩, hnew⟩ := Config.queued?_eq_some_iff.mp hqueued
      obtain rfl := Option.some.inj (hnode.symm.trans hnode')
      rw [hold handlers hkind] at hnew
      exact absurd hnew (by simp)
    rw [hsame] at hstate
    exact of_idle hrecorded hqueued (by rw [hstate]) (by rw [hstate])
      (.kept (by rw [Config.noted, hstate, hwaiting, Config.noted]))
  · have hqueued : c.queued? t = some block :=
      Config.queued?_eq_some_iff.mpr ⟨hnode, ⟨handlers, hkind⟩, hnew⟩
    constructor
    case recorded =>
      intro id
      rw [hrecorded, Option.none_or, hstate, State.entry_enter]
    case entered =>
      intro region
      rw [hqueued, hstate, henter, Bool.or_comm]
      refine (State.isEntered_set c.state block region).trans ?_
      simp [eq_comm]
    case list =>
      refine .handlers hqueued hkind ?_
      rw [Config.noted, hstate, henter, hwaiting, State.found_arrive, List.reverse_append,
        List.reverse_reverse, ← List.append_assoc]
      rfl

/-- A step that executes an instruction, and records it unless it was seen as high before. -/
theorem of_executes {id : NodeId} {operation : Operation NodeId} {height : Int} {exit : Option Int}
    (hphase : c.phase = .walking (some id) height) (hop : t.operation? id = some operation)
    (hexec : Executes r c.state id operation height c'.state exit)
    (hindex : id.index < c.state.entries.size) (hwaiting : c'.waiting = c.waiting) :
    Changes t c c' := by
  have hinstruction : t.isInstruction id = true := by rw [Tree.isInstruction, hop]; rfl
  have hnode : c.node? = some id := by rw [Config.node?, hphase]
  have hqueued : c.queued? t = none := by
    refine Config.queued?_eq_none fun x hx => ?_
    obtain rfl := Option.some.inj (hnode.symm.trans hx)
    rw [Tree.blockKind?, Tree.operation?_eq_some_iff.mp hop]
  rcases hexec.seen_or_recorded hindex with
    ⟨⟨known, hentry, hle⟩, hsame⟩ | ⟨hnew, hbounds, hentry, labels, out, hlabels, hfound⟩
  · have hrecorded : ∀ x, c.recorded? t x = none := by
      intro x
      rw [Option.eq_none_iff_forall_ne_some]
      intro height' hrecorded
      obtain ⟨hphase', -, hnew, -⟩ := Config.recorded?_eq_some_iff.mp hrecorded
      simp only [hphase, Phase.walking.injEq, Option.some.injEq] at hphase'
      obtain ⟨rfl, rfl⟩ := hphase'
      exact absurd (hnew known hentry) (not_lt.mpr hle)
    exact of_idle hrecorded hqueued (by rw [hsame]) (by rw [hsame])
      (.kept (by rw [Config.noted, hsame, hwaiting, Config.noted]))
  · have hrecorded : c.recorded? t id = some height :=
      Config.recorded?_eq_some_iff.mpr ⟨hphase, hinstruction, hnew, hbounds⟩
    constructor
    case recorded =>
      intro x
      rw [hentry]
      split
      case isTrue heq => rw [heq, hrecorded, Option.some_or]
      case isFalse hne =>
        have hother : c.node? ≠ some x := fun hx => hne (Option.some.inj (hx.symm.trans hnode))
        rw [Config.recorded?_eq_none fun hx => absurd hx hother, Option.none_or]
    case entered =>
      intro region
      rw [hqueued, decide_eq_false (by simp), Bool.or_false, hexec.isEntered]
    case list =>
      refine .targets out (Option.isSome_of_eq_some hrecorded) hop hlabels ?_
      rw [Config.noted, hwaiting, hfound, List.reverse_append, List.reverse_reverse,
        ← List.append_assoc]
      rfl

end Changes

namespace Steps

variable {c c' : Config}

theorem size (h : Steps t r c c') : c'.state.entries.size = c.state.entries.size := by
  cases h with
  | take | arrive | label | stop => rfl
  | climb | block => exact congrArg Array.size (State.entries_enter t _ _)
  | instruction _ _ _ hexec =>
    cases hexec with
    | seen => rfl
    | leave => simp [State.record]
    | moves => simp [State.record, State.raiseMax]

/-- A walk goes on with the next node in flat order. -/
theorem forward (h : Steps t r c c') {id next : NodeId} {height height' : Int}
    (hphase : c.phase = .walking (some id) height)
    (hphase' : c'.phase = .walking (some next) height') : t.nextInOrder? id = some next := by
  have hleaf : t.children id = [] → t.successor? id = some next → t.nextInOrder? id = some next :=
    fun hchildren hnext => by
      rwa [← Tree.WellFormed.successor?_eq_nextInOrder? hchildren]
  cases h with
  | take | climb | arrive | stop => simp at hphase
  | label _ _ _ _ hlabel =>
    simp only [Phase.walking.injEq, Option.some.injEq] at hphase hphase'
    obtain ⟨rfl, -⟩ := hphase
    exact hleaf (Tree.children_eq_nil_of_isLabel hlabel) hphase'.1
  | block =>
    simp only [Phase.walking.injEq, Option.some.injEq] at hphase hphase'
    obtain ⟨rfl, -⟩ := hphase
    exact hphase'.1
  | @instruction _ _ _ _ _ _ operation exit hop =>
    simp only [Phase.walking.injEq, Option.some.injEq] at hphase
    obtain ⟨rfl, -⟩ := hphase
    refine hleaf (Tree.children_eq_nil_of_isInstruction (by rw [Tree.isInstruction, hop]; rfl)) ?_
    cases exit with
    | none => simp [Phase.behind] at hphase'
    | some exit =>
      simp only [Phase.behind, Phase.walking.injEq] at hphase'
      exact hphase'.1

/-- What a step changes, constructor by constructor. -/
theorem changes (h : Steps t r c c') (hsize : c.state.entries.size = t.size) :
    Changes t c c' := by
  cases h with
  | take => exact .of_idle (fun _ => rfl) rfl rfl rfl (.taken rfl)
  | climb => exact .of_enter (fun _ => rfl) rfl rfl rfl
  | arrive => exact .of_idle (fun _ => rfl) rfl rfl rfl (.kept rfl)
  | @label walks s waiting id height hlabel =>
    obtain ⟨owner, hcontent⟩ := Tree.isLabel_iff.mp hlabel
    have hother : t.isInstruction id = false := by
      rw [Tree.isInstruction, Tree.operation?, hcontent]
      rfl
    refine .of_idle (fun x => Config.recorded?_eq_none fun hx => ?_)
      (Config.queued?_eq_none fun x hx => ?_) rfl rfl (.kept rfl)
    · rwa [← Option.some.inj hx]
    · rw [← Option.some.inj hx, Tree.blockKind?, hcontent]
  | @block walks s waiting id height kind hkind =>
    refine .of_enter (fun x => Config.recorded?_eq_none fun hx => ?_) rfl rfl rfl
    rw [← Option.some.inj hx]
    exact Tree.isInstruction_of_blockKind? hkind
  | instruction walks waiting hop hexec =>
    exact .of_executes rfl hop hexec (by rw [hsize]; exact Tree.index_lt_of_operation? hop) rfl
  | stop =>
    refine .of_idle (fun x => Config.recorded?_eq_none fun hx => ?_) rfl rfl rfl
      (.kept (by simp [Config.noted]))
    exact absurd hx (by simp [Config.node?])

end Steps

/-! ## Runs -/

/-- A run of an analysis to its end, with all that it passes through. -/
inductive Runs (t : Tree) (r : Resolver) : Config → List Config → Except Fault Config → Prop
  | fails {c : Config} {fault : Fault} (h : c.next? t r = .error fault) :
      Runs t r c [c] (.error fault)
  | ends {c : Config} (h : c.next? t r = .ok none) : Runs t r c [c] (.ok c)
  | step {c c' : Config} {trace : List Config} {outcome : Except Fault Config}
      (h : c.next? t r = .ok (some c')) (hrest : Runs t r c' trace outcome) :
      Runs t r c (c :: trace) outcome

/-- A walk advances in flat order, and a step changes nothing but what it tells. -/
structure Advances (t : Tree) (c c' : Config) : Prop extends Changes t c c' where
  /-- a walk goes on with the node right behind -/
  forward : ∀ id next height height',
    c.phase = .walking (some id) height → c'.phase = .walking (some next) height' →
    ∃ top before after, t.parent? top = none ∧ t.preOrder top = before ++ id :: next :: after

theorem Steps.advances (wf : t.WellFormed) {c c' : Config} (h : Steps t r c c')
    (hsize : c.state.entries.size = t.size) : Advances t c c' := by
  refine ⟨h.changes hsize, fun id next height height' hphase hphase' => ?_⟩
  obtain ⟨top, htop, hmem⟩ := wf.exists_top id
  obtain ⟨before, after, horder⟩ := List.append_of_mem hmem
  have hhead := wf.nextInOrder?_eq_head? htop horder
  rw [h.forward hphase hphase'] at hhead
  obtain ⟨after, rfl⟩ := List.head?_eq_some_iff.mp hhead.symm
  exact ⟨top, before, after, htop, horder⟩

/-- Every run advances with each of its steps. -/
theorem Runs.advances (wf : t.WellFormed) {c : Config} {trace : List Config}
    {outcome : Except Fault Config} (h : Runs t r c trace outcome)
    (hsize : c.state.entries.size = t.size) :
    trace.IsChain (Advances t) ∧ trace.head? = some c := by
  induction h with
  | fails | ends => exact ⟨.singleton _, rfl⟩
  | @step c c' trace outcome h hrest ih =>
    have hstep := steps_of_next? h
    obtain ⟨hchain, hhead⟩ := ih (hstep.size.trans hsize)
    obtain ⟨rest, rfl⟩ := List.head?_eq_some_iff.mp hhead
    exact ⟨.cons_cons (hstep.advances wf hsize) hchain, rfl⟩

/-! ## What holds along a run -/

/-- The heights with which an instruction is recorded increase, from above the one that was recorded
first. -/
theorem recorded_increase {c : Config} {rest : List Config} (h : (c :: rest).IsChain (Advances t))
    (id : NodeId) :
    ((c :: rest).filterMap (Config.recorded? t id)).Pairwise (· < ·) ∧
      ∀ height ∈ (c :: rest).filterMap (Config.recorded? t id),
        InBounds height ∧ ∀ known, c.state.entry id = some known → known < height := by
  induction rest generalizing c with
  | nil =>
    cases hrecorded : c.recorded? t id with
    | none => simp [hrecorded]
    | some height =>
      obtain ⟨-, -, hnew, hbounds⟩ := Config.recorded?_eq_some_iff.mp hrecorded
      simpa [hrecorded] using ⟨hbounds, hnew⟩
  | cons c' rest ih =>
    obtain ⟨hstep, hchain⟩ := List.isChain_cons_cons.mp h
    obtain ⟨hpairwise, hlater⟩ := ih hchain
    have hentry := hstep.recorded id
    cases hrecorded : c.recorded? t id with
    | none =>
      rw [hrecorded, Option.none_or] at hentry
      rw [List.filterMap_cons_none hrecorded, ← hentry]
      exact ⟨hpairwise, hlater⟩
    | some height =>
      obtain ⟨-, -, hnew, hbounds⟩ := Config.recorded?_eq_some_iff.mp hrecorded
      rw [hrecorded, Option.some_or] at hentry
      rw [List.filterMap_cons_some hrecorded, List.pairwise_cons, List.forall_mem_cons]
      have habove : ∀ later ∈ (c' :: rest).filterMap (Config.recorded? t id), height < later :=
        fun later hmem => (hlater later hmem).2 height hentry
      exact ⟨⟨habove, hpairwise⟩, ⟨hbounds, hnew⟩, fun later hmem =>
        ⟨(hlater later hmem).1, fun known hknown => (hnew known hknown).trans (habove later hmem)⟩⟩

/-- There are `2 ^ 16` heights of sixteen bits. -/
theorem length_le_of_inBounds {heights : List Int} (hnodup : heights.Nodup)
    (hbounds : ∀ height ∈ heights, InBounds height) : heights.length ≤ UInt16.size := by
  have hsub : heights.toFinset ⊆ Finset.Icc (-32768) 32767 := by
    intro height hmem
    exact Finset.mem_Icc.mpr (hbounds height (List.mem_toFinset.mp hmem))
  calc heights.length = heights.toFinset.card := (List.toFinset_card_of_nodup hnodup).symm
    _ ≤ (Finset.Icc (-32768 : Int) 32767).card := Finset.card_le_card hsub
    _ = UInt16.size := by rw [Int.card_Icc]; rfl

/-- The handlers of a region come on the list once, and not at all if the region was entered. -/
theorem queued_once {c : Config} {rest : List Config} (h : (c :: rest).IsChain (Advances t)) :
    ((c :: rest).filterMap (Config.queued? t)).Nodup ∧
      ∀ region ∈ (c :: rest).filterMap (Config.queued? t), c.state.isEntered region = false := by
  induction rest generalizing c with
  | nil =>
    cases hqueued : c.queued? t with
    | none => simp [hqueued]
    | some region => simp [hqueued, (Config.queued?_eq_some_iff.mp hqueued).2.2]
  | cons c' rest ih =>
    obtain ⟨hstep, hchain⟩ := List.isChain_cons_cons.mp h
    obtain ⟨hnodup, hlater⟩ := ih hchain
    have hbefore : ∀ region, c'.state.isEntered region = false →
        c.state.isEntered region = false ∧ c.queued? t ≠ some region := by
      intro region hnew
      rw [hstep.entered, Bool.or_eq_false_iff, decide_eq_false_iff_not] at hnew
      exact hnew
    cases hqueued : c.queued? t with
    | none =>
      rw [List.filterMap_cons_none hqueued]
      exact ⟨hnodup, fun region hmem => (hbefore region (hlater region hmem)).1⟩
    | some region =>
      rw [List.filterMap_cons_some hqueued, List.nodup_cons, List.forall_mem_cons]
      refine ⟨⟨fun hmem => (hbefore region (hlater region hmem)).2 hqueued, hnodup⟩,
        (Config.queued?_eq_some_iff.mp hqueued).2.2,
        fun other hmem => (hbefore other (hlater other hmem)).1⟩

/-- What bounds the length of a run: walks advance, what is recorded for an instruction only grows
within sixteen bits, and the handlers of a region come on the list once. -/
structure Orderly (t : Tree) (trace : List Config) : Prop where
  advances : trace.IsChain (Advances t)
  rises : ∀ c ∈ trace, ∀ id height, c.recorded? t id = some height →
    InBounds height ∧ ∀ known, c.state.entry id = some known → known < height
  records : ∀ id, (trace.filterMap (Config.recorded? t id)).length ≤ UInt16.size
  regions : (trace.filterMap (Config.queued? t)).Nodup

/-- Every run is orderly. -/
theorem Runs.orderly (wf : t.WellFormed) {c : Config} {trace : List Config}
    {outcome : Except Fault Config} (h : Runs t r c trace outcome)
    (hsize : c.state.entries.size = t.size) : Orderly t trace := by
  obtain ⟨hchain, hhead⟩ := h.advances wf hsize
  obtain ⟨rest, rfl⟩ := List.head?_eq_some_iff.mp hhead
  constructor
  case advances => exact hchain
  case rises =>
    intro c' _ id height hrecorded
    obtain ⟨-, -, hnew, hbounds⟩ := Config.recorded?_eq_some_iff.mp hrecorded
    exact ⟨hbounds, hnew⟩
  case records =>
    intro id
    obtain ⟨hpairwise, hbounds⟩ := recorded_increase hchain id
    exact length_le_of_inBounds (hpairwise.imp ne_of_lt) fun height hmem => (hbounds height hmem).1
  case regions => exact (queued_once hchain).1

end StackHeights

end MethodIL
