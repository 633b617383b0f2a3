import Mathlib
import MethodIL.Proofs.Outcome
import MethodIL.Proofs.Stack.Settled
set_option autoImplicit false

/-!
# The steps of an analysis

An analysis is consistent with the machine as long as it records visits only, and everything that
the machine can do from what is recorded is settled.  Each step of the analysis keeps it so: a walk
passes a label or a block, enters a protected region, or executes an instruction.
-/

namespace MethodIL

open Outcome

namespace StackHeights

variable {t : Tree} {r : Resolver} {s s' : State}

/-! ## What executing an instruction does -/

/-- The height is one of sixteen bits. -/
def InBounds (height : Int) : Prop := -32768 ≤ height ∧ height ≤ 32767

theorem checkBounds_eq_ok_iff {id : NodeId} {height : Int} :
    checkBounds id height = .ok () ↔ InBounds height := by
  have hmin : Int16.minValue.toInt = -32768 := by decide
  have hmax : Int16.maxValue.toInt = 32767 := by decide
  unfold checkBounds InBounds
  rw [hmin, hmax]
  by_cases h : -32768 ≤ height ∧ height ≤ 32767 <;> simp [h]

/-- The ways in which an instruction is executed: it was seen at least as high before, or it is a
`leave`, or it moves the height. -/
inductive Executes (r : Resolver) (s : State) (id : NodeId) (operation : Operation NodeId)
    (height : Int) : State → Option Int → Prop
  | seen {known : Int} (hentry : s.entry id = some known) (hle : height ≤ known) :
      Executes r s id operation height s none
  | leave (hnew : ∀ known, s.entry id = some known → known < height) (hbounds : InBounds height)
      (hleave : operation.opcode.isLeave = true) :
      Executes r s id operation height
        ((s.record id height).arrive operation.operand.targets 0) none
  | moves {effect : StackEffect} {exit : Int} (hnew : ∀ known, s.entry id = some known → known < height)
      (hbounds : InBounds height) (hleave : operation.opcode.isLeave = false)
      (heffect : operation.stackEffect r = .ok effect)
      (hexit : exit = height - effect.pops + effect.pushes) (hexitBounds : InBounds exit) :
      Executes r s id operation height
        (((s.record id height).raiseMax exit).arrive
          (if operation.opcode.isBranch || operation.opcode.isSwitch then
            operation.operand.targets else []) exit)
        (if operation.opcode.flow.endsBlock then none else some exit)

theorem Executes.isEntered {id : NodeId} {operation : Operation NodeId} {height : Int}
    {out : Option Int} (h : Executes r s id operation height s' out) (region : NodeId) :
    s'.isEntered region = s.isEntered region := by
  cases h <;> rfl

theorem executes_of_execute {c : Context} {id : NodeId} {operation : Operation NodeId}
    {height : Int} {out : Option Int} (h : execute c s id operation height = .ok (s', out)) :
    Executes c.resolver s id operation height s' out := by
  unfold execute at h
  split at h
  case isTrue hseen =>
    simp only [pure_eq_ok, Prod.mk.injEq] at h
    obtain ⟨rfl, rfl⟩ := h
    obtain ⟨known, hentry, hle⟩ := Option.any_eq_true _ _ |>.mp hseen
    exact .seen hentry (by simpa using hle)
  case isFalse hseen =>
    have hnew : ∀ known, s.entry id = some known → known < height := by
      intro known hentry
      unfold State.entry at hentry
      simpa [StackHeights.seen, hentry] using hseen
    obtain ⟨_, hbounds, h⟩ := bind_eq_ok.mp h
    rw [checkBounds_eq_ok_iff] at hbounds
    dsimp only at h
    split at h
    case isTrue hleave =>
      simp only [pure_eq_ok, Prod.mk.injEq] at h
      obtain ⟨rfl, rfl⟩ := h
      exact .leave hnew hbounds hleave
    case isFalse hleave =>
      rw [Bool.not_eq_true] at hleave
      obtain ⟨effect, heffect, h⟩ := bind_eq_ok.mp h
      obtain ⟨_, hexitBounds, h⟩ := bind_eq_ok.mp h
      rw [checkBounds_eq_ok_iff] at hexitBounds
      have hmoves : Executes c.resolver s id operation height _ _ :=
        .moves hnew hbounds hleave heffect rfl hexitBounds
      -- the labels count for exactly the flows that the walk defers
      have htargets := Opcode.flow_of_hasTargets hleave
      have hflow := @Opcode.hasTargets_of_flow operation.opcode
      cases hcase : operation.opcode.flow <;>
        simp only [hcase, pure_eq_ok, Prod.mk.injEq] at h <;>
        simp only [hcase, Flow.endsBlock, reduceCtorEq, or_false, or_self, or_true,
          imp_false, forall_const, Bool.not_eq_true, if_true, Bool.false_eq_true,
          if_false] at hmoves htargets hflow <;>
        first
          | rw [if_pos hflow, h.1, h.2] at hmoves; exact hmoves
          | rw [htargets] at hmoves; rw [← h.1, ← h.2]; exact hmoves

/-! ## Consistent states -/

/-- A height that a run of the machine shows, or the empty stack. -/
def Peak (t : Tree) (r : Resolver) (height : Int) : Prop :=
  height = 0 ∨ (∃ id, t.isInstruction id = true ∧ t.Visits r id height) ∨
    ∃ id entry, t.Visits r id entry ∧ t.Exits r id entry height

/-- A state in the middle of an analysis, with arrivals that are waiting: only what the machine does
is recorded, and all that the machine can do from there is settled. -/
structure Consistent (t : Tree) (r : Resolver) (s : State) (waiting : List Arrival) : Prop where
  size : s.entries.size = t.size
  recorded : ∀ id known, s.entry id = some known →
    t.isInstruction id = true ∧ t.Visits r id known ∧ InBounds known
  measured : ∀ id known operation, s.entry id = some known → t.operation? id = some operation →
    operation.opcode.isLeave = false → ∃ exit, t.Exits r id known exit
  arrivals : ∀ a ∈ waiting ++ s.found, t.Visits r a.node a.height
  highest : Peak t r s.highest
  highest_bounds : 0 ≤ s.highest ∧ s.highest ≤ 32767
  below_highest : ∀ id known, s.entry id = some known →
    known ≤ s.highest ∧ ∀ exit, t.Exits r id known exit → exit ≤ s.highest
  start : ∀ first, t.firstChild? Tree.root = some first →
    Settled t r s (waiting ++ s.found) first 0
  moves : ∀ id known, s.entry id = some known → ∀ next height, t.Moves r id known next height →
    Settled t r s (waiting ++ s.found) next height
  handlers : ∀ region handlers, t.blockKind? region = some (.tryBlock handlers) →
    s.isEntered region = true → ∀ handler ∈ handlers, ∀ entry ∈ State.handlerEntries t handler,
      Settled t r s (waiting ++ s.found) entry 0

namespace Consistent

variable {waiting : List Arrival}

/-- Only which arrivals there are counts, not where they are noted. -/
theorem rearrange (h : Consistent t r s waiting) {waiting' found : List Arrival}
    (hmem : ∀ a, a ∈ waiting' ++ found ↔ a ∈ waiting ++ s.found) :
    Consistent t r { s with found } waiting' := by
  have hsettled : ∀ id height, Settled t r s (waiting ++ s.found) id height →
      Settled t r { s with found } (waiting' ++ found) id height := fun id height hold =>
    hold.extend ⟨fun _ known hentry => ⟨known, hentry, le_refl known⟩, fun _ hentered => hentered⟩
      fun a ha => .pending ((hmem a).mpr ha) (le_refl a.height)
  exact {
    size := h.size
    recorded := h.recorded
    measured := h.measured
    arrivals := fun a ha => h.arrivals a ((hmem a).mp ha)
    highest := h.highest
    highest_bounds := h.highest_bounds
    below_highest := h.below_highest
    start := fun first hfirst => hsettled _ _ (h.start first hfirst)
    moves := fun id known hentry next height hmoves =>
      hsettled _ _ (h.moves id known hentry next height hmoves)
    handlers := fun region handlers hkind hentered handler hhandler entry hentry =>
      hsettled _ _ (h.handlers region handlers hkind hentered handler hhandler entry hentry) }

theorem perm {waiting' : List Arrival} (h : Consistent t r s waiting)
    (hperm : waiting'.Perm waiting) : Consistent t r s waiting' := by
  show Consistent t r { s with found := s.found } waiting'
  exact h.rearrange fun a => by rw [List.mem_append, List.mem_append, hperm.mem_iff]

/-- An arrival has been dealt with once it is settled by what comes next. -/
theorem settle {a : Arrival} {nexts : List Arrival} (h : Consistent t r s (a :: waiting))
    (hvisits : ∀ b ∈ nexts, t.Visits r b.node b.height)
    (hsettled : Settled t r s (nexts ++ waiting ++ s.found) a.node a.height) :
    Consistent t r s (nexts ++ waiting) := by
  have hextend : ∀ id height, Settled t r s (a :: waiting ++ s.found) id height →
      Settled t r s (nexts ++ waiting ++ s.found) id height := by
    intro id height hold
    refine hold.extend (State.Le.refl s) fun b hb => ?_
    rw [List.cons_append, List.mem_cons] at hb
    rcases hb with rfl | hb
    · exact hsettled
    · exact .pending (by rw [List.append_assoc]; exact List.mem_append_right nexts hb) (le_refl _)
  refine { h with arrivals := fun b hb => ?_, start := ?_, moves := ?_, handlers := ?_ }
  · rw [List.append_assoc, List.mem_append] at hb
    rcases hb with hb | hb
    · exact hvisits b hb
    · exact h.arrivals b (List.mem_cons_of_mem a hb)
  · exact fun first hfirst => hextend _ _ (h.start first hfirst)
  · exact fun id known hentry next height hmoves =>
      hextend _ _ (h.moves id known hentry next height hmoves)
  · exact fun region handlers hkind hentered handler hhandler entry hentry =>
      hextend _ _ (h.handlers region handlers hkind hentered handler hhandler entry hentry)

/-- A label or a block hands its arrival on to the next node. -/
theorem pass {id : NodeId} {height height' : Int} {next? : Option NodeId}
    (h : Consistent t r s (⟨id, height⟩ :: waiting)) (hinside : Inside t s id)
    (hother : t.isInstruction id = false)
    (hmoves : ∀ next higher, t.Moves r id height next higher ↔ next? = some next ∧ higher = height') :
    Consistent t r s ((next?.toList.map fun next => ⟨next, height'⟩) ++ waiting) := by
  refine h.settle (fun b hb => ?_) (.passed hinside hother fun next higher hmove => ?_)
  · obtain ⟨next, hmem, rfl⟩ := List.mem_map.mp hb
    exact .moves (h.arrivals _ List.mem_cons_self)
      ((hmoves next height').mpr ⟨Option.mem_toList.mp hmem, rfl⟩)
  · obtain ⟨rfl, rfl⟩ := (hmoves next higher).mp hmove
    exact Settled.pending (a := ⟨next, higher⟩) (by simp) (le_refl higher)

/-- A protected region is entered when something in it is visited. -/
theorem enter {block id : NodeId} {height : Int} (h : Consistent t r s waiting)
    (hvisit : t.Visits r id height) (hin : id = block ∨ t.isBelow block id = true) :
    Consistent t r (s.enter t block) waiting := by
  rcases s.enter_cases t block with ⟨hsame, _⟩ | ⟨handlers, hkind, _, henter⟩
  · rwa [hsame]
  · have hle := State.enter_le t s block
    have hentry := State.entry_enter t s block
    have hfound : (s.enter t block).found =
        ((handlers.flatMap (State.handlerEntries t)).map fun entry => ⟨entry, 0⟩).reverse ++
          s.found := by
      rw [henter, State.found_arrive]
    have hextend : ∀ x height', Settled t r s (waiting ++ s.found) x height' →
        Settled t r (s.enter t block) (waiting ++ (s.enter t block).found) x height' :=
      fun x height' hold => hold.extend hle fun a ha => .pending
        (by rw [hfound]; simp only [List.mem_append] at ha ⊢; tauto) (le_refl a.height)
    refine ⟨?_, ?_, ?_, ?_, ?_, ?_, ?_, ?_, ?_, ?_⟩
    · rw [henter]
      exact h.size
    · intro x known hx
      rw [hentry] at hx
      exact h.recorded x known hx
    · intro x known operation hx
      rw [hentry] at hx
      exact h.measured x known operation hx
    · intro a ha
      rw [hfound] at ha
      simp only [List.mem_append, List.mem_reverse, List.mem_map, List.mem_flatMap] at ha
      rcases ha with ha | ⟨entry, ⟨handler, hhandler, hmem⟩, rfl⟩ | ha
      · exact h.arrivals a (List.mem_append_left _ ha)
      · unfold State.handlerEntries at hmem
        split at hmem
        case h_1 hfilter =>
          simp only [List.mem_cons, List.not_mem_nil, or_false] at hmem
          rcases hmem with rfl | rfl
          · exact .filter hkind hvisit hin hhandler hfilter
          · exact .handler hkind hvisit hin hhandler
        case h_2 =>
          obtain rfl := List.mem_singleton.mp hmem
          exact .handler hkind hvisit hin hhandler
      · exact h.arrivals a (List.mem_append_right _ ha)
    · rw [State.highest_enter]
      exact h.highest
    · rw [State.highest_enter]
      exact h.highest_bounds
    · intro x known hx
      rw [State.highest_enter]
      rw [hentry] at hx
      exact h.below_highest x known hx
    · exact fun first hfirst => hextend _ _ (h.start first hfirst)
    · intro x known hx next height' hmoves
      rw [hentry] at hx
      exact hextend _ _ (h.moves x known hx next height' hmoves)
    · intro region handlers' hkind' hentered handler hhandler entry hentryMem
      by_cases hregion : region = block
      · subst hregion
        rw [hkind] at hkind'
        simp only [Option.some.injEq, BlockKind.tryBlock.injEq] at hkind'
        subst hkind'
        refine Settled.pending (a := ⟨entry, 0⟩) ?_ (le_refl 0)
        rw [hfound]
        simp only [List.mem_append, List.mem_reverse, List.mem_map, List.mem_flatMap]
        exact Or.inr (Or.inl ⟨entry, ⟨handler, hhandler, hentryMem⟩, rfl⟩)
      · refine hextend _ _ (h.handlers region handlers' hkind' ?_ handler hhandler entry hentryMem)
        have hset := State.isEntered_set s block region
        rw [henter] at hentered
        rw [decide_eq_false hregion, Bool.false_or] at hset
        rw [← hset]
        exact hentered

end Consistent

/-! ## Executing instructions -/

/-- The arrival behind an instruction, if control goes there. -/
def onward (t : Tree) (id : NodeId) : Option Int → List Arrival
  | some exit => (t.successor? id).toList.map fun next => ⟨next, exit⟩
  | none => []

theorem Peak.visit {id : NodeId} {height : Int} (hinstruction : t.isInstruction id = true)
    (h : t.Visits r id height) : Peak t r height := Or.inr (Or.inl ⟨id, hinstruction, h⟩)

theorem Peak.exit {id : NodeId} {height exit : Int} (h : t.Visits r id height)
    (hexit : t.Exits r id height exit) : Peak t r exit := Or.inr (Or.inr ⟨id, height, h, hexit⟩)

theorem Peak.max {a b : Int} (ha : Peak t r a) (hb : Peak t r b) : Peak t r (max a b) := by
  rcases max_choice a b with h | h <;> rwa [h]

namespace Consistent

variable {waiting : List Arrival} {id : NodeId} {height : Int}

/-- An instruction may be recorded higher than before once everything that it leads to is noted. -/
theorem record (nexts new : List Arrival)
    (h : Consistent t r s (⟨id, height⟩ :: waiting))
    (hinstruction : t.isInstruction id = true) (hinside : Inside t s id)
    (hnew : ∀ known, s.entry id = some known → known < height) (hbounds : InBounds height)
    (hsize : s'.entries.size = s.entries.size)
    (hentry : ∀ x, s'.entry x = if x = id then some height else s.entry x)
    (hentered : ∀ region, s'.isEntered region = s.isEntered region)
    (hfound : s'.found = new ++ s.found)
    (hhighest : Peak t r s'.highest) (hlimit : s'.highest ≤ 32767)
    (hgrows : s.highest ≤ s'.highest) (hheight : height ≤ s'.highest)
    (hexits : ∀ exit, t.Exits r id height exit → exit ≤ s'.highest)
    (hmeasured : ∀ operation, t.operation? id = some operation →
      operation.opcode.isLeave = false → ∃ exit, t.Exits r id height exit)
    (hmoves : ∀ next higher, t.Moves r id height next higher ↔
      (⟨next, higher⟩ : Arrival) ∈ nexts ++ new) :
    Consistent t r s' (nexts ++ waiting) := by
  have hvisit : t.Visits r id height := h.arrivals ⟨id, height⟩ List.mem_cons_self
  have hvisits : ∀ b ∈ nexts ++ new, t.Visits r b.node b.height := fun b hb =>
    .moves hvisit ((hmoves b.node b.height).mpr hb)
  have hcases : ∀ x known, s'.entry x = some known →
      x = id ∧ known = height ∨ s.entry x = some known := by
    intro x known hx
    rw [hentry] at hx
    split at hx
    case isTrue heq => exact Or.inl ⟨heq, (Option.some.inj hx).symm⟩
    case isFalse => exact Or.inr hx
  have hle : s.Le s' := by
    refine ⟨fun x known hx => ?_, fun region hregion => by rw [hentered, hregion]⟩
    rw [hentry]
    split
    case isTrue heq => exact ⟨height, rfl, le_of_lt (hnew known (heq ▸ hx))⟩
    case isFalse => exact ⟨known, hx, le_refl known⟩
  have hmem : ∀ b ∈ nexts ++ new, b ∈ nexts ++ waiting ++ s'.found := by
    intro b hb
    rw [hfound]
    simp only [List.mem_append] at hb ⊢
    tauto
  have hextend : ∀ x height', Settled t r s (⟨id, height⟩ :: waiting ++ s.found) x height' →
      Settled t r s' (nexts ++ waiting ++ s'.found) x height' := by
    intro x height' hold
    refine hold.extend hle fun b hb => ?_
    rw [List.cons_append, List.mem_cons] at hb
    rcases hb with rfl | hb
    · exact .instruction (hinside.mono hle) (by rw [hentry, if_pos rfl]) (le_refl height)
    · refine .pending ?_ (le_refl b.height)
      rw [hfound]
      simp only [List.mem_append] at hb ⊢
      tauto
  refine ⟨by rw [hsize, h.size], ?_, ?_, ?_, hhighest,
    ⟨le_trans h.highest_bounds.1 hgrows, hlimit⟩, ?_, ?_, ?_, ?_⟩
  · intro x known hx
    rcases hcases x known hx with ⟨rfl, rfl⟩ | hx
    · exact ⟨hinstruction, hvisit, hbounds⟩
    · exact h.recorded x known hx
  · intro x known operation hx
    rcases hcases x known hx with ⟨rfl, rfl⟩ | hx
    · exact hmeasured operation
    · exact h.measured x known operation hx
  · intro b hb
    rw [hfound] at hb
    simp only [List.mem_append] at hb
    rcases hb with (hb | hb) | hb | hb
    · exact hvisits b (List.mem_append_left new hb)
    · exact h.arrivals b (List.mem_append_left _ (List.mem_cons_of_mem _ hb))
    · exact hvisits b (List.mem_append_right nexts hb)
    · exact h.arrivals b (List.mem_append_right _ hb)
  · intro x known hx
    rcases hcases x known hx with ⟨rfl, rfl⟩ | hx
    · exact ⟨hheight, hexits⟩
    · obtain ⟨hknown, hexit⟩ := h.below_highest x known hx
      exact ⟨le_trans hknown hgrows, fun exit he => le_trans (hexit exit he) hgrows⟩
  · exact fun first hfirst => hextend _ _ (h.start first hfirst)
  · intro x known hx next higher hmove
    rcases hcases x known hx with ⟨rfl, rfl⟩ | hx
    · exact Settled.pending (hmem _ ((hmoves next higher).mp hmove)) (le_refl higher)
    · exact hextend _ _ (h.moves x known hx next higher hmove)
  · intro region handlers hkind hregion handler hhandler entry hentryMem
    rw [hentered] at hregion
    exact hextend _ _ (h.handlers region handlers hkind hregion handler hhandler entry hentryMem)

theorem index_lt {operation : Operation NodeId} (h : Consistent t r s waiting)
    (hop : t.operation? id = some operation) : id.index < s.entries.size := by
  rw [h.size]
  exact Tree.index_lt_of_operation? hop

section Execute

variable {operation : Operation NodeId} (h : Consistent t r s (⟨id, height⟩ :: waiting))
  (hop : t.operation? id = some operation) (hinside : Inside t s id)
  (hnew : ∀ known, s.entry id = some known → known < height) (hbounds : InBounds height)

include h hop hinside hnew hbounds

/-- A `leave` ends the walk, and an empty stack arrives at its labels. -/
theorem leave (hleave : operation.opcode.isLeave = true) :
    Consistent t r ((s.record id height).arrive operation.operand.targets 0) waiting := by
  have hinstruction : t.isInstruction id = true := by rw [Tree.isInstruction, hop]; rfl
  have hvisit : t.Visits r id height := h.arrivals ⟨id, height⟩ List.mem_cons_self
  have hlabels : t.labelsOf id = operation.operand.targets := by rw [Tree.labelsOf, hop]; rfl
  have hother : ∀ exit, ¬ t.Exits r id height exit := fun exit hexits =>
    absurd (hexits.isLeave_eq_false hop) (by simp [hleave])
  refine h.record [] (operation.operand.targets.map fun label => ⟨label, 0⟩).reverse
    hinstruction hinside hnew hbounds ?_ ?_ (fun _ => rfl) (State.found_arrive _ _ _) ?_ ?_ ?_ ?_
    (fun exit hexits => absurd hexits (hother exit)) ?_ fun next higher => ?_
  · simp [State.record]
  · exact fun x => State.entry_record (h.index_lt hop) height x
  · exact h.highest.max (.visit hinstruction hvisit)
  · exact max_le h.highest_bounds.2 hbounds.2
  · exact le_max_left _ _
  · exact le_max_right _ _
  · intro operation' hop' hfalse
    obtain rfl := Option.some.inj (hop.symm.trans hop')
    simp [hleave] at hfalse
  · rw [Tree.moves_of_isLeave_iff hop hleave, hlabels]
    simp [eq_comm]

/-- Any other instruction moves the height, and the walk goes on unless a block ends there. -/
theorem move {exit : Int} (hexits : t.Exits r id height exit) (hexitBounds : InBounds exit) :
    Consistent t r (((s.record id height).raiseMax exit).arrive
        (if operation.opcode.isBranch || operation.opcode.isSwitch then
          operation.operand.targets else []) exit)
      (onward t id (if operation.opcode.flow.endsBlock then none else some exit) ++ waiting) := by
  have hinstruction : t.isInstruction id = true := by rw [Tree.isInstruction, hop]; rfl
  have hvisit : t.Visits r id height := h.arrivals ⟨id, height⟩ List.mem_cons_self
  have hlabels : t.labelsOf id = operation.operand.targets := by rw [Tree.labelsOf, hop]; rfl
  refine h.record _ ((if operation.opcode.isBranch || operation.opcode.isSwitch then
      operation.operand.targets else []).map fun label => ⟨label, exit⟩).reverse
    hinstruction hinside hnew hbounds ?_ ?_ (fun _ => rfl) (State.found_arrive _ _ _) ?_ ?_ ?_ ?_ ?_
    (fun _ _ _ => ⟨exit, hexits⟩) fun next higher => ?_
  · simp [State.record, State.raiseMax]
  · exact fun x => State.entry_record (h.index_lt hop) height x
  · exact (h.highest.max (.visit hinstruction hvisit)).max (.exit hvisit hexits)
  · exact max_le (max_le h.highest_bounds.2 hbounds.2) hexitBounds.2
  · exact le_trans (le_max_left _ _) (le_max_left _ _)
  · exact le_trans (le_max_right _ _) (le_max_left _ _)
  · intro exit' hexits'
    rw [hexits'.unique hexits]
    exact le_max_right _ _
  · rw [Tree.moves_of_exits_iff hop hexits, hlabels]
    cases operation.opcode.flow.endsBlock <;>
      cases operation.opcode.isBranch || operation.opcode.isSwitch <;>
        simp [onward, eq_comm, and_comm, and_or_left]

end Execute

/-- Executing an instruction keeps an analysis consistent. -/
theorem executes {operation : Operation NodeId} {out : Option Int}
    (h : Consistent t r s (⟨id, height⟩ :: waiting)) (hop : t.operation? id = some operation)
    (haround : Around t s id) (hexec : Executes r s id operation height s' out) :
    Consistent t r s' (onward t id out ++ waiting) := by
  have hinside : Inside t s id :=
    haround.inside (by rw [Tree.blockKind?, Tree.operation?_eq_some_iff.mp hop])
  cases hexec with
  | seen hentry hle => exact h.settle (by simp [onward]) (.instruction hinside hentry hle)
  | leave hnew hbounds hleave => exact h.leave hop hinside hnew hbounds hleave
  | moves hnew hbounds hleave heffect hexit hexitBounds =>
    exact h.move hop hinside hnew hbounds ⟨hop, hleave, heffect, hexit⟩ hexitBounds

end Consistent

end StackHeights

end MethodIL
