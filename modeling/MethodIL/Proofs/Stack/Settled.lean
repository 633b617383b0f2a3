import Mathlib
import MethodIL.Proofs.Stack.Machine
set_option autoImplicit false

/-!
# What an analysis has settled

In the middle of an analysis some visits of the machine are settled: either control is known to
arrive there, no lower, and the walk from there is still to be made, or the visit passes on to
settled visits, or it is a visit of an instruction that is recorded at least as high.  The analysis
keeps everything settled that the machine can do from what is recorded; once nothing is left to
walk, everything that the machine visits is recorded.
-/

namespace MethodIL

namespace StackHeights

variable {t : Tree} {r : Resolver} {s s' : State}

namespace State

/-- The height that is recorded for a node. -/
def entry (s : State) (id : NodeId) : Option Int := s.entries.getD id.index none

/-- The handlers of a protected region are on the list. -/
def isEntered (s : State) (region : NodeId) : Bool := s.entered.getD region.index true

/-- Everything that a state records another one records too, at least as high. -/
structure Le (s s' : State) : Prop where
  entries : ∀ id known, s.entry id = some known → ∃ known', s'.entry id = some known' ∧ known ≤ known'
  entered : ∀ region, s.isEntered region = true → s'.isEntered region = true

theorem Le.refl (s : State) : s.Le s :=
  ⟨fun _ known h => ⟨known, h, le_refl known⟩, fun _ h => h⟩

theorem Le.trans {s s' s'' : State} (h : s.Le s') (h' : s'.Le s'') : s.Le s'' := by
  refine ⟨fun id known hentry => ?_, fun region hregion => h'.entered region (h.entered region hregion)⟩
  obtain ⟨known', hentry', hle⟩ := h.entries id known hentry
  obtain ⟨known'', hentry'', hle'⟩ := h'.entries id known' hentry'
  exact ⟨known'', hentry'', le_trans hle hle'⟩

/-! ## Views of a changed state -/

theorem found_arrive (s : State) (labels : List NodeId) (height : Int) :
    (s.arrive labels height).found =
      (labels.map fun label => (⟨label, height⟩ : Arrival)).reverse ++ s.found := by
  simp only [arrive]
  induction labels generalizing s with
  | nil => rfl
  | cons label labels ih =>
    rw [List.foldl_cons]
    have hrest := ih { s with found := ⟨label, height⟩ :: s.found }
    dsimp only at hrest
    rw [hrest, List.map_cons, List.reverse_cons, List.append_assoc]
    rfl

@[simp] theorem entries_arrive (labels : List NodeId) (height : Int) :
    (s.arrive labels height).entries = s.entries := rfl

@[simp] theorem entered_arrive (labels : List NodeId) (height : Int) :
    (s.arrive labels height).entered = s.entered := rfl

@[simp] theorem highest_arrive (labels : List NodeId) (height : Int) :
    (s.arrive labels height).highest = s.highest := rfl

theorem entry_record {id : NodeId} (hid : id.index < s.entries.size) (height : Int) (x : NodeId) :
    (s.record id height).entry x = if x = id then some height else s.entry x := by
  have hindex : id.index = x.index ↔ x = id := by
    rw [eq_comm, ← NodeId.mk.injEq]
  simp only [entry, record, Array.getD_eq_getD_getElem?, Array.getElem?_setIfInBounds, hindex]
  by_cases hx : x = id
  · simp [hx, hid]
  · simp [hx]

/-- Entering a block does nothing, unless the block is a protected region that was not entered. -/
theorem enter_cases (t : Tree) (s : State) (block : NodeId) :
    (s.enter t block = s ∧
        ∀ handlers, t.blockKind? block = some (.tryBlock handlers) → s.isEntered block = true) ∨
      ∃ handlers, t.blockKind? block = some (.tryBlock handlers) ∧ s.isEntered block = false ∧
        s.enter t block =
          { s with entered := s.entered.setIfInBounds block.index true }.arrive
            (handlers.flatMap (handlerEntries t)) 0 := by
  unfold enter
  split
  case h_1 handlers hkind =>
    split
    case isTrue hentered => exact Or.inl ⟨rfl, fun _ _ => hentered⟩
    case isFalse hentered =>
      exact Or.inr ⟨handlers, hkind, by simpa [isEntered] using hentered, rfl⟩
  case h_2 hother => exact Or.inl ⟨rfl, fun handlers hkind => absurd hkind (hother handlers)⟩

theorem isEntered_set (s : State) (block region : NodeId) :
    ({ s with entered := s.entered.setIfInBounds block.index true } : State).isEntered region =
      (decide (region = block) || s.isEntered region) := by
  have hindex : block.index = region.index ↔ region = block := by
    rw [eq_comm, ← NodeId.mk.injEq]
  simp only [isEntered, Array.getD_eq_getD_getElem?, Array.getElem?_setIfInBounds, hindex]
  by_cases hx : region = block
  · by_cases hsize : block.index < s.entered.size <;> simp [hx, hsize]
  · simp [hx]

theorem enter_le (t : Tree) (s : State) (block : NodeId) : s.Le (s.enter t block) := by
  rcases s.enter_cases t block with ⟨hsame, _⟩ | ⟨handlers, _, _, henter⟩
  · rw [hsame]
    exact Le.refl s
  · rw [henter]
    refine ⟨fun _ known h => ⟨known, h, le_refl known⟩, fun region h => ?_⟩
    have hset := isEntered_set s block region
    rw [h, Bool.or_true] at hset
    exact hset

theorem isEntered_enter {block : NodeId} {handlers : List NodeId}
    (h : t.blockKind? block = some (.tryBlock handlers)) :
    (s.enter t block).isEntered block = true := by
  rcases s.enter_cases t block with ⟨hsame, hentered⟩ | ⟨_, _, _, henter⟩
  · rw [hsame]
    exact hentered handlers h
  · rw [henter]
    have hset := isEntered_set s block block
    rw [decide_eq_true rfl, Bool.true_or] at hset
    exact hset

@[simp] theorem entry_enter (t : Tree) (s : State) (block id : NodeId) :
    (s.enter t block).entry id = s.entry id := by
  rcases s.enter_cases t block with ⟨hsame, _⟩ | ⟨_, _, _, henter⟩
  · rw [hsame]
  · rw [henter]
    rfl

@[simp] theorem highest_enter (t : Tree) (s : State) (block : NodeId) :
    (s.enter t block).highest = s.highest := by
  rcases s.enter_cases t block with ⟨hsame, _⟩ | ⟨_, _, _, henter⟩
  · rw [hsame]
  · rw [henter]
    rfl

end State

/-! ## Settled visits -/

/-- Every protected region around a node is entered. -/
def Around (t : Tree) (s : State) (id : NodeId) : Prop :=
  ∀ region ∈ t.ancestors id, ∀ handlers, t.blockKind? region = some (.tryBlock handlers) →
    s.isEntered region = true

/-- Every protected region that a node is or lies in is entered. -/
def Inside (t : Tree) (s : State) (id : NodeId) : Prop :=
  ∀ region, (region = id ∨ region ∈ t.ancestors id) →
    ∀ handlers, t.blockKind? region = some (.tryBlock handlers) → s.isEntered region = true

theorem Inside.mono {id : NodeId} (h : Inside t s id) (hle : s.Le s') : Inside t s' id :=
  fun region hregion handlers hkind => hle.entered region (h region hregion handlers hkind)

theorem Around.mono {id : NodeId} (h : Around t s id) (hle : s.Le s') : Around t s' id :=
  fun region hregion handlers hkind => hle.entered region (h region hregion handlers hkind)

/-- A node that is no block lies inside of what is around it. -/
theorem Around.inside {id : NodeId} (h : Around t s id) (hkind : t.blockKind? id = none) :
    Inside t s id := by
  rintro region (rfl | hregion) handlers htry
  · rw [hkind] at htry
    exact absurd htry (by simp)
  · exact h region hregion handlers htry

/-- Once a block is entered, what is in it lies inside of what is entered. -/
theorem Around.enter {id : NodeId} (h : Around t s id) : Inside t (s.enter t id) id := by
  rintro region (rfl | hregion) handlers htry
  · exact State.isEntered_enter htry
  · exact h.mono (State.enter_le t s id) region hregion handlers htry

/-- A visit of the machine needs no more attention than what is pending gets anyway. -/
inductive Settled (t : Tree) (r : Resolver) (s : State) (pending : List Arrival) :
    NodeId → Int → Prop
  | pending {a : Arrival} {height : Int} (hmem : a ∈ pending) (hle : height ≤ a.height) :
      Settled t r s pending a.node height
  | passed {id : NodeId} {height : Int} (hinside : Inside t s id)
      (hother : t.isInstruction id = false)
      (hnext : ∀ next height', t.Moves r id height next height' →
        Settled t r s pending next height') :
      Settled t r s pending id height
  | instruction {id : NodeId} {height known : Int} (hinside : Inside t s id)
      (hentry : s.entry id = some known) (hle : height ≤ known) :
      Settled t r s pending id height

theorem Settled.lower {pending : List Arrival} {id : NodeId} {height lower : Int}
    (h : Settled t r s pending id height) (hle : lower ≤ height) :
    Settled t r s pending id lower := by
  induction h generalizing lower with
  | pending hmem hle' => exact .pending hmem (le_trans hle hle')
  | passed hinside hother _ ih =>
    refine .passed hinside hother fun next height' hmoves => ?_
    obtain ⟨higher', hmoves', hle'⟩ := hmoves.raise hle
    exact ih next higher' hmoves' hle'
  | instruction hinside hentry hle' => exact .instruction hinside hentry (le_trans hle hle')

/-- What is settled stays settled when more is recorded, as long as what was pending is settled. -/
theorem Settled.extend {pending pending' : List Arrival} {id : NodeId} {height : Int}
    (h : Settled t r s pending id height) (hle : s.Le s')
    (hpending : ∀ a ∈ pending, Settled t r s' pending' a.node a.height) :
    Settled t r s' pending' id height := by
  induction h with
  | pending hmem hle' => exact (hpending _ hmem).lower hle'
  | passed hinside hother _ ih => exact .passed (hinside.mono hle) hother ih
  | instruction hinside hentry hle' =>
    obtain ⟨known', hentry', hknown⟩ := hle.entries _ _ hentry
    exact .instruction (hinside.mono hle) hentry' (le_trans hle' hknown)

end StackHeights

end MethodIL
