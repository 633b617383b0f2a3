import Mathlib
import MethodIL.Proofs.Stack.Consistent
set_option autoImplicit false

/-!
# The work of an analysis

The work that is left counts the arrivals that are noted, two for every handler of a region that was
not entered, and one for every label each time that its instruction can still be recorded.  A step
never adds work, and a walk takes one arrival away.
-/

namespace MethodIL

namespace StackHeights

variable {t : Tree} {r : Resolver} {s s' : State}

/-- How often an instruction can still be recorded. -/
def room : Option Int → Nat
  | none => UInt16.size
  | some known => (32767 - known).toNat

/-- The arrivals that a node may still cause. -/
def weight (t : Tree) (s : State) (id : NodeId) : Nat :=
  match t.content? id with
  | some (.block (.tryBlock handlers) _) => if s.isEntered id then 0 else 2 * handlers.length
  | some (.instruction operation) => room (s.entry id) * operation.operand.targets.length
  | _ => 0

/-- The arrivals that all nodes may still cause. -/
def totalWeight (t : Tree) (s : State) : Nat := ∑ index ∈ Finset.range t.size, weight t s ⟨index⟩

/-- The arrivals that are noted and those that may still come. -/
def work (t : Tree) (s : State) : Nat := s.found.length + totalWeight t s

/-- A total goes down at least as much as one of its parts if no part goes up. -/
theorem totalWeight_add_le {id : NodeId} {d : Nat} (hid : id.index < t.size)
    (hle : ∀ x, weight t s' x ≤ weight t s x) (hd : weight t s' id + d ≤ weight t s id) :
    totalWeight t s' + d ≤ totalWeight t s := by
  have hmem : id.index ∈ Finset.range t.size := Finset.mem_range.mpr hid
  unfold totalWeight
  rw [← Finset.add_sum_erase _ _ hmem, ← Finset.add_sum_erase _ _ hmem]
  have hrest := Finset.sum_le_sum (s := (Finset.range t.size).erase id.index)
    fun index _ => hle ⟨index⟩
  have hown : weight t s' ⟨id.index⟩ + d ≤ weight t s ⟨id.index⟩ := hd
  omega

theorem length_handlerEntries_le (t : Tree) (handlers : List NodeId) :
    (handlers.flatMap (State.handlerEntries t)).length ≤ 2 * handlers.length := by
  induction handlers with
  | nil => exact Nat.le_refl _
  | cons handler handlers ih =>
    rw [List.flatMap_cons, List.length_append, List.length_cons]
    have hone : (State.handlerEntries t handler).length ≤ 2 := by
      unfold State.handlerEntries
      split <;> simp
    omega

theorem weight_le_of_entered {x : NodeId} (hentry : s'.entry x = s.entry x)
    (hentered : s.isEntered x = true → s'.isEntered x = true) : weight t s' x ≤ weight t s x := by
  unfold weight
  rw [hentry]
  split
  · cases hcase : s.isEntered x with
    | true => simp [hentered hcase]
    | false => split <;> simp
  · exact Nat.le_refl _
  · exact Nat.le_refl _

/-- Entering a block adds no work. -/
theorem work_enter_le (t : Tree) (s : State) (block : NodeId) :
    work t (s.enter t block) ≤ work t s := by
  have hle := State.enter_le t s block
  rcases s.enter_cases t block with ⟨hsame, _⟩ | ⟨handlers, hkind, hentered, henter⟩
  · rw [hsame]
  · have hcontent := Tree.blockKind?_eq_some_iff.mp hkind
    have hindex : block.index < t.size := Tree.index_lt_of_content? hcontent
    have hown : weight t (s.enter t block) block + 2 * handlers.length ≤ weight t s block := by
      simp [weight, hcontent, State.isEntered_enter hkind, hentered]
    have htotal := totalWeight_add_le hindex
      (fun x => weight_le_of_entered (State.entry_enter t s block x) (hle.entered x)) hown
    have hnew := length_handlerEntries_le t handlers
    have hfound : (s.enter t block).found.length =
        (handlers.flatMap (State.handlerEntries t)).length + s.found.length := by
      rw [henter, State.found_arrive, List.length_append, List.length_reverse, List.length_map]
    unfold work
    omega

/-- Recording an instruction higher than before uses up one of its turns. -/
theorem room_succ_le {entry : Option Int} {height : Int} (hbounds : InBounds height)
    (hnew : ∀ known, entry = some known → known < height) :
    room (some height) + 1 ≤ room entry := by
  obtain ⟨hlow, hhigh⟩ := hbounds
  cases entry with
  | none =>
    simp only [room, UInt16.size]
    omega
  | some known =>
    have := hnew known rfl
    simp only [room]
    omega

/-- Executing an instruction adds no work. -/
theorem Executes.work_le {id : NodeId} {operation : Operation NodeId} {height : Int}
    {out : Option Int} (h : Executes r s id operation height s' out)
    (hop : t.operation? id = some operation) (hsize : s.entries.size = t.size) :
    work t s' ≤ work t s := by
  have hcontent := Tree.operation?_eq_some_iff.mp hop
  have hindex : id.index < t.size := Tree.index_lt_of_content? hcontent
  -- the labels that are noted take the place of one turn of the instruction
  have hrecord : ∀ (state : State) (labels : List NodeId) (exit : Int),
      InBounds height → (∀ known, s.entry id = some known → known < height) →
      labels.length ≤ operation.operand.targets.length →
      (∀ x, state.entry x = if x = id then some height else s.entry x) →
      (∀ x, state.isEntered x = s.isEntered x) → state.found = s.found →
      work t (state.arrive labels exit) ≤ work t s := by
    intro state labels exit hbounds hnew hlabels hentry hentered hfound
    have hroom := room_succ_le hbounds hnew
    have hown : weight t (state.arrive labels exit) id + operation.operand.targets.length ≤
        weight t s id := by
      have hstate : (state.arrive labels exit).entry id = some height := by
        rw [show (state.arrive labels exit).entry id = state.entry id from rfl, hentry, if_pos rfl]
      simp only [weight, hcontent, hstate]
      calc room (some height) * operation.operand.targets.length + operation.operand.targets.length
          = (room (some height) + 1) * operation.operand.targets.length := by ring
        _ ≤ room (s.entry id) * operation.operand.targets.length := Nat.mul_le_mul_right _ hroom
    have hall : ∀ x, weight t (state.arrive labels exit) x ≤ weight t s x := by
      intro x
      by_cases hx : x = id
      · subst hx
        omega
      · refine weight_le_of_entered ?_ fun hold => ?_
        · rw [show (state.arrive labels exit).entry x = state.entry x from rfl, hentry, if_neg hx]
        · rw [show (state.arrive labels exit).isEntered x = state.isEntered x from rfl, hentered,
            hold]
    have htotal := totalWeight_add_le hindex hall hown
    have hlength : (state.arrive labels exit).found.length = labels.length + s.found.length := by
      rw [State.found_arrive, hfound, List.length_append, List.length_reverse, List.length_map]
    unfold work
    omega
  have hindex' : id.index < s.entries.size := by rwa [hsize]
  cases h with
  | seen => exact Nat.le_refl _
  | leave hnew hbounds _ =>
    exact hrecord (s.record id height) _ 0 hbounds hnew (Nat.le_refl _)
      (State.entry_record hindex' height) (fun _ => rfl) rfl
  | moves hnew hbounds =>
    refine hrecord ((s.record id height).raiseMax _) _ _ hbounds hnew ?_
      (State.entry_record hindex' height) (fun _ => rfl) rfl
    split
    · exact Nat.le_refl _
    · exact Nat.zero_le _

/-! ## The limit -/

theorem entry_start (t : Tree) (id : NodeId) : (State.start t).entry id = none := by
  simp only [State.entry, State.start, Array.getD_eq_getD_getElem?, Array.getElem?_replicate]
  split <;> rfl

theorem isEntered_start {id : NodeId} (h : id.index < t.size) :
    (State.start t).isEntered id = false := by
  simp [State.isEntered, State.start, Array.getD_eq_getD_getElem?, h]

/-- The arrivals that a node may cause in a whole analysis. -/
def fullWeight : Content → Nat
  | .block (.tryBlock handlers) _ => 2 * handlers.length
  | .instruction operation => UInt16.size * operation.operand.targets.length
  | _ => 0

theorem weight_start {id : NodeId} {content : Content} (h : t.content? id = some content) :
    weight t (State.start t) id = fullWeight content := by
  have hid : id.index < t.size := Tree.index_lt_of_content? h
  simp only [weight, h, entry_start, isEntered_start hid]
  unfold fullWeight
  split <;> simp_all [room]

theorem foldl_add_eq {α : Type} {items : List α} {step : Nat → α → Nat} {value : α → Nat}
    (h : ∀ sum item, step sum item = sum + value item) (sum : Nat) :
    items.foldl step sum = sum + (items.map value).sum := by
  induction items generalizing sum with
  | nil => rfl
  | cons item items ih => rw [List.foldl_cons, ih, h, List.map_cons, List.sum_cons, Nat.add_assoc]

/-- The limit of an analysis is the work that it starts with. -/
theorem walkLimit_eq (t : Tree) : walkLimit t = 1 + totalWeight t (State.start t) := by
  have hcost : t.nodes.toList.map (fun node => fullWeight node.content) =
      (List.range t.size).map fun index => weight t (State.start t) ⟨index⟩ := by
    apply List.ext_getElem
    · simp [Tree.size]
    · intro index h₁ h₂
      have hindex : index < t.nodes.size := by simpa using h₁
      have hcontent : t.content? ⟨index⟩ = some t.nodes[index].content := by
        simp only [Tree.content?, Tree.node?]
        rw [Array.getElem?_eq_getElem hindex]
        rfl
      rw [List.getElem_map, List.getElem_map, List.getElem_range, weight_start hcontent]
      rfl
  unfold walkLimit
  rw [← Array.foldl_toList, foldl_add_eq fun sum node => ?_, hcost]
  · rfl
  · obtain ⟨parent, content⟩ := node
    cases content with
    | block kind => cases kind <;> rfl
    | _ => rfl

end StackHeights

end MethodIL
