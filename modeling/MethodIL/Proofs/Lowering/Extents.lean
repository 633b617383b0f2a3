import Mathlib
import MethodIL.Proofs.Lowering.Coverage
import MethodIL.Proofs.Tree.Step
set_option autoImplicit false

/-!
# Regions of a tree and ranges of a body

A tree and a body with the same instructions are compared region by region: the bytes of a range are
those of the instructions below a block, a clause tells the blocks of a handler by their ranges, and an
offset leads to the instruction that a label marks.  The ranges of a clause are nested or apart because
blocks are.
-/

namespace MethodIL

namespace Tree

variable (t : Tree)

/-- The handlers that a protected region lists. -/
def handlersOf (region : NodeId) : List NodeId :=
  match t.blockKind? region with
  | some (.tryBlock handlers) => handlers
  | _ => []

/-- The filter block of a handler. -/
def filterOf? (handler : NodeId) : Option NodeId :=
  match t.blockKind? handler with
  | some (.handler _ _ filterBlock _) => filterBlock
  | _ => none

/-- The bytes of a range are those of the places that a node covers. -/
def Occupies (y : Body) (id : NodeId) (range : Nat × Nat) : Prop :=
  ∃ first last, t.Covers id first last ∧ y.Spans range.1 range.2 first last

/-- A range is made of whole instructions, and these are the instructions below a block. -/
def Fills (y : Body) (block : NodeId) (range : Nat × Nat) : Prop :=
  (∃ first last, y.Spans range.1 range.2 first last) ∧ ∀ (k : Nat) (node : NodeId),
    t.instructions[k]? = some node →
      (node ∈ t.descendants block ↔ range.1 ≤ y.start k ∧ y.start k < range.2)

/-- A clause tells a handler of a protected region: its kind, the type that it catches, and the ranges of
the region, of the handler and of its filter, which ends where the handler starts.  Which ranges belong
to a block is left open. -/
structure TellsHandler (fills : NodeId → Nat × Nat → Prop) (region handler : NodeId)
    (clause : Clause) : Prop where
  isHandler : ∃ catchType,
    t.blockKind? handler = some (.handler clause.kind (some region) (t.filterOf? handler) catchType) ∧
      (clause.kind = .catchClause → clause.catchType = catchType)
  tryRange : fills region clause.tryRange
  handlerRange : fills handler clause.handlerRange
  filterRange : clause.kind = .filterClause →
    ∃ block start, t.filterOf? handler = some block ∧ clause.filterOffset = some start ∧
      fills block (start.toNat, clause.handlerOffset.toNat)

/-- An offset that the instruction at a place of a body holds leads where a label of the tree does. -/
def LeadsAlike (y : Body) (index : Nat) (label : NodeId) (offset : Int32) : Prop :=
  ∃ target node, t.labelTarget? label = some node ∧ t.instructions[target]? = some node ∧
    y.Lands index offset target

theorem handlersOf_eq_iff {region : NodeId} {handlers : List NodeId} (hne : handlers ≠ []) :
    t.handlersOf region = handlers ↔ t.blockKind? region = some (.tryBlock handlers) := by
  unfold handlersOf
  split
  case h_1 listed hkind => simp [hkind]
  case h_2 hother => exact ⟨fun h => absurd h.symm hne, fun h => absurd h (hother _)⟩

section

variable {t} {y : Body}

/-! ## Labels -/

/-- An offset that lands on the place of a label leads where the label does. -/
theorem WellFormed.leadsAlike (wf : t.WellFormed)
    (hlength : y.instructions.length = t.instructions.length) {index target : Nat} {label : NodeId}
    {offset : Int32} (hlabel : t.isLabel label = true) (hplace : place? t.places label = some target)
    (hlands : y.Lands index offset target) : t.LeadsAlike y index label offset := by
  obtain ⟨node, hnode⟩ : ∃ node, t.instructions[target]? = some node :=
    ⟨_, List.getElem?_eq_getElem (hlength ▸ hlands.1)⟩
  exact ⟨target, node, (wf.labelTarget?_eq (isInstruction_of_isLabel hlabel) hplace).trans hnode,
    hnode, hlands⟩

/-! ## Ranges -/

/-- What two nodes occupy is nested or apart. -/
theorem Occupies.laminar (wf : t.WellFormed) {a b : NodeId} {r s : Nat × Nat} (ha : t.Occupies y a r)
    (hb : t.Occupies y b s) : Laminar r s := by
  obtain ⟨first, last, hcovers, hspans⟩ := ha
  obtain ⟨first', last', hcovers', hspans'⟩ := hb
  exact hspans.laminar hspans' (wf.laminar_covers hcovers hcovers' hspans.1 hspans'.1)

/-- What a block occupies are the instructions below it. -/
theorem Occupies.fills (wf : t.WellFormed) (hpos : ∀ i ∈ y.instructions, 0 < i.size.toNat)
    (hlength : y.instructions.length = t.instructions.length) {block : NodeId} {kind : BlockKind}
    {range : Nat × Nat} (hkind : t.blockKind? block = some kind) (h : t.Occupies y block range) :
    t.Fills y block range := by
  obtain ⟨first, last, hcovers, hspans⟩ := h
  refine ⟨⟨first, last, hspans⟩, fun k node hnode => ?_⟩
  have hk : k ≤ y.instructions.length := by
    rw [hlength]
    exact Nat.le_of_lt (List.getElem?_eq_some_iff.mp hnode).1
  obtain ⟨hlt, hle, hfirst, hlast⟩ := hspans
  -- the block itself is no instruction
  have hbelow : node ∈ t.descendants block ↔ node ∈ t.preOrder block := by
    rw [wf.preOrder_eq, ← wf.descendants_eq, List.mem_cons]
    refine (or_iff_right ?_).symm
    rintro rfl
    obtain ⟨-, -, -, hinstruction, -⟩ := wf.exists_of_getElem?_instructions hnode
    rw [isInstruction_of_blockKind? hkind] at hinstruction
    exact absurd hinstruction (by simp)
  rw [hbelow, wf.mem_preOrder_iff_covered hcovers hnode, ← hfirst, ← hlast,
    Body.start_lt_iff hpos hk hle, ← Nat.not_lt, ← Nat.not_lt,
    Body.start_lt_iff hpos hk (Nat.le_trans (Nat.le_of_lt hlt) hle)]

/-! ## Clauses -/

theorem TellsHandler.exists_of_mem_ranges {fills : NodeId → Nat × Nat → Prop} {region handler : NodeId}
    {clause : Clause} (h : t.TellsHandler fills region handler clause) {r : Nat × Nat}
    (hr : r ∈ clause.ranges) : ∃ block, fills block r := by
  simp only [Clause.ranges, List.mem_cons, List.mem_map] at hr
  rcases hr with rfl | rfl | ⟨start, hstart, rfl⟩
  · exact ⟨region, h.tryRange⟩
  · exact ⟨handler, h.handlerRange⟩
  · split at hstart
    case isTrue hfilter =>
      obtain ⟨block, start', -, hstart', hrange⟩ := h.filterRange hfilter
      rw [hstart', Option.toList_some, List.mem_singleton] at hstart
      exact ⟨block, hstart ▸ hrange⟩
    case isFalse => exact absurd hstart List.not_mem_nil

/-- A clause tells a handler in all ways that agree on blocks. -/
theorem TellsHandler.imp (hfilters : t.FiltersLinked) {fills fills' : NodeId → Nat × Nat → Prop}
    {region handler : NodeId} {clause : Clause} (h : t.TellsHandler fills region handler clause)
    (hlisted : handler ∈ t.handlersOf region)
    (himp : ∀ block kind range, t.blockKind? block = some kind → fills block range →
      fills' block range) :
    t.TellsHandler fills' region handler clause := by
  obtain ⟨catchType, hkind, hcatch⟩ := h.isHandler
  have hregion := (t.handlersOf_eq_iff (List.ne_nil_of_mem hlisted)).mp rfl
  refine ⟨⟨catchType, hkind, hcatch⟩, himp _ _ _ hregion h.tryRange, himp _ _ _ hkind h.handlerRange,
    fun hfilter => ?_⟩
  obtain ⟨block, start, hblock, hstart, hrange⟩ := h.filterRange hfilter
  rw [hblock] at hkind
  obtain ⟨_, _, hblockKind⟩ := hfilters _ _ _ _ _ hkind
  exact ⟨block, start, hblock, hstart, himp _ _ _ hblockKind hrange⟩

end

end Tree

end MethodIL
