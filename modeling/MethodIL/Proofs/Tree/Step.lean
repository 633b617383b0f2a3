import Mathlib
import MethodIL.Proofs.Tree.Moves
import MethodIL.Tree.Creation
import MethodIL.Tree.Region
set_option autoImplicit false

/-!
# Steps of a tree

Every edit is made of steps: a node is created, attached or detached, a block is spliced or a run
enclosed, the contents of one node are changed, or regions are linked.  What each step leaves intact
every edit leaves intact.
-/

namespace MethodIL

namespace Tree

variable {t t' : Tree}

/-! ## Changes of what nodes are -/

theorem blockKind?_mapKind (id : NodeId) (f : BlockKind → BlockKind) (x : NodeId) :
    (t.mapKind id f).blockKind? x = if x = id then (t.blockKind? x).map f else t.blockKind? x := by
  unfold blockKind?
  rw [content?_mapKind]
  by_cases hx : x = id
  · rw [if_pos hx]
    cases t.content? x with
    | none => simp
    | some content => cases content <;> simp [hx, Content.mapKind]
  · simp [hx]

@[simp] theorem blockKind?_setOperation (id : NodeId) (operation : Operation NodeId) (x : NodeId) :
    (t.setOperation id operation).blockKind? x = t.blockKind? x := by
  unfold blockKind?
  rw [content?_setOperation]
  by_cases hx : x = id
  · rw [if_pos hx]
    cases t.content? x with
    | none => simp
    | some content => cases content <;> simp [Content.setOperation]
  · simp [hx]

@[simp] theorem blockKind?_setOwner (id : NodeId) (owner : Option NodeId) (x : NodeId) :
    (t.setOwner id owner).blockKind? x = t.blockKind? x := by
  unfold blockKind?
  rw [content?_setOwner]
  by_cases hx : x = id
  · rw [if_pos hx]
    cases t.content? x with
    | none => simp
    | some content => cases content <;> simp [Content.setOwner]
  · simp [hx]

/-- A link between regions that is made or undone. -/
inductive Relinks (t : Tree) : Tree → Prop
  | catchType {handler : NodeId} {region filterBlock : Option NodeId} {before after : Option Token}
      (hhandler : t.blockKind? handler = some (.handler .catchClause region filterBlock before)) :
      Relinks t (t.mapKind handler fun _ => .handler .catchClause region filterBlock after)
  | handler {region handler : NodeId} {handlers : List NodeId} {kind : HandlerKind}
      {filterBlock : Option NodeId} {catchType : Option Token}
      (hregion : t.blockKind? region = some (.tryBlock handlers))
      (hhandler : t.blockKind? handler = some (.handler kind none filterBlock catchType)) :
      Relinks t ((t.mapKind handler fun _ =>
        .handler kind (some region) filterBlock catchType).mapKind region fun _ =>
          .tryBlock (handlers ++ [handler]))
  | filter {filterBlock handler region : NodeId} {catchType : Option Token}
      (hhandler : t.blockKind? handler =
        some (.handler .filterClause (some region) none catchType))
      (hfilter : t.blockKind? filterBlock = some (.filter none none)) :
      Relinks t ((t.mapKind filterBlock fun _ => .filter (some region) (some handler)).mapKind
        handler fun _ => .handler .filterClause (some region) (some filterBlock) catchType)
  | unlink {handler : NodeId} {kind : HandlerKind} {region filterBlock : Option NodeId}
      {catchType : Option Token}
      (hhandler : t.blockKind? handler = some (.handler kind region filterBlock catchType)) :
      Relinks t (t.mapKind handler fun _ => .handler kind none none catchType)
  | drop (handler region : NodeId) : Relinks t (t.dropHandler handler region)
  | clear (filterBlock : NodeId) : Relinks t (t.clearFilter filterBlock)

/-- A node is put into every list at some place, and the others stay in order. -/
def Inserts (node : NodeId) (place : List NodeId → List NodeId) : Prop :=
  ∀ items, ∃ before after, items = before ++ after ∧ place items = before ++ node :: after

theorem Inserts.perm {node : NodeId} {place : List NodeId → List NodeId} (h : Inserts node place)
    (items : List NodeId) : (place items).Perm (node :: items) := by
  obtain ⟨before, after, hitems, hplaced⟩ := h items
  rw [hplaced, hitems]
  exact List.perm_middle

/-- One step of an edit. -/
inductive Step (t : Tree) : Tree → Prop
  | header (header : Header) : Step t { t with header }
  | operation {id : NodeId} {operation : Operation NodeId}
      (hsuits : ∀ old, t.operation? id = some old → acceptsOperand old = true →
        acceptsOperand operation = true) : Step t (t.setOperation id operation)
  | owner (id : NodeId) (owner : Option NodeId) : Step t (t.setOwner id owner)
  | push {content : Content} (hchildren : content.children = [])
      (hlinks : ∀ kind children, content = .block kind children → kind.isLinked = false)
      (hsuits : ∀ operation, content = .instruction operation → acceptsOperand operation = true) :
      Step t (t.push content).2
  | attach {parent node : NodeId} {place : List NodeId → List NodeId}
      (hnode : node.index < t.size) (hroot : node ≠ root) (hfree : t.parent? node = none)
      (hparent : (t.blockKind? parent).isSome) (hself : node ≠ parent)
      (hbelow : node ∉ t.ancestors parent) (hplace : Inserts node place) :
      Step t (t.attach parent node place)
  | detach (node : NodeId) : Step t (t.detach node)
  | splice {parent block : NodeId} (hparent : t.parent? block = some parent)
      (hblock : (t.blockKind? block).isSome) : Step t (t.splice parent block)
  | enclose {parent : NodeId} {before run after : List NodeId} {kind : BlockKind}
      (hchildren : t.children parent = before ++ run ++ after) (hrun : run ≠ [])
      (hlinks : kind.isLinked = false) : Step t (t.enclose parent before run after kind).2
  | relink {t' : Tree} (h : Relinks t t') : Step t t'

/-- The steps of an edit, one after the other. -/
abbrev Steps (t t' : Tree) : Prop := Relation.ReflTransGen Step t t'

/-! ## Links of nodes -/

theorem WellFormed.ne_root (wf : t.WellFormed) {id : NodeId} {kind : BlockKind}
    (h : t.blockKind? id = some kind) (hkind : kind ≠ .body) : id ≠ root := by
  rintro rfl
  rw [wf.root_kind, Option.some.injEq] at h
  exact hkind h.symm

/-- The kind of a block may change as long as the root stays the root. -/
theorem WellFormed.mapKind (wf : t.WellFormed) {id : NodeId} {f : BlockKind → BlockKind}
    (h : id = root → f .body = .body) : (t.mapKind id f).WellFormed := by
  refine wf.of_links ?_ (parent?_mapKind t id f) (children_mapKind t id f)
  rw [blockKind?_mapKind, wf.root_kind]
  split
  case isTrue hroot => rw [Option.map_some, h hroot.symm]
  case isFalse => rfl

theorem WellFormed.relinks (wf : t.WellFormed) (h : Relinks t t') : t'.WellFormed := by
  cases h with
  | catchType hhandler | unlink hhandler =>
    exact wf.mapKind fun hroot => absurd hroot (wf.ne_root hhandler (by simp))
  | handler hregion hhandler =>
    refine (wf.mapKind fun hroot => ?_).mapKind fun hroot => ?_
    · exact absurd hroot (wf.ne_root hhandler (by simp))
    · exact absurd hroot (wf.ne_root hregion (by simp))
  | filter hhandler hfilter =>
    refine (wf.mapKind fun hroot => ?_).mapKind fun hroot => ?_
    · exact absurd hroot (wf.ne_root hfilter (by simp))
    · exact absurd hroot (wf.ne_root hhandler (by simp))
  | drop | clear => exact wf.mapKind fun _ => rfl

theorem WellFormed.setOperation (wf : t.WellFormed) (id : NodeId) (operation : Operation NodeId) :
    (t.setOperation id operation).WellFormed :=
  wf.of_links (by rw [blockKind?_setOperation, wf.root_kind]) (parent?_setOperation t id operation)
    (children_setOperation t id operation)

/-- A step leaves a well-formed tree well formed. -/
theorem WellFormed.step (wf : t.WellFormed) (h : Step t t') : t'.WellFormed := by
  cases h with
  | header => exact wf.of_links wf.root_kind (fun _ => rfl) fun _ => rfl
  | operation => exact wf.setOperation _ _
  | owner id owner =>
    exact wf.of_links (by rw [blockKind?_setOwner, wf.root_kind]) (parent?_setOwner t id owner)
      (children_setOwner t id owner)
  | push hchildren => exact wf.push hchildren
  | attach hnode hroot hfree hparent hself hbelow hplace =>
    exact wf.attach hnode hroot hfree hparent hself hbelow hplace.perm
  | detach => exact wf.detach
  | splice hparent hblock => exact wf.splice hparent hblock
  | enclose hchildren hrun => exact wf.enclose hchildren hrun
  | relink h => exact wf.relinks h

theorem WellFormed.steps (wf : t.WellFormed) (h : Steps t t') : t'.WellFormed := by
  induction h with
  | refl => exact wf
  | tail _ hstep ih => exact ih.step hstep

/-! ## Links of regions -/

/-- What handlers name as their filters are filter blocks. -/
def FiltersLinked (t : Tree) : Prop :=
  ∀ handler kind region filterBlock catchType,
    t.blockKind? handler = some (.handler kind region (some filterBlock) catchType) →
      ∃ protectedRegion owner, t.blockKind? filterBlock = some (.filter protectedRegion owner)

/-! ## Operands -/

/-- Every instruction has an operand that suits its opcode, but for targets that it may lack. -/
def OperandsSuit (t : Tree) : Prop :=
  ∀ id operation, t.operation? id = some operation → acceptsOperand operation = true

theorem OperandsSuit.of_same (h : t.OperandsSuit) (hsame : ∀ x, t'.operation? x = t.operation? x) :
    t'.OperandsSuit :=
  fun id operation hoperation => h id operation (by rw [← hsame, hoperation])

theorem OperandsSuit.relinks (h : t.OperandsSuit) (hrelinks : Relinks t t') : t'.OperandsSuit := by
  cases hrelinks with
  | handler | filter =>
    exact (h.of_same (operation?_mapKind _ _ _)).of_same (operation?_mapKind _ _ _)
  | _ => exact h.of_same (operation?_mapKind _ _ _)

theorem OperandsSuit.step (h : t.OperandsSuit) (hstep : Step t t') : t'.OperandsSuit := by
  cases hstep with
  | header => exact h
  | @operation id operation hsuits =>
    intro x operation' hx
    rw [operation?_setOperation] at hx
    split at hx
    case isTrue heq =>
      obtain ⟨old, hold, rfl⟩ := Option.map_eq_some_iff.mp hx
      exact hsuits old (heq ▸ hold) (h _ _ hold)
    case isFalse => exact h _ _ hx
  | owner id owner => exact h.of_same (operation?_setOwner t id owner)
  | push _ _ hsuits =>
    intro x operation hx
    rw [operation?_eq_some_iff, content?_push] at hx
    split at hx
    case isTrue => exact hsuits operation (Option.some.inj hx)
    case isFalse => exact h _ _ (operation?_eq_some_iff.mpr hx)
  | attach => exact h.of_same fun x => operation?_of_payload? (payload?_attach x)
  | detach => exact h.of_same fun x => operation?_of_payload? (payload?_detach x)
  | splice => exact h.of_same fun x => operation?_of_payload? (payload?_splice x)
  | enclose =>
    intro x operation hx
    by_cases heq : x = ⟨t.size⟩
    · rw [heq, operation?_eq_some_iff, blockKind?_eq_some_iff.mp
        (payload?_eq_some_block.mp ((payload?_enclose _).trans (if_pos rfl)))] at hx
      exact absurd hx (by simp)
    · rw [operation?_of_payload? ((payload?_enclose x).trans (if_neg heq))] at hx
      exact h _ _ hx
  | relink hrelinks => exact h.relinks hrelinks

theorem OperandsSuit.steps (h : t.OperandsSuit) (hsteps : Steps t t') : t'.OperandsSuit := by
  induction hsteps with
  | refl => exact h
  | tail _ hstep ih => exact ih.step hstep

end Tree

end MethodIL
