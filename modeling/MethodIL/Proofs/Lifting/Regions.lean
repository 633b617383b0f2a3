import Mathlib
import MethodIL.Proofs.Lifting.CodeMap
import MethodIL.Proofs.Lifting.Steps
import MethodIL.Proofs.Lowering.Coverage
import MethodIL.Proofs.Tree.Raising
set_option autoImplicit false

/-!
# Regions of lifted clauses

Wrapping a range makes a block that covers exactly the range, wherever its ends have to be raised to,
and leaves what all other nodes cover.  So a clause that has been added keeps the regions that it was
added with, whatever clauses are added after it, and the handlers that the protected regions list are
those of the clauses, one for each.
-/

namespace MethodIL

open Outcome

namespace Tree

variable {t t' : Tree}

/-! ## The ends of a run -/

namespace WellFormed

variable (wf : t.WellFormed)

include wf

/-- A block starts where a node does that it leads to down its first children. -/
theorem covers_of_openedBy {node block : NodeId} {first last : Nat} (h : t.OpenedBy block node)
    (hcovers : t.Covers node first last) : ∃ last', t.Covers block first last' := by
  induction h using Relation.ReflTransGen.head_induction_on with
  | refl => exact ⟨last, hcovers⟩
  | head hstep _ ih =>
    obtain ⟨last', hchild⟩ := ih
    obtain ⟨after, hchildren⟩ := List.head?_eq_some_iff.mp hstep
    exact wf.covers_of_first (hchildren.trans (List.nil_append _).symm) (by simp) hchild

/-- A block ends where a node does that it leads to down its last children. -/
theorem covers_of_closedBy {node block : NodeId} {first last : Nat} (h : t.ClosedBy block node)
    (hcovers : t.Covers node first last) : ∃ first', t.Covers block first' last := by
  induction h using Relation.ReflTransGen.head_induction_on with
  | refl => exact ⟨first, hcovers⟩
  | head hstep _ ih =>
    obtain ⟨first', hchild⟩ := ih
    obtain ⟨before, hchildren⟩ := List.getLast?_eq_some_iff.mp hstep
    exact wf.covers_of_last hchildren hchild

/-- The ends of a run start and end where the two nodes do that it stands for. -/
theorem covers_of_runEnds {start stop left right : NodeId} {first first' last last' : Nat}
    (h : t.runEnds start stop = .ok (left, right)) (hstart : t.Covers start first last')
    (hstop : t.Covers stop first' last) :
    (∃ last', t.Covers left first last') ∧ ∃ first', t.Covers right first' last := by
  obtain ⟨hopened, hclosed, -⟩ := wf.walks_of_runEnds h
  exact ⟨wf.covers_of_openedBy hopened hstart, wf.covers_of_closedBy hclosed hstop⟩

/-- A block covers from the start of its first child to the end of its last. -/
theorem covers_of_children {block left right : NodeId} {first first' last last' : Nat}
    (hleft : (t.children block).head? = some left)
    (hright : (t.children block).getLast? = some right) (hfirst : t.Covers left first last')
    (hlast : t.Covers right first' last) : t.Covers block first last := by
  obtain ⟨after, hchildren⟩ := List.head?_eq_some_iff.mp hleft
  obtain ⟨before, hchildren'⟩ := List.getLast?_eq_some_iff.mp hright
  have hsplit : t.children block = [] ++ left :: after := hchildren
  obtain ⟨_, hcovers⟩ := wf.covers_of_first hsplit (by simp) hfirst
  obtain ⟨_, hcovers'⟩ := wf.covers_of_last hchildren' hlast
  obtain ⟨rfl, rfl⟩ := hcovers.unique hcovers'
  exact hcovers

/-- The block that a range is wrapped into covers exactly the range. -/
theorem covers_of_wraps {start stop block : NodeId} {kind : BlockKind} {isNew : Bool}
    {first first' last last' : Nat} (h : Wraps t start stop kind block isNew t')
    (hstart : t.Covers start first last') (hstop : t.Covers stop first' last) :
    t'.Covers block first last := by
  cases h with
  | reused hends _ hsplit =>
    obtain ⟨⟨_, hleft⟩, _, hright⟩ := wf.covers_of_runEnds hends hstart hstop
    obtain ⟨hchildren, hhead, hlast⟩ := splitRun?_eq_some hsplit
    rw [List.nil_append, List.append_nil] at hchildren
    rw [← hchildren] at hhead hlast
    exact wf.covers_of_children hhead hlast hleft hright
  | @enclosed _ _ parent _ _ _ hends _ hsplit =>
    obtain ⟨⟨_, hleft⟩, _, hright⟩ := wf.covers_of_runEnds hends hstart hstop
    obtain ⟨hchildren, hhead, hlast⟩ := splitRun?_eq_some hsplit
    have hrun := List.ne_nil_of_mem (List.mem_of_head? hhead)
    have hdissolves := wf.dissolves_enclose kind hchildren hrun
    obtain ⟨c, hc⟩ := List.exists_mem_of_ne_nil _ hrun
    have hmem : c ∈ t.children parent := by simp [hchildren, hc]
    have hne := Ne.symm (ne_size_of_mem_children hmem)
    refine hdissolves.before.covers_of_children ?_ ?_ (hdissolves.covers_of_new hleft)
      (hdissolves.covers_of_new hright)
    · rw [children_enclose hchildren hrun, if_neg hne, if_pos rfl, hhead]
    · rw [children_enclose hchildren hrun, if_neg hne, if_pos rfl, hlast]

end WellFormed

/-! ## New blocks -/

/-- A tree has got new blocks, all of them such as `allowed` says, and otherwise its nodes are what they
were and cover what they covered. -/
structure Adds (t t' : Tree) (allowed : NodeId → BlockKind → Prop) : Prop where
  wellFormed : t'.WellFormed
  header : t'.header = t.header
  payload : ∀ id, t'.payload? id = t.payload? id ∨
    t.payload? id = none ∧ ∃ kind, allowed id kind ∧ t'.payload? id = some (.block kind [])
  instructions : t'.instructions = t.instructions
  covers : ∀ id first last, t.Covers id first last → t'.Covers id first last

namespace Adds

variable {allowed : NodeId → BlockKind → Prop}

theorem trans {t'' : Tree} (h : t.Adds t' allowed) (h' : t'.Adds t'' allowed) :
    t.Adds t'' allowed := by
  refine ⟨h'.wellFormed, h'.header.trans h.header, fun id => ?_,
    h'.instructions.trans h.instructions,
    fun id first last hcovers => h'.covers _ _ _ (h.covers _ _ _ hcovers)⟩
  rcases h'.payload id with hsame | ⟨hnone, kind, hkind, hblock⟩
  · rw [hsame]
    exact h.payload id
  · rcases h.payload id with hsame' | ⟨_, _, _, hblock'⟩
    · exact Or.inr ⟨hsame' ▸ hnone, kind, hkind, hblock⟩
    · rw [hblock'] at hnone
      exact absurd hnone (by simp)

theorem imp {allowed' : NodeId → BlockKind → Prop} (h : t.Adds t' allowed)
    (himp : ∀ id kind, allowed id kind → allowed' id kind) : t.Adds t' allowed' :=
  ⟨h.wellFormed, h.header, fun id => (h.payload id).imp_right (And.imp_right fun ⟨kind, hkind, hblock⟩ =>
    ⟨kind, himp id kind hkind, hblock⟩), h.instructions, h.covers⟩

/-- A wrapped range is at most one new block. -/
theorem of_wraps (wf : t.WellFormed) {start stop block : NodeId} {kind : BlockKind} {isNew : Bool}
    (h : Wraps t start stop kind block isNew t') (hallowed : allowed block kind) :
    t.Adds t' allowed := by
  cases h with
  | reused => exact ⟨wf, rfl, fun _ => Or.inl rfl, rfl, fun _ _ _ h => h⟩
  | @enclosed _ _ parent _ _ _ _ _ hsplit =>
    obtain ⟨hchildren, hhead, -⟩ := splitRun?_eq_some hsplit
    have hrun := List.ne_nil_of_mem (List.mem_of_head? hhead)
    have hdissolves := wf.dissolves_enclose kind hchildren hrun
    refine ⟨hdissolves.before, header_enclose, fun id => ?_,
      hdissolves.instructions.symm, fun _ _ _ => hdissolves.covers_of_new⟩
    rw [payload?_enclose]
    by_cases hid : id = ⟨t.size⟩
    · rw [if_pos hid]
      refine Or.inr ⟨?_, kind, hid ▸ hallowed, rfl⟩
      rw [hid, payload?, content?_size]
      rfl
    · exact Or.inl (if_neg hid)

/-- A block that was added may be dissolved again. -/
theorem ungroup (wf : t.WellFormed) (h : t.Adds t' allowed) {t'' : Tree} {block : NodeId}
    (hnew : t.content? block = none) (hungroup : t'.ungroup block = .ok t'') :
    t.Adds t'' allowed := by
  obtain ⟨_, kind, parent, hkind, _, hparent, rfl⟩ := ungroup_eq_ok_iff.mp hungroup
  have hdissolves := h.wellFormed.dissolves_splice hparent (by rw [hkind]; rfl)
  refine ⟨hdissolves.after, header_splice.trans h.header, fun id => ?_,
    hdissolves.instructions.trans h.instructions, fun id first last hcovers => ?_⟩
  · rw [payload?_splice]
    exact h.payload id
  · have hne : id ≠ block := by
      rintro rfl
      have hexists := wf.exists_of_covers hcovers
      rw [← isSome_content?_iff, hnew] at hexists
      exact absurd hexists (by simp)
    exact (hdissolves.covers_iff hne).mpr (h.covers _ _ _ hcovers)

theorem blockKind?_of_some (h : t.Adds t' allowed) {id : NodeId} {kind : BlockKind}
    (hkind : t.blockKind? id = some kind) : t'.blockKind? id = some kind := by
  rw [← payload?_eq_some_block] at hkind ⊢
  rcases h.payload id with hsame | ⟨hnone, -⟩
  · rw [hsame, hkind]
  · rw [hkind] at hnone
    exact absurd hnone (by simp)

theorem blockKind?_or (h : t.Adds t' allowed) {id : NodeId} {kind : BlockKind}
    (hkind : t'.blockKind? id = some kind) : t.blockKind? id = some kind ∨ allowed id kind := by
  rw [← payload?_eq_some_block] at hkind ⊢
  rcases h.payload id with hsame | ⟨_, kind', hallowed, hblock⟩
  · exact Or.inl (hsame ▸ hkind)
  · rw [hblock, Option.some.injEq, Content.block.injEq] at hkind
    exact Or.inr (hkind.1 ▸ hallowed)

/-- Instructions and labels are what they were. -/
theorem operation?_eq (h : t.Adds t' allowed) (id : NodeId) :
    t'.operation? id = t.operation? id ∧ t'.isLabel id = t.isLabel id := by
  rcases h.payload id with hsame | ⟨hnone, kind, _, hblock⟩
  · exact ⟨operation?_of_payload? hsame, isLabel_of_payload? hsame⟩
  · rw [payload?, Option.map_eq_none_iff] at hnone
    rw [payload?_eq_some_block, blockKind?_eq_some_iff] at hblock
    exact ⟨by rw [operation?, operation?, hnone, hblock], by rw [isLabel, isLabel, hnone, hblock]⟩

end Adds

end Tree

end MethodIL
