import Mathlib
import MethodIL.Proofs.Lowering.Protections
set_option autoImplicit false

/-!
# When regions are completed

In the post-order of a body a node stands behind all that ends in front of its own end.  So a protected
region is completed after another if one of its parts ends behind all parts of the other.
-/

namespace MethodIL

namespace Tree

variable {t : Tree}

namespace WellFormed

variable (wf : t.WellFormed)

include wf

/-! ## Ends in the post-order -/

/-- In the post-order, the instructions up to a node are those in front of it in the flat order, and
those at and below it. -/
theorem exists_postOrder_append {block id : NodeId} (h : id ∈ t.preOrder block) :
    ∃ before after left right, t.preOrder block = before ++ (t.preOrder id ++ after) ∧
      t.postOrder block = left ++ id :: right ∧
        (left ++ [id]).countP t.isInstruction = (before ++ t.preOrder id).countP t.isInstruction := by
  induction block using wf.induction_below with
  | step block ih =>
    have hcount : ∀ ids : List NodeId, (ids.flatMap t.postOrder).countP t.isInstruction =
        (ids.flatMap t.preOrder).countP t.isInstruction := fun ids =>
      (List.Perm.flatMap_left ids fun id _ => wf.postOrder_perm id).countP_eq _
    rcases List.mem_cons.mp (wf.preOrder_eq block ▸ h) with rfl | hbelow
    · refine ⟨[], [], (t.children id).flatMap t.postOrder, [], by simp, wf.postOrder_eq id, ?_⟩
      rw [← wf.postOrder_eq, (wf.postOrder_perm id).countP_eq, List.nil_append]
    · obtain ⟨child, hchild, hmem⟩ := List.mem_flatMap.mp hbelow
      obtain ⟨before, after, left, right, hpre, hpost, hsame⟩ := ih child hchild hmem
      obtain ⟨siblings, others, hchildren⟩ := List.append_of_mem hchild
      have hother : t.isInstruction block = false := by
        rw [Bool.eq_false_iff]
        intro hinstruction
        rw [children_eq_nil_of_isInstruction hinstruction] at hchildren
        exact absurd hchildren (by simp)
      refine ⟨block :: siblings.flatMap t.preOrder ++ before, after ++ others.flatMap t.preOrder,
        siblings.flatMap t.postOrder ++ left, right ++ others.flatMap t.postOrder ++ [block], ?_, ?_, ?_⟩
      · rw [wf.preOrder_eq block, hchildren, List.flatMap_append, List.flatMap_cons, hpre]
        simp only [List.append_assoc, List.cons_append]
      · rw [wf.postOrder_eq block, hchildren, List.flatMap_append, List.flatMap_cons, hpost]
        simp only [List.append_assoc, List.cons_append]
      · rw [List.countP_append, List.countP_append] at hsame
        simp only [List.countP_append, List.cons_append, List.countP_cons, hother, hcount]
        rw [List.countP_singleton] at hsame
        simp only [Bool.false_eq_true, if_false, Nat.add_zero, List.countP_nil, Nat.zero_add]
        omega

theorem nodup_postOrder (id : NodeId) : (t.postOrder id).Nodup :=
  (wf.postOrder_perm id).nodup_iff.mpr (wf.nodup_preOrder id)

/-- What a node covers ends with the instructions up to the node in the post-order. -/
theorem countP_take_postOrder {id : NodeId} {first last : Nat} (h : t.Covers id first last) :
    ((t.postOrder root).take ((t.postOrder root).idxOf id + 1)).countP t.isInstruction = last := by
  obtain ⟨before, after, left, right, hpre, hpost, hcount⟩ :=
    wf.exists_postOrder_append (wf.mem_body_of_covers h)
  obtain ⟨-, rfl⟩ := h.unique (wf.covers_of_split id before after hpre)
  have hfront : id ∉ left := by
    have hnodup := wf.nodup_postOrder root
    rw [hpost, List.nodup_middle, List.nodup_cons] at hnodup
    exact fun hmem => hnodup.1 (List.mem_append_left _ hmem)
  rw [hpost, List.idxOf_append_of_notMem hfront, List.idxOf_cons_self, Nat.add_zero,
    List.take_length_add_append, List.take_succ_cons, List.take_zero, hcount, List.countP_append]

/-- What ends first stands first in the post-order. -/
theorem idxOf_postOrder_lt {a b : NodeId} {first last first' last' : Nat} (ha : t.Covers a first last)
    (hb : t.Covers b first' last') (hlt : last < last') :
    (t.postOrder root).idxOf a < (t.postOrder root).idxOf b := by
  by_contra hle
  have hprefix := List.take_prefix_take_left (l := t.postOrder root)
    (Nat.succ_le_succ (Nat.le_of_not_lt hle))
  have hcount := hprefix.sublist.countP_le (p := t.isInstruction)
  rw [wf.countP_take_postOrder ha, wf.countP_take_postOrder hb] at hcount
  exact absurd hlt (Nat.not_lt_of_le hcount)

end WellFormed

/-! ## Completion -/

/-- No part of a region stands behind the place where the region is completed, and one stands
there. -/
theorem completion_spec (region : NodeId) :
    (∃ part ∈ t.partsOf region, (t.postOrder root).idxOf part = t.completion region) ∧
      ∀ part ∈ t.partsOf region, (t.postOrder root).idxOf part ≤ t.completion region := by
  have hmax : ((t.partsOf region).map fun part => (t.postOrder root).idxOf part).max? =
      some (t.completion region) := by
    rw [completion, partsOf, List.map_cons, List.max?_cons', List.foldl_cons, Nat.zero_max]
  obtain ⟨hmem, hle⟩ := List.max?_eq_some_iff.mp hmax
  exact ⟨List.mem_map.mp hmem, fun part hpart => hle _ (List.mem_map_of_mem hpart)⟩

/-- A region is completed behind another if one of its parts ends behind all parts of the other. -/
theorem WellFormed.completion_lt (wf : t.WellFormed) {a b part : NodeId} {first last : Nat}
    (hpart : part ∈ t.partsOf b) (hcovers : t.Covers part first last)
    (hbefore : ∀ other ∈ t.partsOf a, ∃ first' last', t.Covers other first' last' ∧ last' < last) :
    t.completion a < t.completion b := by
  obtain ⟨other, hother, hcompleted⟩ := (completion_spec a).1
  obtain ⟨first', last', hcovers', hlt⟩ := hbefore other hother
  rw [← hcompleted]
  exact Nat.lt_of_lt_of_le (wf.idxOf_postOrder_lt hcovers' hcovers hlt) ((completion_spec b).2 _ hpart)

end Tree

end MethodIL
