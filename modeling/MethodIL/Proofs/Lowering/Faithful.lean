import Mathlib
import MethodIL.Proofs.Lowering.Protections
import MethodIL.Proofs.Lowering.RoundTrip
import MethodIL.Proofs.Tree.RegionLinks
set_option autoImplicit false

/-!
# What a body says about its tree

A body renders a tree if it can be read off the tree: its instructions are those of the tree in flat
order, its offsets lead to the instructions that the labels mark, and its clauses are those of the
handlers that the protected regions of the body list.  Whatever has been done to a tree, the body that
it lowers to renders it.
-/

namespace MethodIL

open Outcome

/-- A body renders a tree.  The clauses of a region stand together in the order of its list. -/
structure Body.Renders (y : Body) (t : Tree) : Prop where
  header : y.header = t.header
  length : y.instructions.length = t.instructions.length
  instructions : ∀ (k : Nat) (i : Instruction), y.instructions[k]? = some i →
    ∃ id operation, t.instructions[k]? = some id ∧ t.operation? id = some operation ∧
      operation.opcode.SameUpToForm i.opcode ∧
        operation.operand.Matches (t.LeadsAlike y k) i.operand ∧
          i.toOperation.encodedSize = .ok i.size
  clauses : ∃ regions : List NodeId, regions.Perm t.protectedRegions ∧
    List.Forall₂ (fun (pair : NodeId × NodeId) clause =>
        t.TellsHandler (t.Fills y) pair.1 pair.2 clause ∧ clause.Plain)
      (t.listings regions) y.clauses
  laminar : ∀ r ∈ y.ranges, ∀ s ∈ y.ranges, Laminar r s

namespace Tree.Lowers

variable {t : Tree} {p : Plan} {y : Body} (h : t.Lowers p y)

include h

theorem length_eq : y.instructions.length = t.instructions.length :=
  h.length_instructions.trans h.length_slots

/-- The instruction at a place is that of the node at the same place. -/
theorem rendered_at (wf : t.WellFormed) (hsuit : t.OperandsSuit) {k : Nat} {i : Instruction}
    (hi : y.instructions[k]? = some i) :
    ∃ id operation, t.instructions[k]? = some id ∧ t.operation? id = some operation ∧
      operation.opcode.SameUpToForm i.opcode ∧
        operation.operand.Matches (t.LeadsAlike y k) i.operand ∧
          i.toOperation.encodedSize = .ok i.size := by
  obtain ⟨id, operation, hid, hoperation, hsize, hemitted⟩ := h.emitted_at hi
  obtain ⟨hsame, hlands⟩ := hemitted (hsuit id operation hoperation)
  refine ⟨id, operation, hid, hoperation, hsame, hlands.imp fun label offset => ?_, hsize⟩
  rintro ⟨hlabel, target, hplace, hlands⟩
  exact wf.leadsAlike h.length_eq hlabel hplace hlands

end Tree.Lowers

/-! ## The main result -/

/-- Whatever has been done to a tree, the body that it lowers to renders it. -/
theorem Tree.Reachable.renders {t : Tree} {y : Body} (h : t.Reachable) (hy : t.toBody = .ok y) :
    y.Renders t := by
  obtain ⟨p, hlowers⟩ := Tree.toBody_eq_ok_iff.mp hy
  have wf := h.wellFormed
  obtain ⟨regions, hperm, htells⟩ := hlowers.exists_tells wf
  have hranges : ∀ r ∈ y.ranges, ∃ block, t.Occupies y block r := by
    intro r hr
    obtain ⟨clause, hclause, hr⟩ := List.mem_flatMap.mp hr
    obtain ⟨_, _, -, htells, -⟩ := exists_of_mem_right htells hclause
    exact htells.exists_of_mem_ranges hr
  refine ⟨hlowers.header, hlowers.length_eq,
    fun k i hi => hlowers.rendered_at wf h.operandsSuit hi, ⟨regions, hperm, ?_⟩, fun r hr s hs => ?_⟩
  · refine htells.imp fun pair clause ⟨hhandler, htells, hplain⟩ =>
      ⟨htells.imp h.filtersLinked hhandler fun block kind range hkind hrange => ?_, hplain⟩
    exact hrange.fills wf hlowers.sized.size_pos hlowers.length_eq hkind
  · obtain ⟨_, hr⟩ := hranges r hr
    obtain ⟨_, hs⟩ := hranges s hs
    exact hr.laminar wf hs

/-- Without its first instruction, the tree of `filteredCode` lowers to a body that renders it. -/
theorem filteredCode_shortened_renders :
    ∃ t y, Tree.ofBody filteredCode = .ok t ∧ t.instructions.length = 7 ∧
      let shortened := ((Edit.remove (Tree.instructionNode 0)).run t).2
      shortened.toBody = .ok y ∧ y.instructions.length = 6 ∧ y.clauses.length = 2 ∧
        y.Renders shortened := by
  have hrun : ((Tree.ofBody filteredCode).toOption.any fun t =>
      t.instructions.length == 7 &&
        (((Edit.remove (Tree.instructionNode 0)).run t).2.toBody.toOption.any fun y : Body =>
          y.instructions.length == 6 && y.clauses.length == 2)) = true := by
    cbv
  rw [Option.any_eq_true] at hrun
  obtain ⟨t, ht, hrun⟩ := hrun
  rw [Bool.and_eq_true, beq_iff_eq, Option.any_eq_true] at hrun
  obtain ⟨hcount, y, hy, hrun⟩ := hrun
  rw [Bool.and_eq_true, beq_iff_eq, beq_iff_eq] at hrun
  rw [toOption_eq_some_iff] at ht hy
  exact ⟨t, y, ht, hcount, hy, hrun.1, hrun.2,
    ((Tree.Reachable.lifted ht).edited (.remove (Tree.instructionNode 0))).renders hy⟩

end MethodIL
