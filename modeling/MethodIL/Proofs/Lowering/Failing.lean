import Mathlib
import MethodIL.Proofs.Lowering.Checked
set_option autoImplicit false

/-!
# When lowering fails

Lowering fails exactly at the obstacles of a tree.  Whether there is one can be seen in the tree itself,
without laying it out.  All the rest that could go wrong is ruled out by how trees are made.
-/

namespace MethodIL

namespace Tree

/-- A tree that can be made, with code of less than two gigabytes, fails to become a body exactly if there
is an obstacle.  Every fault tells an obstacle, and nothing that lowering takes for granted fails. -/
theorem Reachable.toBody_fails_iff {t : Tree} (h : t.Reachable) (hsize : t.longSize < 2 ^ 31) :
    ((∃ fault, t.toBody = .error fault) ↔ ∃ cause, t.Obstacle cause) ∧
      (∀ fault, t.toBody = .error fault → ∃ cause, fault = .layout cause ∧ t.Obstacle cause) ∧
        Checked.toBody t = Checked.telling t.toBody :=
  ⟨h.fails_iff_obstacle hsize, fun _ => h.obstacle_of_toBody hsize, Checked.toBody_eq h hsize⟩

/-- A protected instruction whose handler has no instruction. -/
def emptyHandler : Tree :=
  (new default).runAll (((Opcode.find? .single 0x00).map fun nop =>
      Edit.newInstruction ⟨nop, .none⟩).toList ++
    [.newBlock .newTry, .newBlock (.newHandler .finallyClause), .append root ⟨2⟩, .append ⟨2⟩ ⟨1⟩,
      .append root ⟨3⟩, .linkHandler ⟨2⟩ ⟨3⟩])

/-- The fault of `emptyHandler` tells its handler, also if everything is checked. -/
theorem emptyHandler_fails :
    emptyHandler.Reachable ∧ emptyHandler.longSize < 2 ^ 31 ∧
      emptyHandler.toBody = .error (.layout (.emptyRegion ⟨3⟩)) ∧
      emptyHandler.Obstacle (.emptyRegion ⟨3⟩) ∧
      Checked.toBody emptyHandler = .error (.fault (.layout (.emptyRegion ⟨3⟩))) := by
  have hreachable : emptyHandler.Reachable := (Reachable.new default).runAll _
  have hsize : emptyHandler.longSize = 1 := by decide +kernel
  have hbody : emptyHandler.toBody = .error (.layout (.emptyRegion ⟨3⟩)) := by decide +kernel
  obtain ⟨-, htells, hchecked⟩ := hreachable.toBody_fails_iff (by omega)
  obtain ⟨cause, hcause, hobstacle⟩ := htells _ hbody
  obtain rfl := Fault.layout.inj hcause
  exact ⟨hreachable, by omega, hbody, hobstacle, by rw [hchecked, hbody]; rfl⟩

end Tree

end MethodIL
