import Mathlib
import MethodIL.Proofs.Lifting.CodeMap
import MethodIL.Proofs.Lifting.Steps
set_option autoImplicit false

/-!
# Reachable trees

A tree is reachable if it was made new or lifted from a body and edited from then on.  Refused edits
count too.  Every reachable tree is well formed, and its operands suit their opcodes.
-/

namespace MethodIL

/-- The edit creates no instruction that lists a label twice. -/
def Edit.ListsOnce : Edit → Prop
  | newInstruction operation => operation.operand.targets.Nodup
  | _ => True

namespace Tree

/-- The trees that can be made. -/
inductive Reachable : Tree → Prop
  | new (header : Header) : Reachable (new header)
  | lifted {body : Body} {t : Tree} (h : ofBody body = .ok t) : Reachable t
  | edited {t : Tree} (h : Reachable t) (edit : Edit) : Reachable (edit.run t).2

/-- The trees that can be made by edits of some sort. -/
inductive ReachableBy (allowed : Edit → Prop) : Tree → Prop
  | new (header : Header) : ReachableBy allowed (new header)
  | lifted {body : Body} {t : Tree} (h : ofBody body = .ok t) : ReachableBy allowed t
  | edited {t : Tree} (h : ReachableBy allowed t) (edit : Edit) (hedit : allowed edit) :
      ReachableBy allowed (edit.run t).2

theorem ReachableBy.reachable {allowed : Edit → Prop} {t : Tree} (h : t.ReachableBy allowed) :
    t.Reachable := by
  induction h with
  | new header => exact .new header
  | lifted h => exact .lifted h
  | edited _ edit _ ih => exact ih.edited edit

theorem Reachable.byAny {t : Tree} (h : t.Reachable) : t.ReachableBy fun _ => True := by
  induction h with
  | new header => exact .new header
  | lifted h => exact .lifted h
  | edited _ edit ih => exact ih.edited edit trivial

/-- The tree after some edits, refused ones included. -/
def runAll (t : Tree) (edits : List Edit) : Tree :=
  edits.foldl (fun t edit => (edit.run t).2) t

theorem ReachableBy.runAll {allowed : Edit → Prop} {t : Tree} (h : t.ReachableBy allowed)
    {edits : List Edit} (hedits : ∀ edit ∈ edits, allowed edit) :
    (t.runAll edits).ReachableBy allowed := by
  induction edits generalizing t with
  | nil => exact h
  | cons edit edits ih =>
    obtain ⟨hedit, hedits⟩ := List.forall_mem_cons.mp hedits
    exact ih (h.edited edit hedit) hedits

theorem Reachable.runAll {t : Tree} (h : t.Reachable) (edits : List Edit) :
    (t.runAll edits).Reachable :=
  (h.byAny.runAll fun _ _ => trivial).reachable

theorem new_eq_ofCode (header : Header) : new header = ofCode header [] := rfl

theorem Reachable.wellFormed {t : Tree} (h : t.Reachable) : t.WellFormed := by
  induction h with
  | new header =>
    rw [new_eq_ofCode]
    exact wellFormed_ofCode header []
  | lifted h => exact (wellFormed_ofCode _ _).steps (steps_of_ofBody h)
  | edited _ edit ih => exact ih.steps (Edit.steps_run ih edit)

/-- Only operands that suit their opcodes are lifted. -/
theorem fits_of_ofBody {body : Body} {t : Tree} (h : ofBody body = .ok t) :
    ∀ i ∈ body.instructions, i.operand.fits i.opcode.operandType = true := fun i hi => by
  obtain ⟨map, _, hmap, -⟩ := ofBody_eq_ok_iff.mp h
  exact (Operation.encodedSize_eq_ok_iff.mp ((CodeMap.maps_of_ofCode hmap).sizes i hi)).1

/-- Every reachable tree is made by steps from bare code whose operands suit their opcodes. -/
theorem Reachable.exists_steps {t : Tree} (h : t.Reachable) : ∃ header code,
    (∀ i ∈ code, i.operand.fits i.opcode.operandType = true) ∧ Steps (ofCode header code) t := by
  induction h with
  | new header => exact ⟨header, [], by simp, .refl⟩
  | @lifted body _ h =>
    exact ⟨_, body.instructions, fits_of_ofBody h, steps_of_ofBody h⟩
  | edited h edit ih =>
    obtain ⟨header, code, hfits, hsteps⟩ := ih
    exact ⟨header, code, hfits, hsteps.trans (Edit.steps_run h.wellFormed edit)⟩

/-- An operand that suits an opcode in a code stream suits it without its targets. -/
theorem acceptsOperand_withoutTargets {opcode : Opcode} {operand : Operand Int32}
    (h : operand.fits opcode.operandType = true) :
    acceptsOperand ⟨opcode, operand.withoutTargets⟩ = true := by
  simp only [acceptsOperand, Opcode.isBranch, Opcode.isSwitch]
  cases operand <;> simp_all [Operand.fits, Operand.withoutTargets]

theorem Reachable.operandsSuit {t : Tree} (h : t.Reachable) : t.OperandsSuit := by
  obtain ⟨header, code, hfits, hsteps⟩ := h.exists_steps
  refine OperandsSuit.steps (fun id operation hoperation => ?_) hsteps
  rw [operation?, content?] at hoperation
  rcases eq_root_or_instructionNode id with rfl | ⟨index, rfl⟩
  · rw [node?_ofCode_root] at hoperation
    exact absurd hoperation (by simp)
  · rw [node?_ofCode_instruction] at hoperation
    cases hi : code[index]? with
    | none => exact absurd hoperation (by simp [hi])
    | some i =>
      rw [hi] at hoperation
      rw [← Option.some.inj hoperation]
      exact acceptsOperand_withoutTargets (hfits i (List.mem_of_getElem? hi))

end Tree

end MethodIL
