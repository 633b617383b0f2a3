import Mathlib
import MethodIL.Proofs.Store.Operands
set_option autoImplicit false

/-!
# Refused edits rewrite nothing

The work of an edit of a reachable tree comes to what the edit makes of the tree: nothing that is asked
behind the first rewriting is refused, for the nodes on the way exist and are what they are taken for.  So
a refused edit has not rewritten anything.
-/

namespace MethodIL

open Outcome

namespace Tree

variable {t : Tree}

/-! ## Edits -/

section Answers

variable {α : Type}

/-- The answer of work that comes to a change of a tree may be wrapped. -/
theorem map_settled {work : Work α} {outcome : Except Fault (α × Tree)} {outcome' : Except Fault (Reply × Tree)}
    (h : work t.stored = t.settled outcome) (f : α → Reply) (hsame : outcome' = (fun answer =>
      (f answer.1, answer.2)) <$> outcome) :
    (f <$> work) t.stored = ((Edit.settle t outcome').1, (Edit.settle t outcome').2.stored) := by
  rw [Work.map_run, h, hsame]
  cases outcome <;> rfl

end Answers

/-- The work of an edit comes to what the edit makes of the tree, and refuses what the edit refuses. -/
theorem Reachable.perform_stored (h : t.Reachable) (edit : Edit) :
    edit.perform t.stored = ((edit.run t).1, (edit.run t).2.stored) := by
  have wf := h.wellFormed
  cases edit with
  | newInstruction operation =>
    refine (Work.map_run _ _).trans ?_
    rw [wf.newInstruction_run]
    rfl
  | newBlock kind => exact map_settled (wf.newBlock_run kind) _ (by cases t.newBlock kind <;> rfl)
  | newLabel =>
    refine (Work.map_run _ _).trans ?_
    rw [wf.newLabel_run]
    rfl
  | append parent node =>
    exact map_settled (wf.append_run parent node) _ (by cases t.append parent node <;> rfl)
  | prepend parent node =>
    exact map_settled (wf.prepend_run parent node) _ (by cases t.prepend parent node <;> rfl)
  | insertBefore anchor node =>
    exact map_settled (wf.insertBefore_run anchor node) _ (by cases t.insertBefore anchor node <;> rfl)
  | insertAfter anchor node =>
    exact map_settled (wf.insertAfter_run anchor node) _ (by cases t.insertAfter anchor node <;> rfl)
  | remove node => exact map_settled (wf.remove_run h.targetsLabeled node) _ (by cases t.remove node <;> rfl)
  | ungroup block => exact map_settled (wf.ungroup_run block) _ (by cases t.ungroup block <;> rfl)
  | group start stop kind =>
    exact map_settled (wf.group_run start stop kind) _ (by cases t.group start stop kind <;> rfl)
  | setOpcode node opcode =>
    exact map_settled (setOpcode_run node opcode) _ (by cases t.setOpcode node opcode <;> rfl)
  | setOperand node operand =>
    exact map_settled (setOperand_run node operand) _ (by cases t.setOperand node operand <;> rfl)
  | setCatchType handler token =>
    exact map_settled (setCatchType_run handler token) _ (by cases t.setCatchType handler token <;> rfl)
  | linkHandler region handler =>
    exact map_settled (linkHandler_run region handler) _ (by cases t.linkHandler region handler <;> rfl)
  | linkFilter filterBlock handler =>
    exact map_settled (linkFilter_run filterBlock handler) _
      (by cases t.linkFilter filterBlock handler <;> rfl)
  | unlinkHandler handler =>
    exact map_settled (unlinkHandler_run h.regionsLinked handler) _
      (by cases t.unlinkHandler handler <;> rfl)
  | setBranchTarget node target =>
    exact map_settled (wf.setBranchTarget_run h.targetsLabeled node target) _
      (by cases t.setBranchTarget node target <;> rfl)
  | setSwitchTargets node targets =>
    exact map_settled (wf.setSwitchTargets_run h.targetsLabeled node targets) _
      (by cases t.setSwitchTargets node targets <;> rfl)
  | setHeader header => rfl

end Tree

namespace Edit

theorem settle_refused {t : Tree} {outcome : Except Fault (Reply × Tree)} {fault : Fault}
    (h : (settle t outcome).1 = .error fault) : settle t outcome = (.error fault, t) := by
  cases outcome with
  | ok answer => exact absurd h (by simp [settle])
  | error cause => rw [settle, Except.error.inj h]

/-- All edits but one settle: the tree is changed as a whole or not at all. -/
theorem run_refused {t : Tree} {edit : Edit} (hedit : ∀ operation, edit ≠ .newInstruction operation)
    {fault : Fault} (h : (edit.run t).1 = .error fault) : edit.run t = (.error fault, t) := by
  cases edit with
  | newInstruction operation => exact absurd rfl (hedit operation)
  | setHeader header => exact absurd h (by simp [run])
  | _ => exact settle_refused h

end Edit

namespace Tree

variable {t : Tree}

/-- An edit that is refused has rewritten nothing, unless an instruction was to be created: the nodes, their
links and what they are, the number of nodes and the header are what they were. -/
theorem Reachable.refused_unchanged (h : t.Reachable) (edit : Edit) :
    edit.perform t.stored = ((edit.run t).1, (edit.run t).2.stored) ∧
      ((∀ operation, edit ≠ .newInstruction operation) →
        ∀ fault, (edit.perform t.stored).1 = .error fault →
          edit.run t = (.error fault, t) ∧ edit.perform t.stored = (.error fault, t.stored)) := by
  have hperform := h.perform_stored edit
  refine ⟨hperform, fun hedit fault hrefused => ?_⟩
  rw [hperform] at hrefused ⊢
  have hrun := Edit.run_refused hedit hrefused
  exact ⟨hrun, by rw [hrun]⟩

/-- A plain block with a protected region whose handler stands outside of the block. -/
def heldGroup : Tree :=
  (new default).runAll [.newBlock .plain, .newBlock .newTry, .newBlock (.newHandler .finallyClause),
    .append root ⟨1⟩, .append ⟨1⟩ ⟨2⟩, .append root ⟨3⟩, .linkHandler ⟨2⟩ ⟨3⟩]

/-- The plain block of `heldGroup` is not taken out, and everything stays as it was. -/
theorem heldGroup_unchanged :
    heldGroup.Reachable ∧
      (Edit.remove ⟨1⟩).run heldGroup = (.error (.edit (.linkedInside ⟨2⟩ ⟨1⟩ ⟨3⟩)), heldGroup) ∧
      (Edit.remove ⟨1⟩).perform heldGroup.stored =
        (.error (.edit (.linkedInside ⟨2⟩ ⟨1⟩ ⟨3⟩)), heldGroup.stored) := by
  have hreachable : heldGroup.Reachable := (Reachable.new default).runAll _
  have hrun : ((Edit.remove ⟨1⟩).run heldGroup).1 = .error (.edit (.linkedInside ⟨2⟩ ⟨1⟩ ⟨3⟩)) := by
    decide +kernel
  obtain ⟨hperform, hunchanged⟩ := hreachable.refused_unchanged (.remove ⟨1⟩)
  exact ⟨hreachable, hunchanged (by simp) _ (by rw [hperform, hrun])⟩

end Tree

end MethodIL
