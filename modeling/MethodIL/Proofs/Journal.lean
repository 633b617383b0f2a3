import Mathlib
import MethodIL.Proofs.Outcome
import MethodIL.Revision
set_option autoImplicit false

/-!
# Outcomes of journaled computations

Notes do not change what a computation answers.
-/

namespace MethodIL

open Outcome

namespace Journaled

variable {α β : Type} {journal : List Event}

/-- The outcome of a computation, without its notes. -/
def outcome (computation : Journaled α) (journal : List Event) : Except Fault α :=
  (computation.run journal).1

theorem outcome_bind_eq_ok {x : Journaled α} {f : α → Journaled β} {b : β} :
    (x >>= f).outcome journal = .ok b ↔
      ∃ a journal', x.run journal = (.ok a, journal') ∧ (f a).outcome journal' = .ok b := by
  have hrun : (x >>= f).run journal = match x.run journal with
      | (.ok a, journal') => (f a).run journal'
      | (.error fault, journal') => (.error fault, journal') := by
    simp only [bind, ExceptT.bind, ExceptT.bindCont, ExceptT.mk, ExceptT.run, StateT.bind]
    split
    next result journal' heq =>
      cases result with
      | ok a => simp_all
      | error fault =>
        simp_all
        rfl
  unfold outcome
  rw [hrun]
  split
  · next a journal' heq =>
    refine ⟨fun h => ⟨a, journal', heq, h⟩, ?_⟩
    rintro ⟨a', journal'', hx, h⟩
    have hpair : ((.ok a, journal') : Except Fault α × List Event) = (.ok a', journal'') :=
      heq.symm.trans hx
    obtain ⟨ha, rfl⟩ := Prod.mk.inj hpair
    rwa [Except.ok.inj ha]
  · next fault journal' heq =>
    refine ⟨fun h => absurd h (by simp), ?_⟩
    rintro ⟨a', journal'', hx, _⟩
    have hpair : ((.error fault, journal') : Except Fault α × List Event) = (.ok a', journal'') :=
      heq.symm.trans hx
    exact absurd (Prod.mk.inj hpair).1 (by simp)

@[simp] theorem run_ofExcept (outcome : Except Fault α) :
    (ofExcept outcome).run journal = (outcome, journal) := rfl

@[simp] theorem outcome_pure (a : α) : (pure a : Journaled α).outcome journal = .ok a := rfl

end Journaled

open Journaled

theorem Tree.outcome_ofBodyJournaled {body : Body} {journal : List Event} {t : Tree}
    (h : (ofBodyJournaled body).outcome journal = .ok t) : ofBody body = .ok t := by
  obtain ⟨t', journal', hlift, h⟩ := outcome_bind_eq_ok.mp h
  obtain ⟨-, journal'', -, h⟩ := outcome_bind_eq_ok.mp h
  rw [run_ofExcept, Prod.mk.injEq] at hlift
  rw [outcome_pure, Except.ok.injEq] at h
  rw [← h, hlift.1]

theorem Tree.outcome_toBodyJournaled {t : Tree} {journal : List Event} {b : Body}
    (h : t.toBodyJournaled.outcome journal = .ok b) : t.toBody = .ok b := by
  obtain ⟨plan, journal₁, hplan, h⟩ := outcome_bind_eq_ok.mp h
  obtain ⟨-, journal₂, -, h⟩ := outcome_bind_eq_ok.mp h
  obtain ⟨b', journal₃, hbody, h⟩ := outcome_bind_eq_ok.mp h
  obtain ⟨-, journal₄, -, h⟩ := outcome_bind_eq_ok.mp h
  rw [run_ofExcept, Prod.mk.injEq] at hplan hbody
  rw [outcome_pure, Except.ok.injEq] at h
  rw [← h]
  exact bind_eq_ok.mpr ⟨plan, hplan.1, hbody.1⟩

theorem StackHeights.outcome_ofTreeJournaled {t : Tree} {r : Resolver} {journal : List Event}
    {heights : StackHeights} (h : (ofTreeJournaled t r).outcome journal = .ok heights) :
    ofTree t r = .ok heights := by
  obtain ⟨heights', journal', hheights, h⟩ := outcome_bind_eq_ok.mp h
  obtain ⟨-, journal'', -, h⟩ := outcome_bind_eq_ok.mp h
  rw [run_ofExcept, Prod.mk.injEq] at hheights
  rw [outcome_pure, Except.ok.injEq] at h
  rw [← h, hheights.1]

end MethodIL
