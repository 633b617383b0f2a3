import Mathlib
import MethodIL.Proofs.Stack.Exact
set_option autoImplicit false

/-!
# Sums that are checked

What a call takes is a sum of 32 bits, which wraps around.  An analysis that checks its sums stops
instead, as soon as the resolver has answered for the call.  So it is the analysis with a resolver that
has no answer but the stop for such a call.  It answers what the other analysis answers, unless it comes
to a call of the tree whose sum does not fit.
-/

namespace MethodIL

/-- The resolver of an analysis that stops at a call whose sum overflows. -/
def Resolver.checked (r : Resolver) (stop : Fault) : Resolver where
  callSite op token := do
    let site ← r.callSite op token
    if site.Overflows op then .error stop else .ok site
  returnsValue := r.returnsValue

/-- A call in a tree takes more values than 32 bits can tell. -/
def Tree.CallOverflows (t : Tree) (r : Resolver) : Prop :=
  ∃ id operation token site, t.operation? id = some operation ∧ operation.opcode.isCall = true ∧
    operation.operand = .token token ∧ r.callSite operation.opcode token = .ok site ∧
    site.Overflows operation.opcode

/-- A computation answers what another one answers, unless it stops for a cause. -/
def StopsOr {α : Type} (stop : Fault) (cause : Prop) (x y : Except Fault α) : Prop :=
  x = y ∨ x = .error stop ∧ cause

namespace StopsOr

variable {α β : Type} {stop : Fault} {cause : Prop} {x y : Except Fault α}

theorem refl (x : Except Fault α) : StopsOr stop cause x x := .inl rfl

theorem bind (h : StopsOr stop cause x y) {f g : α → Except Fault β}
    (hnext : ∀ a, StopsOr stop cause (f a) (g a)) : StopsOr stop cause (x >>= f) (y >>= g) := by
  rcases h with rfl | ⟨rfl, hcause⟩
  · cases x with
    | error fault => exact .refl _
    | ok a => exact hnext a
  · exact .inr ⟨rfl, hcause⟩

end StopsOr

namespace StackHeights

variable {t : Tree} {r : Resolver} {stop : Fault}

/-- The answer for a call is kept, unless the sum of a call that stands in the tree overflows. -/
theorem stackEffect_checked {id : NodeId} {operation : Operation NodeId}
    (hoperation : t.operation? id = some operation) :
    StopsOr stop (t.CallOverflows r) (operation.stackEffect (r.checked stop))
      (operation.stackEffect r) := by
  simp only [Operation.stackEffect]
  split
  case isFalse => exact .refl _
  case isTrue hcall =>
    cases hoperand : operation.operand with
    | token token =>
      refine .bind ?_ fun site => .refl _
      simp only [Resolver.checked]
      cases hsite : r.callSite operation.opcode token with
      | error fault => exact .refl _
      | ok site =>
        by_cases hover : site.Overflows operation.opcode
        case pos =>
          refine .inr ⟨?_, id, operation, token, site, hoperation, hcall, hoperand, hsite, hover⟩
          simp [hover]
        case neg =>
          left
          simp [hover]
    | _ => exact .refl _

theorem execute_checked {id : NodeId} {operation : Operation NodeId}
    (hoperation : t.operation? id = some operation) (s : State) (height : Int) :
    StopsOr stop (t.CallOverflows r) (execute (Context.ofTree t (r.checked stop)) s id operation height)
      (execute (Context.ofTree t r) s id operation height) := by
  simp only [execute]
  split
  case isTrue => exact .refl _
  refine (StopsOr.refl (checkBounds id height)).bind fun _ => ?_
  split
  case isTrue => exact .refl _
  exact (stackEffect_checked hoperation).bind fun _ => .refl _

theorem walkUpTo_checked (limit : Nat) (s : State) (next? : Option NodeId) (height : Int) :
    StopsOr stop (t.CallOverflows r) (walkUpTo (Context.ofTree t (r.checked stop)) limit s next? height)
      (walkUpTo (Context.ofTree t r) limit s next? height) := by
  induction limit generalizing s next? height with
  | zero => exact .refl _
  | succ limit ih =>
    cases next? with
    | none => exact .refl _
    | some id =>
      have htree : ∀ r, (Context.ofTree t r).tree = t := fun _ => rfl
      rw [walkUpTo, walkUpTo, htree, htree]
      cases hcontent : t.content? id with
      | none => exact .refl _
      | some content =>
        cases content with
        | label owner => exact ih ..
        | block kind children => exact ih ..
        | instruction operation =>
          have hexecuted : StopsOr stop (t.CallOverflows r) _ _ :=
            execute_checked (Tree.operation?_eq_some_iff.mpr hcontent) s height
          rcases hexecuted with hexec | ⟨hexec, hcause⟩
          · dsimp only
            rw [hexec]
            rcases execute (Context.ofTree t r) s id operation height with _ | ⟨s, _ | exit⟩
            · exact .refl _
            · exact .refl _
            · exact ih ..
          · dsimp only
            rw [hexec]
            exact .inr ⟨rfl, hcause⟩

theorem walkAllUpTo_checked (limit walks : Nat) (s : State) (waiting : List Arrival) :
    StopsOr stop (t.CallOverflows r)
      (walkAllUpTo (Context.ofTree t (r.checked stop)) limit walks s waiting)
      (walkAllUpTo (Context.ofTree t r) limit walks s waiting) := by
  induction limit generalizing walks s waiting with
  | zero => exact .refl _
  | succ limit ih =>
    cases waiting with
    | nil => exact .refl _
    | cons arrival waiting =>
      rw [walkAllUpTo_cons, walkAllUpTo_cons]
      exact (walkUpTo_checked _ _ _ _).bind fun _ => ih ..

/-- An analysis that checks its sums answers what the analysis answers whose sums wrap around, or it
stops, and then a call in the tree takes more than 32 bits can tell. -/
theorem ofTree_checked (t : Tree) (r : Resolver) (stop : Fault) :
    StopsOr stop (t.CallOverflows r) (ofTree t (r.checked stop)) (ofTree t r) :=
  (walkAllUpTo_checked _ _ _ _).bind fun _ => .refl _

end StackHeights

end MethodIL
