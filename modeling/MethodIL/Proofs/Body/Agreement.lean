import Mathlib
import MethodIL.Proofs.Body.Offsets
import MethodIL.Proofs.Outcome
set_option autoImplicit false

/-!
# Bodies that say the same

Two bodies agree if they differ only in the forms of branches and in what follows from these: where
instructions start, which offsets branches hold, and which offsets and lengths the clauses name.
-/

namespace MethodIL

/-- Operands that agree: the same number or token, or as many targets, each in relation to its
counterpart. -/
inductive Operand.Matches {ρ σ : Type} (R : ρ → σ → Prop) : Operand ρ → Operand σ → Prop
  | none : Matches R .none .none
  | immediate (value : Immediate) : Matches R (.immediate value) (.immediate value)
  | token (name : Token) : Matches R (.token name) (.token name)
  | branch {a : ρ} {b : σ} (h : R a b) : Matches R (.branch a) (.branch b)
  | switch {as : List ρ} {bs : List σ} (h : List.Forall₂ R as bs) : Matches R (.switch as) (.switch bs)

theorem Operand.Matches.imp {ρ σ : Type} {R S : ρ → σ → Prop} {a : Operand ρ} {b : Operand σ}
    (h : a.Matches R b) (himp : ∀ x y, R x y → S x y) : a.Matches S b := by
  cases h with
  | none => exact .none
  | immediate value => exact .immediate value
  | token name => exact .token name
  | branch h => exact .branch (himp _ _ h)
  | switch h => exact .switch (h.imp himp)

theorem Operand.Matches.targets {ρ σ : Type} {R : ρ → σ → Prop} {a : Operand ρ} {b : Operand σ}
    (h : a.Matches R b) : List.Forall₂ R a.targets b.targets := by
  cases h with
  | branch h => exact .cons h .nil
  | switch h => exact h
  | _ => exact .nil

theorem Operand.Matches.branch_iff {ρ σ : Type} {R : ρ → σ → Prop} {a : Operand ρ} {b : Operand σ}
    (h : a.Matches R b) : (∃ target, a = .branch target) ↔ ∃ target, b = .branch target := by
  cases h <;> simp

/-- Operands that agree suit the same opcodes. -/
theorem Operand.Matches.fits_eq {ρ σ : Type} {R : ρ → σ → Prop} {a : Operand ρ} {b : Operand σ}
    (h : a.Matches R b) (type : OperandType) : a.fits type = b.fits type := by
  cases h <;> rfl

/-- Operands that agree with the same operand agree. -/
theorem Operand.Matches.compose {ρ σ τ : Type} {R : ρ → σ → Prop} {S : ρ → τ → Prop} {a : Operand ρ}
    {b : Operand σ} {c : Operand τ} (h : a.Matches R b) (h' : a.Matches S c) :
    b.Matches (fun x y => ∃ z, R z x ∧ S z y) c := by
  cases h with
  | none =>
    cases h'
    exact .none
  | immediate value =>
    cases h'
    exact .immediate value
  | token name =>
    cases h'
    exact .token name
  | branch h =>
    cases h' with
    | branch h' => exact .branch ⟨_, h, h'⟩
  | switch h =>
    cases h' with
    | switch h' => exact .switch (Outcome.forall₂_compose h.flip h')

@[simp] theorem Operand.targets_withoutTargets {ρ σ : Type} (a : Operand ρ) :
    (a.withoutTargets : Operand σ).targets = [] := by
  cases a <;> rfl

/-- An operand without targets agrees with itself. -/
theorem Operand.withoutTargets_matches {ρ σ : Type} {R : σ → ρ → Prop} {a : Operand ρ}
    (htargets : a.targets = []) (hother : ∀ targets, a ≠ .switch targets) :
    a.withoutTargets.Matches R a := by
  cases a with
  | none => exact .none
  | immediate value => exact .immediate value
  | token name => exact .token name
  | branch => exact absurd htargets (by simp [targets])
  | switch targets => exact absurd rfl (hother targets)

/-- Two opcodes are the same but for the form of a branch. -/
def Opcode.SameUpToForm (a b : Opcode) : Prop :=
  a = b ∨ a.shortForm? = some b ∨ a.longForm? = some b

/-- Only branches have other forms. -/
theorem Opcode.SameUpToForm.eq_of_other {a b : Opcode} (h : a.SameUpToForm b)
    (hother : a.isBranch = false) : a = b := by
  rw [Opcode.isBranch, Bool.or_eq_false_iff, beq_eq_false_iff_ne, beq_eq_false_iff_ne] at hother
  rcases h with rfl | hform | hform
  · rfl
  · rw [Opcode.shortForm?] at hform
    split at hform
    case h_1 htype => exact absurd htype hother.1
    case h_2 htype => exact absurd htype hother.2
    case h_3 => exact absurd hform (by simp)
  · rw [Opcode.longForm?] at hform
    split at hform
    case h_1 htype => exact absurd htype hother.2
    case h_2 htype => exact absurd htype hother.1
    case h_3 => exact absurd hform (by simp)

namespace Body

/-- Two clauses say the same: their handlers have the same kind and catch the same type, and their
ranges are made of the same instructions.  A range of the first body that runs past the code ends with
the code. -/
structure SameClause (x y : Body) (c d : Clause) : Prop where
  kind : d.kind = c.kind
  catchType : c.kind = .catchClause → d.catchType = c.catchType
  tryRange : ∃ first last,
    x.Spans c.tryOffset.toNat (min (c.tryOffset.toNat + c.tryLength.toNat) x.codeSize) first last ∧
      y.Spans d.tryOffset.toNat (d.tryOffset.toNat + d.tryLength.toNat) first last
  handlerRange : ∃ first last,
    x.Spans c.handlerOffset.toNat (min (c.handlerOffset.toNat + c.handlerLength.toNat) x.codeSize)
        first last ∧
      y.Spans d.handlerOffset.toNat (d.handlerOffset.toNat + d.handlerLength.toNat) first last
  filterStart : c.kind = .filterClause → ∃ place start start', place < x.instructions.length ∧
    c.filterOffset = some start ∧ x.start place = start.toNat ∧
      d.filterOffset = some start' ∧ y.start place = start'.toNat

/-- Two bodies agree: in the header, in the opcodes up to their forms, in numbers and tokens, in the
places where offsets land, and in the clauses up to their order. -/
structure Agrees (x y : Body) : Prop where
  header : y.header = x.header
  length : y.instructions.length = x.instructions.length
  instructions : ∀ (k : Nat) (i j : Instruction), x.instructions[k]? = some i →
    y.instructions[k]? = some j → i.opcode.SameUpToForm j.opcode ∧
      i.operand.Matches (fun a b => ∃ target, x.Lands k a target ∧ y.Lands k b target) j.operand
  clauses : ∃ clauses, clauses.Perm y.clauses ∧ List.Forall₂ (x.SameClause y) x.clauses clauses

end Body

end MethodIL
