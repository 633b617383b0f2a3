import Mathlib
import MethodIL.Proofs.Body.Offsets
import MethodIL.Proofs.Opcode.Forms
import MethodIL.Stack.Heights
set_option autoImplicit false

/-!
# The machine of a body

The machine says which instructions of a flat body control reaches, and with which stack height.
It knows nothing of trees: control goes to the next instruction, to where offsets land, and from any
instruction in the range of a clause to the handler and the filter of the clause.
-/

namespace MethodIL

namespace Body

variable (b : Body) (r : Resolver)

/-- An instruction that is no `leave` and is entered with one height leaves another behind. -/
inductive Exits (index : Nat) (height exit : Int) : Prop
  | intro {i : Instruction} {effect : StackEffect} (hi : b.instructions[index]? = some i)
      (hleave : i.opcode.isLeave = false) (heffect : i.toOperation.stackEffect r = .ok effect)
      (hexit : exit = height - effect.pops + effect.pushes)

/-- An instruction starts in the protected range of a clause. -/
def InTry (clause : Clause) (index : Nat) : Prop :=
  clause.tryOffset.toNat ≤ b.start index ∧
    b.start index < clause.tryOffset.toNat + clause.tryLength.toNat

/-- An instruction is reached with a height. -/
inductive Reaches : Nat → Int → Prop
  | start (hcode : 0 < b.instructions.length) : Reaches 0 0
  | next {index : Nat} {height exit : Int} {i : Instruction} (h : Reaches index height)
      (hi : b.instructions[index]? = some i) (hflow : i.opcode.flow.endsBlock = false)
      (hexits : b.Exits r index height exit) (hnext : index + 1 < b.instructions.length) :
      Reaches (index + 1) exit
  | target {index target : Nat} {height exit : Int} {i : Instruction} {offset : Int32}
      (h : Reaches index height) (hi : b.instructions[index]? = some i)
      (hoffset : offset ∈ i.operand.targets) (hlands : b.Lands index offset target)
      (hexits : b.Exits r index height exit) : Reaches target exit
  | leave {index target : Nat} {height : Int} {i : Instruction} {offset : Int32}
      (h : Reaches index height) (hi : b.instructions[index]? = some i)
      (hleave : i.opcode.isLeave = true) (hoffset : offset ∈ i.operand.targets)
      (hlands : b.Lands index offset target) : Reaches target 0
  | handler {index target : Nat} {height : Int} {clause : Clause} (h : Reaches index height)
      (hclause : clause ∈ b.clauses) (hin : b.InTry clause index)
      (htarget : target < b.instructions.length)
      (hstart : b.start target = clause.handlerOffset.toNat) :
      Reaches target (if clause.kind.receivesException then 1 else 0)
  | filter {index target : Nat} {height : Int} {clause : Clause} {offset : UInt32}
      (h : Reaches index height) (hclause : clause ∈ b.clauses) (hin : b.InTry clause index)
      (hoffset : clause.filterOffset = some offset) (htarget : target < b.instructions.length)
      (hstart : b.start target = offset.toNat) : Reaches target 1

variable {b r}

theorem Reaches.index_lt {index : Nat} {height : Int} (h : b.Reaches r index height) :
    index < b.instructions.length := by
  cases h with
  | start hcode => exact hcode
  | next _ _ _ _ hnext => exact hnext
  | target _ _ _ hlands | leave _ _ _ _ hlands => exact hlands.1
  | handler _ _ _ htarget | filter _ _ _ _ htarget => exact htarget

end Body

/-! ## Effects do not depend on targets -/

/-- The stack does not see the targets of an operation. -/
theorem Operation.stackEffect_congr {ρ σ : Type} {r : Resolver} {a : Operation ρ} {b : Operation σ}
    (hopcode : a.opcode = b.opcode) (hoperand : ∀ token, a.operand = .token token ↔
      b.operand = .token token) : a.stackEffect r = b.stackEffect r := by
  obtain ⟨opcode, operand⟩ := a
  obtain ⟨opcode', operand'⟩ := b
  simp only at hopcode hoperand
  subst hopcode
  simp only [stackEffect]
  split
  · cases operand with
    | token token =>
      rw [(hoperand token).mp rfl]
    | _ =>
      cases operand' with
      | token token => exact absurd ((hoperand token).mpr rfl) (by simp)
      | _ => rfl
  · rfl

/-- Opcodes that are no calls and move the stack alike have the same effect. -/
theorem Operation.stackEffect_of_alike {ρ σ : Type} {r : Resolver} {a : Operation ρ}
    {b : Operation σ} (halike : a.opcode.Alike b.opcode) (hcall : a.opcode.isCall = false) :
    a.stackEffect r = b.stackEffect r := by
  obtain ⟨hflow, hpops, hpushes⟩ := halike
  have hcall' : b.opcode.isCall = false := by
    rw [← hcall, Opcode.isCall, Opcode.isCall, hflow]
  simp only [stackEffect, hcall, hcall', Bool.false_eq_true, if_false, hpops, hpushes]

end MethodIL
