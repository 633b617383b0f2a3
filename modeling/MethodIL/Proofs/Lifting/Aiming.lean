import Mathlib
import MethodIL.Proofs.Lifting.Labels
import MethodIL.Proofs.Lifting.Wrapping
set_option autoImplicit false

/-!
# When branches can be aimed

A branch can be aimed in every tree that carries clauses of the body as soon as its offsets lead to
instructions: the node that its label goes in front of stands in the body and is not the root.  So
aiming fails because of the code alone, never because of the clauses.
-/

namespace MethodIL

open Outcome

/-- All offsets of an instruction that starts at an offset of the code lead to instructions. -/
def CodeMap.Resolves (map : CodeMap) (start : Nat) (i : Instruction) : Prop :=
  ∀ relative ∈ i.operand.targets, ∃ target,
    map.branchTarget (start + i.size.toNat) relative = .ok target

namespace Tree

variable {t t' : Tree} {x : Body} {map : CodeMap}

/-! ## Offsets of aimed instructions -/

theorem Aims.resolves {index start : Nat} {i : Instruction} (h : Aims map t index start i t') :
    map.Resolves start i := by
  intro relative hrelative
  cases h with
  | @branch _ target _ _ hoperand htarget =>
    rw [hoperand, Operand.targets, List.mem_singleton] at hrelative
    exact ⟨target, hrelative ▸ htarget⟩
  | switch hoperand htargets =>
    rw [hoperand, Operand.targets] at hrelative
    obtain ⟨target, -, htarget⟩ := exists_of_mem_right (mapM_eq_ok.mp htargets).flip hrelative
    exact ⟨target, htarget⟩
  | plain hoperand =>
    rw [hoperand] at hrelative
    exact absurd hrelative List.not_mem_nil

theorem resolves_of_aimInstructions {index : Nat} {code : List (Nat × Instruction)}
    (h : aimInstructions map index code t = .ok t') : ∀ p ∈ code, map.Resolves p.1 p.2 := by
  induction code generalizing t index with
  | nil => simp
  | cons first code ih =>
    obtain ⟨t₁, haim, hrest⟩ := aimInstructions_cons_eq_ok h
    exact List.forall_mem_cons.mpr ⟨haim.resolves, ih hrest⟩

/-! ## Anchors -/

namespace WellFormed

variable (wf : t.WellFormed)

include wf

theorem isSome_parent?_raiseTo {level depth : Nat} {id : NodeId} (hbody : id ∈ t.preOrder root)
    (hne : id ≠ root) : (t.parent? (t.raiseTo level depth id)).isSome := by
  obtain ⟨parent, hparent⟩ := wf.exists_parent_of_mem_body hbody hne
  induction depth generalizing id parent with
  | zero =>
    rw [raiseTo, hparent]
    rfl
  | succ depth ih =>
    rw [raiseTo]
    split
    case isTrue =>
      rw [hparent]
      dsimp only
      split
      case isTrue =>
        rw [hparent]
        rfl
      case isFalse hroot =>
        have habove := wf.mem_body_of_above hbody
          (wf.mem_preOrder_parent hparent (wf.self_mem_preOrder id))
        obtain ⟨above, hheld⟩ := wf.exists_parent_of_mem_body habove hroot
        exact ih habove hroot above hheld
    case isFalse =>
      rw [hparent]
      rfl

/-- A block holds the node that the label of a jump to an instruction goes in front of. -/
theorem isSome_parent?_labelAnchor {k : Nat} {target : NodeId} (h : t.instructions[k]? = some target)
    (branch : NodeId) (isLeave : Bool) :
    (t.parent? (t.labelAnchor branch target isLeave)).isSome := by
  refine wf.isSome_parent?_raiseTo (wf.mem_body_of_getElem? h) ?_
  rintro rfl
  obtain ⟨-, -, -, hinstruction, -⟩ := wf.exists_of_getElem?_instructions h
  rw [wf.isInstruction_root] at hinstruction
  exact absurd hinstruction (by simp)

end WellFormed

/-! ## Success -/

section Carries

variable {count : Nat} {clauses : List Clause} {handlers : List NodeId}
  (h : t.Aimed x count) (hcarries : t.Carries x clauses handlers) (hmap : map.Maps x)

include h hcarries hmap

/-- The next instruction of a body can be aimed if its offsets lead to instructions. -/
theorem Aimed.exists_aimInstruction {i : Instruction} (hi : x.instructions[count]? = some i)
    (hresolves : map.Resolves (x.start count) i) :
    ∃ t', aimInstruction map t count (x.start count) i = .ok t' := by
  obtain ⟨operand, hoperation, -⟩ := h.operations count i hi
  have hsize := hmap.sizes i (List.mem_of_getElem? hi)
  have hfits := (Operation.encodedSize_eq_ok_iff.mp hsize).1
  have hanchor : ∀ {relative : Int32} {target : Nat} (isLeave : Bool),
      map.branchTarget (x.start count + i.size.toNat) relative = .ok target →
        (t.parent? (t.labelAnchor (instructionNode count) (instructionNode target) isLeave)).isSome :=
    fun isLeave htarget => hcarries.wellFormed.isSome_parent?_labelAnchor
      (hcarries.code.getElem? (hmap.lands_of_branchTarget hi htarget).1) _ isLeave
  simp only [aimInstruction_eq_ok_iff]
  cases hoperand : i.operand with
  | branch relative =>
    have hbranch : i.opcode.isBranch = true := by
      rw [Opcode.isBranch]
      simpa [hoperand, Operand.fits] using hfits
    obtain ⟨target, htarget⟩ := hresolves relative (by rw [hoperand]; exact List.mem_cons_self)
    obtain ⟨parent, hparent⟩ := Option.isSome_iff_exists.mp (hanchor i.opcode.isLeave htarget)
    have hset := setBranchTarget_eq_ok_iff.mpr
      ⟨_, _, hoperation, hbranch, placeLabel_eq_ok_iff.mpr ⟨parent, hparent, rfl, rfl⟩, rfl⟩
    exact ⟨_, .branch hoperand htarget hset⟩
  | switch relatives =>
    have hswitch : i.opcode.isSwitch = true := by
      rw [Opcode.isSwitch]
      simpa [hoperand, Operand.fits] using hfits
    obtain ⟨targets, htargets⟩ := exists_mapM_eq_ok (fun relative hrelative =>
      hresolves relative (by rw [hoperand]; exact hrelative))
    have hleads := mapM_eq_ok.mp htargets
    have hheld : ∀ anchor ∈ targets.map fun target =>
        t.labelAnchor (instructionNode count) (instructionNode target) false,
        (t.parent? anchor).isSome := by
      intro anchor hmem
      obtain ⟨target, htarget, rfl⟩ := List.mem_map.mp hmem
      obtain ⟨relative, -, hlead⟩ := exists_of_mem_right hleads htarget
      exact hanchor false hlead
    obtain ⟨labels, placed, hplaced⟩ := exists_placeLabels hheld
    have hset := setSwitchTargets_eq_ok_iff.mpr ⟨_, _, hoperation, hswitch, hheld, hplaced, rfl⟩
    exact ⟨_, .switch hoperand htargets hset⟩
  | _ => exact ⟨t, .plain (by rw [hoperand]; rfl) (by simp [hoperand])⟩

/-- The instructions of a body from a place on can be aimed if all their offsets lead to
instructions. -/
theorem Aimed.exists_aimInstructions {code : List (Nat × Instruction)}
    (hcode : ∀ k start i, code[k]? = some (start, i) →
      x.instructions[count + k]? = some i ∧ start = x.start (count + k))
    (hresolves : ∀ p ∈ code, map.Resolves p.1 p.2) :
    ∃ t', Tree.aimInstructions map count code t = .ok t' := by
  induction code generalizing t count with
  | nil => exact ⟨t, rfl⟩
  | cons first code ih =>
    obtain ⟨start, i⟩ := first
    obtain ⟨hfirst, hrest⟩ := List.forall_mem_cons.mp hresolves
    obtain ⟨hi, rfl⟩ := hcode 0 start i rfl
    obtain ⟨t₁, haim⟩ := h.exists_aimInstruction hcarries hmap hi hfirst
    obtain ⟨h₁, hcarries₁⟩ := h.aims hcarries hmap hi (aimInstruction_eq_ok_iff.mp haim)
    obtain ⟨t', hdone⟩ := ih h₁ hcarries₁ (fun k start i hk => by
      rw [Nat.add_assoc, Nat.add_comm 1 k]
      exact hcode (k + 1) start i hk) hrest
    exact ⟨t', bind_eq_ok.mpr ⟨t₁, haim, hdone⟩⟩

end Carries

end Tree

end MethodIL
