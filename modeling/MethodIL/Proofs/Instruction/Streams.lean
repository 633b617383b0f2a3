import Mathlib
import MethodIL.Proofs.Bytes.Progress
import MethodIL.Proofs.Instruction.Canonical
set_option autoImplicit false

/-!
# Reading a code stream to its end

An instruction that is read takes a byte at least, and one that cannot be read leaves the cursor behind
what was read of it.  So the loop that reads a code stream ends by itself.
-/

namespace MethodIL

open Reader

/-- The bytes on both sides of a cursor. -/
theorem Cursor.exists_between (c : Cursor) :
    ∃ before behind, c = between before behind ∧ before.length = c.position := by
  have hsides : c.data = c.data.take c.position ++ c.rest := by
    rw [c.rest_eq, List.take_append_drop]
  have hlength := List.length_take_of_le c.position_le
  exact ⟨_, _, eq_between hsides hlength.symm, hlength⟩

namespace Instruction

/-! ## One instruction -/

theorem moves_opcode : readOpcode.Moves Cursor.Forward :=
  Consumes.read.moves.bind fun _ =>
    .ite (Consumes.read.moves.bind fun _ => Moves.lift _) (Moves.lift _)

theorem moves_offsets (count : Nat) : (readOffsets count).Moves Cursor.Forward := by
  induction count with
  | zero => exact Moves.pure []
  | succ count ih => exact Consumes.read.moves.bind fun _ => ih.bind fun _ => Moves.pure _

theorem moves_operand (type : OperandType) : (readOperand type).Moves Cursor.Forward := by
  cases type with
  | none => exact Moves.pure _
  | switch =>
    refine Consumes.read.moves.bind fun count => Moves.get fun c => ?_
    exact Moves.guard ((moves_offsets _).bind fun _ => Moves.pure _)
  | _ => exact Consumes.read.moves.bind fun _ => Moves.pure _

theorem moves_decode : decode.Moves Cursor.Forward := by
  refine Moves.get fun c => moves_opcode.bind fun opcode => (moves_operand _).bind fun operand =>
    Moves.get fun d => ?_
  exact Moves.guard (Moves.pure _)

/-- An instruction takes a byte at least. -/
theorem position_lt_of_decode {c d : Cursor} {i : Instruction} (h : decode c = (.ok i, d)) :
    c.position < d.position := by
  obtain ⟨before, behind, rfl, -⟩ := c.exists_between
  obtain ⟨taken, after, -, rfl, hencode⟩ := takes_decode behind i d h
  rw [Cursor.position_between, Cursor.position_between, List.length_append]
  exact Nat.lt_add_of_pos_right (length_pos_of_encode hencode)

/-! ## All instructions -/

/-- Read an instruction, or none at the end of the bytes. -/
def decodeNext : Reader (List Instruction × Bool) := do
  if (← get).hasMore then return ([← decode], true) else return ([], false)

theorem decodeNext_of_more {c : Cursor} (h : c.hasMore = true) :
    decodeNext c = (decode >>= fun i => pure ([i], true) : Reader (List Instruction × Bool)) c := by
  show (if c.hasMore then (decode >>= fun i => pure ([i], true) : Reader _)
    else pure ([], false)) c = _
  rw [if_pos h]

theorem decodeNext_of_end {c : Cursor} (h : c.hasMore = false) :
    decodeNext c = (.ok ([], false), c) := by
  show (if c.hasMore then (decode >>= fun i => pure ([i], true) : Reader _)
    else pure ([], false)) c = _
  rw [if_neg (by simp [h])]
  rfl

/-- The loop goes on behind an instruction. -/
theorem position_lt_of_decodeNext {c d : Cursor} {items : List Instruction}
    (h : decodeNext c = (.ok (items, true), d)) : c.Forward d ∧ c.position < d.position := by
  cases hmore : c.hasMore with
  | true =>
    rw [decodeNext_of_more hmore] at h
    obtain ⟨i, e, hdecode, hanswer⟩ := bind_run_eq_ok.mp h
    obtain ⟨-, rfl⟩ := Prod.mk.inj hanswer
    have hforward := moves_decode c
    rw [hdecode] at hforward
    exact ⟨hforward, position_lt_of_decode hdecode⟩
  | false =>
    rw [decodeNext_of_end hmore] at h
    exact absurd (Repeats.answer_inj h).2.1 Bool.false_ne_true

theorem decodeUpTo_succ (limit : Nat) : decodeUpTo (limit + 1) = roundThen decodeNext (decodeUpTo limit) := by
  funext c
  have hloop : decodeUpTo (limit + 1) c =
      (if c.hasMore then (do
        let i ← decode
        let others ← decodeUpTo limit
        return i :: others : Reader (List Instruction))
      else pure []) c := rfl
  rw [hloop]
  cases hmore : c.hasMore with
  | false =>
    rw [if_neg Bool.false_ne_true, roundThen, bind_run_of_ok (decodeNext_of_end hmore)]
    rfl
  | true =>
    rw [if_pos rfl]
    cases hdecode : decode c with
    | mk outcome d =>
      cases outcome with
      | error fault =>
        have hnext := (decodeNext_of_more hmore).trans (bind_run_of_error hdecode)
        rw [bind_run_of_error hdecode, roundThen, bind_run_of_error hnext]
      | ok i =>
        have hnext := (decodeNext_of_more hmore).trans (bind_run_of_ok hdecode)
        rw [bind_run_of_ok hdecode, roundThen, bind_run_of_ok hnext]
        rfl

theorem repeats_decodeUpTo {limit : Nat} {c : Cursor} (h : c.remaining ≤ limit) :
    Repeats decodeNext c (decodeUpTo limit c) := by
  induction limit generalizing c with
  | zero =>
    refine .ends (decodeNext_of_end ?_)
    rw [Cursor.hasMore, List.length_eq_zero_iff.mp (Nat.le_zero.mp h)]
    rfl
  | succ limit ih =>
    rw [decodeUpTo_succ]
    refine .of_round fun items d hstep => ih ?_
    obtain ⟨hforward, hmoved⟩ := position_lt_of_decodeNext hstep
    have hinside := d.position_le
    rw [Cursor.remaining_eq] at h ⊢
    rw [hforward.data] at hinside ⊢
    omega

/-- A code stream is read by a loop without any bound. -/
theorem repeats_decodeAll (code : List UInt8) :
    ∃ d, Repeats decodeNext (.start code) (decodeAll code, d) :=
  ⟨_, repeats_decodeUpTo (Nat.le_refl code.length)⟩

end Instruction

end MethodIL
