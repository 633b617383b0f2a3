import Mathlib
import MethodIL.Proofs.Bytes.Reads
set_option autoImplicit false

/-!
# What a reader has taken

A reader that answers has taken some of the bytes that it stood in front of, and now stands behind them.
What the taken bytes have to do with the answer is a relation that is composed along the reader, so that
the relation of a whole format follows from those of its fields.  No byte is known beforehand here; that
given bytes are read is the matter of `Reader.Reads`.
-/

namespace MethodIL

theorem Cursor.take?_eq_some {before behind bytes : List UInt8} {n : Nat} {c : Cursor}
    (h : (between before behind).take? n = some (bytes, c)) :
    ∃ after, behind = bytes ++ after ∧ bytes.length = n ∧ c = between (before ++ bytes) after := by
  unfold take? at h
  split at h
  case h_1 => exact absurd h (by simp)
  case h_2 front rest hsplit =>
    obtain ⟨hbehind, hlength⟩ := splitExactly?_eq_some_iff.mp hsplit
    obtain ⟨rfl, rfl⟩ := Prod.mk.inj (Option.some.inj h)
    refine ⟨rest, hbehind, hlength, eq_between ?_ ?_⟩
    · exact (congrArg (before ++ ·) hbehind).trans (List.append_assoc ..).symm
    · exact (congrArg (before.length + ·) hlength.symm).trans (List.length_append ..).symm

namespace Reader

variable {α β : Type}

/-- A fault is no answer. -/
theorem fault_ne_answer {fault : Fault} {a : α} {c d : Cursor} :
    ((.error fault, d) : Except Fault α × Cursor) ≠ (.ok a, c) := by
  simp

/-- A sequence of readers answers if both do, one behind the other. -/
theorem bind_run_eq_ok {reader : Reader α} {next : α → Reader β} {c c' : Cursor} {b : β} :
    (reader >>= next) c = (.ok b, c') ↔ ∃ a d, reader c = (.ok a, d) ∧ next a d = (.ok b, c') := by
  simp only [bind, ExceptT.bind, ExceptT.mk, StateT.bind]
  cases hfirst : reader c with
  | mk outcome d =>
    cases outcome with
    | error fault =>
      exact iff_of_false fault_ne_answer fun ⟨_, _, h, _⟩ => fault_ne_answer h
    | ok a =>
      constructor
      · exact fun h => ⟨a, d, rfl, h⟩
      · rintro ⟨a', d', hsame, h⟩
        obtain ⟨ha, rfl⟩ := Prod.mk.inj hsame
        rwa [Except.ok.inj ha]

/-- Behind some bytes, the reader answers only with what is related to the bytes it takes. -/
def Takes (reader : Reader α) (before : List UInt8) (R : List UInt8 → α → Prop) : Prop :=
  ∀ behind a c, reader (.between before behind) = (.ok a, c) →
    ∃ taken after, behind = taken ++ after ∧ c = .between (before ++ taken) after ∧ R taken a

namespace Takes

variable {before : List UInt8} {R : List UInt8 → α → Prop} {S : List UInt8 → β → Prop}

protected theorem pure {a : α} (h : R [] a) : (pure a : Reader α).Takes before R := by
  intro behind b c heq
  obtain ⟨ha, rfl⟩ := Prod.mk.inj (heq : (Except.ok a, Cursor.between before behind) = (.ok b, c))
  exact ⟨[], behind, rfl, by rw [List.append_nil], Except.ok.inj ha ▸ h⟩

/-- Readers in sequence take bytes in sequence. -/
protected theorem bind {reader : Reader α} {next : α → Reader β} (h : reader.Takes before R)
    (hnext : ∀ taken a, R taken a → (next a).Takes (before ++ taken) fun more b => S (taken ++ more) b) :
    (reader >>= next).Takes before S := by
  intro behind b c heq
  obtain ⟨a, d, hfirst, hsecond⟩ := bind_run_eq_ok.mp heq
  obtain ⟨taken, rest, rfl, rfl, hR⟩ := h behind a d hfirst
  obtain ⟨more, after, rfl, rfl, hS⟩ := hnext taken a hR rest b c hsecond
  exact ⟨taken ++ more, after, (List.append_assoc ..).symm, by rw [List.append_assoc], hS⟩

/-- A reader that looks at the cursor sees how many bytes have been taken. -/
protected theorem get {next : Cursor → Reader β}
    (h : ∀ c, c.position = before.length → (next c).Takes before S) :
    (get >>= next).Takes before S :=
  fun behind b c heq => h (.between before behind) rfl behind b c heq

/-- What is behind a check is read only if the check passes. -/
protected theorem guard {p : Prop} [Decidable p] {fault : Fault} {next : PUnit → Reader β}
    (h : ¬ p → (next ⟨⟩).Takes before S) :
    Takes (if p then (throw fault : Reader PUnit) >>= next else next ⟨⟩) before S := by
  by_cases hp : p
  · intro behind b c heq
    rw [if_pos hp] at heq
    obtain ⟨_, _, hthrow, -⟩ := bind_run_eq_ok.mp heq
    exact absurd hthrow fault_ne_answer
  · rw [if_neg hp]
    exact h hp

protected theorem lift {outcome : Except Fault α} (h : ∀ a, outcome = .ok a → R [] a) :
    (liftM outcome : Reader α).Takes before R := by
  cases outcome with
  | ok a => exact Takes.pure (h a rfl)
  | error fault =>
    exact fun behind a c heq => absurd heq fault_ne_answer

/-- A number is made of the bytes that it is written as. -/
protected theorem read [FixedWidth α] :
    (read α).Takes before fun taken a => taken = FixedWidth.toBytes a := by
  intro behind a c heq
  unfold read move at heq
  split at heq
  case h_1 b next hmove =>
    obtain ⟨ha, rfl⟩ := Prod.mk.inj heq
    obtain ⟨⟨bytes, d⟩, htake, hmade⟩ := Option.map_eq_some_iff.mp hmove
    obtain ⟨hb, rfl⟩ := Prod.mk.inj hmade
    obtain ⟨after, rfl, hlength, rfl⟩ := Cursor.take?_eq_some htake
    have hbytes : FixedWidth.ofBytes bytes = a := hb.trans (Except.ok.inj ha)
    exact ⟨bytes, after, rfl, rfl, hbytes ▸ (FixedWidth.toBytes_ofBytes hlength).symm⟩
  case h_2 => exact absurd heq fault_ne_answer

/-- A number is read and handed on. -/
theorem read_map [FixedWidth α] {f : α → β} (h : ∀ a, S (FixedWidth.toBytes a) (f a)) :
    (Reader.read α >>= fun a => pure (f a)).Takes before S :=
  Takes.read.bind fun taken a htaken => Takes.pure (by
    rw [List.append_nil, htaken]
    exact h a)

end Takes

end Reader

end MethodIL
