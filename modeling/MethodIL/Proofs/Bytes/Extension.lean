import Mathlib
import MethodIL.Proofs.Bytes.Takes
set_option autoImplicit false

/-!
# Reading with more bytes behind

A reader that answers has not looked behind the bytes that it read, so it gives the same answer when more
bytes follow.  A reader that fails may have failed for the lack of bytes.  Readers in sequence hand the
property on, and a reader may look at the cursor as long as more bytes do not change what it decides.
-/

namespace MethodIL

theorem splitExactly?_eq_none_iff {α : Type} {n : Nat} {items : List α} :
    splitExactly? n items = none ↔ items.length < n := by
  constructor
  · intro hnone
    refine Nat.lt_of_not_le fun hle => ?_
    have hsplit := splitExactly?_eq_some_iff.mpr
      ⟨(List.take_append_drop n items).symm, List.length_take_of_le hle⟩
    exact absurd (hnone.symm.trans hsplit) (by simp)
  · intro hlt
    rw [Option.eq_none_iff_forall_ne_some]
    intro made hsome
    obtain ⟨heq, hlength⟩ := splitExactly?_eq_some_iff.mp hsome
    rw [heq, List.length_append] at hlt
    omega

namespace Cursor

/-- The same position, with more bytes at the end. -/
def extend (c : Cursor) (more : List UInt8) : Cursor where
  data := c.data ++ more
  position := c.position
  rest := c.rest ++ more
  rest_eq := by rw [c.rest_eq, List.drop_append_of_le_length c.position_le]
  position_le := by
    rw [List.length_append]
    exact Nat.le_add_right_of_le c.position_le

@[simp] theorem data_extend (c : Cursor) (more : List UInt8) :
    (c.extend more).data = c.data ++ more := rfl

theorem start_append (data more : List UInt8) : start (data ++ more) = (start data).extend more := rfl

theorem remaining_extend (c : Cursor) (more : List UInt8) :
    (c.extend more).remaining = c.remaining + more.length :=
  List.length_append ..

/-- A cursor is told by its bytes and its position. -/
theorem ext_iff {c d : Cursor} : c = d ↔ c.data = d.data ∧ c.position = d.position := by
  obtain ⟨data, position, rest, hrest, hle⟩ := c
  obtain ⟨data', position', rest', hrest', hle'⟩ := d
  constructor
  · intro h
    exact ⟨congrArg Cursor.data h, congrArg Cursor.position h⟩
  · intro h
    obtain ⟨rfl, rfl⟩ := h
    subst hrest hrest'
    rfl

theorem take?_eq_none_iff {c : Cursor} {n : Nat} : c.take? n = none ↔ c.remaining < n := by
  unfold take?
  split
  case h_1 hnone => exact iff_of_true rfl (splitExactly?_eq_none_iff.mp hnone)
  case h_2 hsome =>
    refine iff_of_false (by simp) fun hlt => ?_
    have hnone := splitExactly?_eq_none_iff.mpr hlt
    exact absurd (hnone.symm.trans hsome) (by simp)

theorem take?_eq_some_iff {c d : Cursor} {n : Nat} {bytes : List UInt8} :
    c.take? n = some (bytes, d) ↔
      n ≤ c.remaining ∧ bytes = c.rest.take n ∧ d.data = c.data ∧ d.position = c.position + n := by
  unfold take?
  split
  case h_1 hnone =>
    have hlt := splitExactly?_eq_none_iff.mp hnone
    exact iff_of_false (by simp) fun h => absurd h.1 (Nat.not_le.mpr hlt)
  case h_2 front rest hsome =>
    obtain ⟨hrest, rfl⟩ := splitExactly?_eq_some_iff.mp hsome
    have hle : front.length ≤ c.remaining := by
      rw [remaining, hrest, List.length_append]
      exact Nat.le_add_right ..
    have hfront : c.rest.take front.length = front := by rw [hrest, List.take_left]
    rw [Option.some.injEq, Prod.mk.injEq, ext_iff, hfront]
    simp only [hle, true_and, eq_comm]

theorem take?_extend {c d : Cursor} {n : Nat} {bytes : List UInt8} (h : c.take? n = some (bytes, d))
    (more : List UInt8) : (c.extend more).take? n = some (bytes, d.extend more) := by
  obtain ⟨hle, hbytes, hdata, hposition⟩ := take?_eq_some_iff.mp h
  refine take?_eq_some_iff.mpr ⟨?_, ?_, ?_, hposition⟩
  · rw [remaining_extend]
    exact Nat.le_add_right_of_le hle
  · rw [hbytes]
    exact (List.take_append_of_le_length hle).symm
  · rw [data_extend, data_extend, hdata]

theorem seek?_eq_some_iff {c d : Cursor} {position : Nat} :
    c.seek? position = some d ↔ position ≤ c.data.length ∧ d.data = c.data ∧ d.position = position := by
  unfold seek?
  split
  case isTrue hle => simp [ext_iff, hle, eq_comm]
  case isFalse hlt => simp [hlt]

end Cursor

namespace Reader

variable {α β : Type}

/-! ## The same answer with more bytes -/

/-- The reader gives the same answer with more bytes at the end, and moves the cursor alike. -/
def Stable (reader : Reader α) : Prop :=
  ∀ c a d, reader c = (.ok a, d) → ∀ more, reader (c.extend more) = (.ok a, d.extend more)

namespace Stable

protected theorem pure (a : α) : (pure a : Reader α).Stable := by
  intro c b d h more
  obtain ⟨hb, rfl⟩ := Prod.mk.inj (h : (Except.ok a, c) = (.ok b, d))
  rw [← hb]
  rfl

protected theorem bind {reader : Reader α} {next : α → Reader β} (h : reader.Stable)
    (hnext : ∀ a, (next a).Stable) : (reader >>= next).Stable := by
  intro c b e hboth more
  obtain ⟨a, d, hfirst, hsecond⟩ := bind_run_eq_ok.mp hboth
  exact bind_run_eq_ok.mpr ⟨a, d.extend more, h c a d hfirst more, hnext a d b e hsecond more⟩

/-- A reader that looks at the cursor decides alike with more bytes. -/
protected theorem get {next : Cursor → Reader β} (h : ∀ c, (next c).Stable)
    (hagree : ∀ c b d, next c c = (.ok b, d) → ∀ more,
      next (c.extend more) (c.extend more) = next c (c.extend more)) :
    (get >>= next).Stable :=
  fun c b d heq more => (hagree c b d heq more).trans (h c c b d heq more)

protected theorem throw (fault : Fault) : (throw fault : Reader α).Stable :=
  fun _ _ _ h => absurd h fault_ne_answer

protected theorem lift (outcome : Except Fault α) : (liftM outcome : Reader α).Stable := by
  cases outcome with
  | ok a => exact Stable.pure a
  | error fault => exact Stable.throw fault

protected theorem ite {p : Prop} [Decidable p] {reader other : Reader α} (h : p → reader.Stable)
    (hother : ¬ p → other.Stable) : Stable (if p then reader else other) := by
  split
  case isTrue hp => exact h hp
  case isFalse hp => exact hother hp

/-- What is behind a check is read only if the check passes. -/
protected theorem guard {p : Prop} [Decidable p] {fault : Fault} {next : PUnit → Reader β}
    (h : ¬ p → (next ⟨⟩).Stable) :
    Stable (if p then (throw fault : Reader PUnit) >>= next else next ⟨⟩) := by
  refine Stable.ite (fun _ c b d heq => ?_) h
  obtain ⟨_, _, hthrow, -⟩ := bind_run_eq_ok.mp heq
  exact absurd hthrow fault_ne_answer

/-- A check of the cursor that passes with more bytes if it passes without them. -/
theorem get_guard {p : Cursor → Prop} [DecidablePred p] {fault : Fault} {next : PUnit → Reader β}
    (hp : ∀ c more, ¬ p c → ¬ p (c.extend more)) (h : (next ⟨⟩).Stable) :
    (get >>= fun c => if p c then (throw fault : Reader PUnit) >>= next else next ⟨⟩).Stable := by
  refine Stable.get (fun _ => Stable.guard fun _ => h) fun c b d heq more => ?_
  split at heq
  case isTrue =>
    obtain ⟨_, _, hthrow, -⟩ := bind_run_eq_ok.mp heq
    exact absurd hthrow fault_ne_answer
  case isFalse hc => rw [if_neg hc, if_neg (hp c more hc)]

/-- A move that more bytes do not change. -/
protected theorem move {step : Cursor → Option (α × Cursor)}
    (h : ∀ c a d, step c = some (a, d) → ∀ more, step (c.extend more) = some (a, d.extend more)) :
    (move step).Stable := by
  intro c a d heq more
  unfold move at heq ⊢
  split at heq
  case h_1 b next hstep =>
    obtain ⟨ha, rfl⟩ := Prod.mk.inj heq
    rw [h c b next hstep more, Except.ok.inj ha]
  case h_2 => exact absurd heq fault_ne_answer

protected theorem take (n : Nat) : (take n).Stable :=
  Stable.move fun _ _ _ h => Cursor.take?_extend h

protected theorem read [FixedWidth α] : (read α).Stable := by
  apply Stable.move
  intro c a d h more
  obtain ⟨⟨bytes, e⟩, htake, hmade⟩ := Option.map_eq_some_iff.mp h
  obtain ⟨ha, rfl⟩ := Prod.mk.inj hmade
  rw [Cursor.take?_extend htake, Option.map_some]
  exact congrArg (fun a => some (a, e.extend more)) ha

theorem advance?_extend {c d : Cursor} {n : Nat} (h : c.advance? n = some d) (more : List UInt8) :
    (c.extend more).advance? n = some (d.extend more) := by
  obtain ⟨⟨bytes, e⟩, htake, rfl⟩ := Option.map_eq_some_iff.mp h
  rw [Cursor.advance?, Cursor.take?_extend htake, Option.map_some]

protected theorem advance (n : Nat) : (advance n).Stable := by
  apply Stable.move
  intro c a d h more
  obtain ⟨e, hadvance, hmade⟩ := Option.map_eq_some_iff.mp h
  obtain ⟨-, rfl⟩ := Prod.mk.inj hmade
  rw [advance?_extend hadvance, Option.map_some]

protected theorem align (alignment : Nat) : (align alignment).Stable := by
  apply Stable.move
  intro c a d h more
  obtain ⟨e, halign, hmade⟩ := Option.map_eq_some_iff.mp h
  obtain ⟨-, rfl⟩ := Prod.mk.inj hmade
  have hextend : (c.extend more).align? alignment = some (e.extend more) := by
    unfold Cursor.align? at halign ⊢
    split at halign
    case isTrue hzero => rw [if_pos hzero, Option.some.inj halign]
    case isFalse hpos => rw [if_neg hpos]; exact advance?_extend halign more
  rw [hextend, Option.map_some]

protected theorem seek (position : Nat) : (seek position).Stable := by
  apply Stable.move
  intro c a d h more
  obtain ⟨e, hseek, hmade⟩ := Option.map_eq_some_iff.mp h
  obtain ⟨-, rfl⟩ := Prod.mk.inj hmade
  obtain ⟨hle, hdata, hposition⟩ := Cursor.seek?_eq_some_iff.mp hseek
  have hextend : (c.extend more).seek? position = some (e.extend more) := by
    refine Cursor.seek?_eq_some_iff.mpr ⟨?_, ?_, hposition⟩
    · rw [Cursor.data_extend, List.length_append]
      exact Nat.le_add_right_of_le hle
    · rw [Cursor.data_extend, Cursor.data_extend, hdata]
  rw [hextend, Option.map_some]

protected theorem peek : peek.Stable := by
  apply Stable.move
  intro c a d h more
  obtain ⟨byte, hpeek, hmade⟩ := Option.map_eq_some_iff.mp h
  obtain ⟨rfl, rfl⟩ := Prod.mk.inj hmade
  obtain ⟨rest, hrest⟩ := List.head?_eq_some_iff.mp hpeek
  have hextend : (c.extend more).peek? = some byte := by
    show (c.rest ++ more).head? = some byte
    rw [hrest]
    rfl
  rw [hextend, Option.map_some]

/-- The answer to bytes is the answer to any bytes that begin with them. -/
theorem runOn_append {reader : Reader α} (h : reader.Stable) {data : List UInt8} {a : α}
    (heq : reader.runOn data = .ok a) (more : List UInt8) : reader.runOn (data ++ more) = .ok a := by
  unfold runOn at heq ⊢
  rw [Cursor.start_append, h _ a (reader (.start data)).2 (Prod.ext heq rfl) more]

end Stable

end Reader

end MethodIL
