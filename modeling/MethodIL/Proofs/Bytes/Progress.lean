import Mathlib
import MethodIL.Proofs.Bytes.Extension
set_option autoImplicit false

/-!
# How far a reader moves

A cursor stays over the same bytes and moves on, whether the reader answers or fails; only a reader that
seeks may go back.  Some readers take a fixed number of bytes, and fail for the lack of bytes and for
nothing else.  A loop around a reader that takes bytes each time it goes on ends by itself, so a bound on
its rounds changes nothing.
-/

namespace MethodIL

namespace Cursor

/-- One cursor is over the same bytes as the other and not in front of it. -/
structure Forward (c d : Cursor) : Prop where
  data : d.data = c.data
  position : c.position ≤ d.position

theorem Forward.refl (c : Cursor) : c.Forward c := ⟨rfl, Nat.le_refl _⟩

theorem Forward.trans {c d e : Cursor} (h : c.Forward d) (h' : d.Forward e) : c.Forward e :=
  ⟨h'.data.trans h.data, Nat.le_trans h.position h'.position⟩

instance : Std.Refl Forward := ⟨Forward.refl⟩

instance : IsTrans Cursor Forward := ⟨fun _ _ _ => Forward.trans⟩

/-- One cursor is over the same bytes as the other. -/
def SameData (c d : Cursor) : Prop := d.data = c.data

instance : Std.Refl SameData := ⟨fun _ => rfl⟩

instance : IsTrans Cursor SameData := ⟨fun _ _ _ h h' => Eq.trans h' h⟩

/-- A cursor that is `n` bytes further on has `n` bytes fewer in front of it. -/
theorem remaining_of_position {c d : Cursor} {n : Nat} (hdata : d.data = c.data)
    (hposition : d.position = c.position + n) : d.remaining = c.remaining - n := by
  rw [remaining_eq, remaining_eq, hdata, hposition, Nat.sub_add_eq]

end Cursor

namespace Reader

variable {α β : Type}

/-! ## Moving on -/

/-- Whether the reader answers or fails, it leaves a cursor that is related to the one that it found. -/
def Moves (R : Cursor → Cursor → Prop) (reader : Reader α) : Prop := ∀ c, R c (reader c).2

namespace Moves

variable {R : Cursor → Cursor → Prop}

theorem mono {S : Cursor → Cursor → Prop} {reader : Reader α} (h : reader.Moves R)
    (hRS : ∀ c d, R c d → S c d) : reader.Moves S :=
  fun c => hRS c _ (h c)

theorem sameData {reader : Reader α} (h : reader.Moves Cursor.Forward) :
    reader.Moves Cursor.SameData :=
  h.mono fun _ _ hforward => hforward.data

section Refl

variable [Std.Refl R]

/-- A move that is not made leaves the cursor where it was. -/
protected theorem move {step : Cursor → Option (α × Cursor)}
    (h : ∀ c a d, step c = some (a, d) → R c d) : (move step).Moves R := by
  intro c
  unfold Reader.move
  split
  case h_1 a d hstep => exact h c a d hstep
  case h_2 => exact Std.Refl.refl c

protected theorem pure (a : α) : (pure a : Reader α).Moves R := Std.Refl.refl

protected theorem throw (fault : Fault) : (throw fault : Reader α).Moves R := Std.Refl.refl

protected theorem lift (outcome : Except Fault α) : (liftM outcome : Reader α).Moves R := by
  cases outcome with
  | ok a => exact Moves.pure a
  | error fault => exact Moves.throw fault

end Refl

protected theorem bind [IsTrans Cursor R] {reader : Reader α} {next : α → Reader β}
    (h : reader.Moves R) (hnext : ∀ a, (next a).Moves R) : (reader >>= next).Moves R := by
  intro c
  have hfirst := h c
  simp only [bind, ExceptT.bind, ExceptT.mk, StateT.bind]
  cases hrun : reader c with
  | mk outcome d =>
    rw [hrun] at hfirst
    cases outcome with
    | error fault => exact hfirst
    | ok a => exact IsTrans.trans c d _ hfirst (hnext a d)

protected theorem get {next : Cursor → Reader β} (h : ∀ c, (next c).Moves R) :
    (get >>= next).Moves R := fun c => h c c

protected theorem ite {p : Prop} [Decidable p] {reader other : Reader α} (h : reader.Moves R)
    (hother : other.Moves R) : Moves R (if p then reader else other) := by
  split
  · exact h
  · exact hother

end Moves

/-! ## Running readers in sequence -/

theorem bind_run_of_ok {reader : Reader α} {next : α → Reader β} {c d : Cursor} {a : α}
    (h : reader c = (.ok a, d)) : (reader >>= next) c = next a d := by
  simp only [bind, ExceptT.bind, ExceptT.mk, StateT.bind, h]
  rfl

theorem bind_run_of_error {reader : Reader α} {next : α → Reader β} {c d : Cursor} {fault : Fault}
    (h : reader c = (.error fault, d)) : (reader >>= next) c = (.error fault, d) := by
  simp only [bind, ExceptT.bind, ExceptT.mk, StateT.bind, h]
  rfl

/-- What follows a reader matters only where the reader answers. -/
theorem bind_run_congr {reader : Reader α} {next next' : α → Reader β} {c : Cursor}
    (h : ∀ a d, reader c = (.ok a, d) → next a d = next' a d) :
    (reader >>= next) c = (reader >>= next') c := by
  cases hrun : reader c with
  | mk outcome d =>
    cases outcome with
    | error fault => rw [bind_run_of_error hrun, bind_run_of_error hrun]
    | ok a => rw [bind_run_of_ok hrun, bind_run_of_ok hrun, h a d hrun]

theorem bind_run_of_eq {reader reader' : Reader α} {next : α → Reader β} {c : Cursor}
    (h : reader c = reader' c) : (reader >>= next) c = (reader' >>= next) c := by
  simp only [bind, ExceptT.bind, ExceptT.mk, StateT.bind, h]

theorem throw_bind_run {next : α → Reader β} {fault : Fault} (c : Cursor) :
    ((throw fault : Reader α) >>= next) c = (.error fault, c) := rfl

theorem get_run {next : Cursor → Reader β} (c : Cursor) : (get >>= next) c = next c c := rfl

/-- What is behind a check is read only if the check passes. -/
protected theorem Moves.guard {R : Cursor → Cursor → Prop} [Std.Refl R] {p : Prop} [Decidable p]
    {fault : Fault} {next : PUnit → Reader β} (h : (next ⟨⟩).Moves R) :
    Moves R (if p then (throw fault : Reader PUnit) >>= next else next ⟨⟩) := by
  refine .ite (fun c => ?_) h
  rw [throw_bind_run]
  exact Std.Refl.refl c

/-! ## A fixed number of bytes -/

/-- The reader takes `n` bytes, and fails if there are fewer and only then. -/
structure Consumes (reader : Reader α) (n : Nat) : Prop where
  answers : ∀ c, n ≤ c.remaining →
    ∃ a d, reader c = (.ok a, d) ∧ d.data = c.data ∧ d.position = c.position + n
  fails : ∀ c, c.remaining < n → ∃ d, reader c = (.error .outOfBounds, d) ∧ c.Forward d

namespace Consumes

protected theorem pure (a : α) : (pure a : Reader α).Consumes 0 where
  answers c _ := ⟨a, c, rfl, rfl, rfl⟩
  fails _ h := absurd h (Nat.not_lt_zero _)

/-- A move that takes `n` bytes and makes something of them. -/
protected theorem move {step : Cursor → Option (α × Cursor)} {n : Nat} (f : List UInt8 → α)
    (h : ∀ c, step c = (c.take? n).map fun made => (f made.1, made.2)) : (move step).Consumes n where
  answers c hroom := by
    cases htake : c.take? n with
    | none => exact absurd (Cursor.take?_eq_none_iff.mp htake) (Nat.not_lt.mpr hroom)
    | some made =>
      obtain ⟨-, -, hdata, hposition⟩ := Cursor.take?_eq_some_iff.mp htake
      exact ⟨f made.1, made.2, by rw [Reader.move, h, htake, Option.map_some], hdata, hposition⟩
  fails c hroom := by
    refine ⟨c, ?_, .refl c⟩
    rw [Reader.move, h, Cursor.take?_eq_none_iff.mpr hroom, Option.map_none]

protected theorem take (n : Nat) : (take n).Consumes n :=
  Consumes.move id fun c => by cases c.take? n <;> rfl

protected theorem read [FixedWidth α] : (read α).Consumes (FixedWidth.width α) :=
  Consumes.move FixedWidth.ofBytes fun _ => rfl

protected theorem advance (n : Nat) : (advance n).Consumes n :=
  Consumes.move (fun _ => ()) fun c => by rw [Cursor.advance?, Option.map_map]; rfl

protected theorem bind {reader : Reader α} {next : α → Reader β} {m n : Nat} (h : reader.Consumes m)
    (hnext : ∀ a, (next a).Consumes n) : (reader >>= next).Consumes (m + n) where
  answers c hroom := by
    obtain ⟨a, d, hfirst, hdata, hposition⟩ := h.answers c (Nat.le_of_add_right_le hroom)
    have hleft := Cursor.remaining_of_position hdata hposition
    obtain ⟨b, e, hsecond, hdata', hposition'⟩ := (hnext a).answers d (by omega)
    refine ⟨b, e, (bind_run_of_ok hfirst).trans hsecond, hdata'.trans hdata, ?_⟩
    rw [hposition', hposition, Nat.add_assoc]
  fails c hroom := by
    cases Nat.lt_or_ge c.remaining m with
    | inl hshort =>
      obtain ⟨d, hfirst, hforward⟩ := h.fails c hshort
      exact ⟨d, bind_run_of_error hfirst, hforward⟩
    | inr hlong =>
      obtain ⟨a, d, hfirst, hdata, hposition⟩ := h.answers c hlong
      have hleft := Cursor.remaining_of_position hdata hposition
      obtain ⟨e, hsecond, hforward⟩ := (hnext a).fails d (by omega)
      have hmoved : c.Forward d := ⟨hdata, by rw [hposition]; exact Nat.le_add_right ..⟩
      exact ⟨e, (bind_run_of_ok hfirst).trans hsecond, hmoved.trans hforward⟩

/-- What is made of the bytes takes none. -/
protected theorem map {reader : Reader α} {n : Nat} (h : reader.Consumes n) (f : α → β) :
    (reader >>= fun a => pure (f a)).Consumes n :=
  h.bind fun a => Consumes.pure (f a)

protected theorem ite {p : Prop} [Decidable p] {reader other : Reader α} {n : Nat}
    (h : reader.Consumes n) (hother : other.Consumes n) :
    (if p then reader else other).Consumes n := by
  split
  · exact h
  · exact hother

theorem moves {reader : Reader α} {n : Nat} (h : reader.Consumes n) :
    reader.Moves Cursor.Forward := by
  intro c
  cases Nat.lt_or_ge c.remaining n with
  | inl hshort =>
    obtain ⟨d, hrun, hforward⟩ := h.fails c hshort
    rw [hrun]
    exact hforward
  | inr hlong =>
    obtain ⟨a, d, hrun, hdata, hposition⟩ := h.answers c hlong
    rw [hrun]
    exact ⟨hdata, by rw [hposition]; exact Nat.le_add_right ..⟩

end Consumes

/-! ## Other moves -/

theorem moves_peek : peek.Moves Cursor.Forward := by
  refine Moves.move fun c a d h => ?_
  obtain ⟨byte, -, hmade⟩ := Option.map_eq_some_iff.mp h
  obtain ⟨-, rfl⟩ := Prod.mk.inj hmade
  exact .refl c

theorem moves_seek (position : Nat) : (seek position).Moves Cursor.SameData := by
  refine Moves.move fun c a d h => ?_
  obtain ⟨e, hseek, hmade⟩ := Option.map_eq_some_iff.mp h
  obtain ⟨-, rfl⟩ := Prod.mk.inj hmade
  exact (Cursor.seek?_eq_some_iff.mp hseek).2.1

/-- To read a number is to take its bytes. -/
theorem read_eq_take [FixedWidth α] :
    read α = take (FixedWidth.width α) >>= fun bytes => pure (FixedWidth.ofBytes bytes) := by
  funext c
  cases htake : c.take? (FixedWidth.width α) with
  | none =>
    rw [bind_run_of_error (by rw [take, move, htake]), read, move, htake, Option.map_none]
  | some made =>
    rw [bind_run_of_ok (by rw [take, move, htake]), read, move, htake, Option.map_some]
    rfl

theorem align_zero : align 0 = pure () := rfl

/-- To align is to move on by the gap. -/
theorem align_eq_advance {alignment : Nat} (h : alignment ≠ 0) (c : Cursor) :
    align alignment c = advance ((alignment - c.position % alignment) % alignment) c := by
  rw [align, move, Cursor.align?, if_neg (by simpa using h)]
  rfl

theorem moves_align (alignment : Nat) : (align alignment).Moves Cursor.SameData := by
  rcases eq_or_ne alignment 0 with rfl | hpos
  · exact .pure ()
  · intro c
    rw [align_eq_advance hpos]
    exact (Consumes.advance _).moves.sameData c

theorem position_of_seek {position : Nat} {c d : Cursor} (h : seek position c = (.ok (), d)) :
    d.position = position := by
  unfold seek move at h
  split at h
  case h_1 step hstep =>
    obtain ⟨e, hseek, hmade⟩ := Option.map_eq_some_iff.mp hstep
    obtain ⟨-, rfl⟩ := Prod.mk.inj h
    rw [← (Prod.mk.inj hmade).2]
    exact (Cursor.seek?_eq_some_iff.mp hseek).2.2
  case h_2 => exact absurd h fault_ne_answer

theorem Moves.of_run {R : Cursor → Cursor → Prop} {reader : Reader α} (h : reader.Moves R) {c d : Cursor}
    {outcome : Except Fault α} (hrun : reader c = (outcome, d)) : R c d := by
  have hmoved := h c
  rwa [hrun] at hmoved

/-! ## Loops -/

/-- A loop that goes on as long as its step says so, without any bound, and gathers what the steps answer.
Only loops that end have an outcome. -/
inductive Repeats (step : Reader (List α × Bool)) : Cursor → Except Fault (List α) × Cursor → Prop
  | fails {c d : Cursor} {fault : Fault} (h : step c = (.error fault, d)) :
    Repeats step c (.error fault, d)
  | ends {c d : Cursor} {items : List α} (h : step c = (.ok (items, false), d)) :
    Repeats step c (.ok items, d)
  | goesOn {c d e : Cursor} {items : List α} {outcome : Except Fault (List α)}
    (h : step c = (.ok (items, true), d)) (hrest : Repeats step d (outcome, e)) :
    Repeats step c (outcome.map (items ++ ·), e)

/-- One round of a loop, and what stands for the other rounds. -/
def roundThen (step : Reader (List α × Bool)) (rest : Reader (List α)) : Reader (List α) := do
  let (items, more) ← step
  if more then return items ++ (← rest) else return items

namespace Repeats

variable {step : Reader (List α × Bool)}

/-- A step has one answer. -/
theorem answer_inj {items items' : List α} {more more' : Bool} {c d : Cursor}
    (h : ((.ok (items, more), c) : Except Fault (List α × Bool) × Cursor) = (.ok (items', more'), d)) :
    items = items' ∧ more = more' ∧ c = d := by
  simpa [and_assoc] using h

/-- A loop has one outcome. -/
theorem unique {c : Cursor} {result result' : Except Fault (List α) × Cursor}
    (h : Repeats step c result) (h' : Repeats step c result') : result = result' := by
  induction h generalizing result' with
  | fails hstep =>
    cases h' with
    | fails hstep' =>
      obtain ⟨hfault, rfl⟩ := Prod.mk.inj (hstep.symm.trans hstep')
      rw [Except.error.inj hfault]
    | ends hstep' => exact absurd (hstep.symm.trans hstep') fault_ne_answer
    | goesOn hstep' hrest' => exact absurd (hstep.symm.trans hstep') fault_ne_answer
  | ends hstep =>
    cases h' with
    | fails hstep' => exact absurd (hstep'.symm.trans hstep) fault_ne_answer
    | ends hstep' =>
      obtain ⟨rfl, -, rfl⟩ := answer_inj (hstep.symm.trans hstep')
      rfl
    | goesOn hstep' hrest' =>
      exact absurd (answer_inj (hstep.symm.trans hstep')).2.1 Bool.false_ne_true
  | goesOn hstep hrest ih =>
    cases h' with
    | fails hstep' => exact absurd (hstep'.symm.trans hstep) fault_ne_answer
    | ends hstep' => exact absurd (answer_inj (hstep'.symm.trans hstep)).2.1 Bool.false_ne_true
    | goesOn hstep' hrest' =>
      obtain ⟨rfl, -, rfl⟩ := answer_inj (hstep.symm.trans hstep')
      obtain ⟨rfl, rfl⟩ := Prod.mk.inj (ih hrest')
      rfl

/-- A round is a step of the loop, and the loop goes on where the round does. -/
theorem of_round {rest : Reader (List α)} {c : Cursor}
    (hrest : ∀ items d, step c = (.ok (items, true), d) → Repeats step d (rest d)) :
    Repeats step c (roundThen step rest c) := by
  cases hstep : step c with
  | mk outcome d =>
    cases outcome with
    | error fault =>
      rw [roundThen, bind_run_of_error hstep]
      exact .fails hstep
    | ok answer =>
      obtain ⟨items, more⟩ := answer
      rw [roundThen, bind_run_of_ok hstep]
      cases more with
      | false => exact .ends hstep
      | true =>
        have hgoesOn := Repeats.goesOn hstep (hrest items d hstep)
        have hsame : (do return items ++ (← rest) : Reader (List α)) d =
            ((rest d).1.map (items ++ ·), (rest d).2) := by
          cases hrun : rest d with
          | mk outcome e =>
            cases outcome with
            | error fault => exact bind_run_of_error hrun
            | ok others => exact bind_run_of_ok hrun
        rwa [← hsame] at hgoesOn

/-- A loop moves the cursor as its steps do. -/
theorem moves {R : Cursor → Cursor → Prop} [IsTrans Cursor R] (hmoves : step.Moves R) {c : Cursor}
    {result : Except Fault (List α) × Cursor} (h : Repeats step c result) : R c result.2 := by
  induction h with
  | fails hstep => exact hmoves.of_run hstep
  | ends hstep => exact hmoves.of_run hstep
  | goesOn hstep _ ih => exact IsTrans.trans _ _ _ (hmoves.of_run hstep) ih

/-- More bytes change no answer of a loop if they change none of its step. -/
theorem extend (hstable : step.Stable) {c d : Cursor} {items : List α}
    (h : Repeats step c (.ok items, d)) (more : List UInt8) :
    Repeats step (c.extend more) (.ok items, d.extend more) := by
  generalize hresult : ((.ok items, d) : Except Fault (List α) × Cursor) = result at h
  induction h generalizing items with
  | fails => exact absurd hresult.symm fault_ne_answer
  | ends hstep =>
    obtain ⟨hitems, rfl⟩ := Prod.mk.inj hresult
    rw [Except.ok.inj hitems]
    exact .ends (hstable _ _ _ hstep more)
  | @goesOn c d' e front outcome hstep hrest ih =>
    obtain ⟨hitems, rfl⟩ := Prod.mk.inj hresult
    cases outcome with
    | error fault => exact absurd hitems (by simp [Except.map])
    | ok others =>
      rw [Except.ok.inj hitems]
      exact .goesOn (hstable _ _ _ hstep more) (ih rfl)

end Repeats

end Reader

end MethodIL
