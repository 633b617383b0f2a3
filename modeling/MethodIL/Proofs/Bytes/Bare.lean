import Mathlib
import MethodIL.Proofs.Bytes.Progress
set_option autoImplicit false

/-!
# Reading from bare positions

A cursor never points behind its bytes, so slices and offsets of a reader are in order by what a cursor
is.  Here a position is nothing but a number.  A slice breaks off if the bytes are not there, a sum of
offsets if a word of the machine cannot tell it, and a difference if it is negative.  A bare reader that
starts where a cursor stands is to do what the reader does, and never to break off.
-/

namespace MethodIL

/-- What reading takes for granted about offsets. -/
inductive Overrun where
  | slice (start stop size : Nat)
  | overflow (sum : Nat)
  | underflow (minuend subtrahend : Nat)

/-- Bytes and a position, which may lie outside of them. -/
structure Mark where
  data : List UInt8
  position : Nat

/-- The number of bytes behind a mark. -/
def Mark.remaining (m : Mark) : Nat := m.data.length - m.position

/-- There are bytes behind a mark. -/
def Mark.hasMore (m : Mark) : Bool := m.position < m.data.length

namespace Cursor

/-- Where a cursor stands. -/
def mark (c : Cursor) : Mark := ⟨c.data, c.position⟩

@[simp] theorem data_mark (c : Cursor) : c.mark.data = c.data := rfl

@[simp] theorem position_mark (c : Cursor) : c.mark.position = c.position := rfl

@[simp] theorem remaining_mark (c : Cursor) : c.mark.remaining = c.remaining := c.remaining_eq.symm

@[simp] theorem hasMore_mark (c : Cursor) : c.mark.hasMore = c.hasMore := by
  have hremaining := c.remaining_eq
  rw [Mark.hasMore, hasMore, data_mark, position_mark, Bool.eq_iff_iff]
  cases hrest : c.rest with
  | nil =>
    rw [remaining, hrest] at hremaining
    simpa using Nat.le_of_sub_eq_zero hremaining.symm
  | cons byte rest =>
    rw [remaining, hrest] at hremaining
    simpa using Nat.lt_of_sub_pos (hremaining ▸ Nat.succ_pos _)

/-- A word of the machine can tell every offset into the bytes, also if a size of three bytes is added. -/
def Fits (word : Nat) (c : Cursor) : Prop := c.data.length + 0x1000000 ≤ word

end Cursor

/-- A program that moves a mark, may stop with a fault, and may break off. -/
abbrev BareReader (α : Type) : Type := ExceptT Fault (StateT Mark (Except Overrun)) α

namespace BareReader

/-! ## Offsets and slices -/

section Primitives

variable {α : Type} (word : Nat)

/-- A computation that reads nothing. -/
def compute (x : Except Overrun α) : BareReader α := fun m => x.map fun a => (.ok a, m)

/-- The sum of two offsets. -/
def sum (a b : Nat) : Except Overrun Nat :=
  if a + b < word then .ok (a + b) else .error (.overflow (a + b))

/-- The difference of two offsets. -/
def difference (a b : Nat) : Except Overrun Nat :=
  if b ≤ a then .ok (a - b) else .error (.underflow a b)

/-- The bytes from one offset to another. -/
def slice (data : List UInt8) (start stop : Nat) : Except Overrun (List UInt8) :=
  if start ≤ stop ∧ stop ≤ data.length then .ok ((data.drop start).take (stop - start))
  else .error (.slice start stop data.length)

/-- Where the next `n` of `size` bytes end.  A sum that a word cannot tell lies behind all bytes. -/
def endOf? (size position n : Nat) : Option Nat :=
  if position + n < word ∧ position + n ≤ size then some (position + n) else none

/-- Read `n` bytes. -/
def take (n : Nat) : BareReader (List UInt8) := fun m =>
  match endOf? word m.data.length m.position n with
  | some stop => (slice m.data m.position stop).map fun bytes => (.ok bytes, ⟨m.data, stop⟩)
  | none => .ok (.error .outOfBounds, m)

/-- Read a number. -/
def read (α : Type) [FixedWidth α] : BareReader α := do
  return FixedWidth.ofBytes (← take word (FixedWidth.width α))

/-- Look at the next byte without moving. -/
def peek : BareReader UInt8 := fun m =>
  match m.data[m.position]? with
  | some byte => .ok (.ok byte, m)
  | none => .ok (.error .outOfBounds, m)

/-- Move to a position. -/
def seek (position : Nat) : BareReader Unit := fun m =>
  if m.data.length < position then .ok (.error .outOfBounds, m) else .ok (.ok (), ⟨m.data, position⟩)

/-- Move on by `n` bytes. -/
def advance (n : Nat) : BareReader Unit := fun m =>
  match endOf? word m.data.length m.position n with
  | some stop => .ok (.ok (), ⟨m.data, stop⟩)
  | none => .ok (.error .outOfBounds, m)

/-- Move on to a multiple of `alignment`. -/
def align (alignment : Nat) : BareReader Unit := do
  if alignment == 0 then return ()
  let gap ← compute (difference alignment ((← get).position % alignment))
  advance word (gap % alignment)

end Primitives

/-! ## Readers that do not break off -/

variable {α β : Type} {word : Nat}

/-- Where the cursor stands, the bare reader does not break off, and does what the reader does. -/
def Agrees (bare : BareReader α) (reader : Reader α) (c : Cursor) : Prop :=
  bare c.mark = .ok ((reader c).1, (reader c).2.mark)

namespace Agrees

variable {c : Cursor} {bare : BareReader α} {reader : Reader α}

theorem of_run {outcome : Except Fault α} {d : Cursor} (hbare : bare c.mark = .ok (outcome, d.mark))
    (hrun : reader c = (outcome, d)) : bare.Agrees reader c := by
  rw [Agrees, hbare, hrun]

protected theorem pure (a : α) : (pure a : BareReader α).Agrees (pure a) c := rfl

protected theorem throw (fault : Fault) : (throw fault : BareReader α).Agrees (throw fault) c := rfl

protected theorem bind {next : α → BareReader β} {next' : α → Reader β} (h : bare.Agrees reader c)
    (hnext : ∀ a d, reader c = (.ok a, d) → (next a).Agrees (next' a) d) :
    (bare >>= next).Agrees (reader >>= next') c := by
  cases hrun : reader c with
  | mk outcome d =>
    rw [Agrees, hrun] at h
    cases outcome with
    | error fault =>
      rw [Agrees, Reader.bind_run_of_error hrun]
      simp only [bind, ExceptT.bind, ExceptT.mk, StateT.bind, Except.bind, h]
      rfl
    | ok a =>
      rw [Agrees, Reader.bind_run_of_ok hrun, ← hnext a d hrun]
      simp only [bind, ExceptT.bind, ExceptT.mk, StateT.bind, Except.bind, h]
      rfl

/-- A reader may look at the bytes and the position of the cursor. -/
protected theorem get {next : Mark → BareReader β} {next' : Cursor → Reader β}
    (h : (next c.mark).Agrees (next' c) c) : (get >>= next).Agrees (get >>= next') c := h

/-- A computation that comes to a result does not show. -/
theorem compute {x : Except Overrun α} {a : α} (hx : x = .ok a) {next : α → BareReader β}
    {reader : Reader β} (h : (next a).Agrees reader c) :
    (compute x >>= next).Agrees reader c := by
  subst hx
  exact h

protected theorem guard {p : Prop} [Decidable p] {fault : Fault} {next : PUnit → BareReader β}
    {next' : PUnit → Reader β} (h : ¬ p → (next ⟨⟩).Agrees (next' ⟨⟩) c) :
    Agrees (if p then (throw fault : BareReader PUnit) >>= next else next ⟨⟩)
      (if p then (throw fault : Reader PUnit) >>= next' else next' ⟨⟩) c := by
  split
  case isTrue => rfl
  case isFalse hp => exact h hp

protected theorem ite {p : Prop} [Decidable p] {bare' : BareReader α} {reader' : Reader α}
    (h : bare.Agrees reader c) (h' : bare'.Agrees reader' c) :
    Agrees (if p then bare else bare') (if p then reader else reader') c := by
  split
  · exact h
  · exact h'

/-! ### Moves -/

theorem sum_eq {a b : Nat} (h : a + b < word) : sum word a b = .ok (a + b) := if_pos h

theorem difference_eq {a b : Nat} (h : b ≤ a) : difference a b = .ok (a - b) := if_pos h

theorem endOf?_mark (hfits : c.Fits word) (n : Nat) :
    endOf? word c.data.length c.position n =
      if n ≤ c.remaining then some (c.position + n) else none := by
  have hinside := c.position_le
  rw [Cursor.Fits] at hfits
  rw [endOf?, Cursor.remaining_eq]
  exact if_congr (by omega) rfl rfl

theorem slice_mark {n : Nat} (h : n ≤ c.remaining) :
    slice c.data c.position (c.position + n) = .ok (c.rest.take n) := by
  have hinside := c.position_le
  rw [Cursor.remaining_eq] at h
  rw [slice, if_pos (by omega), c.rest_eq, Nat.add_sub_cancel_left]

protected theorem take (hfits : c.Fits word) (n : Nat) : (take word n).Agrees (Reader.take n) c := by
  rw [Agrees, take, Cursor.data_mark, Cursor.position_mark, endOf?_mark hfits, Reader.take, Reader.move]
  cases htake : c.take? n with
  | none => rw [if_neg (Nat.not_le.mpr (Cursor.take?_eq_none_iff.mp htake))]
  | some made =>
    obtain ⟨hroom, hbytes, hdata, hposition⟩ := Cursor.take?_eq_some_iff.mp htake
    rw [if_pos hroom]
    dsimp only
    rw [slice_mark hroom, Cursor.mark, hdata, hposition, hbytes]
    rfl

protected theorem read [FixedWidth α] (hfits : c.Fits word) :
    (read word α).Agrees (Reader.read α) c := by
  rw [Reader.read_eq_take]
  exact (Agrees.take hfits _).bind fun bytes d _ => Agrees.pure _

protected theorem peek : peek.Agrees Reader.peek c := by
  have hnext : c.peek? = c.data[c.position]? := by rw [Cursor.peek?, c.rest_eq, List.head?_drop]
  rw [Agrees, peek, Reader.peek, Reader.move, hnext, Cursor.data_mark, Cursor.position_mark]
  cases c.data[c.position]? <;> rfl

protected theorem seek (position : Nat) : (seek position).Agrees (Reader.seek position) c := by
  rw [Agrees, seek, Reader.seek, Reader.move, Cursor.seek?, Cursor.data_mark]
  by_cases hinside : position ≤ c.data.length
  · rw [dif_pos hinside, if_neg (Nat.not_lt.mpr hinside)]
    rfl
  · rw [dif_neg hinside, if_pos (Nat.lt_of_not_le hinside)]
    rfl

protected theorem advance (hfits : c.Fits word) (n : Nat) :
    (advance word n).Agrees (Reader.advance n) c := by
  rw [Agrees, advance, Cursor.data_mark, Cursor.position_mark, endOf?_mark hfits, Reader.advance,
    Reader.move, Cursor.advance?]
  cases htake : c.take? n with
  | none =>
    rw [if_neg (Nat.not_le.mpr (Cursor.take?_eq_none_iff.mp htake))]
    rfl
  | some made =>
    obtain ⟨hroom, -, hdata, hposition⟩ := Cursor.take?_eq_some_iff.mp htake
    rw [if_pos hroom, Option.map_some, Option.map_some]
    dsimp only
    rw [Cursor.mark, hdata, hposition]

protected theorem align (hfits : c.Fits word) (alignment : Nat) :
    (align word alignment).Agrees (Reader.align alignment) c := by
  rcases eq_or_ne alignment 0 with rfl | hpos
  · rw [Reader.align_zero]
    rfl
  · have hle : c.position % alignment ≤ alignment :=
      Nat.le_of_lt (Nat.mod_lt _ (Nat.pos_of_ne_zero hpos))
    have hadvance : Agrees (BareReader.compute (difference alignment (c.position % alignment)) >>=
        fun gap => BareReader.advance word (gap % alignment))
        (Reader.advance ((alignment - c.position % alignment) % alignment)) c :=
      .compute (difference_eq hle) (Agrees.advance hfits _)
    rw [align, if_neg (by simpa using hpos), Agrees, Reader.align_eq_advance hpos]
    exact hadvance

end Agrees

/-- Whatever the bytes are, the bare reader does not break off, and does what the reader does. -/
structure Safe (word : Nat) (bare : BareReader α) (reader : Reader α) : Prop where
  moves : reader.Moves Cursor.SameData
  agrees : ∀ c, c.Fits word → bare.Agrees reader c

/-- A reader leaves the bytes as they are, and so the offsets that fit. -/
theorem Safe.fits {bare : BareReader α} {reader : Reader α} (h : Safe word bare reader) {c d : Cursor}
    {outcome : Except Fault α} (hrun : reader c = (outcome, d)) (hfits : c.Fits word) : d.Fits word := by
  have hdata : d.data = c.data := h.moves.of_run hrun
  rwa [Cursor.Fits, hdata]

namespace Safe

variable {bare : BareReader α} {reader : Reader α}

protected theorem pure (a : α) : Safe word (pure a) (pure a) := ⟨.pure a, fun _ _ => .pure a⟩

protected theorem throw (fault : Fault) : Safe word (throw fault : BareReader α) (throw fault) :=
  ⟨.throw fault, fun _ _ => .throw fault⟩

protected theorem lift (outcome : Except Fault α) : Safe word (liftM outcome) (liftM outcome) := by
  cases outcome with
  | ok a => exact Safe.pure a
  | error fault => exact Safe.throw fault

protected theorem bind {next : α → BareReader β} {next' : α → Reader β} (h : Safe word bare reader)
    (hnext : ∀ a, Safe word (next a) (next' a)) : Safe word (bare >>= next) (reader >>= next') where
  moves := h.moves.bind fun a => (hnext a).moves
  agrees c hfits := (h.agrees c hfits).bind fun a d hrun => (hnext a).agrees d (h.fits hrun hfits)

protected theorem get {next : Mark → BareReader β} {next' : Cursor → Reader β}
    (h : ∀ c, Safe word (next c.mark) (next' c)) : Safe word (get >>= next) (get >>= next') where
  moves := .get fun c => (h c).moves
  agrees c hfits := .get ((h c).agrees c hfits)

theorem compute {x : Except Overrun α} {a : α} (hx : x = .ok a) {next : α → BareReader β}
    {reader : Reader β} (h : Safe word (next a) reader) : Safe word (compute x >>= next) reader where
  moves := h.moves
  agrees c hfits := .compute hx (h.agrees c hfits)

protected theorem guard {p : Prop} [Decidable p] {fault : Fault} {next : PUnit → BareReader β}
    {next' : PUnit → Reader β} (h : Safe word (next ⟨⟩) (next' ⟨⟩)) :
    Safe word (if p then (throw fault : BareReader PUnit) >>= next else next ⟨⟩)
      (if p then (throw fault : Reader PUnit) >>= next' else next' ⟨⟩) where
  moves := .guard h.moves
  agrees c hfits := .guard fun _ => h.agrees c hfits

protected theorem ite {p : Prop} [Decidable p] {bare' : BareReader α} {reader' : Reader α}
    (h : Safe word bare reader) (h' : Safe word bare' reader') :
    Safe word (if p then bare else bare') (if p then reader else reader') where
  moves := .ite h.moves h'.moves
  agrees c hfits := .ite (h.agrees c hfits) (h'.agrees c hfits)

protected theorem take (n : Nat) : Safe word (take word n) (Reader.take n) :=
  ⟨(Reader.Consumes.take n).moves.sameData, fun _ hfits => .take hfits n⟩

protected theorem read [FixedWidth α] : Safe word (read word α) (Reader.read α) :=
  ⟨Reader.Consumes.read.moves.sameData, fun _ hfits => .read hfits⟩

protected theorem peek : Safe word peek Reader.peek :=
  ⟨Reader.moves_peek.sameData, fun _ _ => .peek⟩

protected theorem seek (position : Nat) : Safe word (seek position) (Reader.seek position) :=
  ⟨Reader.moves_seek position, fun _ _ => .seek position⟩

protected theorem advance (n : Nat) : Safe word (advance word n) (Reader.advance n) :=
  ⟨(Reader.Consumes.advance n).moves.sameData, fun _ hfits => .advance hfits n⟩

protected theorem align (alignment : Nat) : Safe word (align word alignment) (Reader.align alignment) :=
  ⟨Reader.moves_align alignment, fun _ hfits => .align hfits alignment⟩

end Safe

end BareReader

end MethodIL
