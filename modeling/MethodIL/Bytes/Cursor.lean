set_option autoImplicit false

/-!
# Reading positions

A cursor is a position in a sequence of bytes.  Every move that would leave the bytes is refused
and answers `none`, so a cursor never points past their end.
-/

namespace MethodIL

/-- The first `n` items and the others, unless there are fewer than `n`. -/
def splitExactly? {α : Type} : Nat → List α → Option (List α × List α)
  | 0, items => some ([], items)
  | _ + 1, [] => none
  | n + 1, a :: items => (splitExactly? n items).map fun (front, rest) => (a :: front, rest)

theorem splitExactly?_eq_some_iff {α : Type} {n : Nat} {items front rest : List α} :
    splitExactly? n items = some (front, rest) ↔ items = front ++ rest ∧ front.length = n := by
  induction n generalizing items front with
  | zero =>
    cases front with
    | nil => simp [splitExactly?]
    | cons a front => simp [splitExactly?]
  | succ n ih =>
    cases items with
    | nil => cases front <;> simp [splitExactly?]
    | cons a items =>
      cases front with
      | nil => simp [splitExactly?]
      | cons b front =>
        simp only [splitExactly?, Option.map_eq_some_iff, Prod.exists, Prod.mk.injEq,
          List.cons.injEq, List.cons_append, List.length_cons, Nat.add_right_cancel_iff]
        constructor
        · rintro ⟨front', rest', h, ⟨rfl, rfl⟩, rfl⟩
          exact ⟨⟨rfl, (ih.mp h).1⟩, (ih.mp h).2⟩
        · rintro ⟨⟨rfl, rfl⟩, hn⟩
          exact ⟨front, rest, ih.mpr ⟨rfl, hn⟩, ⟨rfl, rfl⟩, rfl⟩

/-- A position in a sequence of bytes, with the bytes that follow it. -/
structure Cursor where
  data : List UInt8
  position : Nat
  rest : List UInt8
  rest_eq : rest = data.drop position
  position_le : position ≤ data.length

namespace Cursor

/-- The position before the first byte. -/
def start (data : List UInt8) : Cursor :=
  ⟨data, 0, data, rfl, Nat.zero_le _⟩

/-- The number of bytes behind the cursor. -/
def remaining (c : Cursor) : Nat := c.rest.length

/-- There are bytes behind the cursor. -/
def hasMore (c : Cursor) : Bool := !c.rest.isEmpty

/-- The byte behind the cursor. -/
def peek? (c : Cursor) : Option UInt8 := c.rest.head?

theorem remaining_eq (c : Cursor) : c.remaining = c.data.length - c.position := by
  simp [remaining, c.rest_eq]

/-- Move to a position; the end itself is allowed. -/
def seek? (c : Cursor) (position : Nat) : Option Cursor :=
  if h : position ≤ c.data.length then
    some ⟨c.data, position, c.data.drop position, rfl, h⟩
  else none

/-- The next `n` bytes and the cursor behind them. -/
def take? (c : Cursor) (n : Nat) : Option (List UInt8 × Cursor) :=
  match h : splitExactly? n c.rest with
  | none => none
  | some (front, rest) =>
    some (front, ⟨c.data, c.position + n, rest, by
      obtain ⟨hrest, hn⟩ := splitExactly?_eq_some_iff.mp h
      rw [← List.drop_drop, ← c.rest_eq, hrest, ← hn, List.drop_left], by
      obtain ⟨hrest, hn⟩ := splitExactly?_eq_some_iff.mp h
      have hlength := congrArg List.length hrest
      rw [c.rest_eq] at hlength
      simp only [List.length_drop, List.length_append] at hlength
      have := c.position_le
      omega⟩)

/-- Move on by `n` bytes. -/
def advance? (c : Cursor) (n : Nat) : Option Cursor :=
  (c.take? n).map Prod.snd

/-- Move on to the next multiple of `alignment`; any position is aligned to zero. -/
def align? (c : Cursor) (alignment : Nat) : Option Cursor :=
  if alignment == 0 then some c
  else c.advance? ((alignment - c.position % alignment) % alignment)

end Cursor

end MethodIL
