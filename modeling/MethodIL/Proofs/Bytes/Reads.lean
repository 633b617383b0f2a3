import Mathlib
import MethodIL.Bytes.Reader
set_option autoImplicit false

/-!
# What a reader makes of given bytes

A reader that stands in front of some bytes reads a value from them if it answers the value and then
stands behind them, whatever follows.  What was read before matters as little, except where a reader
looks at its position: the bytes on both sides are therefore part of the statement, and readers in
sequence hand them on.
-/

namespace MethodIL

namespace Cursor

/-- The position between bytes that have been read and bytes that have not. -/
def between (before after : List UInt8) : Cursor where
  data := before ++ after
  position := before.length
  rest := after
  rest_eq := List.drop_left.symm
  position_le := by
    rw [List.length_append]
    exact Nat.le_add_right ..

theorem start_eq (data : List UInt8) : start data = between [] data := rfl

@[simp] theorem position_between (before after : List UInt8) :
    (between before after).position = before.length := rfl

@[simp] theorem data_between (before after : List UInt8) :
    (between before after).data = before ++ after := rfl

@[simp] theorem remaining_between (before after : List UInt8) :
    (between before after).remaining = after.length := rfl

/-- A cursor is told by its bytes and its position. -/
theorem eq_between {c : Cursor} {before after : List UInt8} (hdata : c.data = before ++ after)
    (hposition : c.position = before.length) : c = between before after := by
  obtain ⟨data, position, rest, hrest, hle⟩ := c
  subst hdata hposition
  have hafter : rest = after := by rw [hrest, List.drop_left]
  subst hafter
  rfl

theorem take?_between (before bytes after : List UInt8) :
    (between before (bytes ++ after)).take? bytes.length =
      some (bytes, between (before ++ bytes) after) := by
  have hsplit : splitExactly? bytes.length (bytes ++ after) = some (bytes, after) :=
    splitExactly?_eq_some_iff.mpr ⟨rfl, rfl⟩
  unfold take?
  split
  case h_1 hnone => exact absurd (hnone.symm.trans hsplit) (by simp)
  case h_2 front rest hsome =>
    obtain ⟨rfl, -⟩ := Prod.mk.inj (Option.some.inj (hsome.symm.trans hsplit))
    refine congrArg some (Prod.ext rfl (eq_between ?_ ?_))
    · exact (List.append_assoc ..).symm
    · exact (List.length_append ..).symm

end Cursor

theorem FixedWidth.toBytes_byte (b : UInt8) : toBytes b = [b] :=
  congrArg (fun byte => [byte]) UInt8.ofNat_toNat

namespace Reader

variable {α β : Type}

/-- Between the bytes before and after them, a reader reads a value from some bytes. -/
def Reads (reader : Reader α) (before bytes after : List UInt8) (a : α) : Prop :=
  reader (.between before (bytes ++ after)) = (.ok a, .between (before ++ bytes) after)

/-- A reader that reads a value from bytes answers it when run on them, whatever follows. -/
theorem runOn_of_reads {reader : Reader α} {bytes after : List UInt8} {a : α}
    (h : reader.Reads [] bytes after a) : reader.runOn (bytes ++ after) = .ok a := by
  rw [runOn, Cursor.start_eq, h]

namespace Reads

variable {before xs ys after : List UInt8} {a : α} {b : β}

protected theorem pure (a : α) : Reads (pure a) before [] after a := by
  rw [Reads, List.append_nil]
  rfl

/-- Readers in sequence read bytes in sequence. -/
protected theorem bind {reader : Reader α} {next : α → Reader β}
    (h : reader.Reads before xs (ys ++ after) a) (h' : (next a).Reads (before ++ xs) ys after b) :
    (reader >>= next).Reads before (xs ++ ys) after b := by
  have hfirst : (reader >>= next) (.between before (xs ++ (ys ++ after))) =
      next a (.between (before ++ xs) (ys ++ after)) := by
    simp only [bind, ExceptT.bind, ExceptT.mk, StateT.bind]
    rw [h]
    rfl
  rw [Reads, List.append_assoc, hfirst, ← List.append_assoc, h']

/-- What comes last may read nothing. -/
theorem bind_nil {reader : Reader α} {next : α → Reader β} (h : reader.Reads before xs after a)
    (h' : (next a).Reads (before ++ xs) [] after b) : (reader >>= next).Reads before xs after b := by
  rw [← List.append_nil xs]
  exact Reads.bind h h'

/-- What comes first may read nothing. -/
theorem nil_bind {reader : Reader α} {next : α → Reader β}
    (h : reader.Reads before [] (xs ++ after) a) (h' : (next a).Reads before xs after b) : (reader >>= next).Reads before xs after b := by
  rw [← List.append_nil before] at h'
  exact Reads.bind h h'

/-- A reader may look at the cursor. -/
protected theorem get {next : Cursor → Reader β}
    (h : (next (.between before (xs ++ after))).Reads before xs after b) :
    (get >>= next).Reads before xs after b := h

/-- A check that passes reads nothing. -/
protected theorem guard {c : Prop} [Decidable c] {fault : Fault} {next : PUnit → Reader β} (hc : ¬ c)
    (h : (next ⟨⟩).Reads before xs after b) :
    Reads (if c then (throw fault : Reader PUnit) >>= next else next ⟨⟩) before xs after b := by
  rwa [if_neg hc]

/-- What has been computed already reads nothing. -/
protected theorem lift {outcome : Except Fault α} (h : outcome = .ok a) :
    Reads (liftM outcome) before [] after a := by
  rw [h]
  exact Reads.pure a

/-- A move that the cursor carries out reads what lies between its ends. -/
theorem of_move {step : Cursor → Option (α × Cursor)}
    (h : step (.between before (xs ++ after)) = some (a, .between (before ++ xs) after)) :
    (move step).Reads before xs after a := by
  rw [Reads, move, h]

protected theorem take (bytes : List UInt8) : (take bytes.length).Reads before bytes after bytes :=
  of_move (Cursor.take?_between before bytes after)

protected theorem read [FixedWidth α] (a : α) :
    (read α).Reads before (FixedWidth.toBytes a) after a := by
  have htake := Cursor.take?_between before (FixedWidth.toBytes a) after
  rw [FixedWidth.length_toBytes] at htake
  refine of_move ?_
  rw [htake, Option.map_some]
  dsimp only
  rw [FixedWidth.ofBytes_toBytes]

/-- A number is read and handed on. -/
theorem read_map [FixedWidth α] (a : α) (f : α → β) :
    (read α >>= fun a => pure (f a)).Reads before (FixedWidth.toBytes a) after (f a) :=
  (Reads.read a).bind_nil (Reads.pure (f a))

protected theorem byte (b : UInt8) : (read UInt8).Reads before [b] after b := by
  have hread : (read UInt8).Reads before (FixedWidth.toBytes b) after b := Reads.read b
  rwa [FixedWidth.toBytes_byte] at hread

/-- The next byte is seen without being read. -/
protected theorem peek (byte : UInt8) : peek.Reads before [] (byte :: after) byte := by
  refine of_move ?_
  rw [List.append_nil]
  rfl

protected theorem advance (bytes : List UInt8) : (advance bytes.length).Reads before bytes after () := by
  refine of_move ?_
  rw [Cursor.advance?, Cursor.take?_between, Option.map_some, Option.map_some]

protected theorem seek {position : Nat} (h : position = before.length + xs.length) :
    (seek position).Reads before xs after () := by
  refine of_move ?_
  have hlength : (before ++ xs).length = position := by rw [List.length_append, h]
  have hinside : position ≤ (Cursor.between before (xs ++ after)).data.length := by
    rw [Cursor.data_between, ← List.append_assoc, List.length_append, hlength]
    exact Nat.le_add_right ..
  rw [Cursor.seek?, dif_pos hinside, Option.map_some]
  refine congrArg some (Prod.ext rfl (Cursor.eq_between ?_ hlength.symm))
  exact (List.append_assoc ..).symm

protected theorem align {alignment : Nat} (hpos : 0 < alignment)
    (h : xs.length = (alignment - before.length % alignment) % alignment) :
    (align alignment).Reads before xs after () := by
  refine of_move ?_
  rw [Cursor.align?, if_neg (by simpa using Nat.ne_of_gt hpos)]
  show Option.map _ ((Cursor.between before (xs ++ after)).advance?
    ((alignment - before.length % alignment) % alignment)) = _
  rw [← h, Cursor.advance?, Cursor.take?_between, Option.map_some, Option.map_some]

end Reads

end Reader

end MethodIL
