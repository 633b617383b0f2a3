set_option autoImplicit false

/-!
# Branch relaxation

A code stream is laid out as pieces back to back.  Most pieces have one size; a branch has a short
form of two bytes, whose offset is one byte, and a long form of five.  The size of each piece moves
the pieces behind it, and so decides which branches reach their targets in the short form.

Relaxation starts with all branches short.  A pass measures every short branch in the current
layout and makes those long that do not reach their target.  It ends with the first pass that finds
nothing to do.  Growing code only moves targets further away, so a branch that has become long would
never fit again.
-/

namespace MethodIL.Layout

/-- A piece of a code stream; a branch leads to the start of a piece. -/
inductive Piece where
  | fixed (size : Nat)
  | branch (target : Nat)
  deriving DecidableEq, Repr

/-- The number of bytes of a piece in its short or long form. -/
def Piece.size : Piece → Bool → Nat
  | .fixed size, _ => size
  | .branch _, isLong => if isLong then 5 else 2

/-- The starts of pieces of the given sizes from a position on, and the end of the last. -/
def startsFrom (position : Nat) : List Nat → List Nat
  | [] => [position]
  | size :: sizes => position :: startsFrom (position + size) sizes

/-- Which pieces are in their long form. -/
abbrev Forms : Type := List Bool

/-- The sizes of the pieces. -/
def sizes (pieces : List Piece) (forms : Forms) : List Nat :=
  List.zipWith Piece.size pieces forms

/-- The starts of the pieces, and the end of the last. -/
def starts (pieces : List Piece) (forms : Forms) : Array Nat :=
  (startsFrom 0 (sizes pieces forms)).toArray

/-- The starts after sizes have changed from a place on; the starts up to that place stay. -/
def recompute (sizes : List Nat) (place : Nat) (starts : Array Nat) : Array Nat :=
  (starts.toList.take place ++ startsFrom (starts.getD place 0) (sizes.drop place)).toArray

/-- The distance from the end of a piece to the start of another. -/
def distance (starts : Array Nat) (source target : Nat) : Int :=
  (starts.getD target 0 : Int) - starts.getD (source + 1) 0

/-- A distance that a short branch can hold. -/
def reaches (distance : Int) : Bool := -128 ≤ distance && distance ≤ 127

/-- A branch that a pass makes long. -/
structure Widening where
  index : Nat
  offset : Nat
  distance : Int
  deriving DecidableEq, Repr

/-- The branch at a place does not reach its target in the short form that it has. -/
def tooFar? (starts : Array Nat) (index : Nat) (piece : Piece) (isLong : Bool) : Option Widening :=
  match piece with
  | .fixed _ => none
  | .branch target =>
    let far := distance starts index target
    if isLong || reaches far then none
    else some ⟨index, starts.getD index 0, far⟩

/-- The branches that a pass makes long, measured in a layout. -/
def pass (pieces : List Piece) (forms : Forms) (starts : Array Nat) : List Widening :=
  (pieces.zip forms).zipIdx.filterMap fun ((piece, isLong), index) =>
    tooFar? starts index piece isLong

/-- The forms after a pass. -/
def widen (pieces : List Piece) (forms : Forms) (starts : Array Nat) : Forms :=
  (pieces.zip forms).zipIdx.map fun ((piece, isLong), index) =>
    isLong || (tooFar? starts index piece isLong).isSome

/-- The outcome of relaxation. -/
structure Relaxed where
  forms : Forms
  /-- the starts of the pieces, and the end of the last -/
  starts : Array Nat
  passes : Nat
  widenings : List Widening
  deriving DecidableEq, Repr

/-- Run passes until one finds nothing to do, but no more than `limit` beyond that one.  After a
pass the layout is computed anew from the first branch that the pass made long. -/
def relaxFrom (pieces : List Piece) : Nat → Forms → Array Nat → Relaxed
  | 0, forms, starts => ⟨forms, starts, 1, []⟩
  | limit + 1, forms, starts =>
    match pass pieces forms starts with
    | [] => ⟨forms, starts, 1, []⟩
    | first :: others =>
      let wider := widen pieces forms starts
      let rest := relaxFrom pieces limit wider (recompute (sizes pieces wider) first.index starts)
      { rest with passes := rest.passes + 1, widenings := first :: others ++ rest.widenings }

/-- Relax the branches among pieces.  Every pass but the last makes a branch long, so there are
fewer of these passes than pieces. -/
def relax (pieces : List Piece) : Relaxed :=
  let short : Forms := pieces.map fun _ => false
  relaxFrom pieces pieces.length short (starts pieces short)

end MethodIL.Layout
