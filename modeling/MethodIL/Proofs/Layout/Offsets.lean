import Mathlib
import MethodIL.Layout.Relaxation
set_option autoImplicit false

/-!
# Offsets as prefix sums

The start of a piece is the sum of the sizes in front of it.  The starts that relaxation keeps are
these sums, also after they have been computed anew from one piece on only, and the distance
between two places never shrinks when sizes grow.
-/

namespace MethodIL.Layout

/-! ## Prefix sums -/

/-- The sum of the sizes in front of a place. -/
def offset (sizes : List Nat) (place : Nat) : Nat := (sizes.take place).sum

@[simp] theorem offset_zero (sizes : List Nat) : offset sizes 0 = 0 := by
  simp [offset]

theorem offset_succ (sizes : List Nat) (place : Nat) :
    offset sizes (place + 1) = offset sizes place + sizes.getD place 0 := by
  by_cases hplace : place < sizes.length
  · rw [offset, offset, List.take_add_one, List.getElem?_eq_getElem hplace,
      List.getD_eq_getElem _ _ hplace, Option.toList_some, List.sum_append, List.sum_singleton]
  · have hlen : sizes.length ≤ place := Nat.le_of_not_lt hplace
    rw [offset, offset, List.take_of_length_le hlen, List.take_of_length_le (by omega),
      List.getD_eq_default _ _ hlen, Nat.add_zero]

/-- Offsets never decrease along the stream. -/
theorem offset_mono (sizes : List Nat) {a b : Nat} (h : a ≤ b) : offset sizes a ≤ offset sizes b := by
  induction b, h using Nat.le_induction with
  | base => exact Nat.le_refl _
  | succ b _ ih =>
    rw [offset_succ]
    omega

/-- Without empty pieces, different places have different offsets. -/
theorem offset_injective {sizes : List Nat} (hpos : ∀ size ∈ sizes, 0 < size) {a b : Nat}
    (ha : a ≤ sizes.length) (hb : b ≤ sizes.length) (h : offset sizes a = offset sizes b) :
    a = b := by
  have hstep : ∀ {a b : Nat}, b ≤ sizes.length → a < b → offset sizes a < offset sizes b := by
    intro a b hb hab
    have hlt : a < sizes.length := by omega
    have hsize := hpos _ (List.getElem_mem hlt)
    have hmono := offset_mono sizes (show a + 1 ≤ b from hab)
    rw [offset_succ, List.getD_eq_getElem _ _ hlt] at hmono
    omega
  rcases Nat.lt_trichotomy a b with hab | hab | hab
  · exact absurd h (Nat.ne_of_lt (hstep hb hab))
  · exact hab
  · exact absurd h.symm (Nat.ne_of_lt (hstep ha hab))

@[simp] theorem length_startsFrom (position : Nat) (sizes : List Nat) :
    (startsFrom position sizes).length = sizes.length + 1 := by
  induction sizes generalizing position with
  | nil => rfl
  | cons size sizes ih => simp [startsFrom, ih]

/-- The starts of pieces are a position plus the prefix sums. -/
theorem getElem?_startsFrom (position : Nat) (sizes : List Nat) {place : Nat}
    (h : place ≤ sizes.length) :
    (startsFrom position sizes)[place]? = some (position + offset sizes place) := by
  induction sizes generalizing position place with
  | nil =>
    obtain rfl : place = 0 := by simpa using h
    rfl
  | cons size sizes ih =>
    cases place with
    | zero => simp [startsFrom]
    | succ place =>
      have hle : place ≤ sizes.length := by simpa using h
      rw [startsFrom, List.getElem?_cons_succ, ih (position + size) hle]
      simp only [offset, List.take_succ_cons, List.sum_cons]
      rw [Nat.add_assoc]

theorem getD_starts (pieces : List Piece) (forms : Forms) {place : Nat}
    (h : place ≤ (sizes pieces forms).length) :
    (starts pieces forms).getD place 0 = offset (sizes pieces forms) place := by
  rw [starts, Array.getD_eq_getD_getElem?, List.getElem?_toArray, getElem?_startsFrom _ _ h]
  simp

/-- No start lies behind the end. -/
theorem getD_starts_le (pieces : List Piece) (forms : Forms) (place : Nat) :
    (starts pieces forms).getD place 0 ≤
      offset (sizes pieces forms) (sizes pieces forms).length := by
  by_cases h : place ≤ (sizes pieces forms).length
  · rw [getD_starts pieces forms h]
    exact offset_mono _ h
  · have hout : (starts pieces forms)[place]? = none := by
      rw [Array.getElem?_eq_none_iff, starts, List.size_toArray, length_startsFrom]
      omega
    rw [Array.getD_eq_getD_getElem?, hout]
    exact Nat.zero_le _

/-- Where no size is more than five halves of another, no start is. -/
theorem offset_le_of_sizes_le {small large : List Nat}
    (h : ∀ k, 2 * small.getD k 0 ≤ 5 * large.getD k 0) (place : Nat) :
    2 * offset small place ≤ 5 * offset large place := by
  induction place with
  | zero => simp
  | succ place ih =>
    have hsize := h place
    rw [offset_succ, offset_succ]
    omega

/-! ## Computing offsets anew -/

/-- Starts that are kept up to a place and computed anew behind it are the prefix sums of the new
sizes, if the sizes in front of the place have not changed. -/
theorem take_append_startsFrom (position : Nat) {old new : List Nat} {place : Nat}
    (hplace : place ≤ old.length) (hsame : old.take place = new.take place) :
    (startsFrom position old).take place ++
        startsFrom ((startsFrom position old).getD place 0) (new.drop place) =
      startsFrom position new := by
  induction place generalizing position old new with
  | zero => cases old <;> simp [startsFrom]
  | succ place ih =>
    cases old with
    | nil => simp at hplace
    | cons size old =>
      cases new with
      | nil => simp at hsame
      | cons size' new =>
        simp only [List.take_succ_cons, List.cons.injEq] at hsame
        obtain ⟨rfl, hrest⟩ := hsame
        have hle : place ≤ old.length := by simpa using hplace
        simp only [startsFrom, List.take_succ_cons, List.getD_cons_succ, List.drop_succ_cons,
          List.cons_append]
        rw [ih (position + size) hle hrest]

theorem recompute_eq {old new : List Nat} {place : Nat} (hplace : place ≤ old.length)
    (hsame : old.take place = new.take place) :
    recompute new place (startsFrom 0 old).toArray = (startsFrom 0 new).toArray := by
  have hkept := take_append_startsFrom 0 hplace hsame
  rw [recompute, Array.getD_eq_getD_getElem?, List.getElem?_toArray, ← List.getD_eq_getElem?_getD]
  rw [hkept]

/-! ## Growing sizes -/

/-- The distance between two places grows with the sizes between them. -/
theorem gap_mono {small large : List Nat} (h : ∀ k, small.getD k 0 ≤ large.getD k 0) {a b : Nat}
    (hab : a ≤ b) :
    offset small b + offset large a ≤ offset large b + offset small a := by
  induction b, hab using Nat.le_induction with
  | base => omega
  | succ b _ ih =>
    have hstep := h b
    rw [offset_succ, offset_succ]
    omega

/-- The signed distance from the end of a piece to a place. -/
def span (sizes : List Nat) (source target : Nat) : Int :=
  (offset sizes target : Int) - offset sizes (source + 1)

theorem distance_starts (pieces : List Piece) (forms : Forms) {source target : Nat}
    (hsource : source < (sizes pieces forms).length)
    (htarget : target ≤ (sizes pieces forms).length) :
    distance (starts pieces forms) source target = span (sizes pieces forms) source target := by
  rw [distance, getD_starts _ _ htarget, getD_starts _ _ hsource, span]

theorem reaches_iff (distance : Int) : reaches distance = true ↔ -128 ≤ distance ∧ distance ≤ 127 := by
  simp [reaches]

/-- What a short offset holds in a layout, it holds in every layout with smaller pieces. -/
theorem reaches_span_mono {small large : List Nat} (h : ∀ k, small.getD k 0 ≤ large.getD k 0)
    {source target : Nat} (hreach : reaches (span large source target) = true) :
    reaches (span small source target) = true := by
  rw [reaches_iff, span] at hreach ⊢
  rcases Nat.lt_or_ge source target with hahead | hbehind
  · have hgap := gap_mono h (show source + 1 ≤ target from hahead)
    have horder := offset_mono small (show source + 1 ≤ target from hahead)
    omega
  · have hgap := gap_mono h (show target ≤ source + 1 by omega)
    have horder := offset_mono small (show target ≤ source + 1 by omega)
    omega

end MethodIL.Layout
