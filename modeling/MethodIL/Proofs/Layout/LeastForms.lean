import Mathlib
import MethodIL.Proofs.Layout.Offsets
set_option autoImplicit false

/-!
# The least valid forms

A choice of forms is valid if every short branch reaches its target in the layout that the choice
induces.  Relaxation ends with a valid choice, and every branch that it makes long is long in every
valid choice.  The invariant of the passes is that the current choice lies below every valid one;
it holds because a branch that is too far in a layout is too far in every wider layout.
-/

namespace MethodIL.Layout

/-! ## Choices of forms -/

/-- The piece is a branch. -/
def Piece.isBranch : Piece → Bool
  | .fixed _ => false
  | .branch _ => true

/-- Every branch leads to a piece. -/
def InRange (pieces : List Piece) : Prop :=
  ∀ i target : Nat, pieces[i]? = some (.branch target) → target < pieces.length

/-- Every short branch reaches its target. -/
def Valid (pieces : List Piece) (forms : Forms) : Prop :=
  ∀ i target : Nat, pieces[i]? = some (.branch target) → forms[i]? = some false →
    reaches (span (sizes pieces forms) i target) = true

/-- Every branch that is long in the one choice is long in the other. -/
def Below (pieces : List Piece) (small large : Forms) : Prop :=
  ∀ i target : Nat, pieces[i]? = some (.branch target) → small[i]? = some true → large[i]? = some true

/-- The number of short branches. -/
def shortCount (pieces : List Piece) (forms : Forms) : Nat :=
  (pieces.zip forms).countP fun (piece, isLong) => piece.isBranch && !isLong

theorem length_sizes {pieces : List Piece} {forms : Forms} (hlen : forms.length = pieces.length) :
    (sizes pieces forms).length = pieces.length := by
  simp [sizes, hlen]

theorem getElem?_sizes {pieces : List Piece} {forms : Forms} {i : Nat} {piece : Piece}
    {isLong : Bool} (hpiece : pieces[i]? = some piece) (hform : forms[i]? = some isLong) :
    (sizes pieces forms)[i]? = some (piece.size isLong) := by
  simp [sizes, List.getElem?_zipWith, hpiece, hform]

theorem Below.refl (pieces : List Piece) (forms : Forms) : Below pieces forms forms :=
  fun _ _ _ hlong => hlong

theorem Below.trans {pieces : List Piece} {a b c : Forms} (hab : Below pieces a b)
    (hbc : Below pieces b c) : Below pieces a c :=
  fun i target hpiece hlong => hbc i target hpiece (hab i target hpiece hlong)

/-- A choice with more long branches has larger pieces. -/
theorem Below.sizes_le {pieces : List Piece} {small large : Forms} (h : Below pieces small large)
    (hsmall : small.length = pieces.length) (hlarge : large.length = pieces.length) (k : Nat) :
    (sizes pieces small).getD k 0 ≤ (sizes pieces large).getD k 0 := by
  by_cases hk : k < pieces.length
  · have hpiece : pieces[k]? = some pieces[k] := List.getElem?_eq_getElem hk
    have hs : small[k]? = some small[k] := List.getElem?_eq_getElem (by omega)
    have hl : large[k]? = some large[k] := List.getElem?_eq_getElem (by omega)
    rw [List.getD_eq_getElem?_getD, List.getD_eq_getElem?_getD, getElem?_sizes hpiece hs,
      getElem?_sizes hpiece hl]
    cases hcase : pieces[k] with
    | fixed size => simp [Piece.size]
    | branch target =>
      cases hform : small[k] with
      | false => cases large[k] <;> simp [Piece.size]
      | true =>
        have hlong := h k target (by rw [hpiece, hcase]) (by rw [hs, hform])
        rw [hl] at hlong
        simp [Option.some.inj hlong]
  · have hout : (sizes pieces small).length ≤ k := by rw [length_sizes hsmall]; omega
    rw [List.getD_eq_default _ _ hout]
    exact Nat.zero_le _

/-! ## One pass -/

section Pass

variable {pieces : List Piece} {forms : Forms}

theorem tooFar?_eq_some_iff {starts : Array Nat} {i target : Nat} {isLong : Bool} {w : Widening} :
    tooFar? starts i (.branch target) isLong = some w ↔
      isLong = false ∧ reaches (distance starts i target) = false ∧
        w = ⟨i, starts.getD i 0, distance starts i target⟩ := by
  cases isLong <;> cases hreach : reaches (distance starts i target) <;>
    simp [tooFar?, hreach, eq_comm]

theorem getElem?_widen (starts : Array Nat) {i : Nat} {piece : Piece} {isLong : Bool}
    (hpiece : pieces[i]? = some piece) (hform : forms[i]? = some isLong) :
    (widen pieces forms starts)[i]? = some (isLong || (tooFar? starts i piece isLong).isSome) := by
  have hzip : (pieces.zip forms)[i]? = some (piece, isLong) :=
    List.getElem?_zip_eq_some.mpr ⟨hpiece, hform⟩
  rw [widen, List.getElem?_map, List.getElem?_zipIdx, hzip]
  simp

theorem length_widen (starts : Array Nat) (hlen : forms.length = pieces.length) :
    (widen pieces forms starts).length = pieces.length := by
  simp [widen, hlen]

theorem mem_pass_iff {starts : Array Nat} {w : Widening} :
    w ∈ pass pieces forms starts ↔
      ∃ i piece isLong, pieces[i]? = some piece ∧ forms[i]? = some isLong ∧
        tooFar? starts i piece isLong = some w := by
  simp only [pass, List.mem_filterMap, List.mem_zipIdx_iff_getElem?, Prod.exists,
    List.getElem?_zip_eq_some]
  constructor
  · rintro ⟨piece, isLong, i, ⟨hpiece, hform⟩, hfar⟩
    exact ⟨i, piece, isLong, hpiece, hform, hfar⟩
  · rintro ⟨i, piece, isLong, hpiece, hform, hfar⟩
    exact ⟨piece, isLong, i, ⟨hpiece, hform⟩, hfar⟩

theorem index_of_tooFar? {starts : Array Nat} {i : Nat} {piece : Piece} {isLong : Bool}
    {w : Widening} (h : tooFar? starts i piece isLong = some w) : w.index = i := by
  cases piece with
  | fixed size => simp [tooFar?] at h
  | branch target => rw [(tooFar?_eq_some_iff.mp h).2.2]

/-- A pass lists the branches that it makes long in the order of their places. -/
theorem pass_sorted (pieces : List Piece) (forms : Forms) (starts : Array Nat) :
    (pass pieces forms starts).Pairwise fun v w => v.index < w.index := by
  rw [pass, List.pairwise_filterMap]
  have hplaces : (pieces.zip forms).zipIdx.Pairwise fun a b => a.2 < b.2 := by
    rw [← List.pairwise_map (f := Prod.snd), List.zipIdx_map_snd]
    exact List.pairwise_lt_range'
  refine hplaces.imp fun {a b} hlt v hv w hw => ?_
  rw [index_of_tooFar? hv, index_of_tooFar? hw]
  exact hlt

theorem nodup_pass (pieces : List Piece) (forms : Forms) (starts : Array Nat) :
    ((pass pieces forms starts).map Widening.index).Nodup := by
  have hsorted := pass_sorted pieces forms starts
  rw [← List.pairwise_map (f := Widening.index)] at hsorted
  exact hsorted.imp Nat.ne_of_lt

/-- What a pass lists are branches that are short before the pass and long after it. -/
theorem turned_of_mem_pass {starts : Array Nat} {w : Widening} (hw : w ∈ pass pieces forms starts) :
    (∃ target, pieces[w.index]? = some (.branch target)) ∧ forms[w.index]? = some false ∧
      (widen pieces forms starts)[w.index]? = some true := by
  obtain ⟨i, piece, isLong, hpiece, hform, hfar⟩ := mem_pass_iff.mp hw
  rw [index_of_tooFar? hfar]
  cases piece with
  | fixed size => simp [tooFar?] at hfar
  | branch target =>
    refine ⟨⟨target, hpiece⟩, by rw [hform, (tooFar?_eq_some_iff.mp hfar).1], ?_⟩
    rw [getElem?_widen starts hpiece hform, hfar]
    simp

/-- A pass makes nothing short. -/
theorem short_of_widen_short {starts : Array Nat} {i : Nat} (hlen : forms.length = pieces.length)
    (h : (widen pieces forms starts)[i]? = some false) : forms[i]? = some false := by
  have hi := (List.getElem?_eq_some_iff.mp h).1
  rw [length_widen starts hlen] at hi
  have hform : forms[i]? = some forms[i] := List.getElem?_eq_getElem (by omega)
  rw [getElem?_widen starts (List.getElem?_eq_getElem hi) hform, Option.some.injEq,
    Bool.or_eq_false_iff] at h
  rw [hform, h.1]

/-- A pass over pieces from a place on makes long what it does not leave short. -/
theorem length_filterMap_add_shortCount (starts : Array Nat) (pieces : List Piece) (forms : Forms)
    (k : Nat) :
    (((pieces.zip forms).zipIdx k).filterMap fun ((piece, isLong), index) =>
        tooFar? starts index piece isLong).length +
      shortCount pieces (((pieces.zip forms).zipIdx k).map fun ((piece, isLong), index) =>
        isLong || (tooFar? starts index piece isLong).isSome) = shortCount pieces forms := by
  induction pieces generalizing forms k with
  | nil => simp [shortCount]
  | cons piece pieces ih =>
    cases forms with
    | nil => simp [shortCount]
    | cons isLong forms =>
      have htail := ih forms (k + 1)
      cases piece with
      | fixed size =>
        simpa [shortCount, tooFar?, Piece.isBranch] using htail
      | branch target =>
        cases isLong with
        | true => simpa [shortCount, tooFar?, Piece.isBranch] using htail
        | false =>
          cases hreach : reaches (distance starts k target) <;>
            simp [shortCount, tooFar?, Piece.isBranch, hreach] at htail ⊢ <;> omega

/-- A pass turns exactly the branches that it lists from short to long. -/
theorem length_pass_add_shortCount (pieces : List Piece) (forms : Forms) (starts : Array Nat) :
    (pass pieces forms starts).length + shortCount pieces (widen pieces forms starts) =
      shortCount pieces forms :=
  length_filterMap_add_shortCount starts pieces forms 0

/-- The pieces in front of the first branch that a pass makes long keep their sizes. -/
theorem sizes_take_first {starts : Array Nat} {first : Widening} {others : List Widening}
    (hlen : forms.length = pieces.length) (hpass : pass pieces forms starts = first :: others) :
    (sizes pieces forms).take first.index =
      (sizes pieces (widen pieces forms starts)).take first.index := by
  have hsorted := pass_sorted pieces forms starts
  rw [hpass, List.pairwise_cons] at hsorted
  apply List.ext_getElem?
  intro i
  simp only [List.getElem?_take]
  split
  case isTrue hi =>
    by_cases hin : i < pieces.length
    · have hpiece : pieces[i]? = some pieces[i] := List.getElem?_eq_getElem hin
      have hform : forms[i]? = some forms[i] := List.getElem?_eq_getElem (by omega)
      have hnear : tooFar? starts i pieces[i] forms[i] = none := by
        rw [Option.eq_none_iff_forall_ne_some]
        intro w hw
        have hmem : w ∈ pass pieces forms starts :=
          mem_pass_iff.mpr ⟨i, _, _, hpiece, hform, hw⟩
        have hindex := index_of_tooFar? hw
        rw [hpass] at hmem
        rcases List.mem_cons.mp hmem with rfl | hmem
        · omega
        · have := hsorted.1 w hmem
          omega
      rw [getElem?_sizes hpiece hform, getElem?_sizes hpiece (getElem?_widen starts hpiece hform),
        hnear]
      simp
    · rw [List.getElem?_eq_none (by rw [length_sizes hlen]; omega),
        List.getElem?_eq_none (by rw [length_sizes (length_widen starts hlen)]; omega)]
  case isFalse => rfl

theorem below_widen (starts : Array Nat) :
    Below pieces forms (widen pieces forms starts) := by
  intro i target hpiece hlong
  rw [getElem?_widen starts hpiece hlong]
  rfl

/-- What is long after a pass was so before, or it is a branch that is too far from its target. -/
theorem far_of_widen_long {i target : Nat} (hrange : InRange pieces)
    (hlen : forms.length = pieces.length) (hpiece : pieces[i]? = some (.branch target))
    (h : (widen pieces forms (starts pieces forms))[i]? = some true) :
    forms[i]? = some true ∨ reaches (span (sizes pieces forms) i target) = false := by
  have hi : i < pieces.length := (List.getElem?_eq_some_iff.mp hpiece).1
  have hform : forms[i]? = some forms[i] := List.getElem?_eq_getElem (by omega)
  rw [getElem?_widen _ hpiece hform, Option.some.injEq, Bool.or_eq_true] at h
  rcases h with hold | hnew
  · exact Or.inl (by rw [hform, hold])
  · obtain ⟨w, hw⟩ := Option.isSome_iff_exists.mp hnew
    obtain ⟨-, hfar, -⟩ := tooFar?_eq_some_iff.mp hw
    rw [distance_starts _ _ (by rw [length_sizes hlen]; exact hi)
      (by rw [length_sizes hlen]; exact Nat.le_of_lt (hrange i target hpiece))] at hfar
    exact Or.inr hfar

/-- A pass stays below every valid choice above the forms that it starts from. -/
theorem widen_below_valid (hrange : InRange pieces) (hlen : forms.length = pieces.length)
    {other : Forms} (hother : other.length = pieces.length) (hvalid : Valid pieces other)
    (hbelow : Below pieces forms other) :
    Below pieces (widen pieces forms (starts pieces forms)) other := by
  intro i target hpiece hlong
  have hi : i < pieces.length := (List.getElem?_eq_some_iff.mp hpiece).1
  rcases far_of_widen_long hrange hlen hpiece hlong with hold | hfar
  · exact hbelow i target hpiece hold
  · have ho : other[i]? = some other[i] := List.getElem?_eq_getElem (by omega)
    cases hcase : other[i] with
    | true => rw [ho, hcase]
    | false =>
      -- a short form in `other` would reach, and so would the one in the smaller layout
      have hreach := hvalid i target hpiece (by rw [ho, hcase])
      rw [reaches_span_mono (hbelow.sizes_le hlen hother) hreach] at hfar
      exact absurd hfar (by simp)

/-- A pass that makes nothing long has found the forms valid. -/
theorem valid_of_pass_eq_nil (hrange : InRange pieces) (hlen : forms.length = pieces.length)
    (hpass : pass pieces forms (starts pieces forms) = []) : Valid pieces forms := by
  intro i target hpiece hshort
  have hi : i < pieces.length := (List.getElem?_eq_some_iff.mp hpiece).1
  rw [← distance_starts _ _ (by rw [length_sizes hlen]; exact hi)
    (by rw [length_sizes hlen]; exact Nat.le_of_lt (hrange i target hpiece))]
  cases hreach : reaches (distance (starts pieces forms) i target) with
  | true => rfl
  | false =>
    have hmem := mem_pass_iff.mpr
      ⟨i, _, _, hpiece, hshort, tooFar?_eq_some_iff.mpr ⟨rfl, hreach, rfl⟩⟩
    rw [hpass] at hmem
    exact absurd hmem List.not_mem_nil

end Pass

/-! ## All passes -/

section Relaxation

variable {pieces : List Piece}

theorem shortCount_le_length (forms : Forms) : shortCount pieces forms ≤ pieces.length := by
  calc shortCount pieces forms ≤ (pieces.zip forms).length := List.countP_le_length
    _ ≤ pieces.length := by rw [List.length_zip]; exact Nat.min_le_left _ _

/-- The form in which relaxation starts: every branch is short. -/
def shortest (pieces : List Piece) : Forms := pieces.map fun _ => false

@[simp] theorem length_shortest : (shortest pieces).length = pieces.length := by
  simp [shortest]

theorem getElem?_shortest_ne (i : Nat) : (shortest pieces)[i]? ≠ some true := by
  rw [shortest, List.getElem?_map]
  cases pieces[i]? <;> simp

theorem shortest_below (other : Forms) : Below pieces (shortest pieces) other :=
  fun i _ _ hlong => absurd hlong (getElem?_shortest_ne i)

theorem shortCount_shortest : shortCount pieces (shortest pieces) = pieces.countP Piece.isBranch := by
  induction pieces with
  | nil => rfl
  | cons piece pieces ih =>
    have htail : (pieces.zip (shortest pieces)).countP (fun (piece, isLong) =>
        piece.isBranch && !isLong) = pieces.countP Piece.isBranch := ih
    simp only [shortCount, shortest, List.map_cons, List.zip_cons_cons, List.countP_cons]
    simp only [shortest] at htail
    rw [htail]
    simp

section Induction

variable {motive : Forms → Relaxed → Prop}
  (done : ∀ forms : Forms, forms.length = pieces.length →
    pass pieces forms (starts pieces forms) = [] →
    motive forms ⟨forms, starts pieces forms, 1, []⟩)
  (step : ∀ (forms : Forms) (first : Widening) (others : List Widening) (rest : Relaxed),
    forms.length = pieces.length →
    pass pieces forms (starts pieces forms) = first :: others →
    motive (widen pieces forms (starts pieces forms)) rest →
    motive forms
      { rest with passes := rest.passes + 1, widenings := first :: others ++ rest.widenings })

include done step

/-- What holds of forms that a pass leaves alone, and is handed down from the forms after a pass to
those before it, holds of the outcome of relaxation.  The limit allows for all short branches, so it
is never met, and the starts that are kept from pass to pass are those of the forms. -/
theorem relaxFrom_induction (limit : Nat) (forms : Forms) (hlen : forms.length = pieces.length)
    (hlimit : shortCount pieces forms ≤ limit) :
    motive forms (relaxFrom pieces limit forms (starts pieces forms)) := by
  induction limit generalizing forms with
  | zero =>
    have hcount := length_pass_add_shortCount pieces forms (starts pieces forms)
    have hnil : pass pieces forms (starts pieces forms) = [] :=
      List.length_eq_zero_iff.mp (by omega)
    exact done forms hlen hnil
  | succ limit ih =>
    rw [relaxFrom]
    cases hpass : pass pieces forms (starts pieces forms) with
    | nil => exact done forms hlen hpass
    | cons first others =>
      have hcount := length_pass_add_shortCount pieces forms (starts pieces forms)
      rw [hpass, List.length_cons] at hcount
      have hmem : first ∈ pass pieces forms (starts pieces forms) := by simp [hpass]
      obtain ⟨i, piece, isLong, hpiece, -, hfar⟩ := mem_pass_iff.mp hmem
      have hplace : first.index ≤ (sizes pieces forms).length := by
        rw [index_of_tooFar? hfar, length_sizes hlen]
        exact Nat.le_of_lt (List.getElem?_eq_some_iff.mp hpiece).1
      have hstarts := recompute_eq hplace (sizes_take_first hlen hpass)
      simp only [← starts.eq_1] at hstarts
      simp only [hstarts]
      exact step forms first others _ hlen hpass
        (ih _ (length_widen _ hlen) (by omega))

variable (pieces) in
/-- What `relaxFrom_induction` shows, for the whole of relaxation. -/
theorem relax_induction : motive (shortest pieces) (relax pieces) :=
  relaxFrom_induction done step _ _ length_shortest (shortCount_le_length _)

end Induction

theorem length_relax_forms : (relax pieces).forms.length = pieces.length :=
  relax_induction pieces (motive := fun _ relaxed => relaxed.forms.length = pieces.length)
    (fun _ hlen _ => hlen) (fun _ _ _ _ _ _ ih => ih)

/-- The starts that relaxation keeps from pass to pass are the prefix sums of the final sizes. -/
theorem relax_starts : (relax pieces).starts = starts pieces (relax pieces).forms :=
  relax_induction pieces (motive := fun _ relaxed => relaxed.starts = starts pieces relaxed.forms)
    (fun _ _ _ => rfl) (fun _ _ _ _ _ _ ih => ih)

theorem relax_valid (hrange : InRange pieces) : Valid pieces (relax pieces).forms :=
  relax_induction pieces (motive := fun _ relaxed => Valid pieces relaxed.forms)
    (fun _ hlen hpass => valid_of_pass_eq_nil hrange hlen hpass) (fun _ _ _ _ _ _ ih => ih)

/-- Relaxation makes no branch long that is short in a valid choice. -/
theorem relax_below_valid (hrange : InRange pieces) {other : Forms}
    (hother : other.length = pieces.length) (hvalid : Valid pieces other) :
    Below pieces (relax pieces).forms other := by
  refine relax_induction pieces
    (motive := fun forms relaxed => Below pieces forms other → Below pieces relaxed.forms other)
    ?_ ?_ (shortest_below other)
  · intro forms _ _ hbelow
    exact hbelow
  · intro forms first others rest hlen _ ih hbelow
    exact ih (widen_below_valid hrange hlen hother hvalid hbelow)

/-- Passes only make branches long, and a branch that a pass makes long is out of reach in the
layout of that pass, hence in the final one. -/
theorem relax_long_is_far {i target : Nat} (hrange : InRange pieces)
    (hpiece : pieces[i]? = some (.branch target)) (hlong : (relax pieces).forms[i]? = some true) :
    reaches (span (sizes pieces (relax pieces).forms) i target) = false := by
  have hfar := relax_induction pieces
    (motive := fun forms relaxed =>
      relaxed.forms.length = pieces.length ∧ Below pieces forms relaxed.forms ∧
        ∀ i target : Nat, pieces[i]? = some (.branch target) → relaxed.forms[i]? = some true →
          forms[i]? = some true ∨ reaches (span (sizes pieces relaxed.forms) i target) = false)
    (fun forms hlen _ => ⟨hlen, Below.refl _ _, fun _ _ _ hlong => Or.inl hlong⟩) ?_
  · rcases hfar.2.2 i target hpiece hlong with hshort | hfar
    · exact absurd hshort (getElem?_shortest_ne i)
    · exact hfar
  · rintro forms first others rest hlen - ⟨hrest, hbelow, hfar⟩
    have hgrown := (below_widen (starts pieces forms)).trans hbelow
    refine ⟨hrest, hgrown, fun i target hpiece hlong => ?_⟩
    rcases hfar i target hpiece hlong with hwide | hfar
    · refine (far_of_widen_long hrange hlen hpiece hwide).imp_right fun hout => ?_
      refine Bool.eq_false_iff.mpr fun hreach => ?_
      rw [reaches_span_mono (hgrown.sizes_le hlen hrest) hreach] at hout
      exact absurd hout (by simp)
    · exact Or.inr hfar

/-- Every widening turns a branch of its own from short to long, and every pass but the last has
one. -/
theorem relax_widenings :
    ((relax pieces).widenings.map Widening.index).Nodup ∧
      (∀ w ∈ (relax pieces).widenings, (relax pieces).forms[w.index]? = some true ∧
        ∃ target, pieces[w.index]? = some (.branch target)) ∧
      (relax pieces).widenings.length ≤ pieces.countP Piece.isBranch ∧
      (relax pieces).passes ≤ pieces.countP Piece.isBranch + 1 := by
  have hall := relax_induction pieces
    (motive := fun forms relaxed =>
      Below pieces forms relaxed.forms ∧
      (relaxed.widenings.map Widening.index).Nodup ∧
      (∀ w ∈ relaxed.widenings, forms[w.index]? = some false ∧
        relaxed.forms[w.index]? = some true ∧ ∃ target, pieces[w.index]? = some (.branch target)) ∧
      relaxed.widenings.length ≤ shortCount pieces forms ∧
      relaxed.passes ≤ relaxed.widenings.length + 1)
    (fun forms _ _ => ⟨Below.refl _ _, by simp, by simp, by simp, by simp⟩) ?_
  · obtain ⟨-, hnodup, hlong, hcount, hpasses⟩ := hall
    rw [shortCount_shortest] at hcount
    exact ⟨hnodup, fun w hw => (hlong w hw).2, hcount, by omega⟩
  · rintro forms first others rest hlen hpass ⟨hbelow, hnodup, hlong, hcount, hpasses⟩
    have hpassCount := length_pass_add_shortCount pieces forms (starts pieces forms)
    rw [← hpass]
    refine ⟨(below_widen _).trans hbelow, ?_, ?_, ?_, ?_⟩
    · rw [List.map_append, List.nodup_append]
      refine ⟨nodup_pass _ _ _, hnodup, ?_⟩
      simp only [List.mem_map]
      rintro _ ⟨v, hv, rfl⟩ _ ⟨w, hw, rfl⟩ heq
      -- what this pass has made long no later pass finds short
      obtain ⟨-, -, hwide⟩ := turned_of_mem_pass hv
      rw [heq, (hlong w hw).1] at hwide
      exact absurd hwide (by simp)
    · intro w hw
      rcases List.mem_append.mp hw with hw | hw
      · obtain ⟨⟨target, hpiece⟩, hshort, hwide⟩ := turned_of_mem_pass hw
        exact ⟨hshort, hbelow w.index target hpiece hwide, target, hpiece⟩
      · exact ⟨short_of_widen_short hlen (hlong w hw).1, (hlong w hw).2⟩
    · rw [List.length_append]
      omega
    · simp only [hpass, List.length_append, List.length_cons]
      omega

end Relaxation

end MethodIL.Layout
