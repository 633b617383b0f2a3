import Mathlib
import MethodIL.Proofs.Body.Offsets
set_option autoImplicit false

/-!
# Ranges of clauses

A clause names ranges of bytes: the protected one, that of its handler and, for a filter handler, that
of the filter, which ends where the handler starts.  Ranges that are made of whole instructions are
nested or apart as soon as the places of their instructions are, and the other way round.
-/

namespace MethodIL

/-- Of two ranges, each a start and a stop, one lies inside the other, or they share nothing. -/
def Laminar (a b : Nat × Nat) : Prop :=
  a.1 ≤ b.1 ∧ b.2 ≤ a.2 ∨ b.1 ≤ a.1 ∧ a.2 ≤ b.2 ∨ a.2 ≤ b.1 ∨ b.2 ≤ a.1

theorem Laminar.symm {r s : Nat × Nat} (h : Laminar r s) : Laminar s r := by
  unfold Laminar at h ⊢
  omega

namespace Clause

/-- The bytes that a clause protects. -/
def tryRange (c : Clause) : Nat × Nat :=
  (c.tryOffset.toNat, c.tryOffset.toNat + c.tryLength.toNat)

/-- The bytes of the handler of a clause. -/
def handlerRange (c : Clause) : Nat × Nat :=
  (c.handlerOffset.toNat, c.handlerOffset.toNat + c.handlerLength.toNat)

/-- The ranges of bytes that a clause names. -/
def ranges (c : Clause) : List (Nat × Nat) :=
  let filters := if c.kind = .filterClause then c.filterOffset.toList else []
  c.tryRange :: c.handlerRange :: filters.map fun start => (start.toNat, c.handlerOffset.toNat)

variable (c : Clause)

/-- The starts of the filters of a clause: there is one if the handler has a filter. -/
def filterStarts : List UInt32 := if c.kind = .filterClause then c.filterOffset.toList else []

/-- The bytes of the filter of a clause. -/
def filterRanges : List (Nat × Nat) :=
  c.filterStarts.map fun start => (start.toNat, c.handlerOffset.toNat)

/-- The bytes of the filter and the handler of a clause together. -/
def scopes : List (Nat × Nat) := c.filterStarts.map fun start => (start.toNat, c.handlerRange.2)

variable {c} in
theorem mem_filterStarts_iff {start : UInt32} :
    start ∈ c.filterStarts ↔ c.kind = .filterClause ∧ c.filterOffset = some start := by
  unfold filterStarts
  split <;> simp_all

theorem ranges_eq : c.ranges = c.tryRange :: c.handlerRange :: c.filterRanges := rfl

end Clause

namespace Body

/-- The ranges of bytes that the clauses name. -/
def ranges (b : Body) : List (Nat × Nat) := b.clauses.flatMap Clause.ranges

/-- The part of a range that lies in front of the end of the code. -/
def clip (b : Body) (range : Nat × Nat) : Nat × Nat := (range.1, min range.2 b.codeSize)

theorem Spans.laminar {b : Body} {r s : Nat × Nat} {first last first' last' : Nat}
    (hr : b.Spans r.1 r.2 first last) (hs : b.Spans s.1 s.2 first' last')
    (h : Laminar (first, last) (first', last')) : Laminar r s := by
  obtain ⟨-, -, hfirst, hlast⟩ := hr
  obtain ⟨-, -, hfirst', hlast'⟩ := hs
  rw [Laminar, ← hfirst, ← hlast, ← hfirst', ← hlast']
  rcases h with ⟨hleft, hright⟩ | ⟨hleft, hright⟩ | h | h
  · exact Or.inl ⟨b.start_mono hleft, b.start_mono hright⟩
  · exact Or.inr (Or.inl ⟨b.start_mono hleft, b.start_mono hright⟩)
  · exact Or.inr (Or.inr (Or.inl (b.start_mono h)))
  · exact Or.inr (Or.inr (Or.inr (b.start_mono h)))

/-- Without empty instructions, the places of ranges are nested or apart if the ranges are. -/
theorem Spans.laminar_places {b : Body} (hpos : ∀ i ∈ b.instructions, 0 < i.size.toNat)
    {r s : Nat × Nat} {first last first' last' : Nat} (hr : b.Spans r.1 r.2 first last)
    (hs : b.Spans s.1 s.2 first' last') (h : Laminar r s) : Laminar (first, last) (first', last') := by
  obtain ⟨hlt, hle, hfirst, hlast⟩ := hr
  obtain ⟨hlt', hle', hfirst', hlast'⟩ := hs
  have hmono : ∀ {a b' : Nat}, a ≤ b.instructions.length → b' ≤ b.instructions.length →
      b.start a ≤ b.start b' → a ≤ b' := fun ha hb' h => by
    rwa [← Nat.not_lt, ← start_lt_iff hpos hb' ha, Nat.not_lt]
  rw [Laminar, ← hfirst, ← hlast, ← hfirst', ← hlast'] at h
  have hfirstLe := Nat.le_trans (Nat.le_of_lt hlt) hle
  have hfirstLe' := Nat.le_trans (Nat.le_of_lt hlt') hle'
  exact h.imp (And.imp (hmono hfirstLe hfirstLe') (hmono hle' hle))
    (Or.imp (And.imp (hmono hfirstLe' hfirstLe) (hmono hle hle'))
      (Or.imp (hmono hle hfirstLe') (hmono hle' hfirstLe)))

end Body

end MethodIL
