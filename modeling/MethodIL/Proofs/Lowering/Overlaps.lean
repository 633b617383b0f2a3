import Mathlib
import MethodIL.Proofs.Lowering.Faithful
import MethodIL.Proofs.Lifting.Refusal
set_option autoImplicit false

/-!
# Ranges of one clause that share bytes

A clause names the ranges of up to three blocks: a protected region, a handler of it and the filter of
the handler.  Two of these ranges are apart exactly if neither of the blocks lies below the other, and
nothing in a tree keeps a handler or a filter from being put below the region that it belongs to, or the
region below them.  Lowering does not look at this, so it may emit clauses whose ranges are nested; such
a body is refused when it is lifted.
-/

namespace MethodIL

open Outcome

/-- Two ranges, each a start and a stop, share no byte. -/
def Apart (r s : Nat × Nat) : Prop := r.2 ≤ s.1 ∨ s.2 ≤ r.1

instance (r s : Nat × Nat) : Decidable (Apart r s) := inferInstanceAs (Decidable (_ ∨ _))

theorem apart_iff_of_rangesOverlap {a b : Nat × Nat} :
    rangesOverlap a b = false ↔ Apart (a.1, a.1 + a.2) (b.1, b.1 + b.2) := by
  simp only [rangesOverlap, Bool.and_eq_false_iff, decide_eq_false_iff_not, Nat.not_lt, Apart]
  exact or_comm

/-- A relation of the items of one list is one of the items of another if it is for those at the same
places. -/
theorem pairwise_iff_of_forall₂ {α β : Type} {R : α → β → Prop} {P : α → α → Prop} {Q : β → β → Prop}
    {as : List α} {bs : List β} (h : List.Forall₂ R as bs)
    (hiff : ∀ a a' b b', R a b → R a' b' → (P a a' ↔ Q b b')) : as.Pairwise P ↔ bs.Pairwise Q := by
  induction h with
  | nil => simp
  | @cons a b as bs hab htail ih =>
    have hall : ∀ {as : List α} {bs : List β}, List.Forall₂ R as bs →
        ((∀ a' ∈ as, P a a') ↔ ∀ b' ∈ bs, Q b b') := by
      intro as bs h
      induction h with
      | nil => simp
      | cons hab' _ ih => rw [List.forall_mem_cons, List.forall_mem_cons, ih, hiff _ _ _ _ hab hab']
    rw [List.pairwise_cons, List.pairwise_cons, hall htail, ih]

namespace Tree

variable {t : Tree} {y : Body}

/-- Neither of two nodes lies at or below the other. -/
def Beside (t : Tree) (a b : NodeId) : Prop := a ∉ t.preOrder b ∧ b ∉ t.preOrder a

/-- The blocks whose ranges the clause of a handler names. -/
def clauseBlocks (t : Tree) (region handler : NodeId) : List NodeId :=
  region :: handler :: (t.filterOf? handler).toList

/-! ## Ranges and blocks -/

/-- The ranges of two blocks are apart exactly if the blocks are. -/
theorem Occupies.apart_iff (wf : t.WellFormed) (hpos : ∀ i ∈ y.instructions, 0 < i.size.toNat)
    (hlength : y.instructions.length = t.instructions.length) {a b : NodeId} {r s : Nat × Nat}
    (ha : t.Occupies y a r) (hb : t.Occupies y b s) : t.Beside a b ↔ Apart r s := by
  obtain ⟨first, last, hcovers, hspans⟩ := ha
  obtain ⟨first', last', hcovers', hspans'⟩ := hb
  obtain ⟨hlt, hle, hfirst, hlast⟩ := hspans
  obtain ⟨hlt', hle', hfirst', hlast'⟩ := hspans'
  have hmono : ∀ {i j : Nat}, i < j → j ≤ y.instructions.length → y.start i < y.start j :=
    fun hij hj => (Body.start_lt_iff hpos (by omega) hj).mpr hij
  have hr := hmono hlt hle
  have hs := hmono hlt' hle'
  constructor
  · rintro ⟨houtside, houtside'⟩
    by_contra hshared
    -- an instruction of both ranges lies below both blocks
    have hstart : first < last' := by
      by_contra hbehind
      have := y.start_mono (Nat.le_of_not_lt hbehind)
      exact hshared (Or.inr (by omega))
    have hstart' : first' < last := by
      by_contra hbehind
      have := y.start_mono (Nat.le_of_not_lt hbehind)
      exact hshared (Or.inl (by omega))
    have hnode : t.instructions[max first first']? = some t.instructions[max first first'] :=
      List.getElem?_eq_getElem (by omega)
    have hmem := (wf.mem_preOrder_iff_covered hcovers hnode).mpr ⟨by omega, by omega⟩
    have hmem' := (wf.mem_preOrder_iff_covered hcovers' hnode).mpr ⟨by omega, by omega⟩
    exact (wf.mem_preOrder_or_of_common hmem hmem').elim houtside' houtside
  · intro hapart
    unfold Apart at hapart
    constructor
    · intro hbelow
      obtain ⟨hinside, hinside'⟩ := wf.covers_inside hbelow hcovers' hcovers hlt
      have := y.start_mono hinside
      have := y.start_mono hinside'
      omega
    · intro hbelow
      obtain ⟨hinside, hinside'⟩ := wf.covers_inside hbelow hcovers hcovers' hlt'
      have := y.start_mono hinside
      have := y.start_mono hinside'
      omega

/-- The ranges of a clause are those of its blocks, in the same order. -/
theorem TellsHandler.forall₂_ranges (hlinked : t.RegionsLinked) {fills : NodeId → Nat × Nat → Prop}
    {region handler : NodeId} {clause : Clause} (h : t.TellsHandler fills region handler clause) :
    List.Forall₂ fills (t.clauseBlocks region handler) clause.ranges := by
  refine .cons h.tryRange (.cons h.handlerRange ?_)
  by_cases hfilter : clause.kind = .filterClause
  · obtain ⟨block, start, hblock, hstart, hrange⟩ := h.filterRange hfilter
    rw [if_pos hfilter, hblock, hstart]
    exact .cons hrange .nil
  · -- no other handlers have filters
    have hnone : t.filterOf? handler = none := by
      refine Option.eq_none_iff_forall_ne_some.mpr fun block hblock => hfilter ?_
      obtain ⟨_, _, -, hguarded⟩ := hlinked.guarded handler block hblock
      obtain ⟨_, hkind, -⟩ := h.isHandler
      exact (BlockKind.handler.inj (Option.some.inj (hkind.symm.trans hguarded))).1
    rw [if_neg hfilter, hnone]
    exact .nil

end Tree

/-! ## Clauses that are lifted -/

/-- The ranges of a clause that passes the checks of lifting are apart. -/
theorem CodeMap.Fits.pairwise_apart {map : CodeMap} {clause : Clause} (h : map.Fits clause) :
    clause.ranges.Pairwise Apart := by
  have htry : Apart clause.tryRange clause.handlerRange := apart_iff_of_rangesOverlap.mp h.apart
  rw [Clause.ranges_eq, List.pairwise_cons, List.forall_mem_cons, List.pairwise_cons]
  refine ⟨⟨htry, fun r hr => ?_⟩, fun r hr => ?_, ?_⟩
  · obtain ⟨start, hmem, rfl⟩ := List.mem_map.mp hr
    have hahead := (h.fitsFilter hmem).ahead
    have hapart := apart_iff_of_rangesOverlap.mp (h.fitsFilter hmem).apart
    unfold Apart at hapart ⊢
    simp only [Clause.tryRange] at hapart ⊢
    omega
  · -- the filter ends where the handler starts
    obtain ⟨start, -, rfl⟩ := List.mem_map.mp hr
    exact Or.inr (Nat.le_refl _)
  · unfold Clause.filterRanges Clause.filterStarts
    split
    case isTrue => cases clause.filterOffset <;> simp
    case isFalse => simp

/-- The ranges of each clause of a body that can be lifted are apart. -/
theorem Tree.apart_of_ofBody {x : Body} {t : Tree} (h : Tree.ofBody x = .ok t) :
    ∀ clause ∈ x.clauses, clause.ranges.Pairwise Apart := by
  obtain ⟨map, _, -, hclauses, -⟩ := Tree.ofBody_eq_ok_iff.mp h
  exact fun clause hclause => (Tree.fits_of_addClauses hclauses clause hclause).pairwise_apart

/-! ## The main result -/

/-- The clauses tell the handlers of a tree, their ranges are nested or apart, and those of one clause
are apart exactly if its blocks are. -/
def Body.ApartAs (y : Body) (t : Tree) : Prop :=
  ∃ regions : List NodeId, regions.Perm t.protectedRegions ∧
    List.Forall₂ (fun (pair : NodeId × NodeId) clause =>
        t.TellsHandler (t.Fills y) pair.1 pair.2 clause ∧ clause.ranges.Pairwise Laminar ∧
          (clause.ranges.Pairwise Apart ↔ (t.clauseBlocks pair.1 pair.2).Pairwise t.Beside))
      (t.listings regions) y.clauses

namespace Tree

/-- The ranges of an emitted clause are apart exactly if no block of the clause lies below another, and
only then the body can be lifted again. -/
theorem Reachable.clauses_apart_iff {t : Tree} {y : Body} (h : t.Reachable) (hy : t.toBody = .ok y) :
    y.ApartAs t ∧
      ((∃ t', ofBody y = .ok t') → ∀ clause ∈ y.clauses, clause.ranges.Pairwise Apart) := by
  have wf := h.wellFormed
  have hrenders := h.renders hy
  obtain ⟨p, hlowers⟩ := toBody_eq_ok_iff.mp hy
  obtain ⟨regions, hperm, htells⟩ := hlowers.exists_tells wf
  refine ⟨⟨regions, hperm, forall₂_imp_of_mem htells ?_⟩, fun ⟨t', ht'⟩ => apart_of_ofBody ht'⟩
  rintro ⟨region, handler⟩ - clause hclause ⟨hlisted, htells, -⟩
  refine ⟨htells.imp h.filtersLinked hlisted fun block kind range hkind hrange => ?_, ?_, ?_⟩
  · exact hrange.fills wf hlowers.sized.size_pos hlowers.length_eq hkind
  · have hlaminar := hrenders.laminar
    refine List.pairwise_of_forall_mem_list fun r hr s hs => hlaminar r ?_ s ?_
    · exact List.mem_flatMap.mpr ⟨clause, hclause, hr⟩
    · exact List.mem_flatMap.mpr ⟨clause, hclause, hs⟩
  · exact (pairwise_iff_of_forall₂ (htells.forall₂_ranges h.regionsLinked) fun _ _ _ _ ha hb =>
      ha.apart_iff wf hlowers.sized.size_pos hlowers.length_eq hb).symm

/-- A protected region inside its own handler, with the filter of the handler in front. -/
def regionInHandler : Tree :=
  (new default).runAll (((Opcode.find? .single 0x00).map fun nop =>
      List.replicate 3 (Edit.newInstruction ⟨nop, .none⟩)).getD [] ++
    [.newBlock .newFilter, .newBlock (.newHandler .filterClause), .newBlock .newTry, .append root ⟨4⟩,
      .append root ⟨5⟩, .append ⟨4⟩ ⟨1⟩, .append ⟨5⟩ ⟨6⟩, .append ⟨5⟩ ⟨3⟩, .append ⟨6⟩ ⟨2⟩,
      .linkHandler ⟨6⟩ ⟨5⟩, .linkFilter ⟨4⟩ ⟨5⟩])

/-- The clause of `regionInHandler` cannot be lifted again. -/
theorem regionInHandler_clauses : regionInHandler.Reachable ∧ ∃ y, regionInHandler.toBody = .ok y ∧
    y.ranges = [(1, 2), (1, 3), (0, 1)] ∧ y.ApartAs regionInHandler ∧ ¬ ∃ t', ofBody y = .ok t' := by
  have hreachable : regionInHandler.Reachable := (Reachable.new default).runAll _
  have hrun : (regionInHandler.toBody.toOption.any fun y =>
      y.ranges == [(1, 2), (1, 3), (0, 1)] && y.clauses.any fun clause =>
        decide ¬ Apart clause.tryRange clause.handlerRange) = true := by
    decide +kernel
  rw [Option.any_eq_true] at hrun
  obtain ⟨y, hy, hrun⟩ := hrun
  rw [toOption_eq_some_iff] at hy
  rw [Bool.and_eq_true, beq_iff_eq, List.any_eq_true] at hrun
  obtain ⟨hranges, clause, hclause, hshared⟩ := hrun
  obtain ⟨hapartAs, hlifts⟩ := hreachable.clauses_apart_iff hy
  refine ⟨hreachable, y, hy, hranges, hapartAs, fun hlifted => ?_⟩
  have hapart := hlifts hlifted clause hclause
  rw [Clause.ranges_eq, List.pairwise_cons, List.forall_mem_cons] at hapart
  exact of_decide_eq_true hshared hapart.1.1

/-- A protected region with its handler inside it. -/
def nestedHandler : Tree :=
  (new default).runAll (((Opcode.find? .single 0x00).map fun nop =>
      List.replicate 2 (Edit.newInstruction ⟨nop, .none⟩)).getD [] ++
    [.newBlock .newTry, .newBlock (.newHandler .finallyClause), .append root ⟨3⟩, .append ⟨3⟩ ⟨1⟩,
      .append ⟨3⟩ ⟨4⟩, .append ⟨4⟩ ⟨2⟩, .linkHandler ⟨3⟩ ⟨4⟩])

/-- The clause of `nestedHandler` protects its own handler. -/
theorem nestedHandler_overlaps : nestedHandler.Reachable ∧ ∃ y clause, nestedHandler.toBody = .ok y ∧
    y.clauses = [clause] ∧ clause.tryRange = (0, 2) ∧ clause.handlerRange = (1, 2) ∧
      ¬ Apart clause.tryRange clause.handlerRange := by
  have hrun : (nestedHandler.toBody.toOption.any fun y => y.clauses.length == 1 &&
      y.clauses.all fun clause => clause.tryRange == (0, 2) && clause.handlerRange == (1, 2)) = true := by
    decide +kernel
  rw [Option.any_eq_true] at hrun
  obtain ⟨y, hy, hrun⟩ := hrun
  rw [toOption_eq_some_iff] at hy
  rw [Bool.and_eq_true, beq_iff_eq, List.length_eq_one_iff] at hrun
  obtain ⟨⟨clause, hclauses⟩, hranges⟩ := hrun
  rw [hclauses] at hranges
  obtain ⟨htry, hhandler⟩ : clause.tryRange = (0, 2) ∧ clause.handlerRange = (1, 2) := by
    simpa using hranges
  refine ⟨(Reachable.new default).runAll _, y, clause, hy, hclauses, htry, hhandler, ?_⟩
  rw [htry, hhandler]
  decide

end Tree

end MethodIL
