import Mathlib
import MethodIL.Proofs.Lifting.Aiming
import MethodIL.Proofs.Lifting.SharedHandlers
set_option autoImplicit false

/-!
# The order of the exception table

Whether a body can be lifted should not depend on the order of its clauses, and it does not as long as
no two clauses share the range of a handler or of a filter and no range crosses that of a filter and its
handler.  Otherwise it does: a handler may be shared by clauses that have a third between them which is
wrapped right inside it, and a range may cross that of a filter and its handler as long as it is wrapped
behind them.
-/

namespace MethodIL

open Outcome

/-- The clauses of a body keep apart: no two of them share the range of a handler or of a filter, and
the ranges of a filter and its handler together are nested with all ranges or apart from them. -/
structure Body.Separable (x : Body) : Prop where
  handlers : x.clauses.Pairwise fun c d => x.clip c.handlerRange ≠ x.clip d.handlerRange
  filters : x.clauses.Pairwise fun c d =>
    ∀ r ∈ c.filterRanges, ∀ s ∈ d.filterRanges, x.clip r ≠ x.clip s
  scopes : ∀ c ∈ x.clauses, ∀ s ∈ c.scopes, ∀ r ∈ x.ranges, Laminar (x.clip s) (x.clip r)

/-- The order of the clauses does not matter. -/
theorem Body.Separable.of_perm {x : Body} {table : List Clause} (h : x.Separable)
    (hperm : table.Perm x.clauses) : Body.Separable { x with clauses := table } where
  handlers := (hperm.pairwise_iff fun h => h.symm).mpr h.handlers
  filters := (hperm.pairwise_iff fun h r hr s hs => (h s hs r hr).symm).mpr h.filters
  scopes c hc s hs r hr := h.scopes c (hperm.mem_iff.mp hc) s hs r
    ((hperm.flatMap_right _).mem_iff.mp hr)

namespace Tree

variable {t t' : Tree} {x : Body} {map : CodeMap}

/-! ## All orders -/

/-- The clauses of a body that keep apart admit each other in all orders. -/
theorem admits_of_separable (hsep : x.Separable)
    (hlaminar : ∀ r ∈ x.ranges, ∀ s ∈ x.ranges, Laminar (x.clip r) (x.clip s)) {table : List Clause}
    (hperm : table.Perm x.clauses) {front behind : List Clause} {clause : Clause}
    (htable : table = front ++ clause :: behind) : x.Admits front clause := by
  have hmem : ∀ c ∈ clause :: front, c ∈ x.clauses := by
    intro c hc
    refine hperm.mem_iff.mp ?_
    rw [htable, List.mem_append, List.mem_cons]
    exact (List.mem_cons.mp hc).elim (fun heq => Or.inr (Or.inl heq)) Or.inl
  have hrange : ∀ c ∈ clause :: front, ∀ r ∈ c.ranges, r ∈ x.ranges := fun c hc r hr =>
    List.mem_flatMap.mpr ⟨c, hmem c hc, hr⟩
  refine ⟨fun r hr c hc s hs => ?_, fun c hc => ?_, fun c hc => ?_⟩
  · rcases List.mem_append.mp hr with hr | hr
    · exact hlaminar r (hrange clause List.mem_cons_self r hr) s (hrange c hc s hs)
    · exact hsep.scopes clause (hmem clause List.mem_cons_self) r hr s (hrange c hc s hs)
  · have hpairs := (hsep.of_perm hperm).handlers
    rw [htable] at hpairs
    exact (List.pairwise_append.mp hpairs).2.2 c hc clause List.mem_cons_self
  · have hpairs := (hsep.of_perm hperm).filters
    rw [htable] at hpairs
    exact (List.pairwise_append.mp hpairs).2.2 c hc clause List.mem_cons_self

/-- A body whose clauses keep apart can be lifted with its clauses in any order. -/
theorem exists_ofBody_of_perm (hsep : x.Separable) (h : ofBody x = .ok t) {table : List Clause}
    (hperm : table.Perm x.clauses) : ∃ t', ofBody { x with clauses := table } = .ok t' := by
  obtain ⟨map, t₁, hmap, hclauses, haims⟩ := ofBody_eq_ok_iff.mp h
  have hmaps := CodeMap.maps_of_ofCode hmap
  obtain ⟨⟨handlers, hcarries⟩, -⟩ := carries_of_addClauses hmaps hclauses
  have hfits := fits_of_addClauses hclauses
  have hlaminar : ∀ r ∈ x.ranges, ∀ s ∈ x.ranges, Laminar (x.clip r) (x.clip s) := by
    intro r hr s hs
    obtain ⟨c, hc, hr⟩ := List.mem_flatMap.mp hr
    obtain ⟨d, hd, hs⟩ := List.mem_flatMap.mp hs
    exact hcarries.laminar c hc r hr d hd s hs
  obtain ⟨t₂, hadded⟩ := madeFor_ofCode.exists_addClauses hmaps
    (fun c hc => hfits c (hperm.mem_iff.mp hc))
    (fun _ _ _ htable => admits_of_separable hsep hlaminar hperm htable) 0
  obtain ⟨⟨handlers', hcarries'⟩, haimed⟩ := carries_of_addClauses hmaps hadded
  obtain ⟨t', hdone⟩ := haimed.exists_aimInstructions hcarries' hmaps
    (fun k start i hk => by simpa using hmaps.of_getElem?_zip hk) (resolves_of_aimInstructions haims)
  exact ⟨t', ofBody_eq_ok_iff.mpr ⟨map, t₂, hmap, hadded, hdone⟩⟩

/-! ## Orders that fail -/

/-- The range of a filter and its handler is nested with all ranges of the clauses in front, or apart
from them. -/
theorem Carries.laminar_of_addClauses {done clauses : List Clause} {handlers : List NodeId} {index : Nat}
    (h : t.Carries x done handlers) (hmap : map.Maps x)
    (hadds : Tree.addClauses map index clauses t = .ok t') {front behind : List Clause} {clause : Clause}
    (htable : clauses = front ++ clause :: behind) :
    ∀ s ∈ clause.scopes, ∀ c ∈ clause :: (done ++ front), ∀ r ∈ c.ranges,
      Laminar (x.clip s) (x.clip r) := by
  induction front generalizing t done handlers index clauses with
  | nil =>
    subst htable
    obtain ⟨t₁, hclause, -⟩ := addClauses_cons_eq_ok hadds
    rw [List.append_nil]
    exact h.laminar_of_addsClause hmap (addsClause_of_addClause hclause)
  | cons first front ih =>
    subst htable
    obtain ⟨t₁, hclause, hrest⟩ := addClauses_cons_eq_ok hadds
    obtain ⟨⟨handler, hcarries⟩, -⟩ := h.addsClause hmap (addsClause_of_addClause hclause)
    have hnested := ih hcarries hrest rfl
    rwa [List.append_assoc] at hnested

/-- Of two clauses that are added to the bare code, neither the handlers nor the filters share a
range. -/
theorem ne_of_addClauses {c d : Clause} {rest : List Clause} (hmap : map.Maps x)
    (h : addClauses map 0 (c :: d :: rest) (ofCode x.header x.instructions) = .ok t) :
    x.clip c.handlerRange ≠ x.clip d.handlerRange ∧
      ∀ r ∈ c.filterRanges, ∀ s ∈ d.filterRanges, x.clip r ≠ x.clip s := by
  have hfits := fits_of_addClauses h
  have hc := hfits c List.mem_cons_self
  have hd := hfits d (List.mem_cons_of_mem _ List.mem_cons_self)
  obtain ⟨t₁, hfirst, hrest⟩ := addClauses_cons_eq_ok h
  obtain ⟨t₂, hsecond, -⟩ := addClauses_cons_eq_ok hrest
  have haddsFirst := addsClause_of_addClause hfirst
  have haddsSecond := addsClause_of_addClause hsecond
  obtain ⟨⟨handler, hcarries⟩, -⟩ := carries_ofCode.addsClause hmap haddsFirst
  -- the blocks of the first clause are made for its ranges
  have hadmits : x.Admits [] c := by
    refine ⟨fun r hr e he s hs => ?_, by simp, by simp⟩
    rcases List.mem_append.mp hr with hr | hr
    · obtain rfl := List.mem_singleton.mp he
      exact hcarries.laminar e (by simp) r hr e (by simp) s hs
    · exact carries_ofCode.laminar_of_addsClause hmap haddsFirst r hr e he s hs
  have hmade : t₁.MadeFor x fun _ => x.HasRange [c] := by
    obtain ⟨t₁', hfirst', hmade⟩ := madeFor_ofCode.exists_addClause hmap hc hadmits 0
    obtain rfl := Except.ok.inj (hfirst.symm.trans hfirst')
    exact hmade
  obtain ⟨_, hlisted, hholds⟩ := exists_of_mem_right hcarries.clauses.flip (by simp : c ∈ [] ++ [c])
  obtain ⟨region, -, htells⟩ := hholds.tellsHandler
  obtain ⟨catchType, hkind, -⟩ := htells.isHandler
  constructor
  · have hadded : addClauses map 0 ([] ++ c :: ([] ++ d :: rest)) _ = .ok t := h
    exact (spanned_ofCode.clip_ne_of_addClauses carries_ofCode hmap hadded (by simp)).symm
  · intro r hr s hs heq
    obtain ⟨start, hmem, rfl⟩ := List.mem_map.mp hr
    obtain ⟨hfilterKind, hoffset⟩ := Clause.mem_filterStarts_iff.mp hmem
    obtain ⟨block, start', hblock, hoffset', hrange⟩ := htells.filterRange hfilterKind
    obtain rfl := Option.some.inj (hoffset.symm.trans hoffset')
    rw [hblock] at hkind
    have hblockKind := hcarries.filters _ hlisted _ _ _ _ hkind
    refine hmade.not_occupies_filter hcarries.closed hmap hd haddsSecond hblockKind hs (fun e he => ?_)
      (heq ▸ hrange)
    obtain rfl := List.mem_singleton.mp he
    rw [← heq]
    exact ⟨hc.try_ne_filter hmap _ hr, fun hsame =>
      hc.filter_ne_handler _ (List.mem_append_left _ hr) hsame.symm⟩

/-- The clauses of a body that can be lifted with its clauses in all orders keep apart. -/
theorem separable_of_forall
    (h : ∀ table : List Clause, table.Perm x.clauses → ∃ t, ofBody { x with clauses := table } = .ok t) :
    x.Separable := by
  -- any one or two clauses may stand in front
  have hfront : ∀ table : List Clause, table.Perm x.clauses → ∃ map t, map.Maps x ∧
      addClauses map 0 table (ofCode x.header x.instructions) = .ok t := by
    intro table hperm
    obtain ⟨t, ht⟩ := h table hperm
    obtain ⟨map, t₁, hmap, hadded, -⟩ := ofBody_eq_ok_iff.mp ht
    exact ⟨map, t₁, CodeMap.maps_of_ofCode hmap, hadded⟩
  have hpairs : ∀ {c d : Clause}, [c, d].Sublist x.clauses →
      x.clip c.handlerRange ≠ x.clip d.handlerRange ∧
        ∀ r ∈ c.filterRanges, ∀ s ∈ d.filterRanges, x.clip r ≠ x.clip s := by
    intro c d hsub
    obtain ⟨rest, hperm⟩ := hsub.exists_perm_append
    obtain ⟨map, t, hmap, hadded⟩ := hfront _ hperm.symm
    exact ne_of_addClauses hmap hadded
  refine ⟨List.pairwise_iff_forall_sublist.mpr fun hsub => (hpairs hsub).1,
    List.pairwise_iff_forall_sublist.mpr fun hsub => (hpairs hsub).2, fun c hc s hs r hr => ?_⟩
  obtain ⟨d, hd, hr⟩ := List.mem_flatMap.mp hr
  have hperm := List.perm_cons_erase hd
  obtain ⟨map, t, hmap, hadded⟩ := hfront _ hperm.symm
  obtain ⟨front, behind, htable⟩ := List.append_of_mem (hperm.mem_iff.mp hc)
  refine carries_ofCode.laminar_of_addClauses hmap hadded htable s hs d ?_ r hr
  cases front with
  | nil => exact (List.cons.inj htable).1 ▸ List.mem_cons_self
  | cons first front =>
    rw [(List.cons.inj htable).1]
    simp

end Tree

/-! ## The main result -/

/-- Whether a body can be lifted does not depend on the order of its clauses exactly if the clauses keep
apart as soon as the body can be lifted in one order. -/
theorem ofBody_order_free_iff (x : Body) :
    (∀ table : List Clause, table.Perm x.clauses →
      ((∃ t, Tree.ofBody { x with clauses := table } = .ok t) ↔ ∃ t, Tree.ofBody x = .ok t)) ↔
    ((∃ table t, table.Perm x.clauses ∧ Tree.ofBody { x with clauses := table } = .ok t) →
      x.Separable) := by
  constructor
  · rintro hfree ⟨table, t, hperm, ht⟩
    have hx := (hfree table hperm).mp ⟨t, ht⟩
    exact Tree.separable_of_forall fun table hperm => (hfree table hperm).mpr hx
  · intro hsep table hperm
    constructor
    · rintro ⟨t, ht⟩
      have hother := (hsep ⟨table, t, hperm, ht⟩).of_perm hperm
      exact Tree.exists_ofBody_of_perm hother ht hperm.symm
    · rintro ⟨t, ht⟩
      exact Tree.exists_ofBody_of_perm (hsep ⟨x.clauses, t, .refl _, ht⟩) ht hperm

/-- An instruction with a filter handler, and a region that starts with the handler but ends behind it.
All ranges of the clauses are nested or apart; only that of the filter and the handler together crosses
the region. -/
def crossedScope : Body where
  header := default
  instructions := Instruction.assemble [(0x00, .none), (0x00, .none), (0x00, .none), (0x00, .none),
    (0x00, .none), (0x00, .none), (0x00, .none)]
  clauses := [Clause.ofFields 1 0 1 3 1 2, Clause.ofFields 2 3 2 6 1 0]

/-- Being lifted in one order and refused in another, told by running both. -/
theorem exists_refused_of_isSome {x : Body} {table : List Clause}
    (hlifted : (Tree.ofBody x).toOption.isSome = true) (hperm : table.Perm x.clauses)
    (hrefused : (Tree.ofBody { x with clauses := table }).toOption.isSome = false) :
    (∃ t, Tree.ofBody x = .ok t) ∧
      ∃ table, table.Perm x.clauses ∧ ¬ ∃ t, Tree.ofBody { x with clauses := table } = .ok t := by
  obtain ⟨t, ht⟩ := Option.isSome_iff_exists.mp hlifted
  refine ⟨⟨t, toOption_eq_some_iff.mp ht⟩, table, hperm, ?_⟩
  rintro ⟨t', ht'⟩
  rw [ht'] at hrefused
  exact absurd hrefused (by simp [Except.toOption])

/-- `sharedHandler` can be lifted as long as the clause that guards the shared handler stands between
those that share it, and `crossedScope` as long as the filter handler comes first. -/
theorem order_matters :
    ((∃ t, Tree.ofBody sharedHandler = .ok t) ∧ ∃ table, table.Perm sharedHandler.clauses ∧
      ¬ ∃ t, Tree.ofBody { sharedHandler with clauses := table } = .ok t) ∧
    ((∃ t, Tree.ofBody crossedScope = .ok t) ∧ ∃ table, table.Perm crossedScope.clauses ∧
      ¬ ∃ t, Tree.ofBody { crossedScope with clauses := table } = .ok t) := by
  constructor
  · refine exists_refused_of_isSome (by decide +kernel) (?_ : [Clause.ofFields 2 0 1 2 1 0,
      Clause.ofFields 2 1 1 2 1 0, Clause.ofFields 2 2 1 3 1 0].Perm _) ?_ <;> decide +kernel
  · exact exists_refused_of_isSome (by decide +kernel) (List.reverse_perm _) (by decide +kernel)

end MethodIL
