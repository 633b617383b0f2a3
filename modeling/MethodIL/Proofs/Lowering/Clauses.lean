import Mathlib
import MethodIL.Proofs.Lowering.Emission
import MethodIL.Proofs.Lowering.Places
set_option autoImplicit false

/-!
# The emitted exception table

Each protected region of the body gives one clause for every handler that it lists, and the ranges
of the clause are the extents of the regions: the bytes of the instructions that they cover.
-/

namespace MethodIL

open Outcome

namespace Plan

variable {p : Plan} {t : Tree}

/-! ## Extents -/

/-- The extent of a region that covers at least one slot. -/
theorem extent_eq_ok_iff {region : NodeId} {extent : Nat × Nat} :
    p.extent t region = .ok extent ↔
      ∃ first last, t.coverage? p.places region = some (first, last) ∧ first < last ∧
        extent = (p.starts.getD first 0, p.starts.getD last 0 - p.starts.getD first 0) := by
  unfold Plan.extent
  split
  case h_1 hnone => simp [hnone]
  case h_2 first last hcoverage =>
    constructor
    · intro h
      split at h
      case isTrue hlt => exact ⟨first, last, hcoverage, hlt, (Except.ok.inj h).symm⟩
      case isFalse => exact absurd h (by simp)
    · rintro ⟨first', last', hcoverage', hlt, rfl⟩
      rw [hcoverage, Option.some.injEq, Prod.mk.injEq] at hcoverage'
      obtain ⟨rfl, rfl⟩ := hcoverage'
      rw [if_pos hlt]

/-! ## Clauses -/

/-- The clause of a handler: its ranges are the extents of the region, the handler and, for a filter
handler, the filter block, which ends where the handler starts. -/
structure GivesClause (p : Plan) (t : Tree) (region : Nat × Nat) (handler : NodeId)
    (clause : Clause) (kind : HandlerKind) (filterBlock : Option NodeId) : Prop where
  isHandler : ∃ owner catchType,
    t.blockKind? handler = some (.handler kind owner filterBlock catchType) ∧
      clause.catchType = if kind = .catchClause then catchType else none
  flags : clause.flags = kind.flags
  tryRange : clause.tryOffset = .ofNat region.1 ∧ clause.tryLength = .ofNat region.2
  ranges : ∃ extent, p.extent t handler = .ok extent ∧
    clause.handlerOffset = .ofNat extent.1 ∧ clause.handlerLength = .ofNat extent.2 ∧
      if kind = .filterClause then
        ∃ block filter, filterBlock = some block ∧ p.extent t block = .ok filter ∧
          filter.1 + filter.2 = extent.1 ∧ clause.filterOffset = some (.ofNat filter.1)
      else clause.filterOffset = none

theorem clause_eq_ok_iff {region : Nat × Nat} {handler : NodeId} {clause : Clause} :
    p.clause t region handler = .ok clause ↔
      ∃ kind filterBlock, p.GivesClause t region handler clause kind filterBlock := by
  unfold Plan.clause
  split
  case h_1 kind owner filterBlock catchType hkind =>
    constructor
    · intro h
      obtain ⟨extent, hextent, h⟩ := bind_eq_ok.mp h
      cases kind with
      | filterClause =>
        cases filterBlock with
        | none =>
          obtain ⟨_, hthrow, _⟩ := bind_eq_ok.mp h
          exact absurd hthrow throw_ne_ok
        | some block =>
          obtain ⟨filter, hfilter, h⟩ := bind_eq_ok.mp h
          dsimp only at h
          obtain ⟨hend, h⟩ := guard_eq_ok.mp h
          obtain rfl := Except.ok.inj h
          exact ⟨.filterClause, some block, ⟨owner, catchType, hkind, rfl⟩, rfl, ⟨rfl, rfl⟩, extent,
            hextent, rfl, rfl, block, filter, rfl, hfilter, by simpa using hend, rfl⟩
      | _ =>
        obtain rfl := Except.ok.inj h
        exact ⟨_, _, ⟨owner, catchType, hkind, rfl⟩, rfl, ⟨rfl, rfl⟩, extent, hextent, rfl, rfl, rfl⟩
    · rintro ⟨kind', filterBlock', ⟨owner', catchType', hkind', hcatch⟩, hflags, htry, extent,
        hextent, hoffset, hlength, hfilter⟩
      rw [hkind] at hkind'
      simp only [Option.some.injEq, BlockKind.handler.injEq] at hkind'
      obtain ⟨rfl, rfl, rfl, rfl⟩ := hkind'
      refine bind_eq_ok.mpr ⟨extent, hextent, ?_⟩
      rw [← hoffset, ← hlength, ← htry.1, ← htry.2]
      cases kind with
      | filterClause =>
        obtain ⟨block, filter, rfl, hfilterExtent, hend, hstart⟩ := hfilter
        refine bind_eq_ok.mpr ⟨filter, hfilterExtent, guard_eq_ok.mpr ⟨by simpa using hend, ?_⟩⟩
        rw [← hstart, ← hflags, ← hcatch]
        rfl
      | _ =>
        rw [if_neg (by simp)] at hfilter
        rw [← hflags, ← hcatch, ← hfilter]
        rfl
  case h_2 hother =>
    constructor
    · intro h
      exact absurd h (by simp)
    · rintro ⟨kind, filterBlock, ⟨owner, catchType, hkind, _⟩, _⟩
      exact absurd hkind (hother _ _ _ _)

/-! ## Protected regions -/

theorem handlerParts_eq_ok_iff {region handler : NodeId} {parts : List NodeId} :
    handlerParts t region handler = .ok parts ↔
      ∃ kind filterBlock catchType,
        t.blockKind? handler = some (.handler kind (some region) filterBlock catchType) ∧
          parts = handler :: filterBlock.toList := by
  unfold handlerParts
  split
  case h_1 kind owner filterBlock catchType hkind =>
    rw [hkind]
    by_cases howner : owner = region
    · simp [howner, eq_comm]
    · simp [howner]
  case h_2 hother =>
    constructor
    · intro h
      exact absurd h (by simp)
    · rintro ⟨kind, filterBlock, catchType, hkind, _⟩
      exact absurd hkind (hother _ _ _ _)

/-- The protection of a node, if it is a protected region with handlers, each of them one of its
own. -/
theorem protection?_eq_ok {order : List NodeId} {region : NodeId} {protection : Protection}
    (h : protection? t order region = .ok (some protection)) :
    protection.region = region ∧ protection.handlers ≠ [] ∧
      t.blockKind? region = some (.tryBlock protection.handlers) := by
  unfold protection? at h
  split at h
  case h_1 first others hkind =>
    obtain ⟨parts, _, h⟩ := bind_eq_ok.mp h
    obtain rfl := Option.some.inj (pure_eq_ok.mp h)
    exact ⟨rfl, by simp, hkind⟩
  case h_2 => exact absurd h (by simp)

/-- What is protected are the regions of the body that list handlers. -/
theorem mem_protections {protections' : List Protection} (h : protections t = .ok protections')
    {protection : Protection} (hmem : protection ∈ protections') :
    protection.region ∈ t.preOrder Tree.root ∧ protection.handlers ≠ [] ∧
      t.blockKind? protection.region = some (.tryBlock protection.handlers) := by
  obtain ⟨found, hfound, h⟩ := bind_eq_ok.mp h
  rw [← pure_eq_ok.mp h, List.mem_mergeSort, List.mem_filterMap] at hmem
  obtain ⟨out, hout, rfl⟩ := hmem
  obtain ⟨region, hmem, hprotection⟩ := exists_of_mem_mapM hfound hout
  obtain ⟨hregion, hhandlers, hkind⟩ := protection?_eq_ok hprotection
  rw [hregion]
  exact ⟨hmem, hhandlers, hkind⟩

end Plan

namespace Tree.Lowers

variable {t : Tree} {p : Plan} {b : Body}

/-- Every emitted clause is that of a handler that a protected region of the body lists. -/
theorem exists_of_mem_clauses (h : t.Lowers p b) {clause : Clause} (hmem : clause ∈ b.clauses) :
    ∃ region handlers handler extent kind filterBlock,
      region ∈ t.preOrder root ∧ t.blockKind? region = some (.tryBlock handlers) ∧
        handler ∈ handlers ∧ p.extent t region = .ok extent ∧
          p.GivesClause t extent handler clause kind filterBlock := by
  obtain ⟨protections, hprotections, hclauses⟩ := bind_eq_ok.mp h.clauses
  obtain ⟨parts, hparts, hclauses⟩ := bind_eq_ok.mp hclauses
  rw [← pure_eq_ok.mp hclauses, List.mem_flatten] at hmem
  obtain ⟨part, hpart, hmem⟩ := hmem
  obtain ⟨protection, hprotection, hpart⟩ := exists_of_mem_mapM hparts hpart
  obtain ⟨hregion, _, hkind⟩ := Plan.mem_protections hprotections hprotection
  obtain ⟨extent, hextent, hpart⟩ := bind_eq_ok.mp hpart
  obtain ⟨handler, hhandler, hclause⟩ := exists_of_mem_mapM hpart hmem
  obtain ⟨kind, filterBlock, hclause⟩ := Plan.clause_eq_ok_iff.mp hclause
  exact ⟨_, _, handler, extent, kind, filterBlock, hregion, hkind, hhandler, hextent, hclause⟩

end Tree.Lowers

end MethodIL
