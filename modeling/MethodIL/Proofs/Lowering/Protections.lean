import Mathlib
import MethodIL.Proofs.Lowering.Correspondence
import MethodIL.Proofs.Lowering.Extents
set_option autoImplicit false

/-!
# Protected regions in the order of their clauses

The parts of a protected region are the region itself, the handlers that it lists and their filters.  A
region is completed where the last of its parts ends, and the exception table has the clauses of the
regions in the order in which these are completed, those of one region in the order of its list.  Each
clause tells its handler: by the kind, the caught type and the bytes of the blocks.
-/

namespace MethodIL

open Outcome

/-- A clause has no flags but those of its kind, and names no type and no filter that its kind has no
use for. -/
structure Clause.Plain (c : Clause) : Prop where
  flags : c.flags = c.kind.flags
  catchType : c.kind ≠ .catchClause → c.catchType = none
  filterOffset : c.kind ≠ .filterClause → c.filterOffset = none

namespace Tree

variable (t : Tree)

/-- The protected regions of the body that list handlers, in flat order. -/
def protectedRegions : List NodeId :=
  (t.preOrder root).filter fun id => !(t.handlersOf id).isEmpty

/-- A protected region, its handlers and their filters. -/
def partsOf (region : NodeId) : List NodeId :=
  region :: (t.handlersOf region).flatMap fun handler => handler :: (t.filterOf? handler).toList

/-- Where in the post-order of the body the last part of a protected region stands. -/
def completion (region : NodeId) : Nat :=
  ((t.partsOf region).map fun part => (t.postOrder root).idxOf part).foldl max 0

/-- The handlers that regions list, each with its region. -/
def listings (regions : List NodeId) : List (NodeId × NodeId) :=
  regions.flatMap fun region => (t.handlersOf region).map fun handler => (region, handler)

theorem mem_listings_iff {regions : List NodeId} {pair : NodeId × NodeId} :
    pair ∈ t.listings regions ↔ pair.1 ∈ regions ∧ pair.2 ∈ t.handlersOf pair.1 := by
  obtain ⟨region, handler⟩ := pair
  simp only [listings, List.mem_flatMap, List.mem_map, Prod.mk.injEq]
  constructor
  · rintro ⟨_, hregion, _, hhandler, rfl, rfl⟩
    exact ⟨hregion, hhandler⟩
  · rintro ⟨hregion, hhandler⟩
    exact ⟨region, hregion, handler, hhandler, rfl, rfl⟩

theorem map_snd_listings (regions : List NodeId) :
    (t.listings regions).map Prod.snd = regions.flatMap t.handlersOf := by
  rw [listings, List.map_flatMap]
  simp

/-- Every handler that a region lists names the region. -/
def OwnsHandlers (region : NodeId) : Prop :=
  ∀ handler ∈ t.handlersOf region, ∃ kind filterBlock catchType,
    t.blockKind? handler = some (.handler kind (some region) filterBlock catchType)

end Tree

namespace Plan

variable {p : Plan} {t : Tree}

/-! ## Positions -/

theorem positions_eq_ok {order parts : List NodeId} {found : List Nat}
    (h : positions order parts = .ok found) :
    found = parts.map (fun part => order.idxOf part) ∧ ∀ part ∈ parts, part ∈ order := by
  induction parts generalizing found with
  | nil => exact ⟨(pure_eq_ok.mp h).symm, by simp⟩
  | cons part parts ih =>
    obtain ⟨⟩ | ⟨hposition, hrest⟩ := mapM_eq_ok.mp h
    obtain ⟨rfl, hmem⟩ := ih (mapM_eq_ok.mpr hrest)
    split at hposition
    case h_1 place hplace =>
      obtain rfl := Except.ok.inj hposition
      have hlisted : part ∈ order := List.isSome_idxOf?.mp (by rw [hplace]; rfl)
      refine ⟨?_, List.forall_mem_cons.mpr ⟨hlisted, hmem⟩⟩
      rw [List.map_cons, List.idxOf_eq_getD_idxOf? part, hplace, Option.getD_some]
    case h_2 => exact absurd hposition (by simp)

theorem handlerPositions_eq_ok {order : List NodeId} {region : NodeId} {listed : List NodeId}
    {found : List Nat} (h : handlerPositions t order region listed = .ok found) :
    (∀ handler ∈ listed, ∃ kind filterBlock catchType,
      t.blockKind? handler = some (.handler kind (some region) filterBlock catchType)) ∧
      let parts := listed.flatMap fun handler => handler :: (t.filterOf? handler).toList
      found = parts.map (fun part => order.idxOf part) ∧ ∀ part ∈ parts, part ∈ order := by
  induction listed generalizing found with
  | nil => exact ⟨by simp, (pure_eq_ok.mp h).symm, by simp⟩
  | cons handler listed ih =>
    rw [handlerPositions] at h
    obtain ⟨parts, hparts, h⟩ := bind_eq_ok.mp h
    obtain ⟨kind, filterBlock, catchType, hkind, rfl⟩ := handlerParts_eq_ok_iff.mp hparts
    obtain ⟨own, hown, hrest⟩ := bind_eq_ok.mp h
    obtain ⟨others, hothers, hjoined⟩ := bind_eq_ok.mp hrest
    obtain ⟨howners, hfound, hmem⟩ := ih hothers
    obtain ⟨hown, hown'⟩ := positions_eq_ok hown
    have hfilter : t.filterOf? handler = filterBlock := by rw [Tree.filterOf?, hkind]
    refine ⟨List.forall_mem_cons.mpr ⟨⟨_, _, _, hkind⟩, howners⟩, ?_, ?_⟩
    · rw [← pure_eq_ok.mp hjoined, List.flatMap_cons, hfilter, List.map_append, hown, hfound]
    · rw [List.flatMap_cons, hfilter]
      exact List.forall_mem_append.mpr ⟨hown', hmem⟩

/-! ## Protections -/

/-- A protection tells the handlers of a region, each of which names the region, and where the region is
completed; all parts of the region stand in the body. -/
structure Protects (t : Tree) (protection : Protection) : Prop where
  handlers : t.handlersOf protection.region = protection.handlers
  owns : t.OwnsHandlers protection.region
  parts : ∀ part ∈ t.partsOf protection.region, part ∈ t.preOrder Tree.root
  completed : protection.completed = t.completion protection.region

theorem protection?_eq_none_or (wf : t.WellFormed) {region : NodeId} {found : Option Protection}
    (hregion : region ∈ t.preOrder Tree.root)
    (h : protection? t (t.postOrder Tree.root) region = .ok found) :
    found = none ∧ t.handlersOf region = [] ∨
      ∃ protection, found = some protection ∧ protection.region = region ∧
        t.handlersOf region ≠ [] ∧ Protects t protection := by
  unfold protection? at h
  split at h
  case h_1 first others hkind =>
    obtain ⟨positions, hpositions, h⟩ := bind_eq_ok.mp h
    obtain ⟨howners, hfound, hmem⟩ := handlerPositions_eq_ok hpositions
    have hlisted : t.handlersOf region = first :: others :=
      (t.handlersOf_eq_iff (by simp)).mpr hkind
    have hbody : ∀ {id}, id ∈ t.postOrder Tree.root ↔ id ∈ t.preOrder Tree.root :=
      (wf.postOrder_perm _).mem_iff
    obtain rfl := pure_eq_ok.mp h
    refine Or.inr ⟨_, rfl, rfl, by simp [hlisted], hlisted, ?_, ?_, ?_⟩
    · rw [Tree.OwnsHandlers, hlisted]
      exact howners
    · rw [Tree.partsOf, hlisted, List.forall_mem_cons]
      exact ⟨hregion, fun part hpart => hbody.mp (hmem part hpart)⟩
    · rw [Tree.completion, Tree.partsOf, hlisted, List.map_cons, List.foldl_cons, Nat.zero_max, hfound,
        List.idxOf_eq_getD_idxOf? region]
      obtain ⟨own, hown⟩ := Option.isSome_iff_exists.mp (List.isSome_idxOf?.mpr (hbody.mpr hregion))
      rw [hown, Option.getD_some, Option.getD_some]
  case h_2 hother =>
    refine Or.inl ⟨(Except.ok.inj h).symm, ?_⟩
    cases hlisted : t.handlersOf region with
    | nil => rfl
    | cons first others => exact absurd ((t.handlersOf_eq_iff (by simp)).mp hlisted) (hother _ _)

/-- The protections are those of the protected regions of the body, in the order of their
completion. -/
theorem protections_eq_ok (wf : t.WellFormed) {found : List Protection}
    (h : protections t = .ok found) :
    (∀ protection ∈ found, Protects t protection) ∧
      (found.map Protection.region).Perm t.protectedRegions ∧
        found.Pairwise fun a b => a.completed ≤ b.completed := by
  obtain ⟨options, hoptions, h⟩ := bind_eq_ok.mp h
  obtain rfl := pure_eq_ok.mp h
  have hfound : ∀ regions options, (∀ region ∈ regions, region ∈ t.preOrder Tree.root) →
      List.Forall₂ (fun region out => protection? t (t.postOrder Tree.root) region = .ok out)
        regions options →
      (∀ protection ∈ options.filterMap id, Protects t protection) ∧
        (options.filterMap id).map Protection.region =
          regions.filter fun id => !(t.handlersOf id).isEmpty := by
    intro regions options hbody hpairs
    induction hpairs with
    | nil => simp
    | @cons region out regions options hout _ ih =>
      rw [List.forall_mem_cons] at hbody
      obtain ⟨hprotects, hregions⟩ := ih hbody.2
      rcases protection?_eq_none_or wf hbody.1 hout with
        ⟨rfl, hnone⟩ | ⟨protection, rfl, rfl, hsome, hprotection⟩
      · rw [List.filterMap_cons_none rfl, List.filter_cons_of_neg (by simp [hnone])]
        exact ⟨hprotects, hregions⟩
      · rw [List.filterMap_cons_some (f := id) rfl, List.filter_cons_of_pos (by simpa using hsome),
          List.map_cons, hregions]
        exact ⟨List.forall_mem_cons.mpr ⟨hprotection, hprotects⟩, rfl⟩
  obtain ⟨hprotects, hregions⟩ := hfound _ _ (fun _ hregion => hregion) (mapM_eq_ok.mp hoptions)
  have hsort := List.mergeSort_perm (options.filterMap id) fun a b => decide (a.completed ≤ b.completed)
  refine ⟨fun protection hmem => hprotects protection (hsort.mem_iff.mp hmem), ?_, ?_⟩
  · rw [Tree.protectedRegions, ← hregions]
    exact hsort.map _
  · refine (List.pairwise_mergeSort (fun a b c => ?_) (fun a b => ?_) _).imp fun hle =>
      of_decide_eq_true hle
    · simpa using Nat.le_trans
    · simpa using Nat.le_total a.completed b.completed

/-! ## Clauses -/

/-- The emitted clauses are those of the protected regions in the order of their completion, for every
region in the order of its list. -/
theorem clauses_eq_ok (wf : t.WellFormed) {clauses : List Clause} (h : p.clauses t = .ok clauses) :
    ∃ regions : List NodeId, regions.Perm t.protectedRegions ∧
      regions.Pairwise (fun a b => t.completion a ≤ t.completion b) ∧
        (∀ region ∈ regions, t.OwnsHandlers region ∧
          ∀ part ∈ t.partsOf region, part ∈ t.preOrder Tree.root) ∧
          List.Forall₂ (fun (pair : NodeId × NodeId) clause => ∃ extent,
              p.extent t pair.1 = .ok extent ∧ p.clause t extent pair.2 = .ok clause)
            (t.listings regions) clauses := by
  obtain ⟨found, hfound, h⟩ := bind_eq_ok.mp h
  obtain ⟨parts, hparts, h⟩ := bind_eq_ok.mp h
  obtain ⟨hprotects, hperm, hsorted⟩ := protections_eq_ok wf hfound
  refine ⟨found.map Protection.region, hperm, ?_, ?_, ?_⟩
  · rw [List.pairwise_map]
    refine hsorted.imp_of_mem fun ha hb hle => ?_
    rwa [← (hprotects _ ha).completed, ← (hprotects _ hb).completed]
  · rw [List.forall_mem_map]
    exact fun protection hmem => ⟨(hprotects protection hmem).owns, (hprotects protection hmem).parts⟩
  · rw [← pure_eq_ok.mp h, Tree.listings, List.flatMap_map, List.flatMap_def]
    refine List.rel_flatten (List.forall₂_map_left_iff.mpr ?_)
    refine forall₂_imp_of_mem (mapM_eq_ok.mp hparts) fun protection hprotection part _ hpart => ?_
    obtain ⟨extent, hextent, hpart⟩ := bind_eq_ok.mp hpart
    rw [(hprotects protection hprotection).handlers, List.forall₂_map_left_iff]
    exact (mapM_eq_ok.mp hpart).imp fun handler clause hclause => ⟨extent, hextent, hclause⟩

end Plan

namespace Tree.Lowers

variable {t : Tree} {p : Plan} {y : Body} (h : t.Lowers p y)

include h

/-! ## What the clauses tell -/

/-- The bytes of a region are those of the places that it covers. -/
theorem occupies_of_extent (wf : t.WellFormed) {block : NodeId} {extent : Nat × Nat}
    (hextent : p.extent t block = .ok extent) :
    t.Occupies y block (extent.1, extent.1 + extent.2) ∧
      (UInt32.ofNat extent.1).toNat = extent.1 ∧ (UInt32.ofNat extent.2).toNat = extent.2 := by
  obtain ⟨first, last, hcovers, hlt, hle, hstart, hstop, hlimit⟩ := h.exists_covered wf hextent
  exact ⟨⟨first, last, hcovers, hlt, hle, hstart.symm, hstop.symm⟩,
    UInt32.toNat_ofNat_of_lt' (by omega), UInt32.toNat_ofNat_of_lt' (by omega)⟩

/-- The clause that is emitted for a handler tells the handler. -/
theorem tellsHandler_of_clause (wf : t.WellFormed) {region handler : NodeId} {extent : Nat × Nat}
    {clause : Clause} (hextent : p.extent t region = .ok extent)
    (howner : ∃ kind filterBlock catchType,
      t.blockKind? handler = some (.handler kind (some region) filterBlock catchType))
    (hclause : p.clause t extent handler = .ok clause) :
    t.TellsHandler (t.Occupies y) region handler clause ∧ clause.Plain := by
  obtain ⟨kind, filterBlock, catchType, hhandler⟩ := howner
  obtain ⟨_, _, ⟨_, _, hkind, hcatchType⟩, hflags, ⟨htryOffset, htryLength⟩, own, hown, hoffset,
    hlength, hrest⟩ := Plan.clause_eq_ok_iff.mp hclause
  rw [hhandler, Option.some.injEq, BlockKind.handler.injEq] at hkind
  obtain ⟨rfl, -, rfl, rfl⟩ := hkind
  obtain rfl : clause.kind = kind := by rw [Clause.kind, hflags, HandlerKind.ofFlags_flags]
  have hfilterOf : t.filterOf? handler = filterBlock := by rw [filterOf?, hhandler]
  obtain ⟨htry, htryOffset', htryLength'⟩ := h.occupies_of_extent wf hextent
  obtain ⟨hrange, hoffset', hlength'⟩ := h.occupies_of_extent wf hown
  rw [← htryOffset] at htryOffset'
  rw [← htryLength] at htryLength'
  rw [← hoffset] at hoffset'
  rw [← hlength] at hlength'
  refine ⟨⟨⟨catchType, by rw [hhandler, hfilterOf], fun hcatch => by rw [hcatchType, if_pos hcatch]⟩,
    by rwa [Clause.tryRange, htryOffset', htryLength'],
    by rwa [Clause.handlerRange, hoffset', hlength'], fun hfilter => ?_⟩,
    ⟨hflags, fun hother => by rw [hcatchType, if_neg hother], fun hother => ?_⟩⟩
  · rw [if_pos hfilter] at hrest
    obtain ⟨block, filter, rfl, hfilterExtent, hend, hstart⟩ := hrest
    obtain ⟨hfilterRange, hstart', -⟩ := h.occupies_of_extent wf hfilterExtent
    exact ⟨block, _, hfilterOf, hstart, by rwa [hstart', hoffset', ← hend]⟩
  · rwa [if_neg hother] at hrest

/-- The clauses tell the handlers that the regions of the body list, one after the other. -/
theorem exists_tells (wf : t.WellFormed) : ∃ regions : List NodeId, regions.Perm t.protectedRegions ∧
    List.Forall₂ (fun (pair : NodeId × NodeId) clause => pair.2 ∈ t.handlersOf pair.1 ∧
      t.TellsHandler (t.Occupies y) pair.1 pair.2 clause ∧ clause.Plain) (t.listings regions) y.clauses := by
  obtain ⟨regions, hperm, -, hparts, hclauses⟩ := Plan.clauses_eq_ok wf h.clauses
  refine ⟨regions, hperm, forall₂_imp_of_mem hclauses ?_⟩
  rintro pair hpair clause - ⟨extent, hextent, hclause⟩
  obtain ⟨hregion, hhandler⟩ := t.mem_listings_iff.mp hpair
  exact ⟨hhandler,
    h.tellsHandler_of_clause wf hextent ((hparts pair.1 hregion).1 pair.2 hhandler) hclause⟩

end Tree.Lowers

end MethodIL
