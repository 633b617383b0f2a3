import Mathlib
import MethodIL.Proofs.Lowering.Presented
import MethodIL.Proofs.Lowering.Protections
set_option autoImplicit false

/-!
# The exception table of a presented body

The protected regions of a presented body list the handlers of its clauses, each once, so lowering
emits one clause for every clause of the body, in an order of its own.  The blocks of a handler cover
the instructions that the ranges of its clause are made of, and that is what the emitted ranges are
made of, too.
-/

namespace MethodIL

open Outcome

/-- Grouping items by their owners, each of which is listed once, only changes the order. -/
theorem flatMap_filter_perm {α β : Type} [DecidableEq β] {owner : α → Option β} {owners : List β}
    {items : List α} (hnodup : owners.Nodup)
    (howner : ∀ a ∈ items, ∃ b ∈ owners, owner a = some b) :
    (owners.flatMap fun b => items.filter fun a => owner a = some b).Perm items := by
  induction items with
  | nil => simp
  | cons a items ih =>
    have hrest := ih fun x hx => howner x (List.mem_cons_of_mem a hx)
    obtain ⟨b, hb, ha⟩ := howner a List.mem_cons_self
    obtain ⟨before, after, rfl⟩ := List.append_of_mem hb
    rw [List.nodup_middle, List.nodup_cons, List.mem_append, not_or] at hnodup
    -- only the group of the owner has grown
    have hother : ∀ others : List β, b ∉ others →
        (others.flatMap fun b => (a :: items).filter fun a => owner a = some b) =
          others.flatMap fun b => items.filter fun a => owner a = some b := by
      intro others hothers
      refine List.flatMap_congr fun other hother => List.filter_cons_of_neg ?_
      rw [ha, decide_eq_true_eq, Option.some.injEq]
      rintro rfl
      exact hothers hother
    rw [List.flatMap_append, List.flatMap_cons] at hrest ⊢
    rw [hother before hnodup.1.1, hother after hnodup.1.2,
      List.filter_cons_of_pos (by rw [ha, decide_eq_true_eq]), List.cons_append]
    exact List.perm_middle.trans (hrest.cons a)

namespace Plan

variable {p : Plan} {t : Tree}

/-! ## Positions -/

/-- What is listed in an order has a position there. -/
theorem exists_positions {order parts : List NodeId} (h : ∀ part ∈ parts, part ∈ order) :
    ∃ found, positions order parts = .ok found := by
  refine exists_mapM_eq_ok fun part hpart => ?_
  obtain ⟨position, hposition⟩ := Option.isSome_iff_exists.mp (List.isSome_idxOf?.mpr (h part hpart))
  exact ⟨position, by rw [hposition]⟩

theorem exists_handlerPositions {order : List NodeId} {region : NodeId} {listed : List NodeId}
    (h : ∀ handler ∈ listed, ∃ parts, handlerParts t region handler = .ok parts ∧
      ∀ part ∈ parts, part ∈ order) :
    ∃ found, handlerPositions t order region listed = .ok found := by
  induction listed with
  | nil => exact ⟨[], rfl⟩
  | cons handler listed ih =>
    obtain ⟨parts, hparts, hmem⟩ := h handler List.mem_cons_self
    obtain ⟨own, hown⟩ := exists_positions hmem
    obtain ⟨others, hothers⟩ := ih fun other hother => h other (List.mem_cons_of_mem handler hother)
    refine ⟨own ++ others, ?_⟩
    rw [handlerPositions]
    exact bind_eq_ok.mpr ⟨parts, hparts, bind_eq_ok.mpr ⟨own, hown,
      bind_eq_ok.mpr ⟨others, hothers, rfl⟩⟩⟩

/-- The starts of a plan are in order. -/
theorem starts_mono (hplan : Plan.ofTree t = .ok p) {a b : Nat} (hab : a ≤ b)
    (hb : b ≤ p.slots.length) : p.starts.getD a 0 ≤ p.starts.getD b 0 := by
  obtain ⟨-, -, pieces, hpieces, hrelaxed, -⟩ := Plan.ofTree_eq_ok_iff.mp hplan
  have hlength : (Layout.sizes pieces p.relaxed.forms).length = p.slots.length := by
    rw [Layout.length_sizes (by rw [hrelaxed, Layout.length_relax_forms]), mapM_length hpieces]
  rw [Plan.starts, hrelaxed, Layout.relax_starts, ← hrelaxed, Layout.getD_starts _ _ (by omega),
    Layout.getD_starts _ _ (by omega)]
  exact Layout.offset_mono _ hab

end Plan

/-! ## Protections -/

namespace Tree.Carries

variable {t : Tree} {x : Body} {clauses : List Clause} {handlers : List NodeId}
  (h : t.Carries x clauses handlers)

include h

theorem exists_holds {handler : NodeId} (hmem : handler ∈ handlers) :
    ∃ clause ∈ clauses, t.HoldsClause x clause handler :=
  exists_of_mem_right h.clauses hmem

theorem mem_postOrder_of_covers {id : NodeId} {first last : Nat} (hcovers : t.Covers id first last) :
    id ∈ t.postOrder root :=
  (h.wellFormed.postOrder_perm root).mem_iff.mpr (h.wellFormed.mem_body_of_covers hcovers)

/-- A handler and its filter block stand in the body. -/
theorem exists_handlerParts {region handler : NodeId} (hmem : handler ∈ handlers)
    (howner : t.protectedBy? handler = some region) :
    ∃ parts, Plan.handlerParts t region handler = .ok parts ∧ ∀ part ∈ parts, part ∈ t.postOrder root := by
  obtain ⟨clause, -, hregion, hhandler, -, -, -, hcovers, -, hfilter⟩ := h.exists_holds hmem
  rw [protectedBy?, hhandler] at howner
  obtain rfl := Option.some.inj howner
  refine ⟨_, Plan.handlerParts_eq_ok_iff.mpr ⟨_, _, _, hhandler, rfl⟩, ?_⟩
  rw [List.forall_mem_cons]
  refine ⟨h.mem_postOrder_of_covers hcovers, fun block hblock => ?_⟩
  cases hfilter with
  | absent => exact absurd hblock (by simp)
  | present _ _ _ _ hcovers =>
    obtain rfl := List.mem_singleton.mp hblock
    exact h.mem_postOrder_of_covers hcovers

/-- The protections of the body can be told. -/
theorem exists_protections : ∃ protections, Plan.protections t = .ok protections := by
  obtain ⟨found, hfound⟩ : ∃ found,
      (t.preOrder root).mapM (Plan.protection? t (t.postOrder root)) = .ok found := by
    refine exists_mapM_eq_ok fun region _ => ?_
    unfold Plan.protection?
    split
    case h_1 first others hkind =>
      obtain ⟨found, hfound⟩ : ∃ found, Plan.handlerPositions t (t.postOrder root) region
          (first :: others) = .ok found := by
        refine Plan.exists_handlerPositions fun handler hhandler => ?_
        rw [h.links _ _ hkind, List.mem_filter, decide_eq_true_eq] at hhandler
        exact h.exists_handlerParts hhandler.1 hhandler.2
      exact ⟨_, bind_eq_ok.mpr ⟨found, hfound, rfl⟩⟩
    case h_2 => exact ⟨none, rfl⟩
  exact ⟨_, bind_eq_ok.mpr ⟨found, hfound, rfl⟩⟩

/-- What a region lists are the handlers that protect it. -/
theorem handlersOf_eq {region : NodeId} (hne : t.handlersOf region ≠ []) :
    t.handlersOf region = handlers.filter fun handler => t.protectedBy? handler = some region :=
  h.links _ _ ((t.handlersOf_eq_iff hne).mp rfl)

/-- What a handler protects lists it. -/
theorem mem_handlersOf {region handler : NodeId} (hmem : handler ∈ handlers)
    (howner : t.protectedBy? handler = some region) : handler ∈ t.handlersOf region := by
  obtain ⟨_, _, _, _, listed, _, howner', hregion⟩ := h.exists_of_mem hmem
  obtain rfl := Option.some.inj (howner.symm.trans howner')
  rw [handlersOf, hregion, h.links region listed hregion, List.mem_filter, decide_eq_true_eq]
  exact ⟨hmem, howner⟩

/-- The protected regions list the handlers of the clauses, each of them once. -/
theorem flatMap_handlersOf_perm {regions : List NodeId} (hregions : regions.Perm t.protectedRegions) :
    (∀ region ∈ regions, t.handlersOf region ≠ []) ∧ regions.Nodup ∧
      (regions.flatMap t.handlersOf).Perm handlers := by
  have hne : ∀ region ∈ regions, t.handlersOf region ≠ [] := fun region hregion => by
    simpa using (List.mem_filter.mp (hregions.mem_iff.mp hregion)).2
  have hnodup : regions.Nodup :=
    hregions.nodup_iff.mpr ((h.wellFormed.nodup_preOrder root).filter _)
  refine ⟨hne, hnodup, ?_⟩
  rw [List.flatMap_congr fun region hregion => h.handlersOf_eq (hne region hregion)]
  refine flatMap_filter_perm hnodup fun handler hmem => ?_
  obtain ⟨clause, -, -, hhandler, -, hcovers, -⟩ := h.exists_holds hmem
  have howner := (by rw [protectedBy?, hhandler] : t.protectedBy? handler = some _)
  have hlisted := List.ne_nil_of_mem (h.mem_handlersOf hmem howner)
  refine ⟨_, hregions.mem_iff.mpr (List.mem_filter.mpr
    ⟨h.wellFormed.mem_body_of_covers hcovers, ?_⟩), howner⟩
  simpa using hlisted

end Tree.Carries

/-! ## Clauses -/

/-- A block that covers instructions has an extent. -/
theorem Plan.extent_of_covers {p : Plan} {t : Tree} (hplan : Plan.ofTree t = .ok p) {id : NodeId}
    {first last : Nat} (hcovers : t.Covers id first last) (hlt : first < last) :
    p.extent t id = .ok (p.starts.getD first 0, p.starts.getD last 0 - p.starts.getD first 0) := by
  rw [Tree.Covers, ← (Plan.ofTree_eq_ok_iff.mp hplan).1] at hcovers
  exact Plan.extent_eq_ok_iff.mpr ⟨first, last, hcovers, hlt, rfl⟩

/-- A handler that stands for a clause has a clause. -/
theorem Tree.HoldsClause.exists_clause {t : Tree} {x : Body} {clause : Clause} {handler : NodeId}
    {p : Plan} (h : t.HoldsClause x clause handler) (hplan : Plan.ofTree t = .ok p)
    (hcount : p.slots.length = x.instructions.length) (region : Nat × Nat) :
    ∃ emitted, p.clause t region handler = .ok emitted := by
  obtain @⟨_, _, filterBlock, catchType, _, _, first, last, -, hhandler, -, -, -, hcovers, hspans,
    hfilter⟩ := h
  have hextent := Plan.extent_of_covers hplan hcovers hspans.1
  obtain ⟨filterOffset, hoffset⟩ : ∃ filterOffset : Option UInt32,
      if clause.kind = .filterClause then
        ∃ block filter, filterBlock = some block ∧ p.extent t block = .ok filter ∧
          filter.1 + filter.2 = p.starts.getD first 0 ∧ filterOffset = some (.ofNat filter.1)
      else filterOffset = none := by
    cases hfilter with
    | absent hkind => exact ⟨none, by rw [if_neg hkind]⟩
    | present hkind _ _ hlt hfilterCovers =>
      have hfilterExtent := Plan.extent_of_covers hplan hfilterCovers hlt
      -- the filter ends where the handler starts
      have hmono := Plan.starts_mono hplan (Nat.le_of_lt hlt)
        (by rw [hcount]; exact Nat.le_trans (Nat.le_of_lt hspans.1) hspans.2.1)
      exact ⟨_, by rw [if_pos hkind]; exact ⟨_, _, rfl, hfilterExtent, Nat.add_sub_cancel' hmono, rfl⟩⟩
  exact ⟨⟨clause.kind.flags, .ofNat region.1, .ofNat region.2, .ofNat (p.starts.getD first 0),
    .ofNat (p.starts.getD last 0 - p.starts.getD first 0), filterOffset,
    if clause.kind = .catchClause then catchType else none⟩, Plan.clause_eq_ok_iff.mpr
      ⟨clause.kind, filterBlock, ⟨_, _, hhandler, rfl⟩, rfl, ⟨rfl, rfl⟩, _, hextent, rfl, rfl, hoffset⟩⟩

/-- The exception table is emitted. -/
theorem Tree.Carries.exists_clauses {t : Tree} {x : Body} {clauses : List Clause}
    {handlers : List NodeId} {p : Plan} (h : t.Carries x clauses handlers)
    (hplan : Plan.ofTree t = .ok p) (hcount : p.slots.length = x.instructions.length) :
    ∃ emitted, p.clauses t = .ok emitted := by
  obtain ⟨protections, hprotections⟩ := h.exists_protections
  obtain ⟨parts, hparts⟩ : ∃ parts, protections.mapM (p.clausesOf t) = .ok parts := by
    refine exists_mapM_eq_ok fun protection hprotection => ?_
    obtain ⟨-, hnonempty, hkind⟩ := Plan.mem_protections hprotections hprotection
    have hholds : ∀ handler ∈ protection.handlers, ∃ clause ∈ clauses,
        t.HoldsClause x clause handler ∧ t.protectedBy? handler = some protection.region := by
      intro handler hmem
      rw [h.links _ _ hkind, List.mem_filter, decide_eq_true_eq] at hmem
      obtain ⟨clause, hclause, hholds⟩ := h.exists_holds hmem.1
      exact ⟨clause, hclause, hholds, hmem.2⟩
    -- any of the handlers tells that the region covers instructions
    obtain ⟨extent, hextent⟩ : ∃ extent, p.extent t protection.region = .ok extent := by
      obtain ⟨handler, hmem⟩ := List.exists_mem_of_ne_nil _ hnonempty
      obtain ⟨clause, -, ⟨-, hhandler, -, hcovers, hspans, -⟩, howner⟩ := hholds handler hmem
      rw [protectedBy?, hhandler] at howner
      obtain rfl := Option.some.inj howner
      exact ⟨_, Plan.extent_of_covers hplan hcovers hspans.1⟩
    obtain ⟨emitted, hemitted⟩ := exists_mapM_eq_ok fun handler hmem => by
      obtain ⟨clause, -, hclause, -⟩ := hholds handler hmem
      exact hclause.exists_clause hplan hcount extent
    exact ⟨emitted, bind_eq_ok.mpr ⟨extent, hextent, hemitted⟩⟩
  exact ⟨parts.flatten, bind_eq_ok.mpr ⟨protections, hprotections, bind_eq_ok.mpr ⟨parts, hparts, rfl⟩⟩⟩

/-! ## What the clauses tell -/

namespace Tree

variable {t : Tree} {x y : Body} {p : Plan}

/-- A handler that stands for a clause is told by it. -/
theorem HoldsClause.tellsHandler {clause : Clause} {handler : NodeId}
    (h : t.HoldsClause x clause handler) : ∃ region,
      t.protectedBy? handler = some region ∧
        t.TellsHandler (fun block range => t.Occupies x block (x.clip range)) region handler clause := by
  obtain @⟨region, _, filterBlock, catchType, first, last, first', last', -, hhandler, hcatch,
    htryCovers, htrySpans, hcovers, hspans, hfilter⟩ := h
  have hfilterOf : t.filterOf? handler = filterBlock := by rw [filterOf?, hhandler]
  refine ⟨region, by rw [protectedBy?, hhandler],
    ⟨catchType, by rw [hhandler, hfilterOf], fun hkind => (hcatch hkind).symm⟩,
    ⟨first, last, htryCovers, htrySpans⟩, ⟨first', last', hcovers, hspans⟩, fun hkind => ?_⟩
  cases hfilter with
  | absent hother => exact absurd hkind hother
  | present _ hstart hfirst hlt hfilterCovers =>
    refine ⟨_, _, hfilterOf, hstart, _, _, hfilterCovers, hlt,
      Nat.le_trans (Nat.le_of_lt hspans.1) hspans.2.1, hfirst, ?_⟩
    -- the filter ends where the handler starts, so in the code
    have hend : clause.handlerOffset.toNat ≤ x.codeSize := by
      rw [← hspans.2.2.1, Body.codeSize_eq]
      exact x.start_mono (Nat.le_trans (Nat.le_of_lt hspans.1) hspans.2.1)
    rw [Body.clip, Nat.min_eq_left hend, hspans.2.2.1]

/-- The ranges of the clauses that a tree carries are those of blocks. -/
theorem Carries.exists_occupies {clauses : List Clause} {handlers : List NodeId}
    (h : t.Carries x clauses handlers) {c : Clause} (hc : c ∈ clauses) {r : Nat × Nat}
    (hr : r ∈ c.ranges) : ∃ block, t.Occupies x block (x.clip r) := by
  obtain ⟨_, -, hholds⟩ := exists_of_mem_right h.clauses.flip hc
  obtain ⟨_, -, htells⟩ := hholds.tellsHandler
  exact htells.exists_of_mem_ranges hr

/-- The ranges of the clauses that a tree carries are nested or apart. -/
theorem Carries.laminar {clauses : List Clause} {handlers : List NodeId}
    (h : t.Carries x clauses handlers) : ∀ c ∈ clauses, ∀ r ∈ c.ranges, ∀ d ∈ clauses, ∀ s ∈ d.ranges,
      Laminar (x.clip r) (x.clip s) := by
  intro c hc r hr d hd s hs
  obtain ⟨_, hr⟩ := h.exists_occupies hc hr
  obtain ⟨_, hs⟩ := h.exists_occupies hd hs
  exact hr.laminar h.wellFormed hs

/-- Clauses of two bodies that tell the same handler say the same. -/
theorem TellsHandler.sameClause {clause emitted : Clause} {region handler : NodeId}
    (h : t.TellsHandler (fun block range => t.Occupies x block (x.clip range)) region handler clause)
    (h' : t.TellsHandler (t.Occupies y) region handler emitted) : x.SameClause y clause emitted := by
  obtain ⟨⟨catchType, hkind, hcatch⟩, ⟨first, last, htryCovers, htrySpans⟩,
    ⟨first₁, last₁, hcovers, hspans⟩, hfilter⟩ := h
  obtain ⟨⟨catchType', hkind', hcatch'⟩, ⟨first', last', htryCovers', htrySpans'⟩,
    ⟨first₁', last₁', hcovers', hspans'⟩, hfilter'⟩ := h'
  rw [hkind, Option.some.injEq, BlockKind.handler.injEq] at hkind'
  obtain ⟨hsame, -, -, rfl⟩ := hkind'
  obtain ⟨rfl, rfl⟩ := htryCovers.unique htryCovers'
  obtain ⟨rfl, rfl⟩ := hcovers.unique hcovers'
  refine ⟨hsame.symm, fun hcase => ?_, ⟨_, _, htrySpans, htrySpans'⟩, ⟨_, _, hspans, hspans'⟩,
    fun hcase => ?_⟩
  · rw [hcatch hcase, hcatch' (hsame ▸ hcase)]
  · obtain ⟨block, start, hblock, hstart, place, _, hfilterCovers, hlt, hle, hplace, -⟩ := hfilter hcase
    obtain ⟨block', start', hblock', hstart', place', _, hfilterCovers', -, -, hplace', -⟩ :=
      hfilter' (hsame ▸ hcase)
    obtain rfl := Option.some.inj (hblock.symm.trans hblock')
    obtain ⟨rfl, -⟩ := hfilterCovers.unique hfilterCovers'
    exact ⟨place, start, start', Nat.lt_of_lt_of_le hlt hle, hstart, hplace, hstart', hplace'⟩

namespace Carries

variable {handlers : List NodeId} (h : t.Carries x x.clauses handlers) (hlowers : t.Lowers p y)

include h hlowers

/-- The handlers that the protected regions list are emitted, in the order in which these are completed,
as clauses that say the same as the clauses that the handlers stand for. -/
theorem exists_emitted : ∃ regions : List NodeId, regions.Perm t.protectedRegions ∧
    regions.Pairwise (fun a b => t.completion a ≤ t.completion b) ∧
      (∀ region ∈ regions, ∀ part ∈ t.partsOf region, part ∈ t.preOrder root) ∧
        List.Forall₂ (fun handler emitted => ∀ clause, t.HoldsClause x clause handler →
          x.SameClause y clause emitted) (regions.flatMap t.handlersOf) y.clauses := by
  obtain ⟨regions, hregions, hsorted, hparts, hclauses⟩ :=
    Plan.clauses_eq_ok h.wellFormed hlowers.clauses
  refine ⟨regions, hregions, hsorted, fun region hregion => (hparts region hregion).2, ?_⟩
  rw [← t.map_snd_listings, List.forall₂_map_left_iff]
  refine forall₂_imp_of_mem hclauses ?_
  rintro ⟨region, handler⟩ hpair emitted - ⟨extent, hextent, hemitted⟩ clause hholds
  obtain ⟨hregion, hhandler⟩ := t.mem_listings_iff.mp hpair
  obtain ⟨region', howner, htells⟩ := hholds.tellsHandler
  have howns := (hparts region hregion).1 handler hhandler
  obtain rfl : region' = region := by
    obtain ⟨_, _, _, hkind⟩ := howns
    rw [protectedBy?, hkind] at howner
    exact (Option.some.inj howner).symm
  exact htells.sameClause (hlowers.tellsHandler_of_clause h.wellFormed hextent howns hemitted).1

/-- The emitted table holds the clauses of the body, each of them once. -/
theorem sameClauses :
    ∃ clauses, clauses.Perm y.clauses ∧ List.Forall₂ (x.SameClause y) x.clauses clauses := by
  obtain ⟨regions, hregions, -, -, hemitted⟩ := h.exists_emitted hlowers
  obtain ⟨-, -, hperm⟩ := h.flatMap_handlersOf_perm hregions
  obtain ⟨clauses, hclauses, hsame⟩ := List.perm_comp_forall₂ hperm.symm hemitted
  exact ⟨clauses, hsame, (forall₂_compose h.clauses hclauses).imp
    fun _ _ ⟨_, hholds, hsays⟩ => hsays _ hholds⟩

end Carries

end Tree

end MethodIL
