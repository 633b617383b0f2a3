import Mathlib
import MethodIL.Proofs.Lifting.Refusal
import MethodIL.Proofs.Lowering.Settled
set_option autoImplicit false

/-!
# Shared handlers

Two clauses should not have handlers that cover the same instructions.  The second one is refused if its
range is wrapped into the handler block of the first, and it is as long as that block is the innermost one
for the range.  When it is made, it is the innermost, whatever was there before.  From then on only a
clause that stands between the two can hide it, by wrapping a protected region or a filter of the same
extent right inside it.  So a body with a shared handler is refused, unless such a clause stands in
between; then it is lifted in spite of the shared handler.
-/

namespace MethodIL

open Outcome

namespace BlockKind

/-- The block is a handler. -/
def isHandler : BlockKind → Bool
  | .handler .. => true
  | _ => false

theorem sameVariant_newHandler (kind : BlockKind) (own : HandlerKind) :
    kind.sameVariant (.newHandler own) = kind.isHandler := by
  cases kind <;> rfl

theorem isHandler_eq {old kind : BlockKind} (h : old.sameVariant kind = true) :
    kind.isHandler = old.isHandler := by
  cases old <;> cases kind <;> first | rfl | exact absurd h (by simp [sameVariant])

end BlockKind

namespace Body

/-- The places of the instructions that start in a range. -/
def covered (x : Body) (range : Nat × Nat) : List Nat :=
  (List.range x.instructions.length).filter fun k => range.1 ≤ x.start k ∧ x.start k < range.2

variable {x : Body} (hpos : ∀ i ∈ x.instructions, 0 < i.size.toNat)

include hpos

/-- What lies behind the end of the code covers nothing. -/
theorem covered_clip (r : Nat × Nat) : x.covered (x.clip r) = x.covered r := by
  refine List.filter_congr fun k hk => ?_
  have hlt : x.start k < x.codeSize := by
    rw [codeSize_eq, start_lt_iff hpos (Nat.le_of_lt (List.mem_range.mp hk)) (Nat.le_refl _)]
    exact List.mem_range.mp hk
  simp only [clip, Nat.lt_min, hlt, and_true]

theorem Spans.mem_covered_iff {r : Nat × Nat} {first last k : Nat} (h : x.Spans r.1 r.2 first last) :
    k ∈ x.covered r ↔ first ≤ k ∧ k < last := by
  obtain ⟨hlt, hle, hfirst, hlast⟩ := h
  rw [covered, List.mem_filter, List.mem_range, decide_eq_true_eq, ← hfirst, ← hlast]
  constructor
  · rintro ⟨hk, hstart, hstop⟩
    rw [start_lt_iff hpos (Nat.le_of_lt hk) hle] at hstop
    refine ⟨Nat.le_of_not_lt fun hlt' => ?_, hstop⟩
    rw [← start_lt_iff hpos (Nat.le_of_lt hk) (by omega)] at hlt'
    omega
  · rintro ⟨hstart, hstop⟩
    exact ⟨by omega, x.start_mono hstart, (start_lt_iff hpos (by omega) hle).mpr hstop⟩

/-- Ranges that are made of whole instructions are told by what they cover. -/
theorem Spans.eq_of_covered {r s : Nat × Nat} {first last first' last' : Nat}
    (h : x.Spans r.1 r.2 first last) (h' : x.Spans s.1 s.2 first' last')
    (heq : x.covered r = x.covered s) : r = s := by
  have hiff : ∀ k, first ≤ k ∧ k < last ↔ first' ≤ k ∧ k < last' := fun k => by
    rw [← h.mem_covered_iff hpos, ← h'.mem_covered_iff hpos, heq]
  obtain ⟨hlt, -, hfirst, hlast⟩ := h
  obtain ⟨hlt', -, hfirst', hlast'⟩ := h'
  have hstart := hiff first
  have hstart' := hiff first'
  have hstop := hiff (last - 1)
  have hstop' := hiff (last' - 1)
  obtain rfl : first = first' := by omega
  obtain rfl : last = last' := by omega
  exact Prod.ext (hfirst.symm.trans hfirst') (hlast.symm.trans hlast')

end Body

namespace Tree

variable {t t' : Tree} {x : Body} {map : CodeMap} {clause : Clause}

/-! ## Spans -/

/-- A tree of the code of a body, still without labels, all of whose blocks span instructions. -/
def Spanned (t : Tree) (x : Body) : Prop := t.MadeFor x fun _ _ _ => True

theorem madeFor_ofCode : (ofCode x.header x.instructions).MadeFor x fun _ => x.HasRange [] := by
  refine ⟨wellFormed_ofCode x.header x.instructions, hasCode_ofCode, isLabel_ofCode,
    fun id kind first last hid hkind _ => ?_⟩
  rw [blockKind?_ofCode, if_neg hid] at hkind
  exact absurd hkind (by simp)

theorem spanned_ofCode : (ofCode x.header x.instructions).Spanned x :=
  madeFor_ofCode.imp fun _ _ _ _ => trivial

namespace Spanned

theorem wraps (h : t.Spanned x) (hmap : map.Maps x) {offset length : Nat} {span : Nat × Nat}
    {kind : BlockKind} {block : NodeId} {isNew : Bool} (hspan : map.span offset length = .ok span)
    (hwraps : Wraps t (instructionNode span.1) (instructionNode span.2) kind block isNew t') :
    t'.Spanned x :=
  (MadeFor.wraps h hmap hspan hwraps).imp fun _ _ _ _ => trivial

theorem ungroup (h : t.Spanned x) {block : NodeId} (hungroup : t.ungroup block = .ok t') :
    t'.Spanned x :=
  (MadeFor.ungroup h hungroup).imp fun _ _ _ _ => trivial

theorem wrapsHandler (h : t.Spanned x) (hmap : map.Maps x) {handlerSpan : Nat × Nat} {handler : NodeId}
    {filterBlock : Option NodeId}
    (hspan : map.span clause.handlerOffset.toNat clause.handlerLength.toNat = .ok handlerSpan)
    (hwraps : WrapsHandler map clause handlerSpan t handler filterBlock t') : t'.Spanned x := by
  cases hwraps with
  | alone _ hwrap => exact h.wraps hmap hspan hwrap
  | @filtered _ _ _ _ _ _ isNewScope _ _ _ _ _ _ _ _ _ hboth hfilter hscope hfilterWrap hhandlerWrap
      hungroup =>
    have hwrapped := ((h.wraps hmap hboth hscope).wraps hmap hfilter hfilterWrap).wraps hmap hspan
      hhandlerWrap
    cases isNewScope with
    | true => exact hwrapped.ungroup hungroup
    | false => exact hungroup ▸ hwrapped

theorem linksClause (h : t.Spanned x) {region handler : NodeId} {filterBlock : Option NodeId}
    (hlink : LinksClause clause region handler filterBlock t t') : t'.Spanned x := by
  refine MadeFor.links h (h.wellFormed.steps (steps_parts.linksClause hlink h.wellFormed))
    hlink.keepsVariants.linksOnly fun id kind hkind => ?_
  obtain ⟨old, hold, -⟩ := hlink.keepsVariants.exists_old hkind
  exact ⟨old, hold, fun _ _ => trivial⟩

theorem addsClause (h : t.Spanned x) (hmap : map.Maps x) (hadds : AddsClause map clause t t') :
    t'.Spanned x := by
  obtain ⟨htry, hspan, hwrapTry, hwrapHandler, -, hlink⟩ := hadds
  exact ((h.wraps hmap htry hwrapTry).wrapsHandler hmap hspan hwrapHandler).linksClause hlink

end Spanned

/-! ## What a handler seals -/

theorem Occupies.unique {id : NodeId} {r s : Nat × Nat} (h : t.Occupies x id r)
    (h' : t.Occupies x id s) : r = s := by
  obtain ⟨first, last, hcovers, -, -, hstart, hstop⟩ := h
  obtain ⟨first', last', hcovers', -, -, hstart', hstop'⟩ := h'
  obtain ⟨rfl, rfl⟩ := hcovers.unique hcovers'
  exact Prod.ext (hstart.symm.trans hstart') (hstop.symm.trans hstop')

theorem Dissolves.occupies_iff {gone id : NodeId} {range : Nat × Nat} (h : t'.Dissolves gone t)
    (hid : id ≠ gone) : t.Occupies x id range ↔ t'.Occupies x id range :=
  exists₂_congr fun _ _ => and_congr_left fun _ => h.covers_iff hid

theorem Dissolves.mem_preOrder_iff {gone block id : NodeId} (h : t'.Dissolves gone t)
    (hblock : block ≠ gone) (hid : id ≠ gone) : id ∈ t.preOrder block ↔ id ∈ t'.preOrder block := by
  have hfilter := h.preOrder_filter block
  rw [if_neg hblock] at hfilter
  rw [← hfilter, List.mem_filter, decide_eq_true_eq, and_iff_left hid]

/-- A handler block seals a range: it occupies the range, and of the blocks inside it only those that are
allowed do so as well. -/
structure Seals (t : Tree) (x : Body) (handler : NodeId) (range : Nat × Nat)
    (allowed : NodeId → BlockKind → Prop) : Prop where
  spanned : t.Spanned x
  isHandler : (t.blockKind? handler).any (·.isHandler) = true
  occupies : t.Occupies x handler range
  inside : ∀ id kind, id ∈ t.preOrder handler → t.blockKind? id = some kind →
    t.Occupies x id range → allowed id kind

/-- Only handlers are allowed. -/
def OnlyHandlers (_ : NodeId) (kind : BlockKind) : Prop := kind.isHandler = true

namespace Seals

variable {handler : NodeId} {range : Nat × Nat} {allowed allowed' : NodeId → BlockKind → Prop}

theorem imp (h : t.Seals x handler range allowed)
    (himp : ∀ id kind, allowed id kind → allowed' id kind) : t.Seals x handler range allowed' :=
  ⟨h.spanned, h.isHandler, h.occupies, fun id kind hid hkind hrange =>
    himp id kind (h.inside id kind hid hkind hrange)⟩

/-- A new node only matters if it occupies the range itself. -/
theorem of_dissolves (h : t.Seals x handler range allowed) {new : NodeId} (hd : t'.Dissolves new t)
    (hspanned : t'.Spanned x) (hnone : t.blockKind? new = none)
    (hisHandler : (t'.blockKind? handler).any (·.isHandler) = true)
    (hold : ∀ id kind, id ≠ new → t'.blockKind? id = some kind →
      ∃ old, t.blockKind? id = some old ∧ (allowed id old → allowed' id kind))
    (hnew : ∀ kind, t'.blockKind? new = some kind → t'.Occupies x new range → allowed' new kind) :
    t'.Seals x handler range allowed' := by
  have hne : handler ≠ new := by
    rintro rfl
    have hhandler := h.isHandler
    rw [hnone] at hhandler
    exact absurd hhandler (by simp)
  refine ⟨hspanned, hisHandler, (hd.occupies_iff hne).mp h.occupies, fun id kind hid hkind hrange => ?_⟩
  rcases eq_or_ne id new with rfl | hother
  · exact hnew kind hkind hrange
  · obtain ⟨old, hkind', himp⟩ := hold id kind hother hkind
    exact himp (h.inside id old ((hd.mem_preOrder_iff hne hother).mpr hid) hkind'
      ((hd.occupies_iff hother).mpr hrange))

/-- A block that is wrapped around a range only matters if it is new and the range is the sealed one. -/
theorem wraps (h : t.Seals x handler range allowed) (hmap : map.Maps x) {offset length : Nat}
    {span : Nat × Nat} {kind : BlockKind} {block : NodeId} {isNew : Bool}
    (hspan : map.span offset length = .ok span)
    (hwraps : Wraps t (instructionNode span.1) (instructionNode span.2) kind block isNew t') :
    t'.Seals x handler range fun id kind' => allowed id kind' ∨
      isNew = true ∧ id = block ∧ kind' = kind ∧ x.clip (offset, offset + length) = range := by
  have wf := h.spanned.wellFormed
  have hadds := hwraps.adds wf
  have hblock := occupies_of_wraps wf h.spanned.code hmap hspan hwraps
  have hspanned := h.spanned.wraps hmap hspan hwraps
  cases hwraps with
  | reused => exact h.imp fun _ _ => Or.inl
  | enclosed _ _ hsplit _ _ =>
    obtain ⟨hchildren, hhead, -⟩ := splitRun?_eq_some hsplit
    have hnone : t.blockKind? ⟨t.size⟩ = none := by rw [blockKind?, content?_size]
    refine h.of_dissolves (wf.dissolves_enclose kind hchildren
      (List.ne_nil_of_mem (List.mem_of_head? hhead))) hspanned hnone ?_ (fun id kind' hid hkind' => ?_)
      fun kind' hkind' hrange => ?_
    · obtain ⟨kind', hkind', hhandler⟩ := (Option.any_eq_true _ _).mp h.isHandler
      rw [hadds.blockKind?_of_some hkind', Option.any_some, hhandler]
    · exact ⟨kind', (hadds.blockKind?_or hkind').resolve_right fun hnew => hid hnew.1, Or.inl⟩
    · refine Or.inr ⟨rfl, rfl, ?_, hblock.unique hrange⟩
      refine ((hadds.blockKind?_or hkind').resolve_left fun hold => ?_).2
      rw [hnone] at hold
      exact absurd hold (by simp)

theorem ungroup (h : t.Seals x handler range allowed) {block : NodeId}
    (hungroup : t.ungroup block = .ok t') (hne : handler ≠ block) :
    t'.Seals x handler range fun id kind => id ≠ block ∧ allowed id kind := by
  have hspanned := h.spanned.ungroup hungroup
  obtain ⟨_, kind, parent, hkind, _, hparent, rfl⟩ := ungroup_eq_ok_iff.mp hungroup
  have hd := h.spanned.wellFormed.dissolves_splice hparent (by rw [hkind]; rfl)
  have hkinds : ∀ id, (t.splice parent block).blockKind? id = t.blockKind? id :=
    fun id => blockKind?_of_payload? (payload?_splice id)
  refine ⟨hspanned, by rw [hkinds]; exact h.isHandler, (hd.occupies_iff hne).mpr h.occupies,
    fun id kind' hid hkind' hrange => ?_⟩
  have hother : id ≠ block := by
    rintro rfl
    have hfilter := hd.preOrder_filter handler
    rw [if_neg hne] at hfilter
    rw [← hfilter, List.mem_filter] at hid
    exact absurd hid.2 (by simp)
  exact ⟨hother, h.inside id kind' ((hd.mem_preOrder_iff hne hother).mp hid) (hkinds id ▸ hkind')
    ((hd.occupies_iff hother).mp hrange)⟩

theorem linksClause (h : t.Seals x handler range OnlyHandlers) {region own : NodeId}
    {filterBlock : Option NodeId} (hlink : LinksClause clause region own filterBlock t t') :
    t'.Seals x handler range OnlyHandlers := by
  have hnone : t.blockKind? ⟨t.size⟩ = none := by rw [blockKind?, content?_size]
  have hspanned := h.spanned.linksClause hlink
  have hlinks := hlink.keepsVariants
  refine h.of_dissolves (hlinks.linksOnly.dissolves h.spanned.wellFormed hspanned.wellFormed) hspanned
    hnone ?_ (fun id kind _ hkind => ?_) fun kind hkind => ?_
  · have hvariant := hlinks.variant handler (.newHandler .catchClause)
    simp only [BlockKind.sameVariant_newHandler] at hvariant
    rw [hvariant, h.isHandler]
  · obtain ⟨old, hold, hsame⟩ := hlinks.exists_old hkind
    exact ⟨old, hold, (BlockKind.isHandler_eq hsame).trans⟩
  · obtain ⟨old, hold, -⟩ := hlinks.exists_old hkind
    rw [hnone] at hold
    exact absurd hold (by simp)

end Seals

/-- A new block around a range is the innermost block that covers the range. -/
theorem WellFormed.eq_of_wraps (wf : t.WellFormed) {start stop block id : NodeId} {kind kind' : BlockKind}
    {i j : Nat} (h : Wraps t start stop kind block true t') (hstart : t.instructions[i]? = some start)
    (hstop : t.instructions[j]? = some stop) (hle : i ≤ j) (hid : id ∈ t'.preOrder block)
    (hkind : t'.blockKind? id = some kind') (hcovers : t'.Covers id i (j + 1)) : id = block := by
  by_contra hne
  have hold := ((h.adds wf).blockKind?_or hkind).resolve_right fun hnew => hne hnew.1
  cases h with
  | @enclosed first last parent before run after hends hparent hsplit =>
    obtain ⟨hchildren, hhead, -⟩ := splitRun?_eq_some hsplit
    have hrun := List.ne_nil_of_mem (List.mem_of_head? hhead)
    have hd := wf.dissolves_enclose kind hchildren hrun
    -- the block stands above both ends of the range, so above the run
    have hcovers := (hd.covers_iff hne).mpr hcovers
    have hother := isInstruction_of_blockKind? hold
    have habove := wf.mem_ancestors_of_runEnds hends
      (wf.mem_ancestors_of_covers hcovers hother hstart (Nat.le_refl _) (Nat.lt_succ_of_le hle))
      (wf.mem_ancestors_of_covers hcovers hother hstop hle (Nat.lt_succ_self _))
    rw [wf.ancestors_of_parent hparent, List.mem_cons] at habove
    have hflat := wf.depth_le_of_mem_preOrder (wf.mem_preOrder_iff.mpr (habove.imp_left Eq.symm))
    -- but the new block holds only the run and what lies below it
    have hinside := hd.preOrder_filter ⟨t.size⟩
    rw [if_pos rfl, children_enclose hchildren hrun, if_neg (Ne.symm (ne_size_of_mem_children
      ((wf.parent_iff first parent).mp hparent))), if_pos rfl] at hinside
    have hmem := hinside ▸ List.mem_filter.mpr ⟨hid, by simpa using hne⟩
    obtain ⟨c, hc, hbelow⟩ := List.mem_flatMap.mp hmem
    have hdepth := wf.depth_of_parent ((wf.parent_iff c parent).mpr (by simp [hchildren, hc]))
    have hdeep := wf.depth_le_of_mem_preOrder hbelow
    omega

/-- A handler that has been wrapped anew seals its range. -/
theorem Spanned.seals (h : t.Spanned x) (hmap : map.Maps x) {offset length : Nat} {span : Nat × Nat}
    {own : HandlerKind} {handler : NodeId} (hspan : map.span offset length = .ok span)
    (hwraps : Wraps t (instructionNode span.1) (instructionNode span.2) (.newHandler own) handler true
      t') :
    t'.Seals x handler (x.clip (offset, offset + length)) OnlyHandlers := by
  have hhandler := hwraps.block_eq.2
  refine ⟨h.wraps hmap hspan hwraps, by rw [hhandler]; rfl,
    occupies_of_wraps h.wellFormed h.code hmap hspan hwraps, fun id kind hid hkind hrange => ?_⟩
  obtain ⟨hlt, hle, -⟩ := hmap.spans_of_span hspan
  obtain rfl := h.wellFormed.eq_of_wraps hwraps (h.code.getElem? (by omega))
    (h.code.getElem? (by omega)) (by omega) hid hkind (hrange.covers hmap hspan)
  rw [hhandler] at hkind
  exact Option.some.inj hkind ▸ rfl

/-! ## Clauses -/

section AddsClause

variable {region : NodeId} {range : Nat × Nat}

/-- The range of a handler that has been wrapped into a block that was not there is not a range that a
handler seals which was there. -/
theorem Seals.clip_ne {t₀ t₁ : Tree} (h : t₀.Seals x region range OnlyHandlers) (hmap : map.Maps x)
    {offset length : Nat} {span : Nat × Nat} {own : HandlerKind} {block : NodeId} {isNew : Bool}
    (hspan : map.span offset length = .ok span)
    (hwraps : Wraps t₀ (instructionNode span.1) (instructionNode span.2) (.newHandler own) block isNew t₁)
    (hadds : t.Adds t₀ fun _ kind => kind.isHandler = false)
    (habsent : t.blockKind? block = none) : x.clip (offset, offset + length) ≠ range := by
  rintro rfl
  obtain ⟨kind, hkind, -⟩ := (Option.any_eq_true _ _).mp h.isHandler
  have hold := MadeFor.isNew_eq_false_of_inside h.spanned hmap hspan hwraps hkind h.occupies
    fun id kind' hid hkind' hrange => by
      rw [BlockKind.sameVariant_newHandler, h.inside id kind' hid hkind' hrange]
  have hnew := hwraps.isNew_of_adds (hadds.imp fun _ kind' hother => by
    rw [BlockKind.sameVariant_newHandler, hother]) habsent
  rw [hold] at hnew
  exact absurd hnew (by simp)

/-- Wrapping the handler of a clause, into a block that was not there, keeps a range sealed that is not the
range of the filter, and is not the sealed range itself. -/
theorem Seals.wrapsHandler {t₀ : Tree} {handlerSpan : Nat × Nat} {handler : NodeId}
    {filterBlock : Option NodeId} (h : t.Seals x region range OnlyHandlers) (hmap : map.Maps x)
    (hfits : map.Fits clause)
    (hspan : map.span clause.handlerOffset.toNat clause.handlerLength.toNat = .ok handlerSpan)
    (hwraps : WrapsHandler map clause handlerSpan t handler filterBlock t')
    (hadds : t₀.Adds t fun _ kind => kind.isHandler = false) (habsent : t₀.blockKind? handler = none)
    (hfilterRange : ∀ r ∈ clause.filterRanges, x.clip r ≠ range) :
    x.clip clause.handlerRange ≠ range ∧ t'.Seals x region range OnlyHandlers := by
  cases hwraps with
  | alone hkind hwrap =>
    refine ⟨h.clip_ne hmap hspan hwrap hadds habsent, (h.wraps hmap hspan hwrap).imp ?_⟩
    rintro _ _ (hhandler | ⟨-, -, rfl, -⟩)
    · exact hhandler
    · rfl
  | @filtered start both filter scope _ _ isNewScope _ _ t₁ t₂ t₃ _ hkind hstart hlt hboth hfilter
      hscope hfilterWrap hhandlerWrap hungroup =>
    have hmem : start ∈ clause.filterStarts := Clause.mem_filterStarts_iff.mpr ⟨hkind, hstart⟩
    have hstop : start.toNat + (clause.handlerOffset.toNat - start.toNat) =
        clause.handlerOffset.toNat := Nat.add_sub_cancel' (Nat.le_of_lt hlt)
    -- as long as it is there, the block for both may hide the handler that seals the range
    have h₂ : t₂.Seals x region range fun id kind => kind.isHandler = true ∨
        isNewScope = true ∧ id = scope ∧ x.clip (start.toNat, clause.handlerRange.2) = range := by
      refine ((h.wraps hmap hboth hscope).wraps hmap hfilter hfilterWrap).imp ?_
      rintro id kind ((hhandler | ⟨hnew, hid, -, heq⟩) | ⟨-, -, -, heq⟩)
      · exact Or.inl hhandler
      · rw [← Nat.add_assoc, hstop] at heq
        exact Or.inr ⟨hnew, hid, heq⟩
      · rw [hstop] at heq
        exact absurd heq (hfilterRange _ (List.mem_map_of_mem hmem))
    constructor
    · rintro rfl
      have hsealed := h₂.imp fun id kind hor => hor.resolve_right fun hscope =>
        hfits.filter_ne_handler _ (List.mem_append_right _ (List.mem_map_of_mem hmem)) hscope.2.2
      have hadds₁ := hadds.trans (.of_wraps h.spanned.wellFormed hscope rfl)
      exact hsealed.clip_ne hmap hspan hhandlerWrap
        (hadds₁.trans (.of_wraps hadds₁.wellFormed hfilterWrap rfl)) habsent rfl
    · have h₃ := h₂.wraps hmap hspan hhandlerWrap
      cases isNewScope with
      | false =>
        obtain rfl := hungroup
        refine h₃.imp ?_
        rintro _ _ ((hhandler | ⟨hnew, -⟩) | ⟨-, -, rfl, -⟩)
        · exact hhandler
        · exact absurd hnew (by simp)
        · rfl
      | true =>
        refine (h₃.ungroup hungroup ?_).imp ?_
        · rintro rfl
          have hregion := h.isHandler
          rw [blockKind?, hscope.block_eq.1] at hregion
          exact absurd hregion (by simp)
        · rintro _ _ ⟨hne, (hhandler | ⟨-, hid, -⟩) | ⟨-, -, rfl, -⟩⟩
          · exact hhandler
          · exact absurd hid hne
          · rfl

/-- The handler of a clause that is wrapped into a block that was not there seals its range. -/
theorem Spanned.seals_of_wrapsHandler {t₀ : Tree} {handlerSpan : Nat × Nat} {handler : NodeId}
    {filterBlock : Option NodeId} (h : t.Spanned x) (hmap : map.Maps x)
    (hspan : map.span clause.handlerOffset.toNat clause.handlerLength.toNat = .ok handlerSpan)
    (hwraps : WrapsHandler map clause handlerSpan t handler filterBlock t')
    (hadds : t₀.Adds t fun _ kind => kind.isHandler = false) (habsent : t₀.blockKind? handler = none) :
    t'.Seals x handler (x.clip clause.handlerRange) OnlyHandlers := by
  cases hwraps with
  | alone _ hwrap =>
    obtain rfl := hwrap.isNew_of_adds (hadds.imp fun _ _ hother => by
      rw [BlockKind.sameVariant_newHandler, hother]) habsent
    exact h.seals hmap hspan hwrap
  | @filtered _ _ _ scope _ _ isNewScope _ _ t₁ t₂ t₃ _ _ _ _ hboth hfilter hscope hfilterWrap
      hhandlerWrap hungroup =>
    have hadds₁ := hadds.trans (.of_wraps h.wellFormed hscope rfl)
    have hadds₂ := hadds₁.trans (.of_wraps hadds₁.wellFormed hfilterWrap rfl)
    obtain rfl := hhandlerWrap.isNew_of_adds (hadds₂.imp fun _ _ hother => by
      rw [BlockKind.sameVariant_newHandler, hother]) habsent
    have h₃ := ((h.wraps hmap hboth hscope).wraps hmap hfilter hfilterWrap).seals hmap hspan hhandlerWrap
    cases isNewScope with
    | false => exact hungroup ▸ h₃
    | true =>
      refine (h₃.ungroup hungroup ?_).imp fun _ _ => And.right
      rintro rfl
      have hplain := (hhandlerWrap.adds hadds₂.wellFormed).blockKind?_of_some
        ((hfilterWrap.adds hadds₁.wellFormed).blockKind?_of_some hscope.block_eq.2)
      have hhandler := h₃.isHandler
      rw [hplain] at hhandler
      exact absurd hhandler (by simp [BlockKind.isHandler])

/-- A clause that is added after a handler has sealed a range does not have this range for a handler of its
own, and the range stays sealed, unless it is the range of a protected region or a filter. -/
theorem Seals.addsClause (h : t.Seals x region range OnlyHandlers)
    (hclosed : ∀ id, t.isOpenRegion id = false) (hmap : map.Maps x) (hfits : map.Fits clause)
    (hadds : AddsClause map clause t t') (htryRange : x.clip clause.tryRange ≠ range)
    (hfilterRange : ∀ r ∈ clause.filterRanges, x.clip r ≠ range) :
    x.clip clause.handlerRange ≠ range ∧ t'.Seals x region range OnlyHandlers := by
  obtain ⟨htry, hspan, hwrapTry, hwrapHandler, hopen, hlink⟩ := hadds
  have habsent := absent_of_wrapsHandler hclosed h.spanned hmap htry hwrapTry hwrapHandler hspan hopen
    _ List.mem_cons_self
  have h₁ := (h.wraps hmap htry hwrapTry).imp fun id kind hor =>
    hor.resolve_right fun hnew => htryRange hnew.2.2.2
  obtain ⟨hne, h₂⟩ := h₁.wrapsHandler hmap hfits hspan hwrapHandler
    (.of_wraps h.spanned.wellFormed hwrapTry rfl) habsent hfilterRange
  exact ⟨hne, h₂.linksClause hlink⟩

/-- The handler of a clause that has been added seals its range. -/
theorem Spanned.exists_seals (h : t.Spanned x) (hclosed : ∀ id, t.isOpenRegion id = false)
    (hmap : map.Maps x) (hadds : AddsClause map clause t t') :
    ∃ handler, t'.Seals x handler (x.clip clause.handlerRange) OnlyHandlers := by
  obtain ⟨htry, hspan, hwrapTry, hwrapHandler, hopen, hlink⟩ := hadds
  have habsent := absent_of_wrapsHandler hclosed h hmap htry hwrapTry hwrapHandler hspan hopen
    _ List.mem_cons_self
  have hsealed := (h.wraps hmap htry hwrapTry).seals_of_wrapsHandler hmap hspan hwrapHandler
    (.of_wraps h.wellFormed hwrapTry rfl) habsent
  exact ⟨_, hsealed.linksClause hlink⟩

/-- As long as a range stays sealed, it is not the range of the handler of a clause. -/
theorem Seals.clip_ne_of_addClauses {done middle behind : List Clause} {d : Clause}
    {handlers : List NodeId} {index : Nat} (h : t.Seals x region range OnlyHandlers)
    (hcarries : t.Carries x done handlers) (hmap : map.Maps x)
    (hadds : addClauses map index (middle ++ d :: behind) t = .ok t')
    (hmiddle : ∀ e ∈ middle, ∀ r ∈ e.tryRange :: e.filterRanges, x.clip r ≠ range) :
    x.clip d.handlerRange ≠ range := by
  induction middle generalizing t done handlers index with
  | nil =>
    obtain ⟨t₁, hclause, -⟩ := addClauses_cons_eq_ok hadds
    have hfits := fits_of_addClause hclause
    rintro rfl
    exact (h.addsClause hcarries.closed hmap hfits (addsClause_of_addClause hclause)
      (hfits.try_ne_handler hmap)
      (fun r hr => hfits.filter_ne_handler r (List.mem_append_left _ hr))).1 rfl
  | cons e middle ih =>
    obtain ⟨t₁, hclause, hrest⟩ := addClauses_cons_eq_ok hadds
    obtain ⟨he, hmiddle⟩ := List.forall_mem_cons.mp hmiddle
    obtain ⟨htryRange, hfilterRange⟩ := List.forall_mem_cons.mp he
    have hclause' := addsClause_of_addClause hclause
    obtain ⟨⟨handler, hcarries'⟩, -⟩ := hcarries.addsClause hmap hclause'
    exact ih (h.addsClause hcarries.closed hmap (fits_of_addClause hclause) hclause' htryRange
      hfilterRange).2 hcarries' hrest hmiddle

/-- Of two clauses that are added, the handlers do not share a range, unless it is that of a protected
region or a filter of a clause between them. -/
theorem Spanned.clip_ne_of_addClauses {done front middle behind : List Clause} {c d : Clause}
    {handlers : List NodeId} {index : Nat} (h : t.Spanned x) (hcarries : t.Carries x done handlers)
    (hmap : map.Maps x)
    (hadds : addClauses map index (front ++ c :: (middle ++ d :: behind)) t = .ok t')
    (hmiddle : ∀ e ∈ middle, ∀ r ∈ e.tryRange :: e.filterRanges, x.clip r ≠ x.clip c.handlerRange) :
    x.clip d.handlerRange ≠ x.clip c.handlerRange := by
  induction front generalizing t done handlers index with
  | nil =>
    obtain ⟨t₁, hclause, hrest⟩ := addClauses_cons_eq_ok hadds
    have hclause' := addsClause_of_addClause hclause
    obtain ⟨handler, hsealed⟩ := h.exists_seals hcarries.closed hmap hclause'
    obtain ⟨⟨_, hcarries'⟩, -⟩ := hcarries.addsClause hmap hclause'
    exact hsealed.clip_ne_of_addClauses hcarries' hmap hrest hmiddle
  | cons e front ih =>
    obtain ⟨t₁, hclause, hrest⟩ := addClauses_cons_eq_ok hadds
    have hclause' := addsClause_of_addClause hclause
    obtain ⟨⟨_, hcarries'⟩, -⟩ := hcarries.addsClause hmap hclause'
    exact ih (h.addsClause hmap hclause') hcarries' hrest

end AddsClause

end Tree

/-! ## The main result -/

/-- A body cannot be lifted if the handlers of two of its clauses cover the same instructions, unless a
clause that stands between them protects just these instructions, or has them for its filter. -/
theorem exists_fault_of_shared_handler (x : Body) {front middle behind : List Clause} {c d : Clause}
    (htable : x.clauses = front ++ c :: middle ++ d :: behind)
    (hshared : x.covered c.handlerRange = x.covered d.handlerRange)
    (hmiddle : ∀ e ∈ middle, ∀ r ∈ e.tryRange :: e.filterRanges,
      x.covered r ≠ x.covered c.handlerRange) : ∃ fault, Tree.ofBody x = .error fault := by
  cases hlift : Tree.ofBody x with
  | error fault => exact ⟨fault, rfl⟩
  | ok t =>
    exfalso
    obtain ⟨map, t₁, hcode, hclauses, -⟩ := Tree.ofBody_eq_ok_iff.mp hlift
    have hmap := CodeMap.maps_of_ofCode hcode
    have hpos := fun (i : Instruction) hi => hmap.size_pos (i := i) hi
    have hfits := Tree.fits_of_addClauses hclauses
    rw [htable] at hfits
    obtain ⟨⟨first, last⟩, hspan⟩ := (hfits c (by simp)).handlerSpan
    obtain ⟨⟨first', last'⟩, hspan'⟩ := (hfits d (by simp)).handlerSpan
    have hsame : x.clip c.handlerRange = x.clip d.handlerRange := by
      refine Body.Spans.eq_of_covered hpos (hmap.spans_of_span hspan) (hmap.spans_of_span hspan') ?_
      exact ((Body.covered_clip hpos _).trans hshared).trans (Body.covered_clip hpos _).symm
    rw [htable, List.append_assoc, List.cons_append] at hclauses
    refine Tree.spanned_ofCode.clip_ne_of_addClauses Tree.carries_ofCode hmap hclauses
      (fun e he r hr heq => ?_) hsame.symm
    refine hmiddle e he r hr ?_
    rw [← Body.covered_clip hpos r, heq, Body.covered_clip hpos]

/-- Two instructions with the same finally handler, the first of which has another one as well. -/
def reusedHandler : Body where
  header := default
  instructions := Instruction.assemble [(0x00, .none), (0x00, .none), (0xDC, .none), (0xDC, .none)]
  clauses := [Clause.ofFields 2 0 1 2 1 0, Clause.ofFields 2 0 1 3 1 0, Clause.ofFields 2 1 1 2 1 0]

/-- `reusedHandler` cannot be lifted: the clause in between protects other instructions than those of the
handler that is shared. -/
theorem reusedHandler_refused : ∃ fault, Tree.ofBody reusedHandler = .error fault := by
  have htable : reusedHandler.clauses = [] ++ Clause.ofFields 2 0 1 2 1 0 ::
      [Clause.ofFields 2 0 1 3 1 0] ++ Clause.ofFields 2 1 1 2 1 0 :: [] := rfl
  exact exists_fault_of_shared_handler reusedHandler htable (by decide +kernel) (by decide +kernel)

/-- `sharedHandler` is lifted although the handlers of its first and its last clause are the same: the
clause in between protects the handler. -/
theorem sharedHandler_lifted : (∃ t, Tree.ofBody sharedHandler = .ok t) ∧
    ∃ c d, [c, d].Sublist sharedHandler.clauses ∧
      sharedHandler.covered c.handlerRange = [2] ∧ sharedHandler.covered d.handlerRange = [2] := by
  constructor
  · have hlifted : (Tree.ofBody sharedHandler).toOption.isSome = true := by decide +kernel
    obtain ⟨t, ht⟩ := Option.isSome_iff_exists.mp hlifted
    exact ⟨t, toOption_eq_some_iff.mp ht⟩
  · exact ⟨Clause.ofFields 2 0 1 2 1 0, Clause.ofFields 2 1 1 2 1 0, by decide +kernel,
      by decide +kernel, by decide +kernel⟩

end MethodIL
