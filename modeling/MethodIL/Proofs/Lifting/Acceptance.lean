import Mathlib
import MethodIL.Proofs.Lifting.Clauses
import MethodIL.Proofs.Lifting.Wrapping
set_option autoImplicit false

/-!
# When a clause can be added

A clause can be added if it passes the checks that look at nothing but the clause, if its ranges, and
the range of its filter and handler together, are nested with those of the clauses that are there, or
apart from them, and if no handler or filter that is there has the range of its own.  The tree is told
by the ranges that its blocks are made for: as long as these are ranges of clauses, what may go wrong
can be read off the clauses, whatever the order in which they were added.
-/

namespace MethodIL

open Outcome

/-! ## The ranges of a clause -/

namespace Clause

variable (c : Clause)

/-- The ranges that blocks of a kind are made for. -/
def rangesFor : BlockKind → List (Nat × Nat)
  | .tryBlock _ => [c.tryRange]
  | .handler .. => [c.handlerRange]
  | .filter .. => c.filterRanges
  | _ => []

theorem rangesFor_subset (kind : BlockKind) : c.rangesFor kind ⊆ c.ranges := by
  intro r hr
  rw [ranges_eq]
  unfold rangesFor at hr
  split at hr <;> simp_all

theorem rangesFor_congr {kind kind' : BlockKind} (h : kind.sameVariant kind' = true) :
    c.rangesFor kind = c.rangesFor kind' := by
  cases kind <;> cases kind' <;> first | rfl | exact absurd h (by simp [BlockKind.sameVariant])

end Clause

namespace Body

/-- A range of the code is one that one of the clauses has for blocks of a kind. -/
def HasRange (x : Body) (clauses : List Clause) (kind : BlockKind) (range : Nat × Nat) : Prop :=
  ∃ c ∈ clauses, ∃ r ∈ c.rangesFor kind, x.clip r = range

end Body

/-! ## Checks of a single clause -/

/-- What lifting checks of the filter of a clause. -/
structure CodeMap.FitsFilter (map : CodeMap) (clause : Clause) (start : UInt32) : Prop where
  ahead : start.toNat < clause.handlerOffset.toNat
  apart : rangesOverlap (clause.tryOffset.toNat, clause.tryLength.toNat)
    (start.toNat, clause.handlerOffset.toNat - start.toNat) = false
  within : clause.handlerOffset.toNat - start.toNat + clause.handlerLength.toNat < UInt32.size
  bothSpan : ∃ span, map.span start.toNat
    (clause.handlerOffset.toNat - start.toNat + clause.handlerLength.toNat) = .ok span
  filterSpan : ∃ span, map.span start.toNat (clause.handlerOffset.toNat - start.toNat) = .ok span

/-- What lifting checks of a clause, whatever the tree. -/
structure CodeMap.Fits (map : CodeMap) (clause : Clause) : Prop where
  apart : rangesOverlap (clause.tryOffset.toNat, clause.tryLength.toNat)
    (clause.handlerOffset.toNat, clause.handlerLength.toNat) = false
  trySpan : ∃ span, map.span clause.tryOffset.toNat clause.tryLength.toNat = .ok span
  handlerSpan : ∃ span, map.span clause.handlerOffset.toNat clause.handlerLength.toNat = .ok span
  filter : clause.kind = .filterClause →
    ∃ start, clause.filterOffset = some start ∧ map.FitsFilter clause start

namespace Tree

variable {t t' : Tree} {x : Body} {map : CodeMap} {clause : Clause}

theorem fitsFilter_of_wrapHandler {index : Nat} {handlerSpan : Nat × Nat}
    {wrapped : NodeId × Option NodeId × Tree}
    (h : wrapHandler map index clause handlerSpan t = .ok wrapped)
    (hkind : clause.kind = .filterClause) :
    ∃ start, clause.filterOffset = some start ∧ map.FitsFilter clause start := by
  obtain ⟨start, hstart, hahead, hapart, hwithin, both, hboth, filter, hfilter, -⟩ :=
    (wrapHandler_filtered_eq_ok_iff hkind).mp h
  exact ⟨start, hstart, hahead, hapart, hwithin, ⟨both, hboth⟩, filter, hfilter⟩

/-- A clause that is added has passed its checks. -/
theorem fits_of_addClause {index : Nat} (h : addClause map t index clause = .ok t') :
    map.Fits clause := by
  obtain ⟨hapart, trySpan, htry, handlerSpan, hhandler, _, _, _, -, _, _, _, hwrapHandler, -⟩ :=
    addClause_eq_ok_iff.mp h
  exact ⟨hapart, ⟨trySpan, htry⟩, ⟨handlerSpan, hhandler⟩, fitsFilter_of_wrapHandler hwrapHandler⟩

theorem fits_of_addClauses {index : Nat} {clauses : List Clause}
    (h : addClauses map index clauses t = .ok t') : ∀ c ∈ clauses, map.Fits c := by
  induction clauses generalizing t index with
  | nil => simp
  | cons clause clauses ih =>
    obtain ⟨t₁, hclause, h⟩ := addClauses_cons_eq_ok h
    exact List.forall_mem_cons.mpr ⟨fits_of_addClause hclause, ih h⟩

/-! ## The blocks of a tree that is lifted -/

/-- The block of a wrapped range has the variant that was asked for. -/
theorem Wraps.exists_variant {start stop block : NodeId} {kind : BlockKind} {isNew : Bool}
    (h : Wraps t start stop kind block isNew t') :
    ∃ kind', t'.blockKind? block = some kind' ∧ kind'.sameVariant kind = true := by
  cases h with
  | reused _ _ _ hkind hvariant => exact ⟨_, hkind, hvariant⟩
  | enclosed =>
    refine ⟨kind, ?_, by cases kind <;> rfl⟩
    rw [← payload?_eq_some_block, payload?_enclose, if_pos rfl]

/-- Wrapping adds at most the block of the range. -/
theorem Wraps.adds {start stop block : NodeId} {kind : BlockKind} {isNew : Bool} (wf : t.WellFormed)
    (h : Wraps t start stop kind block isNew t') : t.Adds t' fun id kind' => id = block ∧ kind' = kind :=
  .of_wraps wf h ⟨rfl, rfl⟩

/-- A tree of the code of a body, still without labels, whose blocks are made for ranges of the body as
`made` says. -/
structure MadeFor (t : Tree) (x : Body) (made : NodeId → BlockKind → Nat × Nat → Prop) : Prop where
  wellFormed : t.WellFormed
  code : t.HasCode x
  unlabelled : ∀ id, t.isLabel id = false
  blocks : ∀ id kind first last, id ≠ root → t.blockKind? id = some kind → t.Covers id first last →
    ∃ r, made id kind r ∧ x.Spans r.1 r.2 first last

namespace MadeFor

variable {made made' : NodeId → BlockKind → Nat × Nat → Prop}

theorem imp (h : t.MadeFor x made) (himp : ∀ id kind r, made id kind r → made' id kind r) :
    t.MadeFor x made' :=
  ⟨h.wellFormed, h.code, h.unlabelled, fun id kind first last hid hkind hcovers =>
    (h.blocks id kind first last hid hkind hcovers).imp fun r hr => hr.imp_left (himp id kind r)⟩

/-- A node of the body is the root, an instruction or a block that is made for a range. -/
theorem covers_cases (h : t.MadeFor x made) {id : NodeId} {first last : Nat}
    (hcovers : t.Covers id first last) (hid : id ≠ root) :
    last = first + 1 ∨ ∃ kind r, made id kind r ∧ x.Spans r.1 r.2 first last := by
  have hexists := h.wellFormed.exists_of_covers hcovers
  rw [← isSome_content?_iff, Option.isSome_iff_exists] at hexists
  obtain ⟨content, hcontent⟩ := hexists
  cases content with
  | block kind children =>
    have hkind : t.blockKind? id = some kind := by rw [blockKind?, hcontent]
    obtain ⟨r, hr, hspans⟩ := h.blocks id kind first last hid hkind hcovers
    exact Or.inr ⟨kind, r, hr, hspans⟩
  | instruction operation =>
    have hinstruction : t.isInstruction id = true := isInstruction_iff.mpr ⟨operation, hcontent⟩
    have hbody := h.wellFormed.mem_body_of_covers hcovers
    have hmem : id ∈ t.instructions := by
      rw [h.wellFormed.instructions_eq]
      exact List.mem_filter.mpr ⟨hbody, hinstruction⟩
    obtain ⟨k, hk⟩ := List.getElem?_of_mem hmem
    obtain ⟨rfl, rfl⟩ := hcovers.unique (h.wellFormed.covers_instruction hk)
    exact Or.inl rfl
  | label owner =>
    have hlabel := h.unlabelled id
    rw [isLabel_iff.mpr ⟨owner, hcontent⟩] at hlabel
    exact absurd hlabel (by simp)

theorem solid (h : t.MadeFor x made) : t.Solid := by
  intro id first last hcovers hid
  rcases h.covers_cases hcovers hid with rfl | ⟨_, _, -, hspans⟩
  · exact Nat.lt_succ_self first
  · exact hspans.1

section Span

variable {offset length : Nat} {span : Nat × Nat} {kind : BlockKind}
  (h : t.MadeFor x made) (hmap : map.Maps x) (hspan : map.span offset length = .ok span)

include h hmap hspan

variable (kind) in
/-- A range that is nested with the ranges of all blocks, or apart from them, can be wrapped. -/
theorem exists_wrapSpan (hbody : kind ≠ .body) (hlinks : kind.isLinked = false)
    (hnested : ∀ id kind' s, made id kind' s → Laminar (x.clip (offset, offset + length)) s)
    (index : Nat) : ∃ block isNew t', t.wrapSpan index span kind = .ok (block, isNew, t') := by
  obtain ⟨first, last⟩ := span
  have hspans := hmap.spans_of_span hspan
  obtain ⟨hlt, hle, -⟩ := hspans
  obtain ⟨⟨block, isNew, t'⟩, hwrap⟩ := h.wellFormed.exists_wrap h.solid
    (h.code.getElem? (by omega : first < x.instructions.length))
    (h.code.getElem? (by omega : last < x.instructions.length)) (by omega)
    (fun id a b hcovers hid => by
      rcases h.covers_cases hcovers hid with rfl | ⟨kind', s, hs, hspans'⟩
      · unfold Laminar
        omega
      · exact Body.Spans.laminar_places (fun i hi => hmap.size_pos hi) (hmap.spans_of_span hspan)
          hspans' (hnested id kind' s hs)) hbody hlinks
  exact ⟨block, isNew, t', by rw [wrapSpan, hwrap]⟩

variable {block : NodeId} {isNew : Bool}
  (hwraps : Wraps t (instructionNode span.1) (instructionNode span.2) kind block isNew t')

include hwraps

/-- The block of a range that has been wrapped is made for the range. -/
theorem wraps : t'.MadeFor x fun id kind' r =>
    made id kind' r ∨ id = block ∧ kind' = kind ∧ r = x.clip (offset, offset + length) := by
  have hadds := hwraps.adds h.wellFormed
  have hcovers := covers_of_wrapSpan h.wellFormed h.code hmap hspan hwraps
  refine ⟨hadds.wellFormed, hadds.instructions.trans h.code,
    fun id => (hadds.operation?_eq id).2.trans (h.unlabelled id),
    fun id kind' first last hid hkind' hid' => ?_⟩
  rcases hadds.blockKind?_or hkind' with hold | ⟨rfl, rfl⟩
  · -- the block was there before, and covers what it covered
    have hbefore : t.Covers id first last := by
      cases hwraps with
      | reused => exact hid'
      | enclosed _ _ hsplit _ _ =>
        obtain ⟨hchildren, hhead, -⟩ := splitRun?_eq_some hsplit
        refine ((h.wellFormed.dissolves_enclose kind hchildren
          (List.ne_nil_of_mem (List.mem_of_head? hhead))).covers_iff ?_).mpr hid'
        rintro rfl
        rw [blockKind?, content?_size] at hold
        exact absurd hold (by simp)
    exact (h.blocks id kind' first last hid hold hbefore).imp fun r hr => hr.imp_left Or.inl
  · obtain ⟨rfl, rfl⟩ := hcovers.unique hid'
    obtain ⟨first, last⟩ := span
    exact ⟨_, Or.inr ⟨rfl, rfl, rfl⟩, hmap.spans_of_span hspan⟩

/-- If no block of the variant is made for a range, the block that it is wrapped into is new. -/
theorem isNew_of_fresh (hbody : kind ≠ .body) (hfresh : ∀ id kind',
    kind'.sameVariant kind = true → ¬ made id kind' (x.clip (offset, offset + length))) :
    isNew = true := by
  have hcovers := covers_of_wrapSpan h.wellFormed h.code hmap hspan hwraps
  cases hwraps with
  | enclosed => rfl
  | @reused _ _ _ _ parentKind _ _ _ hkind hvariant =>
    have hroot : block ≠ root := by
      rintro rfl
      rw [h.wellFormed.root_kind, Option.some.injEq] at hkind
      obtain rfl := hkind
      cases kind <;> first | exact hbody rfl | exact absurd hvariant (by simp [BlockKind.sameVariant])
    obtain ⟨r, hr, hspans⟩ := h.blocks block parentKind _ _ hroot hkind hcovers
    obtain ⟨first, last⟩ := span
    obtain rfl : r = x.clip (offset, offset + length) :=
      Prod.ext (hspans.2.2.1.symm.trans (hmap.spans_of_span hspan).2.2.1)
        (hspans.2.2.2.symm.trans (hmap.spans_of_span hspan).2.2.2)
    exact absurd hr (hfresh block parentKind hvariant)

omit hwraps

variable (kind) in
/-- A range that can be wrapped is wrapped into a new block if no block of the variant is made for it. -/
theorem exists_wrapFresh (hbody : kind ≠ .body) (hlinks : kind.isLinked = false)
    (hnested : ∀ id kind' s, made id kind' s → Laminar (x.clip (offset, offset + length)) s)
    (hfresh : ∀ id kind',
      kind'.sameVariant kind = true → ¬ made id kind' (x.clip (offset, offset + length)))
    (index : Nat) : ∃ block t', t.wrapSpan index span kind = .ok (block, true, t') ∧
      t'.blockKind? block = some kind ∧ t'.Covers block span.1 (span.2 + 1) ∧
      (t.Adds t' fun id kind' => id = block ∧ kind' = kind) ∧
      t'.MadeFor x fun id kind' r =>
        made id kind' r ∨ id = block ∧ kind' = kind ∧ r = x.clip (offset, offset + length) := by
  obtain ⟨block, isNew, t', hwrap⟩ := h.exists_wrapSpan kind hmap hspan hbody hlinks hnested index
  have hwraps := wraps_of_wrapSpan hwrap
  obtain rfl := h.isNew_of_fresh hmap hspan hwraps hbody hfresh
  exact ⟨block, t', hwrap, hwraps.block_eq.2, covers_of_wrapSpan h.wellFormed h.code hmap hspan hwraps,
    hwraps.adds h.wellFormed, h.wraps hmap hspan hwraps⟩

end Span

/-- The blocks that are left when a block is dissolved. -/
theorem ungroup (h : t.MadeFor x made) {block : NodeId} (hungroup : t.ungroup block = .ok t') :
    t'.MadeFor x fun id kind r => id ≠ block ∧ made id kind r := by
  obtain ⟨_, kind, parent, hkind, _, hparent, rfl⟩ := ungroup_eq_ok_iff.mp hungroup
  have hdissolves := h.wellFormed.dissolves_splice hparent (by rw [hkind]; rfl)
  refine ⟨hdissolves.after, hdissolves.instructions.trans h.code, fun id => ?_,
    fun id kind' first last hid hkind' hcovers => ?_⟩
  · rw [← h.unlabelled id]
    exact isLabel_of_payload? (payload?_splice id)
  · have hne : id ≠ block := by
      rintro rfl
      have hbody := hdissolves.after.mem_body_of_covers hcovers
      rw [← hdissolves.preOrder_root, List.mem_filter] at hbody
      exact absurd hbody.2 (by simp)
    rw [blockKind?_of_payload? (payload?_splice id)] at hkind'
    obtain ⟨r, hr, hspans⟩ := h.blocks id kind' first last hid hkind'
      ((hdissolves.covers_iff hne).mp hcovers)
    exact ⟨r, ⟨hne, hr⟩, hspans⟩

/-- A plain block that stands for instructions can be dissolved. -/
theorem exists_ungroup (h : t.MadeFor x made) {block : NodeId} {first last : Nat}
    (hkind : t.blockKind? block = some .plain) (hcovers : t.Covers block first last) :
    ∃ t', t.ungroup block = .ok t' ∧ ∀ id, t'.blockKind? id = t.blockKind? id := by
  have hroot : block ≠ root := by
    rintro rfl
    rw [h.wellFormed.root_kind] at hkind
    exact absurd hkind (by simp)
  obtain ⟨parent, hparent⟩ := h.wellFormed.exists_parent_of_mem_body
    (h.wellFormed.mem_body_of_covers hcovers) hroot
  exact ⟨_, ungroup_eq_ok_iff.mpr ⟨hroot, .plain, parent, hkind, rfl, hparent, rfl⟩,
    fun id => blockKind?_of_payload? (payload?_splice id)⟩

/-- Linking blocks keeps what they are made for. -/
theorem links (h : t.MadeFor x made) (wf' : t'.WellFormed) (honly : t.LinksOnly t')
    (hkinds : ∀ id kind, t'.blockKind? id = some kind →
      ∃ old, t.blockKind? id = some old ∧ ∀ r, made id old r → made id kind r) :
    t'.MadeFor x made := by
  have hdissolves := honly.dissolves h.wellFormed wf'
  refine ⟨wf', hdissolves.instructions.symm.trans h.code,
    fun id => (honly.isLabel id).trans (h.unlabelled id),
    fun id kind first last hid hkind hcovers => ?_⟩
  obtain ⟨old, hold, hmade⟩ := hkinds id kind hkind
  have hbefore : t.Covers id first last := by
    refine (hdissolves.covers_iff fun heq => ?_).mpr hcovers
    rw [heq, blockKind?, content?_size] at hold
    exact absurd hold (by simp)
  exact (h.blocks id old first last hid hold hbefore).imp fun r hr => hr.imp_left (hmade r)

end MadeFor

/-! ## Adding a clause -/

/-- The regions of a clause that has new blocks for its handler and its filter can be linked. -/
theorem exists_linksClause {region handler : NodeId} {filterBlock : Option NodeId}
    {handlers : List NodeId} (hregion : t.blockKind? region = some (.tryBlock handlers))
    (hhandler : t.blockKind? handler = some (.newHandler clause.kind))
    (hfilter : ∀ block, filterBlock = some block →
      clause.kind = .filterClause ∧ t.blockKind? block = some .newFilter) :
    ∃ t', LinksClause clause region handler filterBlock t t' := by
  obtain ⟨t₁, hlink⟩ : ∃ t₁, t.linkHandler region handler = .ok t₁ :=
    ⟨_, linkHandler_eq_ok_iff.mpr ⟨handlers, clause.kind, none, none, hregion, hhandler, rfl⟩⟩
  obtain ⟨-, -, listed, hlisted, hkinds⟩ := linkHandler_kinds hlink hhandler
  cases filterBlock with
  | some block =>
    obtain ⟨hkind, hblock⟩ := hfilter block rfl
    have hother : block ≠ handler ∧ block ≠ region := by
      constructor <;> rintro rfl
      · rw [hhandler] at hblock
        exact absurd hblock (by simp [BlockKind.newHandler, BlockKind.newFilter])
      · rw [hregion] at hblock
        exact absurd hblock (by simp [BlockKind.newFilter])
    obtain ⟨t₂, hlinkFilter⟩ : ∃ t₂, t₁.linkFilter block handler = .ok t₂ := by
      refine ⟨_, linkFilter_eq_ok_iff.mpr ⟨region, none, ?_, ?_, rfl⟩⟩
      · rw [hkinds, if_pos rfl, hkind]
      · rw [hkinds, if_neg hother.1, if_neg hother.2, hblock, BlockKind.newFilter]
    exact ⟨t₂, t₁, t₂, hlink, hlinkFilter, by rw [hkind]⟩
  | none =>
    cases hkind : clause.kind with
    | catchClause =>
      cases htype : clause.catchType with
      | some token =>
        obtain ⟨t₂, hcatch⟩ : ∃ t₂, t₁.setCatchType handler token = .ok t₂ := by
          refine ⟨_, setCatchType_eq_ok_iff.mpr ⟨some region, none, none, ?_, rfl⟩⟩
          rw [hkinds, if_pos rfl, hkind]
        exact ⟨t₂, t₁, t₁, hlink, rfl, by rw [hkind, htype]; exact hcatch⟩
      | none => exact ⟨t₁, t₁, t₁, hlink, rfl, by rw [hkind, htype]⟩
    | _ => exact ⟨t₁, t₁, t₁, hlink, rfl, by rw [hkind]⟩

/-- Nothing has changed but what blocks mention, and each block keeps its variant. -/
structure KeepsVariants (t t' : Tree) : Prop where
  linksOnly : t.LinksOnly t'
  variant : ∀ id kind,
    (t'.blockKind? id).any (·.sameVariant kind) = (t.blockKind? id).any (·.sameVariant kind)

namespace KeepsVariants

theorem trans {t'' : Tree} (h : t.KeepsVariants t') (h' : t'.KeepsVariants t'') :
    t.KeepsVariants t'' :=
  ⟨h.linksOnly.trans h'.linksOnly, fun id kind => (h'.variant id kind).trans (h.variant id kind)⟩

theorem retype {id : NodeId} {old : BlockKind} (hold : t.blockKind? id = some old) (new : BlockKind)
    (hsame : ∀ kind, new.sameVariant kind = old.sameVariant kind) :
    t.KeepsVariants (t.mapKind id fun _ => new) := by
  refine ⟨.of_mapKind id _, fun y kind => ?_⟩
  rw [blockKind?_retype hold new y]
  split
  case isTrue hy => rw [hy, hold, Option.any_some, Option.any_some, hsame]
  case isFalse => rfl

theorem exists_old (h : t.KeepsVariants t') {id : NodeId} {kind : BlockKind}
    (hkind : t'.blockKind? id = some kind) :
    ∃ old, t.blockKind? id = some old ∧ old.sameVariant kind = true := by
  have hvariant := h.variant id kind
  rw [hkind, Option.any_some, show kind.sameVariant kind = true by cases kind <;> rfl] at hvariant
  simpa [Option.any_eq_true] using hvariant.symm

end KeepsVariants

/-- Linking the regions of a clause keeps the variants of all blocks. -/
theorem LinksClause.keepsVariants {region handler : NodeId} {filterBlock : Option NodeId}
    (h : LinksClause clause region handler filterBlock t t') : t.KeepsVariants t' := by
  obtain ⟨t₁, t₂, hlink, hfilter, hcatch⟩ := h.linked
  have hlinked : t.KeepsVariants t₁ := by
    obtain ⟨handlers, kind, own, catchType, hregion, hhandler, rfl⟩ := linkHandler_eq_ok_iff.mp hlink
    have hne : region ≠ handler := by
      rintro rfl
      rw [hregion] at hhandler
      exact absurd hhandler (by simp)
    have hnext := blockKind?_retype hhandler (.handler kind (some region) own catchType) region
    rw [if_neg hne, hregion] at hnext
    exact .trans (.retype hhandler _ fun kind => by cases kind <;> rfl)
      (.retype hnext _ fun kind => by cases kind <;> rfl)
  have hfiltered : t.KeepsVariants t₂ := by
    cases filterBlock with
    | none => rwa [hfilter]
    | some block =>
      obtain ⟨region, catchType, hhandler, hblock, rfl⟩ := linkFilter_eq_ok_iff.mp hfilter
      have hne : handler ≠ block := by
        rintro rfl
        rw [hhandler] at hblock
        exact absurd hblock (by simp)
      have hnext := blockKind?_retype hblock (.filter (some region) (some handler)) handler
      rw [if_neg hne, hhandler] at hnext
      exact hlinked.trans (.trans (.retype hblock _ fun kind => by cases kind <;> rfl)
        (.retype hnext _ fun kind => by cases kind <;> rfl))
  split at hcatch
  · obtain ⟨region, own, catchType, hhandler, rfl⟩ := setCatchType_eq_ok_iff.mp hcatch
    exact hfiltered.trans (.retype hhandler _ fun kind => by cases kind <;> rfl)
  · rwa [hcatch]

/-- The ranges that blocks are made for leave room for the handler of a clause, and for its filter: the
ranges of the clause are nested with them and with each other, or apart, and no handler and no filter is
made for the same. -/
structure LeavesRoom (x : Body) (made : NodeId → BlockKind → Nat × Nat → Prop) (clause : Clause) :
    Prop where
  nested : ∀ r ∈ clause.ranges ++ clause.scopes, ∀ id kind s, made id kind s → Laminar (x.clip r) s
  own : ∀ r ∈ clause.ranges ++ clause.scopes, ∀ s ∈ clause.ranges, Laminar (x.clip r) (x.clip s)
  plain : ∀ id r, ¬ made id .plain r
  handlers : ∀ id kind, kind.sameVariant (.newHandler clause.kind) = true →
    ¬ made id kind (x.clip clause.handlerRange)
  filters : ∀ id kind, kind.sameVariant .newFilter = true → ∀ r ∈ clause.filterRanges,
    ¬ made id kind (x.clip r)

/-- The handler of a clause has been wrapped, with its filter: the new blocks are not linked yet, and all
others are what they were. -/
structure HandlerWrapped (x : Body) (made : NodeId → BlockKind → Nat × Nat → Prop) (clause : Clause)
    (t : Tree) (handler : NodeId) (filterBlock : Option NodeId) (t' : Tree) : Prop where
  madeFor : t'.MadeFor x fun id kind s => made id kind s ∨ ∃ r ∈ clause.rangesFor kind, x.clip r = s
  handlerKind : t'.blockKind? handler = some (.newHandler clause.kind)
  filterKind : ∀ block, filterBlock = some block →
    clause.kind = .filterClause ∧ t'.blockKind? block = some .newFilter
  kept : ∀ id kind, t.blockKind? id = some kind → t'.blockKind? id = some kind

namespace MadeFor

variable {made : NodeId → BlockKind → Nat × Nat → Prop} {handlerSpan : Nat × Nat}
  (h : t.MadeFor x made) (hmap : map.Maps x) (hroom : LeavesRoom x made clause)
  (hspan : map.span clause.handlerOffset.toNat clause.handlerLength.toNat = .ok handlerSpan)

include h hmap hroom hspan

/-- The filter and the handler of a filter clause are wrapped inside a block for both, which is dissolved
again. -/
theorem exists_wrapHandler_of_filter {start : UInt32} (hkind : clause.kind = .filterClause)
    (hstart : clause.filterOffset = some start) (hfits : map.FitsFilter clause start) (index : Nat) :
    ∃ handler filterBlock t', wrapHandler map index clause handlerSpan t =
        .ok (handler, filterBlock, t') ∧ HandlerWrapped x made clause t handler filterBlock t' := by
  obtain ⟨both, hboth⟩ := hfits.bothSpan
  obtain ⟨filter, hfilterSpan⟩ := hfits.filterSpan
  have hahead := hfits.ahead
  have hstarts : clause.filterStarts = [start] := by
    rw [Clause.filterStarts, if_pos hkind, hstart, Option.toList_some]
  have hfilterRange : (start.toNat, start.toNat + (clause.handlerOffset.toNat - start.toNat)) ∈
      clause.filterRanges := by
    rw [Clause.filterRanges, hstarts, List.map_singleton, List.mem_singleton,
      Nat.add_sub_cancel' (Nat.le_of_lt hahead)]
  have hscopeRange : (start.toNat, start.toNat +
      (clause.handlerOffset.toNat - start.toNat + clause.handlerLength.toNat)) ∈ clause.scopes := by
    rw [Clause.scopes, hstarts, List.map_singleton, List.mem_singleton, Clause.handlerRange,
      ← Nat.add_assoc, Nat.add_sub_cancel' (Nat.le_of_lt hahead)]
  have hscope := List.mem_append_right clause.ranges hscopeRange
  have hhandlerOwn : clause.handlerRange ∈ clause.ranges :=
    List.mem_cons_of_mem _ List.mem_cons_self
  have hfilterOwn := List.mem_cons_of_mem clause.tryRange
    (List.mem_cons_of_mem clause.handlerRange hfilterRange)
  rw [← Clause.ranges_eq] at hfilterOwn
  -- the range of filter and handler together
  obtain ⟨scope, t₁, hwrapScope, hscopeKind, hscopeCovers, hadds₁, h₁⟩ :=
    h.exists_wrapFresh .plain hmap hboth (by simp) rfl (hroom.nested _ hscope) (by
      intro id kind hvariant
      cases kind with
      | plain => exact hroom.plain id _
      | _ => exact absurd hvariant (by simp [BlockKind.sameVariant])) index
  -- the filter
  obtain ⟨block, t₂, hwrapFilter, hfilterKind, -, hadds₂, h₂⟩ :=
    h₁.exists_wrapFresh .newFilter hmap hfilterSpan (by simp [BlockKind.newFilter]) rfl (by
      rintro id kind s (hmade | ⟨-, -, rfl⟩)
      · exact hroom.nested _ (List.mem_append_left _ hfilterOwn) id kind s hmade
      · exact (hroom.own _ hscope _ hfilterOwn).symm) (by
      rintro id kind hvariant (hmade | ⟨-, rfl, -⟩)
      · exact hroom.filters id kind hvariant _ hfilterRange hmade
      · exact absurd hvariant (by simp [BlockKind.sameVariant, BlockKind.newFilter])) index
  -- the handler
  obtain ⟨handler, t₃, hwrapHandler, hhandlerKind, -, hadds₃, h₃⟩ :=
    h₂.exists_wrapFresh (.newHandler .filterClause) hmap hspan (by simp [BlockKind.newHandler]) rfl (by
      rintro id kind s ((hmade | ⟨-, -, rfl⟩) | ⟨-, -, rfl⟩)
      · exact hroom.nested _ (List.mem_append_left _ hhandlerOwn) id kind s hmade
      · exact (hroom.own _ hscope _ hhandlerOwn).symm
      · exact hroom.own _ (List.mem_append_left _ hhandlerOwn) _ hfilterOwn) (by
      rintro id kind hvariant ((hmade | ⟨-, rfl, -⟩) | ⟨-, rfl, -⟩)
      · exact hroom.handlers id kind (hkind ▸ hvariant) hmade
      · exact absurd hvariant (by simp [BlockKind.sameVariant, BlockKind.newHandler])
      · exact absurd hvariant (by
          simp [BlockKind.sameVariant, BlockKind.newHandler, BlockKind.newFilter])) index
  -- the block for both is dissolved
  obtain ⟨t', hungroup, hkinds⟩ := h₃.exists_ungroup
    (hadds₃.blockKind?_of_some (hadds₂.blockKind?_of_some hscopeKind))
    (hadds₃.covers _ _ _ (hadds₂.covers _ _ _ hscopeCovers))
  refine ⟨handler, some block, t', (wrapHandler_filtered_eq_ok_iff hkind).mpr ⟨start, hstart, hahead,
    hfits.apart, hfits.within, both, hboth, filter, hfilterSpan, scope, true, t₁, hwrapScope, block, true,
    t₂, hwrapFilter, handler, true, t₃, hwrapHandler, t', hungroup, rfl⟩,
    (h₃.ungroup hungroup).imp ?_, ?_, ?_, fun id kind' hid => ?_⟩
  · rintro id kind' s ⟨hne, ((hmade | ⟨hscopeId, -, -⟩) | ⟨-, rfl, rfl⟩) | ⟨-, rfl, rfl⟩⟩
    · exact Or.inl hmade
    · exact absurd hscopeId hne
    · exact Or.inr ⟨_, hfilterRange, rfl⟩
    · exact Or.inr ⟨clause.handlerRange, List.mem_singleton_self _, rfl⟩
  · rw [hkinds, hhandlerKind, hkind]
  · rintro other hother
    obtain rfl := Option.some.inj hother
    exact ⟨hkind, (hkinds _).trans (hadds₃.blockKind?_of_some hfilterKind)⟩
  · rw [hkinds]
    exact hadds₃.blockKind?_of_some (hadds₂.blockKind?_of_some (hadds₁.blockKind?_of_some hid))

/-- The handler of a clause that fits is wrapped, with its filter, if there is room for it. -/
theorem exists_wrapHandler (hfits : map.Fits clause) (index : Nat) :
    ∃ handler filterBlock t', wrapHandler map index clause handlerSpan t =
        .ok (handler, filterBlock, t') ∧ HandlerWrapped x made clause t handler filterBlock t' := by
  by_cases hkind : clause.kind = .filterClause
  · obtain ⟨start, hstart, hfilter⟩ := hfits.filter hkind
    exact h.exists_wrapHandler_of_filter hmap hroom hspan hkind hstart hfilter index
  · have hown : clause.handlerRange ∈ clause.ranges ++ clause.scopes :=
      List.mem_append_left _ (List.mem_cons_of_mem _ List.mem_cons_self)
    obtain ⟨handler, t', hwrap, hhandlerKind, -, hadds, h'⟩ :=
      h.exists_wrapFresh (.newHandler clause.kind) hmap hspan (by simp [BlockKind.newHandler]) rfl
        (hroom.nested _ hown) hroom.handlers index
    refine ⟨handler, none, t',
      (wrapHandler_alone_eq_ok_iff hkind).mpr ⟨handler, true, t', hwrap, rfl⟩, h'.imp ?_, hhandlerKind,
      by simp, fun id kind' => hadds.blockKind?_of_some⟩
    rintro id kind' s (hmade | ⟨-, rfl, rfl⟩)
    · exact Or.inl hmade
    · exact Or.inr ⟨clause.handlerRange, List.mem_singleton_self _, rfl⟩

end MadeFor

end Tree

/-- A clause can be added to others: its ranges, and that of its filter and handler together, are nested
with all ranges or apart from them, and no handler and no filter of the others has the range of its
own. -/
structure Body.Admits (x : Body) (clauses : List Clause) (clause : Clause) : Prop where
  nested : ∀ r ∈ clause.ranges ++ clause.scopes, ∀ c ∈ clause :: clauses, ∀ s ∈ c.ranges,
    Laminar (x.clip r) (x.clip s)
  handlers : ∀ c ∈ clauses, x.clip c.handlerRange ≠ x.clip clause.handlerRange
  filters : ∀ c ∈ clauses, ∀ r ∈ c.filterRanges, ∀ s ∈ clause.filterRanges, x.clip r ≠ x.clip s

/-- The ranges of a clause are nested with those that the blocks of the others are made for, or apart. -/
theorem Body.Admits.laminar {x : Body} {clauses : List Clause} {clause : Clause}
    (h : x.Admits clauses clause) {r : Nat × Nat} (hr : r ∈ clause.ranges ++ clause.scopes)
    (kind : BlockKind) (s : Nat × Nat) (hs : x.HasRange clauses kind s) : Laminar (x.clip r) s := by
  obtain ⟨c, hc, s, hs, rfl⟩ := hs
  exact h.nested r hr c (List.mem_cons_of_mem _ hc) s (c.rangesFor_subset kind hs)

namespace Tree

variable {t t' : Tree} {x : Body} {map : CodeMap} {clause : Clause}

/-- There is room for the handler of a clause that the others admit, once its protected range is
wrapped. -/
theorem leavesRoom_of_admits {clauses : List Clause} (h : x.Admits clauses clause) (region : NodeId) :
    LeavesRoom x (fun id kind s => x.HasRange clauses kind s ∨
      id = region ∧ kind = .newTry ∧ s = x.clip clause.tryRange) clause := by
  have hown : ∀ r ∈ clause.ranges ++ clause.scopes, ∀ s ∈ clause.ranges,
      Laminar (x.clip r) (x.clip s) := fun r hr s hs => h.nested r hr clause List.mem_cons_self s hs
  refine ⟨?_, hown, ?_, ?_, ?_⟩
  · rintro r hr id kind s (hs | ⟨-, -, rfl⟩)
    · exact h.laminar hr kind s hs
    · exact hown r hr _ List.mem_cons_self
  · rintro id r (⟨c, -, s, hs, -⟩ | ⟨-, hkind, -⟩)
    · exact absurd hs List.not_mem_nil
    · exact absurd hkind (by simp [BlockKind.newTry])
  · rintro id kind hvariant (⟨c, hc, s, hs, heq⟩ | ⟨-, rfl, -⟩)
    · rw [Clause.rangesFor_congr c hvariant] at hs
      rw [List.mem_singleton.mp hs] at heq
      exact h.handlers c hc heq
    · exact absurd hvariant (by
        simp [BlockKind.sameVariant, BlockKind.newTry, BlockKind.newHandler])
  · rintro id kind hvariant r hr (⟨c, hc, s, hs, heq⟩ | ⟨-, rfl, -⟩)
    · rw [Clause.rangesFor_congr c hvariant] at hs
      exact h.filters c hc s hs r hr heq
    · exact absurd hvariant (by
        simp [BlockKind.sameVariant, BlockKind.newTry, BlockKind.newFilter])

namespace MadeFor

/-- A clause that the others admit is added, and then all blocks are made for ranges of the others and
of the clause. -/
theorem exists_addClause {clauses : List Clause} (h : t.MadeFor x fun _ => x.HasRange clauses)
    (hmap : map.Maps x) (hfits : map.Fits clause) (hadmits : x.Admits clauses clause) (index : Nat) :
    ∃ t', addClause map t index clause = .ok t' ∧
      t'.MadeFor x fun _ => x.HasRange (clauses ++ [clause]) := by
  obtain ⟨trySpan, htry⟩ := hfits.trySpan
  obtain ⟨handlerSpan, hhandler⟩ := hfits.handlerSpan
  -- the protected range
  obtain ⟨region, isNew, t₁, hwrapTry⟩ := h.exists_wrapSpan .newTry hmap htry
    (by simp [BlockKind.newTry]) rfl
    (fun _ => hadmits.laminar (List.mem_append_left _ List.mem_cons_self)) index
  have hwrapsTry := wraps_of_wrapSpan hwrapTry
  have h₁ := h.wraps hmap htry hwrapsTry
  obtain ⟨regionKind, hregionKind, hvariant⟩ := hwrapsTry.exists_variant
  obtain ⟨handlers, rfl⟩ : ∃ handlers, regionKind = .tryBlock handlers := by
    cases regionKind with
    | tryBlock handlers => exact ⟨handlers, rfl⟩
    | _ => exact absurd hvariant (by simp [BlockKind.sameVariant, BlockKind.newTry])
  -- the handler and its filter
  obtain ⟨handler, filterBlock, t₂, hwrapHandler, h₂, hhandlerKind, hfilterKind, hkept⟩ :=
    h₁.exists_wrapHandler hmap (leavesRoom_of_admits hadmits region) hhandler hfits index
  obtain ⟨t', hlink⟩ := exists_linksClause (hkept _ _ hregionKind) hhandlerKind hfilterKind
  refine ⟨t', addClause_eq_ok_iff.mpr ⟨hfits.apart, trySpan, htry, handlerSpan, hhandler, region, _,
    t₁, hwrapTry, handler, filterBlock, t₂, hwrapHandler, ?_, hlink⟩, ?_⟩
  · intro block hblock
    rcases List.mem_cons.mp hblock with rfl | hblock
    · rw [isOpenRegion, hhandlerKind]
      rfl
    · rw [isOpenRegion, (hfilterKind block (Option.mem_toList.mp hblock)).2]
      rfl
  · -- what the blocks are made for does not depend on their links
    refine (h₂.imp ?_).links (h₂.wellFormed.steps (steps_parts.linksClause hlink h₂.wellFormed))
      hlink.keepsVariants.linksOnly fun id kind hkind => ?_
    · rintro id kind s ((⟨c, hc, hs⟩ | ⟨-, rfl, rfl⟩) | hs)
      · exact ⟨c, List.mem_append_left _ hc, hs⟩
      · exact ⟨clause, by simp, clause.tryRange, List.mem_singleton_self _, rfl⟩
      · exact ⟨clause, by simp, hs⟩
    · obtain ⟨old, hold, hsame⟩ := hlink.keepsVariants.exists_old hkind
      refine ⟨old, hold, ?_⟩
      rintro r ⟨c, hc, s, hs, heq⟩
      rw [Clause.rangesFor_congr c hsame] at hs
      exact ⟨c, hc, s, hs, heq⟩

/-- Clauses that admit each other are added, one after the other. -/
theorem exists_addClauses {before clauses : List Clause}
    (h : t.MadeFor x fun _ => x.HasRange before) (hmap : map.Maps x)
    (hfits : ∀ c ∈ clauses, map.Fits c)
    (hadmits : ∀ front clause behind, clauses = front ++ clause :: behind →
      x.Admits (before ++ front) clause) (index : Nat) :
    ∃ t', addClauses map index clauses t = .ok t' := by
  induction clauses generalizing t before index with
  | nil => exact ⟨t, rfl⟩
  | cons clause clauses ih =>
    obtain ⟨hclause, hfits⟩ := List.forall_mem_cons.mp hfits
    have hfirst := hadmits [] clause clauses rfl
    rw [List.append_nil] at hfirst
    obtain ⟨t₁, hadd, h₁⟩ := h.exists_addClause hmap hclause hfirst index
    obtain ⟨t', hdone⟩ := ih h₁ hfits (fun front c behind heq => by
      rw [List.append_assoc]
      exact hadmits (clause :: front) c behind (by rw [heq]; rfl)) (index + 1)
    -- a clause that fits has code
    have hcode : map.starts.isEmpty = false := by
      obtain ⟨⟨first, last⟩, htry⟩ := hclause.trySpan
      obtain ⟨hlt, hle, -⟩ := hmap.spans_of_span htry
      rw [List.isEmpty_eq_false_iff, hmap.starts, ne_eq, List.map_eq_nil_iff, List.range_eq_nil]
      omega
    refine ⟨t', ?_⟩
    rw [addClauses, if_neg (by simp [hcode]), hadd, ok_bind, hdone]

end MadeFor

end Tree

end MethodIL
