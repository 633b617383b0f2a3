import Mathlib
import MethodIL.Proofs.Lifting.Regions
set_option autoImplicit false

/-!
# Lifted clauses

A tree carries the clauses of a body if there is a handler for every clause, with the kind and the
type of the clause, whose blocks cover the ranges of the clause, and if the protected regions list
these handlers and no others.  Adding a clause adds one handler and keeps what has been carried before.
-/

namespace MethodIL

open Outcome

namespace Tree

variable {t t' : Tree} {x : Body} {map : CodeMap} {clause : Clause}

/-! ## Wrapping the ranges of a clause -/

/-- The new blocks that adding a clause may make, before they are linked. -/
inductive ClauseBlock (kind : HandlerKind) (region handler : NodeId) (filterBlock : Option NodeId) :
    NodeId → BlockKind → Prop
  | region : ClauseBlock kind region handler filterBlock region .newTry
  | scope (id : NodeId) : ClauseBlock kind region handler filterBlock id .plain
  | handler : ClauseBlock kind region handler filterBlock handler (.newHandler kind)
  | filter {block : NodeId} (hblock : filterBlock = some block) :
      ClauseBlock kind region handler filterBlock block .newFilter

/-- The tree has the instructions of a body, in their order. -/
def HasCode (t : Tree) (x : Body) : Prop :=
  t.instructions = (List.range x.instructions.length).map instructionNode

theorem HasCode.getElem? (h : t.HasCode x) {k : Nat} (hk : k < x.instructions.length) :
    t.instructions[k]? = some (instructionNode k) := by
  rw [h, List.getElem?_map, List.getElem?_range hk]
  rfl

/-- The block that a range of the body is wrapped into covers the range. -/
theorem covers_of_wrapSpan (wf : t.WellFormed) (hcode : t.HasCode x) (hmap : map.Maps x)
    {offset length : Nat} {span : Nat × Nat} {kind : BlockKind} {block : NodeId} {isNew : Bool}
    (hspan : map.span offset length = .ok span)
    (h : Wraps t (instructionNode span.1) (instructionNode span.2) kind block isNew t') :
    t'.Covers block span.1 (span.2 + 1) := by
  obtain ⟨first, last⟩ := span
  obtain ⟨hlt, hle, -⟩ := hmap.spans_of_span hspan
  exact wf.covers_of_wraps h (wf.covers_instruction (hcode.getElem? (by omega)))
    (wf.covers_instruction (hcode.getElem? (by omega)))

/-- A filter handler has a filter block that covers the places from the start of the filter to that
of the handler; other handlers have none. -/
inductive HoldsFilter (t : Tree) (x : Body) (clause : Clause) (last : Nat) : Option NodeId → Prop
  | absent (hkind : clause.kind ≠ .filterClause) : HoldsFilter t x clause last none
  | present {block : NodeId} {start : UInt32} {first : Nat} (hkind : clause.kind = .filterClause)
      (hstart : clause.filterOffset = some start) (hfirst : x.start first = start.toNat)
      (hlt : first < last) (hcovers : t.Covers block first last) :
      HoldsFilter t x clause last (some block)

theorem HoldsFilter.mono {last : Nat} {filterBlock : Option NodeId}
    (h : t.HoldsFilter x clause last filterBlock)
    (hcovers : ∀ id first last, t.Covers id first last → t'.Covers id first last) :
    t'.HoldsFilter x clause last filterBlock := by
  cases h with
  | absent hkind => exact .absent hkind
  | present hkind hstart hfirst hlt hblock => exact .present hkind hstart hfirst hlt (hcovers _ _ _ hblock)

/-- What is wrapped anew is a new node. -/
theorem Wraps.block_eq {start stop block : NodeId} {kind : BlockKind}
    (h : Wraps t start stop kind block true t') :
    t.content? block = none ∧ t'.blockKind? block = some kind := by
  cases h with
  | enclosed =>
    refine ⟨content?_size t, ?_⟩
    rw [← payload?_eq_some_block, payload?_enclose, if_pos rfl]

/-- Wrapping the handler of a clause makes blocks that cover the ranges of the clause. -/
theorem covers_of_wrapsHandler (wf : t.WellFormed) (hcode : t.HasCode x) (hmap : map.Maps x)
    (region : NodeId) {handlerSpan : Nat × Nat} {handler : NodeId} {filterBlock : Option NodeId}
    (h : WrapsHandler map clause handlerSpan t handler filterBlock t')
    (hspan : map.span clause.handlerOffset.toNat clause.handlerLength.toNat = .ok handlerSpan)
    (hopen : ∀ block ∈ handler :: filterBlock.toList, t'.isOpenRegion block = true) :
    t.Adds t' (ClauseBlock clause.kind region handler filterBlock) ∧
      t'.Covers handler handlerSpan.1 (handlerSpan.2 + 1) ∧
        t'.HoldsFilter x clause handlerSpan.1 filterBlock := by
  cases h with
  | alone hkind hwrap =>
    exact ⟨.of_wraps wf hwrap .handler, covers_of_wrapSpan wf hcode hmap hspan hwrap, .absent hkind⟩
  | @filtered start both filter scope filterBlock _ isNewScope _ _ t₁ t₂ t₃ _ hkind hstart hlt hboth
      hfilter hscope hfilterWrap hhandlerWrap hungroup =>
    have hadds₁ : t.Adds t₁ (ClauseBlock clause.kind region handler (some filterBlock)) :=
      .of_wraps wf hscope (.scope scope)
    have hadds₂ : t₁.Adds t₂ (ClauseBlock clause.kind region handler (some filterBlock)) :=
      .of_wraps hadds₁.wellFormed hfilterWrap (.filter rfl)
    have hadds₃ : t₂.Adds t₃ (ClauseBlock clause.kind region handler (some filterBlock)) :=
      .of_wraps hadds₂.wellFormed hhandlerWrap (hkind ▸ .handler)
    have hadds := (hadds₁.trans hadds₂).trans hadds₃
    have hcode₁ : t₁.HasCode x := hadds₁.instructions.trans hcode
    have hcode₂ : t₂.HasCode x := hadds₂.instructions.trans hcode₁
    have hfilterCovers := hadds₃.covers _ _ _
      (covers_of_wrapSpan hadds₁.wellFormed hcode₁ hmap hfilter hfilterWrap)
    have hhandlerCovers := covers_of_wrapSpan hadds₂.wellFormed hcode₂ hmap hspan hhandlerWrap
    -- the filter ends where the handler starts
    obtain ⟨first, last⟩ := filter
    obtain ⟨first', last'⟩ := handlerSpan
    obtain ⟨hlt₁, hle₁, hfirst, hend⟩ := hmap.spans_of_span hfilter
    obtain ⟨hlt₂, hle₂, hfirst', -⟩ := hmap.spans_of_span hspan
    have hwithin := x.start_mono (Nat.le_of_lt (Nat.lt_of_lt_of_le hlt₂ hle₂))
    rw [hfirst', ← Body.codeSize_eq] at hwithin
    rw [Nat.add_sub_cancel' (Nat.le_of_lt hlt), Nat.min_eq_left hwithin, ← hfirst'] at hend
    have hmeet := Body.start_injective (fun i hi => hmap.size_pos hi) hle₁ (by omega) hend
    dsimp only at hfilterCovers hhandlerCovers ⊢
    rw [hmeet] at hlt₁ hfilterCovers
    cases isNewScope with
    | false =>
      obtain rfl := hungroup
      exact ⟨hadds, hhandlerCovers, .present hkind hstart hfirst hlt₁ hfilterCovers⟩
    | true =>
      obtain ⟨hnew, hplain⟩ := hscope.block_eq
      have hdone := hadds.ungroup wf hnew hungroup
      obtain ⟨-, kind, parent, hscopeKind, -, hparent, rfl⟩ := ungroup_eq_ok_iff.mp hungroup
      have hdissolves := hadds.wellFormed.dissolves_splice hparent (by rw [hscopeKind]; rfl)
      -- the scope is plain, so it is none of the open regions
      have hother : ∀ block, block ∈ [handler, filterBlock] → block ≠ scope := by
        rintro block hblock rfl
        have hkept := hadds₃.blockKind?_of_some (hadds₂.blockKind?_of_some hplain)
        have hsame : (t₃.splice parent block).payload? block = t₃.payload? block :=
          payload?_splice block
        rw [← blockKind?_of_payload? hsame] at hkept
        have := hopen block hblock
        rw [isOpenRegion, hkept] at this
        exact absurd this (by simp)
      exact ⟨hdone, (hdissolves.covers_iff (hother handler (by simp))).mpr hhandlerCovers,
        .present hkind hstart hfirst hlt₁
          ((hdissolves.covers_iff (hother filterBlock (by simp))).mpr hfilterCovers)⟩

/-! ## Linking the regions of a clause -/

/-- Nothing has changed but what blocks are for and who refers to labels. -/
structure LinksOnly (t t' : Tree) : Prop where
  header : t'.header = t.header
  children : ∀ id, t'.children id = t.children id
  operation : ∀ id, t'.operation? id = t.operation? id
  isLabel : ∀ id, t'.isLabel id = t.isLabel id

theorem LinksOnly.trans {t'' : Tree} (h : t.LinksOnly t') (h' : t'.LinksOnly t'') :
    t.LinksOnly t'' where
  header := h'.header.trans h.header
  children id := (h'.children id).trans (h.children id)
  operation id := (h'.operation id).trans (h.operation id)
  isLabel id := (h'.isLabel id).trans (h.isLabel id)

theorem LinksOnly.of_mapKind (id : NodeId) (f : BlockKind → BlockKind) :
    t.LinksOnly (t.mapKind id f) := by
  refine ⟨rfl, children_mapKind t id f, operation?_mapKind t id f, fun y => ?_⟩
  unfold Tree.isLabel
  rw [content?_mapKind]
  by_cases hy : y = id
  · rw [if_pos hy]
    cases t.content? y with
    | none => rfl
    | some content => cases content <;> rfl
  · rw [if_neg hy]

theorem LinksOnly.dissolves (wf : t.WellFormed) (wf' : t'.WellFormed) (h : t.LinksOnly t') :
    t'.Dissolves ⟨t.size⟩ t :=
  wf.dissolves_of_shape wf' h.children fun id => by rw [isInstruction, isInstruction, h.operation]

/-- A block that gets another kind. -/
theorem blockKind?_retype {id : NodeId} {old : BlockKind} (h : t.blockKind? id = some old)
    (kind : BlockKind) (y : NodeId) :
    (t.mapKind id fun _ => kind).blockKind? y = if y = id then some kind else t.blockKind? y := by
  rw [blockKind?_mapKind]
  by_cases hy : y = id
  · rw [if_pos hy, if_pos hy, hy, h, Option.map_some]
  · rw [if_neg hy, if_neg hy]

/-- Linking a new handler with the region that it protects. -/
theorem linkHandler_kinds {kind : HandlerKind} {region handler : NodeId}
    (h : t.linkHandler region handler = .ok t')
    (hhandler : t.blockKind? handler = some (.newHandler kind)) :
    t.LinksOnly t' ∧ region ≠ handler ∧
      ∃ handlers, t.blockKind? region = some (.tryBlock handlers) ∧ ∀ id, t'.blockKind? id =
        if id = handler then some (.handler kind (some region) none none)
        else if id = region then some (.tryBlock (handlers ++ [handler]))
        else t.blockKind? id := by
  obtain ⟨handlers, kind, own, catchType, hregion, hhandler', rfl⟩ := linkHandler_eq_ok_iff.mp h
  rw [hhandler, BlockKind.newHandler, Option.some.injEq, BlockKind.handler.injEq] at hhandler'
  obtain ⟨rfl, -, rfl, rfl⟩ := hhandler'
  have hne : region ≠ handler := by
    rintro rfl
    rw [hhandler] at hregion
    exact absurd hregion (by simp [BlockKind.newHandler])
  have hfirst := blockKind?_retype hhandler (.handler kind (some region) none none)
  have hsecond := blockKind?_retype (by rw [hfirst, if_neg hne, hregion])
    (.tryBlock (handlers ++ [handler]))
  refine ⟨.trans (.of_mapKind handler _) (.of_mapKind region _), hne, handlers, hregion, fun id => ?_⟩
  rw [hsecond, hfirst]
  by_cases hid : id = handler
  · simp [hid, Ne.symm hne]
  · simp [hid]

/-- Linking a new filter with its handler. -/
theorem linkFilter_kinds {kind : HandlerKind} {region handler block : NodeId} {own : Option NodeId}
    {catchType : Option Token} (h : t.linkFilter block handler = .ok t')
    (hhandler : t.blockKind? handler = some (.handler kind (some region) own catchType)) :
    t.LinksOnly t' ∧ t.blockKind? block = some (.filter none none) ∧ ∀ id, t'.blockKind? id =
      if id = handler then some (.handler kind (some region) (some block) catchType)
      else if id = block then some (.filter (some region) (some handler))
      else t.blockKind? id := by
  obtain ⟨region, catchType, howner, hblock, rfl⟩ := linkFilter_eq_ok_iff.mp h
  rw [hhandler, Option.some.injEq, BlockKind.handler.injEq, Option.some.injEq] at howner
  obtain ⟨rfl, rfl, -, rfl⟩ := howner
  have hne : handler ≠ block := by
    rintro rfl
    rw [hhandler] at hblock
    exact absurd hblock (by simp)
  have hfirst := blockKind?_retype hblock (.filter (some region) (some handler))
  have hsecond := blockKind?_retype (by rw [hfirst, if_neg hne, hhandler])
    (.handler .filterClause (some region) (some block) catchType)
  refine ⟨.trans (.of_mapKind block _) (.of_mapKind handler _), hblock, fun id => ?_⟩
  rw [hsecond, hfirst]

/-- Linking the regions of a clause whose handler is new. -/
theorem linksClause_kinds {region handler : NodeId} {filterBlock : Option NodeId}
    (h : LinksClause clause region handler filterBlock t t')
    (hhandler : t.blockKind? handler = some (.newHandler clause.kind)) :
    t.LinksOnly t' ∧ (∀ block, filterBlock = some block → block ≠ handler ∧ block ≠ region) ∧
      ∃ handlers, t.blockKind? region = some (.tryBlock handlers) ∧ ∀ id, t'.blockKind? id =
        if id = handler then some (.handler clause.kind (some region) filterBlock
          (if clause.kind = .catchClause then clause.catchType else none))
        else if id = region then some (.tryBlock (handlers ++ [handler]))
        else if filterBlock = some id then some (.filter (some region) (some handler))
        else t.blockKind? id := by
  obtain ⟨t₁, t₂, hlink, hfilter, hcatch⟩ := h.linked
  obtain ⟨honly, hne, handlers, hregion, hkinds⟩ := linkHandler_kinds hlink hhandler
  -- what the link with the filter adds
  obtain ⟨honly₂, hapart, hkinds₂⟩ : t.LinksOnly t₂ ∧
      (∀ block, filterBlock = some block → block ≠ handler ∧ block ≠ region) ∧ ∀ id, t₂.blockKind? id =
      if id = handler then some (.handler clause.kind (some region) filterBlock none)
      else if id = region then some (.tryBlock (handlers ++ [handler]))
      else if filterBlock = some id then some (.filter (some region) (some handler))
      else t.blockKind? id := by
    cases filterBlock with
    | none =>
      obtain rfl := hfilter
      exact ⟨honly, by simp, fun id => by simp [hkinds]⟩
    | some block =>
      obtain ⟨hlinks, hblock, hfiltered⟩ := linkFilter_kinds hfilter (by rw [hkinds, if_pos rfl])
      have hblockNe : block ≠ handler ∧ block ≠ region := by
        constructor <;> rintro rfl <;> rw [hkinds] at hblock
        · simp at hblock
        · simp [hne] at hblock
      refine ⟨honly.trans hlinks, fun other hother => Option.some.inj hother ▸ hblockNe, fun id => ?_⟩
      rw [hfiltered, hkinds]
      by_cases hid : id = block
      · simp [hid, hblockNe]
      · simp only [hid, Option.some.injEq, Ne.symm hid, if_false]
        split <;> rfl
  split at hcatch
  case h_1 token hkind htype =>
    obtain ⟨region', own, catchType, howner, rfl⟩ := setCatchType_eq_ok_iff.mp hcatch
    have hlast := blockKind?_retype howner (.handler .catchClause region' own (some token))
    rw [hkinds₂, if_pos rfl, Option.some.injEq, BlockKind.handler.injEq] at howner
    obtain ⟨-, rfl, rfl, -⟩ := howner
    refine ⟨honly₂.trans (.of_mapKind handler _), hapart, handlers, hregion, fun id => ?_⟩
    rw [hlast, hkinds₂, hkind, htype]
    by_cases hid : id = handler <;> simp [hid]
  case h_2 hother =>
    obtain rfl := hcatch
    refine ⟨honly₂, hapart, handlers, hregion, fun id => ?_⟩
    have hnone : (if clause.kind = .catchClause then clause.catchType else none) = none := by
      split
      case isTrue hkind =>
        cases htype : clause.catchType with
        | none => rfl
        | some token => exact absurd htype (hother token hkind)
      case isFalse => rfl
    rw [hkinds₂, hnone]

/-- How the kinds of blocks change with a clause: a new handler is listed by its region, and all that is
otherwise new is plain or a filter of the handler. -/
structure AddsHandler (t t' : Tree) (clause : Clause) (region handler : NodeId)
    (filterBlock : Option NodeId) : Prop where
  isNew : t.blockKind? handler = none
  handlerKind : t'.blockKind? handler = some (.handler clause.kind (some region) filterBlock
    (if clause.kind = .catchClause then clause.catchType else none))
  filterKind : ∀ block, filterBlock = some block →
    t'.blockKind? block = some (.filter (some region) (some handler))
  regionKind : ∃ listed, t'.blockKind? region = some (.tryBlock (listed ++ [handler])) ∧
    (t.blockKind? region = some (.tryBlock listed) ∨ t.blockKind? region = none ∧ listed = [])
  kept : ∀ id kind, id ≠ region → t.blockKind? id = some kind → t'.blockKind? id = some kind
  others : ∀ id kind, id ≠ region → id ≠ handler → t'.blockKind? id = some kind →
    t.blockKind? id = some kind ∨ kind = .plain ∨
      ∃ region handler, kind = .filter (some region) (some handler)

/-- What an open region of a tree is was open before, unless it is new. -/
theorem Adds.blockKind?_of_open {allowed : NodeId → BlockKind → Prop} (h : t.Adds t' allowed)
    (hclosed : ∀ id, t.isOpenRegion id = false) {id : NodeId} (hopen : t'.isOpenRegion id = true) :
    t.blockKind? id = none := by
  cases hkind : t.blockKind? id with
  | none => rfl
  | some kind =>
    have hbefore := hclosed id
    rw [isOpenRegion, h.blockKind?_of_some hkind] at hopen
    rw [isOpenRegion, hkind, hopen] at hbefore
    exact absurd hbefore (by simp)

theorem addsHandler_of_links {region handler : NodeId} {filterBlock : Option NodeId} {t₂ : Tree}
    (hclosed : ∀ id, t.isOpenRegion id = false)
    (hadds : t.Adds t₂ (ClauseBlock clause.kind region handler filterBlock))
    (hopen : ∀ block ∈ handler :: filterBlock.toList, t₂.isOpenRegion block = true)
    (hlink : LinksClause clause region handler filterBlock t₂ t') :
    t₂.LinksOnly t' ∧ t.AddsHandler t' clause region handler filterBlock := by
  have hnew : ∀ block ∈ handler :: filterBlock.toList, t.blockKind? block = none :=
    fun block hblock => hadds.blockKind?_of_open hclosed (hopen block hblock)
  have hisNew := hnew handler List.mem_cons_self
  -- the handler is as new handlers are
  have hhandler : t₂.blockKind? handler = some (.newHandler clause.kind) := by
    obtain ⟨_, _, hlinked, -⟩ := hlink.linked
    obtain ⟨_, kind, own, catchType, _, hkind, -⟩ := linkHandler_eq_ok_iff.mp hlinked
    rcases hadds.blockKind?_or hkind with hold | hallowed
    · rw [hisNew] at hold
      exact absurd hold (by simp)
    · rw [hkind]
      generalize hblock : BlockKind.handler kind none own catchType = block at hallowed
      cases hallowed with
      | handler => rfl
      | _ => exact absurd hblock (by simp [BlockKind.newTry, BlockKind.newFilter])
  obtain ⟨honly, hapart, listed, hregion, hkinds⟩ := linksClause_kinds hlink hhandler
  have hne : region ≠ handler := by
    rintro rfl
    rw [hregion] at hhandler
    exact absurd hhandler (by simp [BlockKind.newHandler])
  refine ⟨honly, hisNew, by rw [hkinds, if_pos rfl], fun block hblock => ?_, ⟨listed, ?_, ?_⟩,
    fun id kind hid hkind => ?_, fun id kind hid hid' hkind => ?_⟩
  · obtain ⟨hhandler', hregion'⟩ := hapart block hblock
    rw [hkinds, if_neg hhandler', if_neg hregion', if_pos hblock]
  · rw [hkinds, if_neg hne, if_pos rfl]
  · rcases hadds.blockKind?_or hregion with hold | hallowed
    · exact Or.inl hold
    · cases hold : t.blockKind? region with
      | some kind => exact Or.inl (by rw [← hregion, hadds.blockKind?_of_some hold])
      | none =>
        refine Or.inr ⟨rfl, ?_⟩
        generalize hblock : BlockKind.tryBlock listed = block at hallowed
        cases hallowed with
        | region => exact BlockKind.tryBlock.inj hblock
        | _ => exact absurd hblock (by simp [BlockKind.newHandler, BlockKind.newFilter])
  · have hother : ∀ block ∈ handler :: filterBlock.toList, id ≠ block := by
      rintro block hblock rfl
      rw [hnew id hblock] at hkind
      exact absurd hkind (by simp)
    have hfilter : filterBlock ≠ some id := by
      rintro rfl
      exact hother id (by simp) rfl
    rw [hkinds, if_neg (hother handler List.mem_cons_self), if_neg hid, if_neg hfilter,
      hadds.blockKind?_of_some hkind]
  · rw [hkinds, if_neg hid', if_neg hid] at hkind
    split at hkind
    case isTrue =>
      obtain rfl := Option.some.inj hkind
      exact Or.inr (Or.inr ⟨region, handler, rfl⟩)
    case isFalse hfilter =>
      rcases hadds.blockKind?_or hkind with hold | hallowed
      · exact Or.inl hold
      · cases hallowed with
        | region => exact absurd rfl hid
        | scope => exact Or.inr (Or.inl rfl)
        | handler => exact absurd rfl hid'
        | filter hblock => exact absurd hblock hfilter

/-! ## Carrying clauses -/

/-- The region that a handler protects. -/
def protectedBy? (t : Tree) (handler : NodeId) : Option NodeId :=
  match t.blockKind? handler with
  | some (.handler _ region _ _) => region
  | _ => none

/-- A handler stands for a clause: it has the kind and the type of the clause, and its blocks cover
the ranges of the clause. -/
inductive HoldsClause (t : Tree) (x : Body) (clause : Clause) (handler : NodeId) : Prop
  | intro {region : NodeId} {handlers : List NodeId} {filterBlock : Option NodeId}
      {catchType : Option Token} {first last first' last' : Nat}
      (hregion : t.blockKind? region = some (.tryBlock handlers))
      (hhandler : t.blockKind? handler =
        some (.handler clause.kind (some region) filterBlock catchType))
      (hcatch : clause.kind = .catchClause → catchType = clause.catchType)
      (htryCovers : t.Covers region first last)
      (htrySpans : x.Spans clause.tryOffset.toNat
        (min (clause.tryOffset.toNat + clause.tryLength.toNat) x.codeSize) first last)
      (hhandlerCovers : t.Covers handler first' last')
      (hhandlerSpans : x.Spans clause.handlerOffset.toNat
        (min (clause.handlerOffset.toNat + clause.handlerLength.toNat) x.codeSize) first' last')
      (hfilter : t.HoldsFilter x clause first' filterBlock) :
      HoldsClause t x clause handler

/-- What stays a protected region, keeps the kind of the handler and covers what it covered, still
stands for the clause. -/
theorem HoldsClause.mono {handler : NodeId} (h : t.HoldsClause x clause handler)
    (hkind : ∀ kind region filterBlock catchType,
      t.blockKind? handler = some (.handler kind region filterBlock catchType) →
        t'.blockKind? handler = some (.handler kind region filterBlock catchType))
    (htry : ∀ region handlers, t.blockKind? region = some (.tryBlock handlers) →
      ∃ handlers', t'.blockKind? region = some (.tryBlock handlers'))
    (hcovers : ∀ id first last, t.Covers id first last → t'.Covers id first last) :
    t'.HoldsClause x clause handler := by
  obtain ⟨hregion, hhandler, hcatch, htryCovers, htrySpans, hhandlerCovers, hhandlerSpans, hfilter⟩ := h
  obtain ⟨handlers', hregion'⟩ := htry _ _ hregion
  exact ⟨hregion', hkind _ _ _ _ hhandler, hcatch, hcovers _ _ _ htryCovers, htrySpans,
    hcovers _ _ _ hhandlerCovers, hhandlerSpans, hfilter.mono hcovers⟩

/-- The tree carries clauses of a body: it has the code of the body, a handler of its own for every
clause, and no other handlers that protect a region. -/
structure Carries (t : Tree) (x : Body) (clauses : List Clause) (handlers : List NodeId) : Prop where
  wellFormed : t.WellFormed
  header : t.header = x.header
  code : t.HasCode x
  clauses : List.Forall₂ (t.HoldsClause x) clauses handlers
  nodup : handlers.Nodup
  filters : ∀ handler ∈ handlers, ∀ kind region block catchType,
    t.blockKind? handler = some (.handler kind (some region) (some block) catchType) →
      t.blockKind? block = some (.filter (some region) (some handler))
  links : ∀ region listed, t.blockKind? region = some (.tryBlock listed) →
    listed = handlers.filter fun handler => t.protectedBy? handler = some region
  closed : ∀ id, t.isOpenRegion id = false

/-- The handlers of the clauses are there, and protect regions that are there. -/
theorem Carries.exists_of_mem {clauses : List Clause} {handlers : List NodeId}
    (h : t.Carries x clauses handlers) {handler : NodeId} (hmem : handler ∈ handlers) :
    ∃ kind region filterBlock catchType listed,
      t.blockKind? handler = some (.handler kind (some region) filterBlock catchType) ∧
        t.protectedBy? handler = some region ∧ t.blockKind? region = some (.tryBlock listed) := by
  obtain ⟨clause, -, hregion, hhandler, -⟩ := exists_of_mem_right h.clauses hmem
  exact ⟨_, _, _, _, _, hhandler, by rw [protectedBy?, hhandler], hregion⟩

section AddsHandler

variable {clauses : List Clause} {handlers : List NodeId} {region handler : NodeId}
  {filterBlock : Option NodeId} (h : t.Carries x clauses handlers)
  (hadds : t.AddsHandler t' clause region handler filterBlock)

include h hadds

omit h in
/-- The clauses that are there keep their handlers. -/
theorem AddsHandler.kept_handler {kind : HandlerKind} {id : NodeId} {own block : Option NodeId}
    {catchType : Option Token} (hid : t.blockKind? id = some (.handler kind own block catchType)) :
    t'.blockKind? id = some (.handler kind own block catchType) := by
  refine hadds.kept id _ ?_ hid
  rintro rfl
  obtain ⟨listed, -, htry | ⟨hnone, -⟩⟩ := hadds.regionKind
  · rw [hid] at htry
    exact absurd htry (by simp)
  · rw [hid] at hnone
    exact absurd hnone (by simp)

/-- The new handler is none of those that are there. -/
theorem AddsHandler.nodup : (handlers ++ [handler]).Nodup := by
  refine List.nodup_append.mpr ⟨h.nodup, List.nodup_singleton _, fun other hother => ?_⟩
  rintro _ hmem rfl
  obtain rfl := List.mem_singleton.mp hmem
  obtain ⟨_, _, _, _, _, hkind, -⟩ := h.exists_of_mem hother
  rw [hadds.isNew] at hkind
  exact absurd hkind (by simp)

/-- The handlers are linked with their filters. -/
theorem AddsHandler.filters {other : NodeId} (hother : other ∈ handlers ++ [handler])
    {kind : HandlerKind} {own block : NodeId} {catchType : Option Token}
    (hkind : t'.blockKind? other = some (.handler kind (some own) (some block) catchType)) :
    t'.blockKind? block = some (.filter (some own) (some other)) := by
  rcases List.mem_append.mp hother with hold | hnew
  · obtain ⟨_, _, _, _, _, hbefore, -⟩ := h.exists_of_mem hold
    rw [hadds.kept_handler hbefore, ← hbefore] at hkind
    have hfilter := h.filters other hold _ _ _ _ hkind
    refine hadds.kept block _ ?_ hfilter
    rintro rfl
    obtain ⟨listed, -, htry | ⟨hnone, -⟩⟩ := hadds.regionKind
    · rw [hfilter] at htry
      exact absurd htry (by simp)
    · rw [hfilter] at hnone
      exact absurd hnone (by simp)
  · obtain rfl := List.mem_singleton.mp hnew
    rw [hadds.handlerKind, Option.some.injEq, BlockKind.handler.injEq, Option.some.injEq] at hkind
    obtain ⟨-, rfl, hblock, -⟩ := hkind
    exact hadds.filterKind block hblock

/-- Protected regions list the handlers that protect them. -/
theorem AddsHandler.links {id : NodeId} {listed : List NodeId}
    (hlisted : t'.blockKind? id = some (.tryBlock listed)) :
    listed = (handlers ++ [handler]).filter fun handler => t'.protectedBy? handler = some id := by
  have hnew : t'.protectedBy? handler = some region := by rw [protectedBy?, hadds.handlerKind]
  have hold : (handlers.filter fun handler => t'.protectedBy? handler = some id) =
      handlers.filter fun handler => t.protectedBy? handler = some id := by
    refine List.filter_congr fun other hother => ?_
    obtain ⟨_, _, _, _, _, hkind, hprotected, -⟩ := h.exists_of_mem hother
    rw [hprotected, protectedBy?, hadds.kept_handler hkind]
  rw [List.filter_append, hold]
  by_cases hid : id = region
  · subst hid
    obtain ⟨before, hregion, hbefore⟩ := hadds.regionKind
    rw [hlisted, Option.some.injEq, BlockKind.tryBlock.injEq] at hregion
    rw [hregion, List.filter_cons_of_pos (by simp [hnew]), List.filter_nil]
    congr 1
    rcases hbefore with htry | ⟨hnone, rfl⟩
    · exact h.links _ _ htry
    · rw [eq_comm, List.filter_eq_nil_iff]
      intro other hother
      obtain ⟨_, _, _, _, _, _, hprotected, htry⟩ := h.exists_of_mem hother
      rw [hprotected, decide_eq_true_eq, Option.some.injEq]
      rintro rfl
      rw [hnone] at htry
      exact absurd htry (by simp)
  · rw [List.filter_cons_of_neg (by simpa [hnew] using Ne.symm hid), List.filter_nil, List.append_nil]
    have hne : id ≠ handler := by
      rintro rfl
      rw [hadds.handlerKind] at hlisted
      exact absurd hlisted (by simp)
    rcases hadds.others id _ hid hne hlisted with htry | hplain | ⟨_, _, hfilter⟩
    · exact h.links _ _ htry
    · exact absurd hplain (by simp)
    · exact absurd hfilter (by simp)

/-- No region is open. -/
theorem AddsHandler.closed (id : NodeId) : t'.isOpenRegion id = false := by
  rw [isOpenRegion]
  by_cases hid : id = region
  · obtain ⟨listed, hregion, -⟩ := hadds.regionKind
    rw [hid, hregion]
  · by_cases hid' : id = handler
    · rw [hid', hadds.handlerKind]
    · cases hkind : t'.blockKind? id with
      | none => rfl
      | some kind =>
        rcases hadds.others id kind hid hid' hkind with hold | rfl | ⟨_, _, rfl⟩
        · have hclosed := h.closed id
          rwa [isOpenRegion, hold] at hclosed
        · rfl
        · rfl

end AddsHandler

/-- Adding a clause to a tree that carries clauses adds a handler for it, and leaves instructions and
labels alone. -/
theorem Carries.addsClause {clauses : List Clause} {handlers : List NodeId}
    (h : t.Carries x clauses handlers) (hmap : map.Maps x) (hadds : AddsClause map clause t t') :
    (∃ handler, t'.Carries x (clauses ++ [clause]) (handlers ++ [handler])) ∧
      ∀ id, t'.operation? id = t.operation? id ∧ t'.isLabel id = t.isLabel id := by
  have wf' := h.wellFormed.steps (steps_parts.addsClause hadds h.wellFormed)
  obtain ⟨htry, hhandlerSpan, hwrapTry, hwrapHandler, hopen, hlink⟩ := hadds
  rename_i trySpan handlerSpan region handler isNew filterBlock t₁ t₂
  have hadds₁ : t.Adds t₁ (ClauseBlock clause.kind region handler filterBlock) :=
    .of_wraps h.wellFormed hwrapTry .region
  have hcode₁ : t₁.HasCode x := hadds₁.instructions.trans h.code
  obtain ⟨hadds₂, hhandlerCovers, hfilter⟩ := covers_of_wrapsHandler hadds₁.wellFormed hcode₁ hmap
    region hwrapHandler hhandlerSpan hopen
  have htryCovers := hadds₂.covers _ _ _ (covers_of_wrapSpan h.wellFormed h.code hmap htry hwrapTry)
  have hadds := hadds₁.trans hadds₂
  obtain ⟨honly, hhandler⟩ := addsHandler_of_links h.closed hadds hopen hlink
  have hdissolves := honly.dissolves hadds.wellFormed wf'
  have hcovers : ∀ id first last, t₂.Covers id first last → t'.Covers id first last :=
    fun _ _ _ => hdissolves.covers_of_new
  refine ⟨⟨handler, wf', ?_, ?_, List.rel_append ?_ (.cons ?_ .nil), hhandler.nodup h,
    fun _ hother _ _ _ _ => hhandler.filters h hother, fun _ _ => hhandler.links h,
    hhandler.closed h⟩, fun id => ?_⟩
  · rw [honly.header, hadds.header, h.header]
  · exact hdissolves.instructions.symm.trans (hadds.instructions.trans h.code)
  · refine h.clauses.imp fun other id hother => hother.mono
      (fun _ _ _ _ => hhandler.kept_handler) (fun id listed hlisted => ?_)
      fun _ _ _ hold => hcovers _ _ _ (hadds.covers _ _ _ hold)
    by_cases hid : id = region
    · obtain ⟨listed, hregion, -⟩ := hhandler.regionKind
      exact ⟨_, hid ▸ hregion⟩
    · exact ⟨listed, hhandler.kept id _ hid hlisted⟩
  · obtain ⟨listed, hregion, -⟩ := hhandler.regionKind
    exact ⟨hregion, hhandler.handlerKind, fun hkind => if_pos hkind, hcovers _ _ _ htryCovers,
      hmap.spans_of_span htry, hcovers _ _ _ hhandlerCovers, hmap.spans_of_span hhandlerSpan,
      hfilter.mono hcovers⟩
  · obtain ⟨hoperation, hlabel⟩ := hadds.operation?_eq id
    exact ⟨(honly.operation id).trans hoperation, (honly.isLabel id).trans hlabel⟩

/-- Adding all clauses of a table adds a handler for each. -/
theorem Carries.addClauses {done clauses : List Clause} {handlers : List NodeId} {index : Nat}
    (h : t.Carries x done handlers) (hmap : map.Maps x)
    (hadds : addClauses map index clauses t = .ok t') :
    (∃ handlers', t'.Carries x (done ++ clauses) handlers') ∧
      ∀ id, t'.operation? id = t.operation? id ∧ t'.isLabel id = t.isLabel id := by
  induction clauses generalizing t done handlers index with
  | nil =>
    obtain rfl := pure_eq_ok.mp hadds
    exact ⟨⟨handlers, by rwa [List.append_nil]⟩, fun _ => ⟨rfl, rfl⟩⟩
  | cons clause clauses ih =>
    obtain ⟨t₁, hclause, hadds⟩ := addClauses_cons_eq_ok hadds
    obtain ⟨⟨handler, hcarries⟩, hsame⟩ := h.addsClause hmap (addsClause_of_addClause hclause)
    obtain ⟨⟨handlers', hcarries'⟩, hsame'⟩ := ih hcarries hadds
    refine ⟨⟨handlers', by simpa using hcarries'⟩, fun id => ?_⟩
    exact ⟨(hsame' id).1.trans (hsame id).1, (hsame' id).2.trans (hsame id).2⟩

end Tree

end MethodIL
