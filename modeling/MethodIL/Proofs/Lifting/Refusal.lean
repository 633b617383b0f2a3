import Mathlib
import MethodIL.Proofs.Lifting.Acceptance
import MethodIL.Proofs.Lowering.Table
set_option autoImplicit false

/-!
# When a clause is refused

A handler whose range is that of a handler block that is there is wrapped into this very block, unless a
block of another variant stands right inside it, and a block that is in use is refused.  The same holds
of filters.  And the range of a filter and its handler together has to be nested with all blocks that
are there at the time, or apart from them.
-/

namespace MethodIL

open Outcome

/-! ## Ranges of a clause that fits -/

namespace CodeMap.Fits

variable {map : CodeMap} {x : Body} {clause : Clause} (h : map.Fits clause)

include h

theorem fitsFilter {start : UInt32} (hstart : start ∈ clause.filterStarts) :
    map.FitsFilter clause start := by
  obtain ⟨hkind, hoffset⟩ := Clause.mem_filterStarts_iff.mp hstart
  obtain ⟨start', hoffset', hfilter⟩ := h.filter hkind
  obtain rfl := Option.some.inj (hoffset.symm.trans hoffset')
  exact hfilter

theorem filter_ne_handler :
    ∀ r ∈ clause.filterRanges ++ clause.scopes, x.clip r ≠ x.clip clause.handlerRange := by
  intro r hr heq
  have hstart := congrArg Prod.fst heq
  rcases List.mem_append.mp hr with hr | hr <;> obtain ⟨start, hmem, rfl⟩ := List.mem_map.mp hr <;>
    exact absurd hstart (Nat.ne_of_lt (h.fitsFilter hmem).ahead)

variable (hmap : map.Maps x)

include hmap

theorem try_ne_handler : x.clip clause.tryRange ≠ x.clip clause.handlerRange := by
  intro heq
  obtain ⟨_, htry⟩ := h.trySpan
  obtain ⟨_, hhandler⟩ := h.handlerSpan
  have htryLength := (hmap.lt_of_span htry).1
  have hhandlerLength := (hmap.lt_of_span hhandler).1
  have hstart := congrArg Prod.fst heq
  have hapart := h.apart
  simp only [Body.clip, Clause.tryRange, Clause.handlerRange] at hstart
  simp only [rangesOverlap, Bool.and_eq_false_iff, decide_eq_false_iff_not] at hapart
  omega

theorem try_ne_filter : ∀ r ∈ clause.filterRanges, x.clip clause.tryRange ≠ x.clip r := by
  intro r hr heq
  obtain ⟨start, hmem, rfl⟩ := List.mem_map.mp hr
  obtain ⟨_, htry⟩ := h.trySpan
  have htryLength := (hmap.lt_of_span htry).1
  have hfilter := h.fitsFilter hmem
  have hahead := hfilter.ahead
  have hapart := hfilter.apart
  have hstart := congrArg Prod.fst heq
  simp only [Body.clip, Clause.tryRange] at hstart
  simp only [rangesOverlap, Bool.and_eq_false_iff, decide_eq_false_iff_not] at hapart
  omega

theorem scope_ne_filter : ∀ r ∈ clause.scopes, ∀ s ∈ clause.filterRanges, x.clip r ≠ x.clip s := by
  intro r hr s hs heq
  obtain ⟨start, hmem, rfl⟩ := List.mem_map.mp hr
  obtain ⟨start', hmem', rfl⟩ := List.mem_map.mp hs
  obtain ⟨_, hhandler⟩ := h.handlerSpan
  obtain ⟨hlength, hwithin⟩ := hmap.lt_of_span hhandler
  have hstop := congrArg Prod.snd heq
  simp only [Body.clip, Clause.handlerRange] at hstop
  omega

end CodeMap.Fits

namespace Tree

variable {t t' : Tree} {x : Body} {map : CodeMap} {clause : Clause}

/-! ## Reuse -/

/-- A block that has been wrapped anew is none that is there. -/
theorem Wraps.isNew_of_absent {start stop block : NodeId} {kind : BlockKind} {isNew : Bool}
    (h : Wraps t start stop kind block isNew t')
    (habsent : ∀ kind', t.blockKind? block = some kind' → kind'.sameVariant kind = false) :
    isNew = true := by
  cases h with
  | reused _ _ _ hkind hvariant =>
    rw [habsent _ hkind] at hvariant
    exact absurd hvariant (by simp)
  | enclosed => rfl

/-- A block that has been wrapped anew is none that was there, whatever blocks of other variants were added
in the meantime. -/
theorem Wraps.isNew_of_adds {t₀ : Tree} {start stop block : NodeId} {kind : BlockKind} {isNew : Bool}
    (h : Wraps t₀ start stop kind block isNew t')
    (hadds : t.Adds t₀ fun _ kind' => kind'.sameVariant kind = false)
    (habsent : t.blockKind? block = none) : isNew = true := by
  refine h.isNew_of_absent fun kind' hkind' => ?_
  refine (hadds.blockKind?_or hkind').resolve_left fun hold => ?_
  rw [habsent] at hold
  exact absurd hold (by simp)

/-- A block that occupies a range covers the instructions that the range is made of. -/
theorem Occupies.covers (hmap : map.Maps x) {offset length : Nat} {span : Nat × Nat} {id : NodeId}
    (hspan : map.span offset length = .ok span)
    (h : t.Occupies x id (x.clip (offset, offset + length))) : t.Covers id span.1 (span.2 + 1) := by
  obtain ⟨i, j⟩ := span
  have hpos := fun (i : Instruction) hi => hmap.size_pos (i := i) hi
  obtain ⟨first, last, hcovers, hlt', hle', hfirst', hlast'⟩ := h
  obtain ⟨hlt, hle, hfirst, hlast⟩ := hmap.spans_of_span hspan
  obtain rfl : first = i :=
    Body.start_injective hpos (by omega) (by omega) (hfirst'.trans hfirst.symm)
  obtain rfl : last = j + 1 := Body.start_injective hpos hle' hle (hlast'.trans hlast.symm)
  exact hcovers

section Reuse

variable {made : NodeId → BlockKind → Nat × Nat → Prop} (h : t.MadeFor x made) (hmap : map.Maps x)
  {offset length : Nat} {span : Nat × Nat} {kind kind' : BlockKind} {block region : NodeId}
  {isNew : Bool} (hspan : map.span offset length = .ok span)
  (hwraps : Wraps t (instructionNode span.1) (instructionNode span.2) kind block isNew t')
  (hregion : t.blockKind? region = some kind')
  (hoccupies : t.Occupies x region (x.clip (offset, offset + length)))

include h hmap hspan hwraps hregion hoccupies

/-- A range that is the range of a block is wrapped into a block that is there, if all blocks inside it
that occupy the range are of the variant that is asked for. -/
theorem MadeFor.isNew_eq_false_of_inside (hinside : ∀ id kind', id ∈ t.preOrder region →
      t.blockKind? id = some kind' → t.Occupies x id (x.clip (offset, offset + length)) →
        kind'.sameVariant kind = true) : isNew = false := by
  have hspans := hmap.spans_of_span hspan
  obtain ⟨hlt, hle, -⟩ := id hspans
  exact h.wellFormed.isNew_eq_false h.solid hwraps (h.code.getElem? (by omega))
    (h.code.getElem? (by omega)) (by omega) (hoccupies.covers hmap hspan)
    (isInstruction_of_blockKind? hregion)
    fun id kind' hid hkind' hcovers => hinside id kind' hid hkind' ⟨_, _, hcovers, hspans⟩

/-- A range that is the range of a block is wrapped into a block that is there, if all blocks that are
made for the range are of the variant that is asked for. -/
theorem MadeFor.isNew_eq_false (hne : region ≠ root)
    (hmade : ∀ id kind', made id kind' (x.clip (offset, offset + length)) →
      kind'.sameVariant kind = true) : isNew = false := by
  refine h.isNew_eq_false_of_inside hmap hspan hwraps hregion hoccupies
    fun id kind' hinside hkind' ⟨first, last, hcovers, hspans⟩ => ?_
  have hid : id ≠ root := by
    rintro rfl
    rcases h.wellFormed.mem_preOrder_iff.mp hinside with heq | habove
    · exact hne heq.symm
    · rw [h.wellFormed.ancestors_of_no_parent h.wellFormed.root_parent] at habove
      exact absurd habove List.not_mem_nil
  obtain ⟨r, hr, -, -, hstart, hstop⟩ := h.blocks id kind' _ _ hid hkind' hcovers
  obtain rfl : r = x.clip (offset, offset + length) :=
    Prod.ext (hstart.symm.trans hspans.2.2.1) (hstop.symm.trans hspans.2.2.2)
  exact hmade id kind' hr

end Reuse

/-- Between blocks that were there and a block of the clause, only a block of another variant keeps the
range of a block that was there from being wrapped into a block that was there. -/
theorem MadeFor.not_absent {t₀ t₁ : Tree} {made : NodeId → BlockKind → Nat × Nat → Prop}
    {allowed : NodeId → BlockKind → Prop} (h : t₀.MadeFor x made) (hadds : t.Adds t₀ allowed)
    (hmap : map.Maps x) {offset length : Nat} {span : Nat × Nat} {kind kind' : BlockKind}
    {block region : NodeId} {isNew : Bool} (hspan : map.span offset length = .ok span)
    (hwraps : Wraps t₀ (instructionNode span.1) (instructionNode span.2) kind block isNew t₁)
    (hallowed : ∀ id kind', allowed id kind' → kind'.sameVariant kind = false)
    (hregion : t.blockKind? region = some kind') (hne : region ≠ root)
    (hoccupies : t.Occupies x region (x.clip (offset, offset + length)))
    (hmade : ∀ id kind', made id kind' (x.clip (offset, offset + length)) →
      kind'.sameVariant kind = true) : t.blockKind? block ≠ none := by
  intro habsent
  have hnew := hwraps.isNew_of_adds (hadds.imp hallowed) habsent
  obtain ⟨first, last, hcovers, hspans⟩ := hoccupies
  rw [h.isNew_eq_false hmap hspan hwraps (hadds.blockKind?_of_some hregion)
    ⟨first, last, hadds.covers _ _ _ hcovers, hspans⟩ hne hmade] at hnew
  exact absurd hnew (by simp)

/-- The blocks that a clause takes for its handler and its filter are none that are there. -/
theorem absent_of_wrapsHandler {made : NodeId → BlockKind → Nat × Nat → Prop} {offset length : Nat}
    {trySpan handlerSpan : Nat × Nat} {region handler : NodeId} {isNew : Bool}
    {filterBlock : Option NodeId} {t₁ t₂ : Tree} (hclosed : ∀ id, t.isOpenRegion id = false)
    (h : t.MadeFor x made) (hmap : map.Maps x) (htry : map.span offset length = .ok trySpan)
    (hwrapTry : Wraps t (instructionNode trySpan.1) (instructionNode trySpan.2) .newTry region isNew t₁)
    (hwrapHandler : WrapsHandler map clause handlerSpan t₁ handler filterBlock t₂)
    (hspan : map.span clause.handlerOffset.toNat clause.handlerLength.toNat = .ok handlerSpan)
    (hopen : ∀ block ∈ handler :: filterBlock.toList, t₂.isOpenRegion block = true) :
    ∀ block ∈ handler :: filterBlock.toList, t.blockKind? block = none := by
  have hadds₁ : t.Adds t₁ (ClauseBlock clause.kind region handler filterBlock) :=
    .of_wraps h.wellFormed hwrapTry .region
  have h₁ := h.wraps hmap htry hwrapTry
  obtain ⟨hadds₂, -⟩ := covers_of_wrapsHandler h₁.wellFormed h₁.code hmap region hwrapHandler hspan hopen
  exact fun block hblock => (hadds₁.trans hadds₂).blockKind?_of_open hclosed (hopen block hblock)

/-- The filter of a clause that is added does not have the range of a filter that is there, unless a
clause has this range for a protected region or a handler. -/
theorem MadeFor.not_occupies_filter {clauses : List Clause} {region : NodeId}
    {own handler : Option NodeId} {range : Nat × Nat} (h : t.MadeFor x fun _ => x.HasRange clauses)
    (hclosed : ∀ id, t.isOpenRegion id = false) (hmap : map.Maps x) (hfits : map.Fits clause)
    (hadds : AddsClause map clause t t')
    (hregion : t.blockKind? region = some (.filter own handler)) (hrange : range ∈ clause.filterRanges)
    (hothers : ∀ c ∈ clauses, x.clip c.tryRange ≠ x.clip range ∧ x.clip c.handlerRange ≠ x.clip range) :
    ¬ t.Occupies x region (x.clip range) := by
  intro hoccupies
  have hne : region ≠ root := by
    rintro rfl
    rw [h.wellFormed.root_kind] at hregion
    exact absurd hregion (by simp)
  have hmade : ∀ kind', x.HasRange clauses kind' (x.clip range) →
      kind'.sameVariant .newFilter = true := by
    rintro kind' ⟨c, hc, r, hr, heq⟩
    cases kind' with
    | filter => rfl
    | tryBlock =>
      rw [List.mem_singleton.mp hr] at heq
      exact absurd heq (hothers c hc).1
    | handler =>
      rw [List.mem_singleton.mp hr] at heq
      exact absurd heq (hothers c hc).2
    | _ => exact absurd hr List.not_mem_nil
  have hownTry := hfits.try_ne_filter hmap range hrange
  have hscopes := hfits.scope_ne_filter hmap
  obtain ⟨start, hmem, rfl⟩ := List.mem_map.mp hrange
  obtain ⟨hkind, hoffset⟩ := Clause.mem_filterStarts_iff.mp hmem
  obtain ⟨htry, hspan, hwrapTry, hwrapHandler, hopen, -⟩ := hadds
  have h₁ := h.wraps hmap htry hwrapTry
  have habsent := absent_of_wrapsHandler hclosed h hmap htry hwrapTry hwrapHandler hspan hopen
  cases hwrapHandler with
  | alone hother => exact hother hkind
  | @filtered start' _ _ _ _ _ _ _ _ _ _ _ _ _ hstart hlt hboth hfilter hscope hfilterWrap =>
    obtain rfl := Option.some.inj (hoffset.symm.trans hstart)
    have h₂ := h₁.wraps hmap hboth hscope
    have hadds₂ : t.Adds _ fun _ kind => kind.sameVariant .newFilter = false :=
      (Adds.of_wraps h.wellFormed hwrapTry rfl).trans (.of_wraps h₁.wellFormed hscope rfl)
    have hstop : start.toNat + (clause.handlerOffset.toNat - start.toNat) =
        clause.handlerOffset.toNat := Nat.add_sub_cancel' (Nat.le_of_lt hlt)
    refine h₂.not_absent hadds₂ hmap hfilter hfilterWrap (fun _ _ h => h) hregion hne
      (by rwa [hstop]) ?_ (habsent _ (by simp))
    rw [hstop]
    rintro id kind' ((hrange | ⟨-, -, heq⟩) | ⟨-, -, heq⟩)
    · exact hmade kind' hrange
    · exact absurd heq.symm hownTry
    · refine absurd heq.symm (hscopes _ ?_ _ hrange)
      refine List.mem_map.mpr ⟨start, hmem, ?_⟩
      rw [← Nat.add_assoc, hstop, Clause.handlerRange]

/-! ## Crossing -/

theorem Occupies.adds {allowed : NodeId → BlockKind → Prop} (hadds : t.Adds t' allowed) {id : NodeId}
    {range : Nat × Nat} (h : t.Occupies x id range) : t'.Occupies x id range := by
  obtain ⟨first, last, hcovers, hspans⟩ := h
  exact ⟨first, last, hadds.covers _ _ _ hcovers, hspans⟩

/-- The block of a wrapped range occupies it. -/
theorem occupies_of_wraps (wf : t.WellFormed) (hcode : t.HasCode x) (hmap : map.Maps x)
    {offset length : Nat} {span : Nat × Nat} {kind : BlockKind} {block : NodeId} {isNew : Bool}
    (hspan : map.span offset length = .ok span)
    (h : Wraps t (instructionNode span.1) (instructionNode span.2) kind block isNew t') :
    t'.Occupies x block (x.clip (offset, offset + length)) :=
  ⟨span.1, span.2 + 1, covers_of_wrapSpan wf hcode hmap hspan h, hmap.spans_of_span hspan⟩

/-- The range of the filter and the handler of a clause that is added is nested with the ranges of the
clause and of those that are there, or apart from them. -/
theorem Carries.laminar_of_addsClause {clauses : List Clause} {handlers : List NodeId}
    (h : t.Carries x clauses handlers) (hmap : map.Maps x) (hadds : AddsClause map clause t t') :
    ∀ s ∈ clause.scopes, ∀ c ∈ clause :: clauses, ∀ r ∈ c.ranges, Laminar (x.clip s) (x.clip r) := by
  intro s hs c hc r hr
  obtain ⟨start, hmem, rfl⟩ := List.mem_map.mp hs
  obtain ⟨hkind, hoffset⟩ := Clause.mem_filterStarts_iff.mp hmem
  obtain ⟨htry, hspan, hwrapTry, hwrapHandler, -, -⟩ := hadds
  have hadds₁ := hwrapTry.adds h.wellFormed
  have htryBlock := occupies_of_wraps h.wellFormed h.code hmap htry hwrapTry
  cases hwrapHandler with
  | alone hother => exact absurd hkind hother
  | @filtered start' _ _ _ _ _ _ _ _ _ _ _ _ _ hstart hlt hboth hfilter hscope hfilterWrap
      hhandlerWrap =>
    obtain rfl := Option.some.inj (hoffset.symm.trans hstart)
    have hcode₁ := hadds₁.instructions.trans h.code
    have hadds₂ := hscope.adds hadds₁.wellFormed
    have hcode₂ := hadds₂.instructions.trans hcode₁
    have hadds₃ := hfilterWrap.adds hadds₂.wellFormed
    have hcode₃ := hadds₃.instructions.trans hcode₂
    have hadds₄ := hhandlerWrap.adds hadds₃.wellFormed
    have hscopeBlock := occupies_of_wraps hadds₁.wellFormed hcode₁ hmap hboth hscope
    have hfilterBlock := occupies_of_wraps hadds₂.wellFormed hcode₂ hmap hfilter hfilterWrap
    have hhandlerBlock := occupies_of_wraps hadds₃.wellFormed hcode₃ hmap hspan hhandlerWrap
    rw [← Nat.add_assoc, Nat.add_sub_cancel' (Nat.le_of_lt hlt)] at hscopeBlock
    rw [Nat.add_sub_cancel' (Nat.le_of_lt hlt)] at hfilterBlock
    -- all of them stand in the tree in which the scope is not yet dissolved
    have hscopeLast := (hscopeBlock.adds hadds₃).adds hadds₄
    rcases List.mem_cons.mp hc with rfl | hc
    · rw [Clause.ranges_eq] at hr
      rcases List.mem_cons.mp hr with rfl | hr
      · exact hscopeLast.laminar hadds₄.wellFormed (((htryBlock.adds hadds₂).adds hadds₃).adds hadds₄)
      · rcases List.mem_cons.mp hr with rfl | hr
        · exact hscopeLast.laminar hadds₄.wellFormed hhandlerBlock
        · obtain ⟨start', hmem', rfl⟩ := List.mem_map.mp hr
          obtain rfl := Option.some.inj (hoffset.symm.trans (Clause.mem_filterStarts_iff.mp hmem').2)
          exact hscopeLast.laminar hadds₄.wellFormed (hfilterBlock.adds hadds₄)
    · obtain ⟨_, hblock⟩ := h.exists_occupies hc hr
      exact hscopeLast.laminar hadds₄.wellFormed
        ((((hblock.adds hadds₁).adds hadds₂).adds hadds₃).adds hadds₄)

end Tree

end MethodIL
