import Mathlib
import MethodIL.Proofs.Lowering.Extents
import MethodIL.Proofs.Tree.Stages
set_option autoImplicit false

/-!
# Links between regions

A protected region lists its handlers, and every handler names its region; a filter handler and its
filter block name each other, and both name the region.  Linking and unlinking write several of these
references at once, and blocks with links move, are enclosed and are cut off with the blocks around
them.  In every tree that can be made each link is there on both sides.
-/

namespace MethodIL

open Outcome

namespace Tree

variable {t t' : Tree}

/-! ## Links of a filter block -/

/-- The handler that a filter block decides about. -/
def decides? (t : Tree) (filterBlock : NodeId) : Option NodeId :=
  match t.blockKind? filterBlock with
  | some (.filter _ handler) => handler
  | _ => none

/-- The region that a filter block names. -/
def scope? (t : Tree) (filterBlock : NodeId) : Option NodeId :=
  match t.blockKind? filterBlock with
  | some (.filter region _) => region
  | _ => none

theorem decides?_eq_some_iff {filterBlock handler : NodeId} :
    t.decides? filterBlock = some handler ↔
      ∃ region, t.blockKind? filterBlock = some (.filter region (some handler)) := by
  unfold decides?
  cases t.blockKind? filterBlock with
  | none => simp
  | some kind => cases kind <;> simp

theorem scope?_eq_some_iff {filterBlock region : NodeId} :
    t.scope? filterBlock = some region ↔
      ∃ handler, t.blockKind? filterBlock = some (.filter (some region) handler) := by
  unfold scope?
  cases t.blockKind? filterBlock with
  | none => simp
  | some kind => cases kind <;> simp [eq_comm]

theorem protectedBy?_eq_some_iff {handler region : NodeId} :
    t.protectedBy? handler = some region ↔ ∃ kind filterBlock catchType,
      t.blockKind? handler = some (.handler kind (some region) filterBlock catchType) := by
  unfold protectedBy?
  cases t.blockKind? handler with
  | none => simp
  | some kind => cases kind <;> simp

theorem filterOf?_eq_some_iff {handler filterBlock : NodeId} :
    t.filterOf? handler = some filterBlock ↔ ∃ kind region catchType,
      t.blockKind? handler = some (.handler kind region (some filterBlock) catchType) := by
  unfold filterOf?
  cases t.blockKind? handler with
  | none => simp
  | some kind => cases kind <;> simp

theorem mem_handlersOf_iff {handler region : NodeId} :
    handler ∈ t.handlersOf region ↔
      ∃ handlers, t.blockKind? region = some (.tryBlock handlers) ∧ handler ∈ handlers := by
  unfold handlersOf
  cases t.blockKind? region with
  | none => simp
  | some kind => cases kind <;> simp

/-! ## What linking and unlinking make of the links -/

/-- Blocks of different kinds are different. -/
theorem ne_of_blockKind? {a b : NodeId} {kind kind' : BlockKind} (ha : t.blockKind? a = some kind)
    (hb : t.blockKind? b = some kind') (h : kind ≠ kind') : a ≠ b := by
  rintro rfl
  exact h (Option.some.inj (ha.symm.trans hb))

/-- The kinds of the blocks once one of them has changed. -/
theorem blockKind?_mapKind_of {id : NodeId} {f : BlockKind → BlockKind} {old : BlockKind}
    (hold : t.blockKind? id = some old) (x : NodeId) :
    (t.mapKind id f).blockKind? x = if x = id then some (f old) else t.blockKind? x := by
  rw [blockKind?_mapKind]
  split
  case isTrue hx => rw [hx, hold, Option.map_some]
  case isFalse => rfl

/-- A linked handler names its region, and the region lists it behind the others. -/
theorem views_linkHandler {region handler : NodeId} (h : t.linkHandler region handler = .ok t') :
    t.protectedBy? handler = none ∧
      (∀ x, t'.protectedBy? x = if x = handler then some region else t.protectedBy? x) ∧
      (∀ x, t'.handlersOf x =
        if x = region then t.handlersOf region ++ [handler] else t.handlersOf x) ∧
      (∀ x, t'.filterOf? x = t.filterOf? x ∧ t'.decides? x = t.decides? x ∧ t'.scope? x = t.scope? x) ∧
      ∀ x, x ≠ handler → t.filterOf? x ≠ none → t'.blockKind? x = t.blockKind? x := by
  obtain ⟨handlers, kind, filterBlock, catchType, hregion, hhandler, rfl⟩ :=
    linkHandler_eq_ok_iff.mp h
  have hne : handler ≠ region := ne_of_blockKind? hhandler hregion (by simp)
  have hkinds : ∀ x, ((t.mapKind handler fun _ =>
      .handler kind (some region) filterBlock catchType).mapKind region fun _ =>
        .tryBlock (handlers ++ [handler])).blockKind? x =
      if x = region then some (.tryBlock (handlers ++ [handler]))
      else if x = handler then some (.handler kind (some region) filterBlock catchType)
      else t.blockKind? x := by
    have hlists : (t.mapKind handler fun _ =>
        .handler kind (some region) filterBlock catchType).blockKind? region = some (.tryBlock handlers) := by
      rw [blockKind?_mapKind_of hhandler, if_neg (Ne.symm hne), hregion]
    intro x
    rw [blockKind?_mapKind_of hlists, blockKind?_mapKind_of hhandler]
  refine ⟨by rw [protectedBy?, hhandler], fun x => ?_, fun x => ?_, fun x => ?_, fun x hx hfilter => ?_⟩
  · rw [protectedBy?, protectedBy?, hkinds]
    by_cases hx : x = region
    · simp [hx, Ne.symm hne, hregion]
    · by_cases hx' : x = handler <;> simp [hx, hx', hne]
  · rw [handlersOf, handlersOf, handlersOf, hkinds, hregion]
    by_cases hx : x = region
    · simp [hx]
    · by_cases hx' : x = handler <;> simp [hx, hx', hne, hhandler]
  · simp only [filterOf?, decides?, scope?, hkinds]
    by_cases hx : x = region
    · simp [hx, hregion]
    · by_cases hx' : x = handler <;> simp [hx, hx', hne, hhandler]
  · rw [hkinds, if_neg, if_neg hx]
    rintro rfl
    exact hfilter (by rw [filterOf?, hregion])

/-- A linked filter block and its handler name each other, and the filter block names the region. -/
theorem views_linkFilter {filterBlock handler : NodeId} (h : t.linkFilter filterBlock handler = .ok t') :
    t.filterOf? handler = none ∧ t.decides? filterBlock = none ∧
      (∃ region catchType, t'.scope? filterBlock = some region ∧ t'.blockKind? handler =
        some (.handler .filterClause (some region) (some filterBlock) catchType)) ∧
      (∀ x, t'.protectedBy? x = t.protectedBy? x ∧ t'.handlersOf x = t.handlersOf x) ∧
      (∀ x, t'.filterOf? x = if x = handler then some filterBlock else t.filterOf? x) ∧
      (∀ x, t'.decides? x = if x = filterBlock then some handler else t.decides? x) ∧
      (∀ x, x ≠ filterBlock → t'.scope? x = t.scope? x) ∧
      ∀ x, x ≠ handler → t.filterOf? x ≠ none → t'.blockKind? x = t.blockKind? x := by
  obtain ⟨region, catchType, hhandler, hfilter, rfl⟩ := linkFilter_eq_ok_iff.mp h
  have hne : handler ≠ filterBlock := ne_of_blockKind? hhandler hfilter (by simp)
  have hkinds : ∀ x, ((t.mapKind filterBlock fun _ =>
      .filter (some region) (some handler)).mapKind handler fun _ =>
        .handler .filterClause (some region) (some filterBlock) catchType).blockKind? x =
      if x = handler then some (.handler .filterClause (some region) (some filterBlock) catchType)
      else if x = filterBlock then some (.filter (some region) (some handler))
      else t.blockKind? x := by
    have hopen : (t.mapKind filterBlock fun _ => .filter (some region) (some handler)).blockKind? handler =
        some (.handler .filterClause (some region) none catchType) := by
      rw [blockKind?_mapKind_of hfilter, if_neg hne, hhandler]
    intro x
    rw [blockKind?_mapKind_of hopen, blockKind?_mapKind_of hfilter]
  refine ⟨by rw [filterOf?, hhandler], by rw [decides?, hfilter],
    ⟨region, catchType, ?_, by rw [hkinds, if_pos rfl]⟩, fun x => ?_, fun x => ?_, fun x => ?_,
    fun x hx => ?_, fun x hx hnamed => ?_⟩
  · rw [scope?, hkinds, if_neg (Ne.symm hne), if_pos rfl]
  · simp only [protectedBy?, handlersOf, hkinds]
    by_cases hx : x = handler
    · simp [hx, hhandler]
    · by_cases hx' : x = filterBlock <;> simp [hx, hx', Ne.symm hne, hfilter]
  · rw [filterOf?, filterOf?, hkinds]
    by_cases hx : x = handler
    · simp [hx]
    · by_cases hx' : x = filterBlock <;> simp [hx, hx', Ne.symm hne, hfilter]
  · rw [decides?, decides?, hkinds]
    by_cases hx : x = handler
    · simp [hx, hne, hhandler]
    · by_cases hx' : x = filterBlock <;> simp [hx, hx', Ne.symm hne]
  · rw [scope?, scope?, hkinds, if_neg hx]
    by_cases hx' : x = handler <;> simp [hx', hhandler]
  · rw [hkinds, if_neg hx, if_neg]
    rintro rfl
    exact hnamed (by rw [filterOf?, hfilter])

/-! ## Links on both sides -/

/-- Every link between regions is there on both sides. -/
structure RegionsLinked (t : Tree) : Prop where
  handler_iff : ∀ handler region,
    t.protectedBy? handler = some region ↔ handler ∈ t.handlersOf region
  nodup : ∀ region, (t.handlersOf region).Nodup
  filter_iff : ∀ handler filterBlock,
    t.filterOf? handler = some filterBlock ↔ t.decides? filterBlock = some handler
  guarded : ∀ handler filterBlock, t.filterOf? handler = some filterBlock →
    ∃ region catchType, t.scope? filterBlock = some region ∧ t.blockKind? handler =
      some (.handler .filterClause (some region) (some filterBlock) catchType)
  idle : ∀ filterBlock, t.decides? filterBlock = none → t.scope? filterBlock = none

namespace RegionsLinked

/-- Trees with the same links are alike. -/
theorem congr (h : t.RegionsLinked)
    (hviews : ∀ x, t'.protectedBy? x = t.protectedBy? x ∧ t'.handlersOf x = t.handlersOf x ∧
      t'.filterOf? x = t.filterOf? x ∧ t'.decides? x = t.decides? x ∧ t'.scope? x = t.scope? x)
    (hguarded : ∀ handler filterBlock, t.filterOf? handler = some filterBlock →
      t'.blockKind? handler = t.blockKind? handler) : t'.RegionsLinked := by
  refine ⟨fun handler region => ?_, fun region => ?_, fun handler filterBlock => ?_,
    fun handler filterBlock hfilter => ?_, fun filterBlock hdecides => ?_⟩
  · rw [(hviews handler).1, (hviews region).2.1, h.handler_iff]
  · rw [(hviews region).2.1]
    exact h.nodup region
  · rw [(hviews handler).2.2.1, (hviews filterBlock).2.2.2.1, h.filter_iff]
  · rw [(hviews handler).2.2.1] at hfilter
    obtain ⟨region, catchType, hscope, hkind⟩ := h.guarded handler filterBlock hfilter
    exact ⟨region, catchType, by rw [(hviews filterBlock).2.2.2.2, hscope],
      by rw [hguarded handler filterBlock hfilter, hkind]⟩
  · rw [(hviews filterBlock).2.2.2.1] at hdecides
    rw [(hviews filterBlock).2.2.2.2, h.idle filterBlock hdecides]

/-- Blocks that keep their kinds, and blocks that become unlinked ones out of nothing, keep the links. -/
theorem of_kinds (h : t.RegionsLinked)
    (hkinds : ∀ x, t'.blockKind? x = t.blockKind? x ∨
      t.blockKind? x = none ∧ ∃ kind, t'.blockKind? x = some kind ∧ kind.isLinked = false) :
    t'.RegionsLinked := by
  refine h.congr (fun x => ?_) fun handler filterBlock hfilter => ?_
  · simp only [protectedBy?, handlersOf, filterOf?, decides?, scope?]
    rcases hkinds x with hsame | ⟨hnone, kind, hkind, hlinks⟩
    · rw [hsame]
      exact ⟨rfl, rfl, rfl, rfl, rfl⟩
    · rw [hnone, hkind]
      cases kind <;> simp_all [BlockKind.isLinked, BlockKind.links]
  · obtain ⟨kind, region, catchType, hkind⟩ := filterOf?_eq_some_iff.mp hfilter
    rcases hkinds handler with hsame | ⟨hnone, -⟩
    · exact hsame
    · rw [hnone] at hkind
      exact absurd hkind (by simp)

theorem setCatchType (h : t.RegionsLinked) {handler : NodeId} {token : Token}
    (hset : t.setCatchType handler token = .ok t') : t'.RegionsLinked := by
  obtain ⟨region, filterBlock, catchType, hkind, rfl⟩ := setCatchType_eq_ok_iff.mp hset
  refine h.congr (fun x => ?_) fun other block hfilter => ?_
  · simp only [protectedBy?, handlersOf, filterOf?, decides?, scope?, blockKind?_mapKind]
    by_cases hx : x = handler
    · rw [if_pos hx, hx, hkind]
      exact ⟨rfl, rfl, rfl, rfl, rfl⟩
    · rw [if_neg hx]
      exact ⟨rfl, rfl, rfl, rfl, rfl⟩
  · rw [blockKind?_mapKind, if_neg]
    rintro rfl
    obtain ⟨_, _, -, hguarded⟩ := h.guarded other block hfilter
    rw [hguarded] at hkind
    exact absurd hkind (by simp)

theorem linkHandler (h : t.RegionsLinked) {region handler : NodeId}
    (hlink : t.linkHandler region handler = .ok t') : t'.RegionsLinked := by
  obtain ⟨hfree, hprotected, hlists, hother, hkinds⟩ := views_linkHandler hlink
  have hunlisted : ∀ other, handler ∉ t.handlersOf other := fun other hmem => by
    rw [← h.handler_iff, hfree] at hmem
    exact absurd hmem (by simp)
  refine ⟨fun other scope => ?_, fun scope => ?_, fun other block => ?_,
    fun other block hfilter => ?_, fun block hdecides => ?_⟩
  · rw [hprotected, hlists]
    by_cases hother : other = handler
    · by_cases hscope : scope = region
      · simp [hother, hscope]
      · simp [hother, hscope, hunlisted, Ne.symm hscope]
    · by_cases hscope : scope = region
      · rw [if_neg hother, if_pos hscope, h.handler_iff, hscope]
        simp [hother]
      · rw [if_neg hother, if_neg hscope, h.handler_iff]
  · rw [hlists]
    split
    · rw [← List.concat_eq_append, List.nodup_concat]
      exact ⟨hunlisted region, h.nodup region⟩
    · exact h.nodup scope
  · rw [(hother other).1, (hother block).2.1, h.filter_iff]
  · rw [(hother other).1] at hfilter
    obtain ⟨scope, token, hscope, hkind⟩ := h.guarded other block hfilter
    refine ⟨scope, token, by rw [(hother block).2.2, hscope], ?_⟩
    rw [hkinds other _ (by simp [hfilter]), hkind]
    rintro rfl
    rw [protectedBy?, hkind] at hfree
    exact absurd hfree (by simp)
  · rw [(hother block).2.1] at hdecides
    rw [(hother block).2.2, h.idle block hdecides]

theorem linkFilter (h : t.RegionsLinked) {filterBlock handler : NodeId}
    (hlink : t.linkFilter filterBlock handler = .ok t') : t'.RegionsLinked := by
  obtain ⟨hfree, hopen, hlinked, hsame, hfilters, hdecided, hscopes, hkinds⟩ := views_linkFilter hlink
  have hunnamed : ∀ other, t.filterOf? other ≠ some filterBlock := fun other hfilter => by
    rw [h.filter_iff, hopen] at hfilter
    exact absurd hfilter (by simp)
  have hundecided : ∀ block, t.decides? block ≠ some handler := fun block hdecides => by
    rw [← h.filter_iff, hfree] at hdecides
    exact absurd hdecides (by simp)
  refine ⟨fun other scope => ?_, fun scope => ?_, fun other block => ?_,
    fun other block hfilter => ?_, fun block hdecides => ?_⟩
  · rw [(hsame other).1, (hsame scope).2, h.handler_iff]
  · rw [(hsame scope).2]
    exact h.nodup scope
  · rw [hfilters, hdecided]
    by_cases hother : other = handler
    · by_cases hblock : block = filterBlock
      · simp [hother, hblock]
      · simp [hother, hblock, hundecided, Ne.symm hblock]
    · by_cases hblock : block = filterBlock
      · simp [hother, hblock, hunnamed, Ne.symm hother]
      · rw [if_neg hother, if_neg hblock, h.filter_iff]
  · rw [hfilters] at hfilter
    split at hfilter
    case isTrue hother =>
      obtain rfl := Option.some.inj hfilter
      rw [hother]
      exact hlinked
    case isFalse hother =>
      obtain ⟨scope, token, hscope, hkind⟩ := h.guarded other block hfilter
      have hblock : block ≠ filterBlock := fun heq => hunnamed other (heq ▸ hfilter)
      exact ⟨scope, token, by rw [hscopes block hblock, hscope],
        by rw [hkinds other hother (by simp [hfilter]), hkind]⟩
  · rw [hdecided] at hdecides
    split at hdecides
    case isTrue => exact absurd hdecides (by simp)
    case isFalse hblock => rw [hscopes block hblock, h.idle block hdecides]

/-- What a handler names as its region lists it. -/
theorem exists_region (h : t.RegionsLinked) {handler region : NodeId}
    (hregion : t.protectedBy? handler = some region) :
    ∃ handlers, t.blockKind? region = some (.tryBlock handlers) ∧ handler ∈ handlers :=
  mem_handlersOf_iff.mp ((h.handler_iff handler region).mp hregion)

/-- What a handler names as its filter block names it. -/
theorem exists_filterBlock (h : t.RegionsLinked) {handler filterBlock : NodeId}
    (hfilter : t.filterOf? handler = some filterBlock) :
    ∃ region, t.blockKind? filterBlock = some (.filter region (some handler)) :=
  decides?_eq_some_iff.mp ((h.filter_iff handler filterBlock).mp hfilter)

/-- The kinds of the blocks once a handler is unlinked from its region and its filter block. -/
theorem kinds_unlinkHandler (h : t.RegionsLinked) {handler : NodeId}
    (hunlink : t.unlinkHandler handler = .ok t') :
    ∃ kind catchType, ∀ x, t'.blockKind? x =
      if x = handler then some (.handler kind none none catchType)
      else if t.protectedBy? handler = some x then
        some (.tryBlock ((t.handlersOf x).filter fun other => other ≠ handler))
      else if t.filterOf? handler = some x then some .newFilter
      else t.blockKind? x := by
  obtain ⟨kind, region, filterBlock, catchType, hkind, rfl⟩ := unlinkHandler_eq_ok_iff.mp hunlink
  have hprotected : t.protectedBy? handler = region := by rw [protectedBy?, hkind]
  have hfilter : t.filterOf? handler = filterBlock := by rw [filterOf?, hkind]
  refine ⟨kind, catchType, fun x => ?_⟩
  rw [hprotected, hfilter]
  have hcleared : ∀ y, (t.mapKind handler fun _ => .handler kind none none catchType).blockKind? y =
      if y = handler then some (.handler kind none none catchType) else t.blockKind? y :=
    blockKind?_mapKind_of hkind
  have hdropped : ∀ y, ((region.elim id fun region t => t.dropHandler handler region)
      (t.mapKind handler fun _ => .handler kind none none catchType)).blockKind? y =
      if y = handler then some (.handler kind none none catchType)
      else if region = some y then
        some (.tryBlock ((t.handlersOf y).filter fun other => other ≠ handler))
      else t.blockKind? y := by
    intro y
    cases region with
    | none => simpa using hcleared y
    | some region =>
      obtain ⟨handlers, hregion, -⟩ := h.exists_region hprotected
      have hne : region ≠ handler := ne_of_blockKind? hregion hkind (by simp)
      have hold := (hcleared region).trans (if_neg hne)
      rw [Option.elim_some, dropHandler, blockKind?_mapKind_of (hold.trans hregion), hcleared]
      simp only [Option.some.injEq]
      by_cases hy : y = region
      · rw [hy, if_pos rfl, if_neg hne, if_pos rfl, handlersOf, hregion]
      · rw [if_neg hy, if_neg (c := region = y) (Ne.symm hy)]
  cases filterBlock with
  | none => simpa using hdropped x
  | some filterBlock =>
    obtain ⟨owner, hblock⟩ := h.exists_filterBlock hfilter
    have hne : filterBlock ≠ handler := ne_of_blockKind? hblock hkind (by simp)
    have hapart : region ≠ some filterBlock := by
      rintro rfl
      obtain ⟨handlers, hregion, -⟩ := h.exists_region hprotected
      exact ne_of_blockKind? hregion hblock (by simp) rfl
    have hold := ((hdropped filterBlock).trans (if_neg hne)).trans (if_neg hapart)
    rw [Option.elim_some, clearFilter, blockKind?_mapKind_of (hold.trans hblock), hdropped]
    simp only [Option.some.injEq]
    by_cases hx : x = filterBlock
    · rw [hx, if_pos rfl, if_neg hne, if_neg hapart, if_pos rfl]
    · rw [if_neg hx, if_neg (c := filterBlock = x) (Ne.symm hx)]

/-- An unlinked handler names nothing, and nothing names it. -/
theorem views_unlinkHandler (h : t.RegionsLinked) {handler : NodeId}
    (hunlink : t.unlinkHandler handler = .ok t') (x : NodeId) :
    t'.protectedBy? x = (if x = handler then none else t.protectedBy? x) ∧
      t'.handlersOf x = ((t.handlersOf x).filter fun other => other ≠ handler) ∧
      t'.filterOf? x = (if x = handler then none else t.filterOf? x) ∧
      t'.decides? x = (if t.filterOf? handler = some x then none else t.decides? x) ∧
      t'.scope? x = (if t.filterOf? handler = some x then none else t.scope? x) ∧
      (x ≠ handler → t.filterOf? x ≠ none → t'.blockKind? x = t.blockKind? x) := by
  obtain ⟨kind, catchType, hkinds⟩ := h.kinds_unlinkHandler hunlink
  obtain ⟨_, region, filterBlock, _, hhandler, -⟩ := unlinkHandler_eq_ok_iff.mp hunlink
  have hkind := hkinds x
  by_cases hx : x = handler
  · -- the handler itself: it is no filter block, so it is not the one it names
    have hapart : t.filterOf? handler ≠ some handler := fun heq => by
      obtain ⟨_, hblock⟩ := h.exists_filterBlock heq
      exact ne_of_blockKind? hhandler hblock (by simp) rfl
    rw [if_pos hx] at hkind
    subst hx
    simp [protectedBy?, handlersOf, decides?, scope?, filterOf?, hkind, hhandler] at hapart ⊢
  rw [if_neg hx] at hkind
  by_cases hregion : t.protectedBy? handler = some x
  · obtain ⟨handlers, hlist, -⟩ := h.exists_region hregion
    have hapart : t.filterOf? handler ≠ some x := fun heq => by
      obtain ⟨_, hblock⟩ := h.exists_filterBlock heq
      exact ne_of_blockKind? hlist hblock (by simp) rfl
    rw [if_pos hregion] at hkind
    rw [if_neg hapart, if_neg hapart, if_neg hx, if_neg hx]
    simp only [protectedBy?, handlersOf, filterOf?, decides?, scope?, hkind, hlist]
    exact ⟨trivial, trivial, trivial, trivial, trivial, fun _ hnamed => absurd rfl hnamed⟩
  rw [if_neg hregion] at hkind
  have hunlisted : handler ∉ t.handlersOf x := fun hmem => hregion ((h.handler_iff _ _).mpr hmem)
  have hlist : ((t.handlersOf x).filter fun other => other ≠ handler) = t.handlersOf x :=
    List.filter_eq_self.mpr fun other hother => by
      rw [decide_eq_true_eq]
      rintro rfl
      exact hunlisted hother
  by_cases hfilter : t.filterOf? handler = some x
  · obtain ⟨_, hblock⟩ := h.exists_filterBlock hfilter
    rw [if_pos hfilter] at hkind
    rw [hlist, if_pos hfilter, if_pos hfilter, if_neg hx, if_neg hx]
    simp [protectedBy?, handlersOf, filterOf?, decides?, scope?, hkind, hblock, BlockKind.newFilter]
  · rw [if_neg hfilter] at hkind
    rw [hlist, if_neg hfilter, if_neg hfilter, if_neg hx, if_neg hx]
    simp only [protectedBy?, handlersOf, filterOf?, decides?, scope?, hkind]
    exact ⟨trivial, trivial, trivial, trivial, trivial, fun _ _ => trivial⟩

theorem unlinkHandler (h : t.RegionsLinked) {handler : NodeId}
    (hunlink : t.unlinkHandler handler = .ok t') : t'.RegionsLinked := by
  have hviews := h.views_unlinkHandler hunlink
  refine ⟨fun other scope => ?_, fun scope => ?_, fun other block => ?_,
    fun other block hfilter => ?_, fun block hdecides => ?_⟩
  · rw [(hviews other).1, (hviews scope).2.1, List.mem_filter]
    by_cases hother : other = handler <;> simp [hother, h.handler_iff]
  · rw [(hviews scope).2.1]
    exact (h.nodup scope).filter _
  · rw [(hviews other).2.2.1, (hviews block).2.2.2.1]
    by_cases hother : other = handler
    · by_cases hblock : t.filterOf? handler = some block
      · simp [hother, hblock]
      · simp [hother, hblock, ← h.filter_iff]
    · by_cases hblock : t.filterOf? handler = some block
      · -- the handler is the only one that names its filter block
        have hdecides := (h.filter_iff _ _).mp hblock
        simp [hother, hblock, h.filter_iff, hdecides, Ne.symm hother]
      · simp [hother, hblock, h.filter_iff]
  · rw [(hviews other).2.2.1] at hfilter
    split at hfilter
    case isTrue => exact absurd hfilter (by simp)
    case isFalse hother =>
      obtain ⟨scope, token, hscope, hkind⟩ := h.guarded other block hfilter
      have hblock : t.filterOf? handler ≠ some block := fun heq => by
        have hboth := (h.filter_iff _ _).mp heq
        rw [(h.filter_iff _ _).mp hfilter] at hboth
        exact hother (Option.some.inj hboth)
      exact ⟨scope, token, by rw [(hviews block).2.2.2.2.1, if_neg hblock, hscope],
        by rw [(hviews other).2.2.2.2.2 hother (by simp [hfilter]), hkind]⟩
  · rw [(hviews block).2.2.2.2.1]
    rw [(hviews block).2.2.2.1] at hdecides
    split at hdecides
    case isTrue hblock => rw [if_pos hblock]
    case isFalse hblock => rw [if_neg hblock, h.idle block hdecides]

theorem stage (h : t.RegionsLinked) (hstage : Stage t t') : t'.RegionsLinked := by
  have hkept (hsame : ∀ x, t'.blockKind? x = t.blockKind? x) : t'.RegionsLinked :=
    h.of_kinds fun x => Or.inl (hsame x)
  cases hstage with
  | places hpayload => exact hkept fun x => blockKind?_of_payload? (hpayload x)
  | creates hpayload hnew => exact h.of_kinds (blockKind?_of_creates hpayload hnew)
  | retypes => exact hkept (blockKind?_setOperation _ _)
  | unbinds id => exact hkept (blockKind?_unbindLabels id)
  | aims => exact hkept (blockKind?_aim _ _)
  | relinks hrelinks =>
    cases hrelinks with
    | catchType hset => exact h.setCatchType hset
    | handler hlink => exact h.linkHandler hlink
    | filter hlink => exact h.linkFilter hlink
    | unlink hunlink => exact h.unlinkHandler hunlink

end RegionsLinked

/-- Bare code has no regions. -/
theorem regionsLinked_ofCode (header : Header) (code : List Instruction) :
    (ofCode header code).RegionsLinked := by
  have hkind : ∀ x, (ofCode header code).blockKind? x = if x = root then some .body else none :=
    blockKind?_ofCode (x := ⟨header, code, []⟩)
  have hviews : ∀ x, (ofCode header code).protectedBy? x = none ∧
      (ofCode header code).handlersOf x = [] ∧ (ofCode header code).filterOf? x = none ∧
      (ofCode header code).decides? x = none ∧ (ofCode header code).scope? x = none := by
    intro x
    simp only [protectedBy?, handlersOf, filterOf?, decides?, scope?, hkind]
    by_cases hx : x = root <;> simp [hx]
  refine ⟨fun handler region => ?_, fun region => ?_, fun handler filterBlock => ?_,
    fun handler filterBlock hfilter => ?_, fun filterBlock _ => (hviews filterBlock).2.2.2.2⟩
  · rw [(hviews handler).1, (hviews region).2.1]
    simp
  · rw [(hviews region).2.1]
    exact List.nodup_nil
  · rw [(hviews handler).2.2.1, (hviews filterBlock).2.2.2.1]
    simp
  · rw [(hviews handler).2.2.1] at hfilter
    exact absurd hfilter (by simp)

theorem Reachable.regionsLinked (h : t.Reachable) : t.RegionsLinked :=
  h.byAny.induction_stages regionsLinked_ofCode (fun _ _ ht hstage => ht.stage hstage)
    fun t operation _ ht => ht.of_kinds fun x => Or.inl (newInstruction_views t operation x).1

theorem Reachable.filtersLinked (h : t.Reachable) : t.FiltersLinked := by
  intro handler kind region filterBlock catchType hkind
  have hfilter := filterOf?_eq_some_iff.mpr ⟨kind, region, catchType, hkind⟩
  obtain ⟨scope, hblock⟩ := h.regionsLinked.exists_filterBlock hfilter
  exact ⟨scope, some handler, hblock⟩

end Tree

end MethodIL
