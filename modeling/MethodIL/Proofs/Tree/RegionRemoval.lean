import Mathlib
import MethodIL.Proofs.Tree.RegionLinks
set_option autoImplicit false

/-!
# What a removed block takes along

A block may be cut off with the regions below it.  Labels outside that its instructions refer to are
cut off as well, each on its own, but no other node moves.  Since links are there on both sides, it is
enough that nothing below the block mentions a region outside: then no region outside mentions one
below, and linked regions stay together.
-/

namespace MethodIL

open Outcome

namespace Tree

variable {t t' : Tree} {block : NodeId}

/-! ## Mentions -/

/-- A block mentions another one as its region, its handler or its filter. -/
def Mentions (t : Tree) (a b : NodeId) : Prop :=
  ∃ kind, t.blockKind? a = some kind ∧ b ∈ kind.links

theorem Mentions.exists_kind {a b : NodeId} (h : t.Mentions a b) :
    ∃ kind, t.blockKind? a = some kind :=
  h.imp fun _ hkind => hkind.1

/-- The block mentions no other one, and no other one mentions it. -/
def Isolated (t : Tree) (block : NodeId) : Prop :=
  ∀ other, ¬ t.Mentions block other ∧ ¬ t.Mentions other block

namespace RegionsLinked

/-- What is mentioned mentions back, a region that a filter names through its handler. -/
theorem mentions_back (h : t.RegionsLinked) {a b : NodeId} (hmentions : t.Mentions a b) :
    t.Mentions b a ∨ ∃ handler, t.Mentions b handler ∧ t.Mentions handler a := by
  obtain ⟨kind, hkind, hmem⟩ := hmentions
  cases kind with
  | body | plain => exact absurd hmem List.not_mem_nil
  | tryBlock handlers =>
    have hprotected := (h.handler_iff b a).mpr (mem_handlersOf_iff.mpr ⟨handlers, hkind, hmem⟩)
    obtain ⟨kind, filterBlock, catchType, hback⟩ := protectedBy?_eq_some_iff.mp hprotected
    exact Or.inl ⟨_, hback, by simp [BlockKind.links]⟩
  | handler kind region filterBlock catchType =>
    simp only [BlockKind.links, List.mem_append, Option.mem_toList] at hmem
    rcases hmem with rfl | rfl
    · have hprotected := protectedBy?_eq_some_iff.mpr ⟨_, _, _, hkind⟩
      obtain ⟨handlers, hback, hlisted⟩ := h.exists_region hprotected
      exact Or.inl ⟨_, hback, hlisted⟩
    · have hfilter := filterOf?_eq_some_iff.mpr ⟨_, _, _, hkind⟩
      obtain ⟨region, hback⟩ := h.exists_filterBlock hfilter
      exact Or.inl ⟨_, hback, by simp [BlockKind.links]⟩
  | filter region handler =>
    simp only [BlockKind.links, List.mem_append, Option.mem_toList] at hmem
    rcases hmem with rfl | rfl
    · have hscope := scope?_eq_some_iff.mpr ⟨handler, hkind⟩
      obtain ⟨handler, hdecides⟩ : ∃ handler, t.decides? a = some handler := by
        refine Option.ne_none_iff_exists'.mp fun hidle => ?_
        rw [h.idle a hidle] at hscope
        exact absurd hscope (by simp)
      obtain ⟨region, catchType, hnamed, hhandler⟩ := h.guarded handler a ((h.filter_iff _ _).mpr hdecides)
      obtain rfl := Option.some.inj (hscope.symm.trans hnamed)
      have hprotected := protectedBy?_eq_some_iff.mpr ⟨_, _, _, hhandler⟩
      obtain ⟨handlers, hback, hlisted⟩ := h.exists_region hprotected
      exact Or.inr ⟨handler, ⟨_, hback, hlisted⟩, _, hhandler, by simp [BlockKind.links]⟩
    · have hfilter := (h.filter_iff b a).mpr (decides?_eq_some_iff.mpr ⟨region, hkind⟩)
      obtain ⟨kind, region, catchType, hback⟩ := filterOf?_eq_some_iff.mp hfilter
      exact Or.inl ⟨_, hback, by simp [BlockKind.links]⟩

/-- Nothing mentions a block without links. -/
theorem isolated (h : t.RegionsLinked) {kind : BlockKind} (hkind : t.blockKind? block = some kind)
    (hfree : kind.isLinked = false) : t.Isolated block := by
  have hsilent : ∀ other, ¬ t.Mentions block other := by
    rintro other ⟨kind', hkind', hmem⟩
    obtain rfl := Option.some.inj (hkind.symm.trans hkind')
    rw [BlockKind.isLinked, Bool.not_eq_false', List.isEmpty_iff] at hfree
    rw [hfree] at hmem
    exact List.not_mem_nil hmem
  refine fun other => ⟨hsilent other, fun hmentions => ?_⟩
  rcases h.mentions_back hmentions with hback | ⟨handler, hback, -⟩
  · exact hsilent other hback
  · exact hsilent handler hback

/-- Where regions mention none outside, both ends of a link are inside or neither. -/
theorem mentions_iff (h : t.RegionsLinked) {inside : NodeId → Prop}
    (hclosed : ∀ a b, inside a → t.Mentions a b → inside b) {a b : NodeId}
    (hmentions : t.Mentions a b) : inside a ↔ inside b := by
  refine ⟨fun ha => hclosed a b ha hmentions, fun hb => ?_⟩
  rcases h.mentions_back hmentions with hback | ⟨handler, hhandler, hback⟩
  · exact hclosed b a hb hback
  · exact hclosed handler a (hclosed b handler hb hhandler) hback

end RegionsLinked

/-! ## Nodes that stay where they are -/

/-- Instructions refer to labels only. -/
def TargetsLabeled (t : Tree) : Prop :=
  ∀ id, ∀ label ∈ t.labelsOf id, t.isLabel label = true

theorem TargetsLabeled.stage (h : t.TargetsLabeled) (hstage : Stage t t') : t'.TargetsLabeled := by
  intro id label hmem
  cases hstage with
  | places hpayload =>
    rw [labelsOf, operation?_of_payload? (hpayload id)] at hmem
    rw [isLabel_of_payload? (hpayload label)]
    exact h id label hmem
  | creates hpayload hnew =>
    rw [labelsOf, operation?_of_creates hpayload hnew] at hmem
    exact isLabel_of_creates hpayload (h id label hmem)
  | @retypes changed old _ hold htargets =>
    rw [isLabel_setOperation]
    rw [labelsOf_setOperation _ hold, htargets] at hmem
    split at hmem
    · have hlisted : t.labelsOf changed = old.operand.targets := by
        rw [labelsOf, hold, Option.map_some, Option.getD_some]
      exact h changed label (hlisted ▸ hmem)
    · exact h id label hmem
  | unbinds holder =>
    rw [isLabel_unbindLabels]
    rw [labelsOf_unbindLabels] at hmem
    split at hmem
    · exact absurd hmem List.not_mem_nil
    · exact h id label hmem
  | aims hold hfresh =>
    rw [isLabel_aim]
    rw [labelsOf_aim _ hold] at hmem
    split at hmem
    · exact (hfresh label hmem).1
    · exact h id label hmem
  | relinks hrelinks =>
    rw [labelsOf, hrelinks.kindsOnly.operation] at hmem
    rw [hrelinks.kindsOnly.isLabel]
    exact h id label hmem

theorem Reachable.targetsLabeled (h : t.Reachable) : t.TargetsLabeled := by
  refine h.byAny.induction_stages (fun header code id label hmem => ?_)
    (fun _ _ ht hstage => ht.stage hstage) fun t operation _ ht id label hmem => ?_
  · rw [labelsOf_ofCode (x := ⟨header, code, []⟩)] at hmem
    exact absurd hmem List.not_mem_nil
  · rw [(newInstruction_views t operation label).2]
    rcases mem_labelsOf_newInstruction hmem with hlisted | hlabel
    · exact ht id label hlisted
    · exact hlabel

theorem parent?_foldl_cutOff (labels : List NodeId) (t : Tree) (x : NodeId) :
    (labels.foldl (fun t label => (t.setOwner label none).detach label) t).parent? x =
      if x ∈ labels then none else t.parent? x := by
  induction labels generalizing t with
  | nil => simp
  | cons label labels ih =>
    rw [List.foldl_cons, ih, parent?_detach, parent?_setOwner]
    by_cases hx : x = label <;> simp [hx]

/-- No node but labels is taken out of its block with the labels of an instruction. -/
theorem parent?_unbindLabels (h : t.TargetsLabeled) (id : NodeId) {x : NodeId}
    (hx : t.isLabel x = false) : (t.unbindLabels id).parent? x = t.parent? x := by
  rcases t.unbindLabels_cases id with ⟨-, hsame⟩ | ⟨operation, hoperation, -, hcut⟩
  · rw [hsame]
  · rw [hcut, parent?_foldl_cutOff, parent?_setOperation, if_neg]
    intro hmem
    have hlabel := h id x (by rwa [labelsOf, hoperation])
    rw [hx] at hlabel
    exact absurd hlabel (by simp)

/-- Only labels have moved. -/
structure LabelsMoved (t t' : Tree) : Prop where
  targets : t'.TargetsLabeled
  kind : ∀ x, t'.blockKind? x = t.blockKind? x
  isLabel : ∀ x, t'.isLabel x = t.isLabel x
  parent : ∀ x, t.isLabel x = false → t'.parent? x = t.parent? x

theorem LabelsMoved.unbindLabels (h : LabelsMoved t t') (member : NodeId) :
    LabelsMoved t (t'.unbindLabels member) where
  targets := h.targets.stage (.unbinds member)
  kind x := by rw [blockKind?_unbindLabels, h.kind]
  isLabel x := by rw [isLabel_unbindLabels, h.isLabel]
  parent x hx := by rw [parent?_unbindLabels h.targets member (by rw [h.isLabel, hx]), h.parent x hx]

/-- The block that holds a node is no label. -/
theorem WellFormed.isLabel_parent (wf : t.WellFormed) {x p : NodeId} (h : t.parent? x = some p) :
    t.isLabel p = false := by
  obtain ⟨kind, hkind⟩ := exists_kind_of_mem_children ((wf.parent_iff x p).mp h)
  rw [isLabel, blockKind?_eq_some_iff.mp hkind]

/-- Where only labels have moved and the block itself is cut off, the same nodes but for labels lie
below it. -/
theorem LabelsMoved.mem_ancestors_iff (h : LabelsMoved t t') (wf : t.WellFormed) (wf' : t'.WellFormed)
    {x : NodeId} (hx : t.isLabel x = false) :
    block ∈ (t'.detach block).ancestors x ↔ block ∈ t.ancestors x := by
  have hirrefl : block ∉ t.ancestors block := fun hmem =>
    absurd (wf.depth_lt_of_mem_ancestors hmem) (Nat.lt_irrefl _)
  induction x using wf.induction_above with
  | step x ih =>
    by_cases hself : x = block
    · rw [hself, wf'.detach.ancestors_of_no_parent (by rw [parent?_detach, if_pos rfl])]
      exact iff_of_false List.not_mem_nil hirrefl
    · rw [wf'.detach.ancestors_eq, wf.ancestors_eq, parent?_detach, if_neg hself, h.parent x hx]
      cases hparent : t.parent? x with
      | none => exact Iff.rfl
      | some p =>
        have hp := ih p hparent (wf.isLabel_parent hparent)
        simp only [List.mem_cons, hp]

/-! ## Removal of a block -/

/-- A block can be cut off if it is held by another one, mentions no region, and can be released from
what is bound to nodes below it. -/
theorem removeBlock_eq_ok_iff {kind : BlockKind} (hkind : t.blockKind? block = some kind) :
    t.remove block = .ok t' ↔ block ≠ root ∧ (t.parent? block).isSome ∧ kind.isLinked = false ∧
      ∃ released, t.releaseBelow block = .ok released ∧ t' = released.detach block := by
  simp [remove_eq_ok_iff, hkind, blockKind?_eq_some_iff.mp hkind]

/-- Below a block that can be cut off no region mentions one that is not below it. -/
theorem WellFormed.below_of_mentions (wf : t.WellFormed)
    (hfree : ∀ member ∈ t.descendants block, t.heldBy? block member = none) {a b : NodeId}
    (ha : block ∈ t.ancestors a) (hmentions : t.Mentions a b) : block ∈ t.ancestors b := by
  obtain ⟨kind, hkind, hmem⟩ := hmentions
  have hmember : a ∈ t.descendants block := by
    have hlisted := wf.mem_preOrder_iff.mpr (Or.inr ha)
    rw [wf.preOrder_eq, ← wf.descendants_eq, List.mem_cons] at hlisted
    refine hlisted.resolve_left ?_
    rintro rfl
    exact absurd (wf.depth_lt_of_mem_ancestors ha) (Nat.lt_irrefl _)
  have hheld := hfree a hmember
  rw [heldBy?, blockKind?_eq_some_iff.mp hkind, Option.map_eq_none_iff, List.find?_eq_none] at hheld
  simpa [isBelow] using hheld b hmem

/-- What has become of a tree once a block is removed with all below it: regions are what they were,
each is below the block if it was, and linked regions are so together. -/
structure TakesAlong (t : Tree) (block : NodeId) (t' : Tree) : Prop where
  isolated : t.Isolated block
  detached : t'.parent? block = none
  kind : ∀ x, t'.blockKind? x = t.blockKind? x
  below_iff : ∀ x kind, t.blockKind? x = some kind → (x ∈ t'.preOrder block ↔ x ∈ t.preOrder block)
  together : ∀ a b, t.Mentions a b → (a ∈ t'.preOrder block ↔ b ∈ t'.preOrder block)

theorem Reachable.takesAlong (h : t.Reachable) {kind : BlockKind}
    (hkind : t.blockKind? block = some kind) (hremove : t.remove block = .ok t') :
    t.TakesAlong block t' := by
  have wf := h.wellFormed
  obtain ⟨-, -, hlinks, released, hreleased, rfl⟩ := (removeBlock_eq_ok_iff hkind).mp hremove
  have wf' : released.WellFormed := wf.steps (steps_releaseBelow hreleased)
  obtain ⟨hfree, -⟩ := releaseBelow_eq_ok_iff.mp hreleased
  have hmoved : LabelsMoved t released := releaseBelow_induction hreleased
    ⟨h.targetsLabeled, fun _ => rfl, fun _ => rfl, fun _ _ => rfl⟩
    fun _ member hchanged => hchanged.unbindLabels member
  have hisolated := h.regionsLinked.isolated hkind hlinks
  have hbelow : ∀ x kind, t.blockKind? x = some kind →
      (x ∈ (released.detach block).preOrder block ↔ x ∈ t.preOrder block) := by
    intro x kind hx
    have hlabel : t.isLabel x = false := by rw [isLabel, blockKind?_eq_some_iff.mp hx]
    rw [wf'.detach.mem_preOrder_iff, wf.mem_preOrder_iff, hmoved.mem_ancestors_iff wf wf' hlabel]
  have hclosed : ∀ a b, a ∈ t.preOrder block → t.Mentions a b → b ∈ t.preOrder block := by
    intro a b ha hmentions
    rw [wf.mem_preOrder_iff] at ha ⊢
    rcases ha with rfl | ha
    · exact absurd hmentions (hisolated b).1
    · exact Or.inr (wf.below_of_mentions hfree ha hmentions)
  refine ⟨hisolated, by rw [parent?_detach, if_pos rfl], fun x => ?_, hbelow, fun a b hmentions => ?_⟩
  · rw [blockKind?_of_payload? (payload?_detach x), hmoved.kind]
  · obtain ⟨kindA, hkindA⟩ := hmentions.exists_kind
    obtain ⟨kindB, hkindB⟩ : ∃ kindB, t.blockKind? b = some kindB := by
      rcases h.regionsLinked.mentions_back hmentions with hback | ⟨_, hback, -⟩
      · exact hback.exists_kind
      · exact hback.exists_kind
    rw [hbelow a kindA hkindA, hbelow b kindB hkindB]
    exact h.regionsLinked.mentions_iff hclosed hmentions

/-! ## Regions of every tree -/

/-- A handler names a region if the region lists it, once; a handler names a filter block if the filter
block names it, and then it is a filter handler, and both name one region. -/
structure RegionsFit (t : Tree) : Prop where
  region_iff : ∀ handler region,
    (∃ kind filterBlock catchType,
      t.blockKind? handler = some (.handler kind (some region) filterBlock catchType)) ↔
    ∃ handlers, t.blockKind? region = some (.tryBlock handlers) ∧ handler ∈ handlers
  listed_once : ∀ region handlers, t.blockKind? region = some (.tryBlock handlers) → handlers.Nodup
  filter_iff : ∀ handler filterBlock,
    (∃ kind region catchType,
      t.blockKind? handler = some (.handler kind region (some filterBlock) catchType)) ↔
    ∃ region, t.blockKind? filterBlock = some (.filter region (some handler))
  filtered : ∀ handler kind region filterBlock catchType,
    t.blockKind? handler = some (.handler kind region (some filterBlock) catchType) →
      kind = .filterClause ∧ ∃ scope, region = some scope ∧
        t.blockKind? filterBlock = some (.filter (some scope) (some handler))

theorem RegionsLinked.fit (h : t.RegionsLinked) : t.RegionsFit where
  region_iff handler region := by
    rw [← protectedBy?_eq_some_iff, h.handler_iff, mem_handlersOf_iff]
  listed_once region handlers hregion := by
    have hnodup := h.nodup region
    rwa [handlersOf, hregion] at hnodup
  filter_iff handler filterBlock := by
    rw [← filterOf?_eq_some_iff, h.filter_iff, decides?_eq_some_iff]
  filtered handler kind region filterBlock catchType hhandler := by
    have hfilter := filterOf?_eq_some_iff.mpr ⟨kind, region, catchType, hhandler⟩
    obtain ⟨scope, token, hscope, hkind⟩ := h.guarded handler filterBlock hfilter
    obtain ⟨named, hblock⟩ := h.exists_filterBlock hfilter
    rw [hhandler] at hkind
    simp only [Option.some.injEq, BlockKind.handler.injEq] at hkind
    refine ⟨hkind.1, scope, hkind.2.1, ?_⟩
    rw [scope?, hblock] at hscope
    obtain rfl : named = some scope := hscope
    exact hblock

/-- Whatever is done to a tree, links between regions are there on both sides.  A block can be removed
or dissolved only if no link begins or ends there, and a removed block takes along both regions of a
link or neither. -/
theorem Reachable.regions_fit (h : t.Reachable) :
    t.RegionsFit ∧
      (∀ block kind t', t.blockKind? block = some kind → t.remove block = .ok t' →
        t.TakesAlong block t') ∧
      ∀ block t', t.ungroup block = .ok t' → t.Isolated block := by
  refine ⟨h.regionsLinked.fit, fun block kind t' => h.takesAlong, fun block t' hungroup => ?_⟩
  obtain ⟨-, kind, _, hkind, hlinks, -⟩ := ungroup_eq_ok_iff.mp hungroup
  exact h.regionsLinked.isolated hkind hlinks

/-- A protected region with a filter handler and its filter block, side by side in a plain block. -/
def guardedGroup : Tree :=
  (new default).runAll [.newBlock .plain, .newBlock .newTry, .newBlock (.newHandler .filterClause),
    .newBlock .newFilter, .append root ⟨1⟩, .append ⟨1⟩ ⟨2⟩, .append ⟨1⟩ ⟨3⟩, .append ⟨1⟩ ⟨4⟩,
    .linkHandler ⟨2⟩ ⟨3⟩, .linkFilter ⟨4⟩ ⟨3⟩]

/-- The regions of `guardedGroup` can go only together. -/
theorem guardedGroup_regions_fit :
    guardedGroup.Reachable ∧ guardedGroup.RegionsFit ∧
      guardedGroup.blockKind? ⟨4⟩ = some (.filter (some ⟨2⟩) (some ⟨3⟩)) ∧
      (∀ t', guardedGroup.remove ⟨2⟩ ≠ .ok t') ∧
      ∃ t', guardedGroup.remove ⟨1⟩ = .ok t' ∧ guardedGroup.TakesAlong ⟨1⟩ t' := by
  have hrun : guardedGroup.blockKind? ⟨1⟩ = some .plain ∧
      guardedGroup.blockKind? ⟨4⟩ = some (.filter (some ⟨2⟩) (some ⟨3⟩)) ∧
      (guardedGroup.remove ⟨2⟩).toOption.isNone ∧ (guardedGroup.remove ⟨1⟩).toOption.isSome := by
    decide +kernel
  obtain ⟨hkind, hfilter, hrefused, hremoved⟩ := hrun
  have hreachable : guardedGroup.Reachable := (Reachable.new default).runAll _
  obtain ⟨hfit, htakes, -⟩ := hreachable.regions_fit
  refine ⟨hreachable, hfit, hfilter, fun t' hremove => ?_, ?_⟩
  · rw [hremove] at hrefused
    exact absurd hrefused (by simp [Except.toOption])
  · obtain ⟨t', hremove⟩ := Option.isSome_iff_exists.mp hremoved
    rw [toOption_eq_some_iff] at hremove
    exact ⟨t', hremove, htakes _ _ t' hkind hremove⟩

end Tree

end MethodIL
