import Mathlib
import MethodIL.Proofs.Lifting.Rebuilt
import MethodIL.Proofs.Lowering.Completion
set_option autoImplicit false

/-!
# The order of the clauses

When a body is lifted and lowered again, the clauses of one protected region keep their order, and the
clauses of different regions come in the order in which the regions are completed: where the last of
their parts ends, handlers and filters included.  So a clause comes out in front of another if all that
belongs to its region ends in front of the end of the other clause.  Nothing else decides: an inner
region whose handler stands behind the outer one comes out last, even though it was listed first.
-/

namespace MethodIL

open Outcome

/-- In a list without repetitions, an item stands where it is found. -/
theorem map_idxOf_eq_range {α : Type} [DecidableEq α] {items : List α} (h : items.Nodup) :
    items.map items.idxOf = List.range items.length := by
  refine List.ext_getElem (by simp) fun k hk hk' => ?_
  rw [List.getElem_map, List.getElem_range, h.idxOf_getElem]

theorem pairwise_idxOf_lt {α : Type} [DecidableEq α] {items : List α} (h : items.Nodup) :
    items.Pairwise fun a b => items.idxOf a < items.idxOf b := by
  rw [List.pairwise_iff_getElem]
  intro i j hi hj hlt
  rwa [h.idxOf_getElem, h.idxOf_getElem]

namespace Body

/-- The places of the clauses of a body in the order in which another body has them. -/
def Reorders (x y : Body) (order : List Nat) : Prop :=
  order.Perm (List.range x.clauses.length) ∧ List.Forall₂ (fun place clause => ∃ original,
    x.clauses[place]? = some original ∧ x.SameClause y original clause) order y.clauses

/-- Where the last range of a clause ends in the code. -/
def reach (x : Body) (c : Clause) : Nat := max (x.clip c.tryRange).2 (x.clip c.handlerRange).2

/-- A clause whose protected range lies strictly inside that of another stands in front of it. -/
def InnermostFirst (x : Body) : Prop :=
  x.clauses.Pairwise fun c d =>
    ¬ (c.tryRange.1 ≤ d.tryRange.1 ∧ d.tryRange.2 ≤ c.tryRange.2 ∧ d.tryRange ≠ c.tryRange)

instance (x : Body) : Decidable x.InnermostFirst :=
  inferInstanceAs (Decidable (x.clauses.Pairwise _))

/-- The first clause that protects an instruction. -/
def firstClause? (x : Body) (index : Nat) : Option Clause :=
  x.clauses.find? fun c => c.tryRange.1 ≤ x.start index && x.start index < c.tryRange.2

end Body

namespace Tree

variable {t : Tree} {x y : Body} {p : Plan} {handlers : List NodeId}

/-- The region that a node is a part of. -/
def partOf? (t : Tree) (part : NodeId) : Option NodeId :=
  match t.blockKind? part with
  | some (.tryBlock _) => some part
  | some (.handler _ region _ _) => region
  | some (.filter region _) => region
  | _ => none

/-- A region lists a handler that stands for a clause. -/
def HoldsIn (t : Tree) (x : Body) (clause : Clause) (region : NodeId) : Prop :=
  ∃ handler ∈ t.handlersOf region, t.HoldsClause x clause handler ∧
    t.protectedBy? handler = some region

namespace Carries

variable (h : t.Carries x x.clauses handlers)

include h

/-! ## Parts of regions -/

/-- A part of a region tells the region. -/
theorem partOf?_eq {region part : NodeId} (hne : t.handlersOf region ≠ [])
    (hpart : part ∈ t.partsOf region) : t.partOf? part = some region := by
  rcases List.mem_cons.mp hpart with rfl | hlisted
  · rw [partOf?, (t.handlersOf_eq_iff hne).mp rfl]
  · obtain ⟨handler, hhandler, hown⟩ := List.mem_flatMap.mp hlisted
    rw [h.handlersOf_eq hne, List.mem_filter, decide_eq_true_eq] at hhandler
    obtain ⟨kind, _, filterBlock, catchType, _, hkind, howner, -⟩ := h.exists_of_mem hhandler.1
    obtain rfl := Option.some.inj (howner.symm.trans hhandler.2)
    have hfilterOf : t.filterOf? handler = filterBlock := by rw [filterOf?, hkind]
    rcases List.mem_cons.mp hown with rfl | hfilter
    · rw [partOf?, hkind]
    · rw [hfilterOf, Option.mem_toList] at hfilter
      obtain rfl := hfilter
      rw [partOf?, h.filters handler hhandler.1 _ _ _ _ hkind]

/-- Different regions are completed at different places. -/
theorem eq_of_completion_eq {a b : NodeId} (ha : t.handlersOf a ≠ []) (hb : t.handlersOf b ≠ [])
    (hparts : ∀ part ∈ t.partsOf a, part ∈ t.preOrder root) (heq : t.completion a = t.completion b) :
    a = b := by
  obtain ⟨part, hpart, hplace⟩ := (completion_spec (t := t) a).1
  obtain ⟨part', hpart', hplace'⟩ := (completion_spec (t := t) b).1
  have hmem := (h.wellFormed.postOrder_perm root).mem_iff.mpr (hparts part hpart)
  obtain rfl := (List.idxOf_inj hmem).mp (hplace.trans (heq.trans hplace'.symm))
  exact Option.some.inj ((h.partOf?_eq ha hpart).symm.trans (h.partOf?_eq hb hpart'))

/-! ## The order of handlers -/

/-- The handlers of the clauses are listed by their regions. -/
theorem exists_regions : ∃ regions : List NodeId, List.Forall₂ (t.HoldsIn x) x.clauses regions ∧
    ∀ (i : Nat) (a : NodeId), handlers[i]?.bind t.protectedBy? = some a →
      regions[i]? = some a := by
  refine ⟨handlers.map fun handler => (t.protectedBy? handler).getD root, ?_, fun i a ha => ?_⟩
  · refine List.forall₂_map_right_iff.mpr
      (forall₂_imp_of_mem h.clauses fun clause _ handler hmem hholds => ?_)
    obtain ⟨region, howner, -⟩ := hholds.tellsHandler
    rw [howner, Option.getD_some]
    exact ⟨handler, h.mem_handlersOf hmem howner, hholds, howner⟩
  · obtain ⟨handler, hhandler, ha⟩ := Option.bind_eq_some_iff.mp ha
    rw [List.getElem?_map, hhandler, Option.map_some, ha, Option.getD_some]

/-- The clauses of a region come out in their order, and those of different regions in the order in which
the regions are completed. -/
theorem exists_order (hlowers : t.Lowers p y) : ∃ (order : List Nat) (regions : List NodeId),
    x.Reorders y order ∧ List.Forall₂ (t.HoldsIn x) x.clauses regions ∧
      order.Pairwise fun i j => ∃ a b, regions[i]? = some a ∧ regions[j]? = some b ∧
        (a = b ∧ i < j ∨ t.completion a < t.completion b) := by
  obtain ⟨listed, hlisted, hsorted, hparts, hemitted⟩ := h.exists_emitted hlowers
  obtain ⟨regions, hholds, hregions⟩ := h.exists_regions
  obtain ⟨hne, hnodup, hperm⟩ := h.flatMap_handlersOf_perm hlisted
  have hplace : ∀ region ∈ listed, ∀ handler ∈ t.handlersOf region,
      regions[handlers.idxOf handler]? = some region := by
    intro region hregion handler hhandler
    rw [h.handlersOf_eq (hne region hregion), List.mem_filter, decide_eq_true_eq] at hhandler
    exact hregions _ _ (by rw [List.getElem?_idxOf hhandler.1, Option.bind_some, hhandler.2])
  refine ⟨(listed.flatMap t.handlersOf).map handlers.idxOf, regions, ⟨?_, ?_⟩, hholds, ?_⟩
  · rw [h.clauses.length_eq, ← map_idxOf_eq_range h.nodup]
    exact hperm.map _
  · refine List.forall₂_map_left_iff.mpr
      (forall₂_imp_of_mem hemitted fun handler hhandler emitted _ hsays => ?_)
    obtain ⟨original, horiginal, hholds⟩ :=
      exists_getElem?_right h.clauses (List.getElem?_idxOf (hperm.mem_iff.mp hhandler))
    exact ⟨original, horiginal, hsays original hholds⟩
  · rw [List.pairwise_map, List.pairwise_flatMap]
    refine ⟨fun region hregion => ?_, (hsorted.and hnodup).imp_of_mem ?_⟩
    · -- the handlers of a region stand in the order of their clauses
      have horder := (pairwise_idxOf_lt h.nodup).filter
        fun handler => t.protectedBy? handler = some region
      rw [← h.handlersOf_eq (hne region hregion)] at horder
      exact horder.imp_of_mem fun ha hb hlt =>
        ⟨region, region, hplace _ hregion _ ha, hplace _ hregion _ hb, Or.inl ⟨rfl, hlt⟩⟩
    · rintro a b ha hb ⟨hle, hdistinct⟩ handler hhandler handler' hhandler'
      refine ⟨a, b, hplace a ha handler hhandler, hplace b hb handler' hhandler', Or.inr ?_⟩
      refine Nat.lt_of_le_of_ne hle fun heq => hdistinct ?_
      exact h.eq_of_completion_eq (hne a ha) (hne b hb) (hparts a ha) heq

end Carries

/-! ## Ends of clauses -/

/-- What a handler and its filter cover ends no later than the clause. -/
theorem HoldsClause.ends_before {clause : Clause} {handler part : NodeId}
    (h : t.HoldsClause x clause handler)
    (hpart : part ∈ handler :: (t.filterOf? handler).toList) :
    ∃ first last, t.Covers part first last ∧ x.start last ≤ x.reach clause := by
  obtain @⟨_, _, _, _, _, _, first, last, -, hhandler, -, -, -, hcovers, hspans, hfilter⟩ := h
  have hend : x.start last ≤ x.reach clause := hspans.2.2.2.trans_le (Nat.le_max_right _ _)
  rcases List.mem_cons.mp hpart with rfl | hpart
  · exact ⟨_, _, hcovers, hend⟩
  · rw [filterOf?, hhandler, Option.mem_toList] at hpart
    cases hfilter with
    | absent => exact absurd hpart (by simp)
    | present _ _ _ _ hfilterCovers =>
      obtain rfl := Option.some.inj hpart
      exact ⟨_, _, hfilterCovers, Nat.le_trans (x.start_mono (Nat.le_of_lt hspans.1)) hend⟩

/-- The region or the handler of a clause ends with the clause. -/
theorem HoldsClause.exists_end {clause : Clause} {region handler : NodeId}
    (h : t.HoldsClause x clause handler) (howner : t.protectedBy? handler = some region)
    (hlisted : handler ∈ t.handlersOf region) :
    ∃ part ∈ t.partsOf region, ∃ first last,
      t.Covers part first last ∧ x.start last = x.reach clause := by
  obtain ⟨-, hhandler, -, htryCovers, htrySpans, hcovers, hspans, -⟩ := h
  rw [protectedBy?, hhandler] at howner
  obtain rfl := Option.some.inj howner
  rcases Nat.le_total (x.clip clause.tryRange).2 (x.clip clause.handlerRange).2 with hle | hle
  · refine ⟨handler, List.mem_cons_of_mem _ (List.mem_flatMap.mpr
      ⟨handler, hlisted, List.mem_cons_self⟩), _, _, hcovers, ?_⟩
    rw [Body.reach, Nat.max_eq_right hle]
    exact hspans.2.2.2
  · refine ⟨_, List.mem_cons_self, _, _, htryCovers, ?_⟩
    rw [Body.reach, Nat.max_eq_left hle]
    exact htrySpans.2.2.2

/-- The region of a clause is completed in front of that of another if all clauses with its protected
range end in front of the end of the other. -/
theorem Carries.completion_lt (h : t.Carries x x.clauses handlers) {c d : Clause}
    {region region' : NodeId} (hc : t.HoldsIn x c region) (hd : t.HoldsIn x d region')
    (hmem : c ∈ x.clauses)
    (hreach : ∀ e ∈ x.clauses, x.clip e.tryRange = x.clip c.tryRange → x.reach e < x.reach d) :
    t.completion region < t.completion region' := by
  obtain ⟨handler, hlisted, hc, howner⟩ := hc
  obtain ⟨handler', hlisted', hd, howner'⟩ := hd
  obtain ⟨part, hpart, first, last, hcovers, hend⟩ := hd.exists_end howner' hlisted'
  have hends : ∀ {part : NodeId} {first' last' : Nat}, t.Covers part first' last' →
      x.start last' < x.reach d → ∃ first' last', t.Covers part first' last' ∧ last' < last := by
    intro part first' last' hcovers' hlt
    refine ⟨first', last', hcovers', Nat.lt_of_not_le fun hle => ?_⟩
    exact absurd hlt (Nat.not_lt_of_le (hend ▸ x.start_mono hle))
  refine h.wellFormed.completion_lt hpart hcovers fun other hother => ?_
  obtain ⟨region₁, howner₁, htells⟩ := hc.tellsHandler
  obtain rfl := Option.some.inj (howner.symm.trans howner₁)
  obtain ⟨first₁, last₁, htryCovers, htrySpans⟩ := htells.tryRange
  rcases List.mem_cons.mp hother with rfl | hother
  · refine hends htryCovers (Nat.lt_of_le_of_lt ?_ (hreach c hmem rfl))
    exact htrySpans.2.2.2.trans_le (Nat.le_max_left _ _)
  · -- all handlers of the region have its range
    obtain ⟨own, hown, hother⟩ := List.mem_flatMap.mp hother
    rw [h.handlersOf_eq (List.ne_nil_of_mem hlisted), List.mem_filter, decide_eq_true_eq] at hown
    obtain ⟨e, he, hholds⟩ := h.exists_holds hown.1
    obtain ⟨region₂, howner₂, htells₂⟩ := hholds.tellsHandler
    obtain rfl := Option.some.inj (hown.2.symm.trans howner₂)
    obtain ⟨first₂, last₂, htryCovers₂, htrySpans₂⟩ := htells₂.tryRange
    obtain ⟨rfl, rfl⟩ := htryCovers.unique htryCovers₂
    have hsame : x.clip e.tryRange = x.clip c.tryRange :=
      Prod.ext (htrySpans₂.2.2.1.symm.trans htrySpans.2.2.1)
        (htrySpans₂.2.2.2.symm.trans htrySpans.2.2.2)
    obtain ⟨_, _, hcovers', hle⟩ := hholds.ends_before hother
    exact hends hcovers' (Nat.lt_of_le_of_lt hle (hreach e he hsame))

/-- A region that lists a handler for a clause tells so by its ranges. -/
theorem Presents.tells_of_holdsIn (h : t.Presents x) (hfilters : t.FiltersLinked) {clause : Clause}
    {region : NodeId} (hholds : t.HoldsIn x clause region) : ∃ handler ∈ t.handlersOf region,
      t.TellsHandler (fun block range => t.Fills x block (x.clip range)) region handler clause := by
  obtain ⟨handler, hlisted, hholds, howner⟩ := hholds
  exact ⟨handler, hlisted, h.tellsHandler hfilters hholds howner hlisted⟩

end Tree

/-! ## The main result -/

/-- Of two items of an ordered list, one stands in front of the other if the order allows nothing
else. -/
theorem pair_sublist_of_pairwise {α : Type} {R : α → α → Prop} {items : List α} {a b : α}
    (h : items.Pairwise R) (ha : a ∈ items) (hb : b ∈ items) (hne : a ≠ b) (hnot : ¬ R b a) :
    [a, b].Sublist items := by
  obtain ⟨before, after, rfl⟩ := List.append_of_mem ha
  rcases List.mem_append.mp hb with hb | hb
  · exact absurd ((List.pairwise_append.mp h).2.2 b hb a List.mem_cons_self) hnot
  · rcases List.mem_cons.mp hb with rfl | hb
    · exact absurd rfl hne
    · exact ((List.singleton_sublist.mpr hb).cons_cons a).trans (List.sublist_append_right _ _)

/-- A body that is lifted and lowered again has its clauses in the order in which their regions are
completed, those of one region in the order of the table.  In particular, a clause comes out in front of
another if all clauses with its protected range end in front of the end of the other. -/
theorem ofBody_toBody_reorders (x y : Body) (t : Tree) (h : Tree.ofBody x = .ok t)
    (hy : t.toBody = .ok y) :
    ∃ (order : List Nat) (regions : List NodeId), x.Reorders y order ∧
      List.Forall₂ (fun clause region => ∃ handler ∈ t.handlersOf region,
        t.TellsHandler (fun block range => t.Fills x block (x.clip range)) region handler clause)
        x.clauses regions ∧
      (order.Pairwise fun i j => ∃ a b, regions[i]? = some a ∧ regions[j]? = some b ∧
        (a = b ∧ i < j ∨ t.completion a < t.completion b)) ∧
      ∀ i j c d, x.clauses[i]? = some c → x.clauses[j]? = some d →
        (∀ e ∈ x.clauses, x.clip e.tryRange = x.clip c.tryRange → x.reach e < x.reach d) →
          [i, j].Sublist order := by
  obtain ⟨p, hlowers⟩ := Tree.toBody_eq_ok_iff.mp hy
  have hpresents := Tree.presents_of_ofBody h
  obtain ⟨handlers, hcarries⟩ := hpresents.carries
  obtain ⟨order, regions, hreorders, hholds, hpairs⟩ := hcarries.exists_order hlowers
  refine ⟨order, regions, hreorders, hholds.imp fun clause region => ?_, hpairs,
    fun i j c d hi hj hreach => ?_⟩
  · exact hpresents.tells_of_holdsIn (Tree.Reachable.lifted h).filtersLinked
  · have hat : ∀ {k : Nat} {e : Clause}, x.clauses[k]? = some e →
        ∃ region, regions[k]? = some region ∧ t.HoldsIn x e region ∧ k ∈ order := by
      intro k e hk
      obtain ⟨region, hregion, hholds⟩ := exists_getElem?_right hholds.flip hk
      refine ⟨region, hregion, hholds, hreorders.1.mem_iff.mpr (List.mem_range.mpr ?_)⟩
      exact (List.getElem?_eq_some_iff.mp hk).1
    obtain ⟨a, ha, hc, hmem⟩ := hat hi
    obtain ⟨b, hb, hd, hmem'⟩ := hat hj
    have hlt := hcarries.completion_lt hc hd (List.mem_of_getElem? hi) hreach
    refine pair_sublist_of_pairwise hpairs hmem hmem' ?_ ?_
    · rintro rfl
      obtain rfl := Option.some.inj (ha.symm.trans hb)
      exact Nat.lt_irrefl _ hlt
    · rintro ⟨b', a', hb', ha', hba⟩
      obtain rfl := Option.some.inj (ha.symm.trans ha')
      obtain rfl := Option.some.inj (hb.symm.trans hb')
      rcases hba with ⟨rfl, -⟩ | hba
      · exact Nat.lt_irrefl _ hlt
      · exact Nat.lt_asymm hlt hba

/-- A region with its handler behind it, and inside it a region whose handler stands behind that one.
The clause of the inner region comes first. -/
def outOfLine : Body where
  header := default
  instructions := Instruction.assemble
    [(0x00, .none), (0x00, .none), (0x00, .none), (0xDC, .none), (0xDC, .none)]
  clauses := [Clause.ofFields 2 1 1 4 1 0, Clause.ofFields 2 0 3 3 1 0]

theorem exists_outOfLine : ∃ t y, Tree.ofBody outOfLine = .ok t ∧ t.toBody = .ok y ∧
    y.instructions = outOfLine.instructions ∧ y.clauses = outOfLine.clauses.reverse := by
  have hrun : ((Tree.ofBody outOfLine).toOption.any fun t => t.toBody.toOption.any fun y =>
      decide (y.instructions = outOfLine.instructions ∧ y.clauses = outOfLine.clauses.reverse)) =
        true := by
    cbv
  rw [Option.any_eq_true] at hrun
  obtain ⟨t, ht, hrun⟩ := hrun
  rw [Option.any_eq_true] at hrun
  obtain ⟨y, hy, hrun⟩ := hrun
  rw [toOption_eq_some_iff] at ht hy
  exact ⟨t, y, ht, hy, of_decide_eq_true hrun⟩

/-- The outer clause of `outOfLine` ends in front of the end of the inner one, so it comes out first. -/
theorem outOfLine_outer_first : ∃ t y order, Tree.ofBody outOfLine = .ok t ∧ t.toBody = .ok y ∧
    outOfLine.Reorders y order ∧ [1, 0].Sublist order := by
  obtain ⟨t, y, ht, hy, -⟩ := exists_outOfLine
  obtain ⟨order, regions, hreorders, -, -, hfirst⟩ := ofBody_toBody_reorders outOfLine y t ht hy
  exact ⟨t, y, order, ht, hy, hreorders,
    hfirst 1 0 (.ofFields 2 0 3 3 1 0) (.ofFields 2 1 1 4 1 0) rfl rfl (by decide +kernel)⟩

/-- The table of `outOfLine` lists inner regions first, and both clauses protect the second instruction.
The body that comes out has the same instructions and the same two clauses, but lists the outer one
first, so another handler is the first to be asked about that instruction. -/
theorem outOfLine_dispatch_order_changes :
    outOfLine.InnermostFirst ∧ (∀ c ∈ outOfLine.clauses, outOfLine.InTry c 1) ∧
      ∃ t y, Tree.ofBody outOfLine = .ok t ∧ t.toBody = .ok y ∧
        y.instructions = outOfLine.instructions ∧ y.clauses = outOfLine.clauses.reverse ∧
          y.firstClause? 1 ≠ outOfLine.firstClause? 1 := by
  obtain ⟨t, y, ht, hy, hcode, hclauses⟩ := exists_outOfLine
  have hstart : outOfLine.start 1 = 1 := by decide +kernel
  have hstart' : y.start 1 = 1 := by rw [Body.start, Body.sizes, hcode]; exact hstart
  refine ⟨by decide +kernel, ?_, t, y, ht, hy, hcode, hclauses, ?_⟩
  · unfold Body.InTry
    rw [hstart]
    decide +kernel
  · rw [Body.firstClause?, Body.firstClause?, hstart, hstart', hclauses]
    decide +kernel

end MethodIL
