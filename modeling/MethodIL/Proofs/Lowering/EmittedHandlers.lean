import Mathlib
import MethodIL.Proofs.Lowering.Faithful
import MethodIL.Proofs.Lowering.Obstacles
set_option autoImplicit false

/-!
# Which handlers get a clause

A handler and the region that it protects name each other, so collecting handlers from the regions of the
body finds each handler once.  It finds those whose region stands in the body, and lowering fails if one
of them does not stand in the body itself.  Nothing is checked in the other direction: a handler of the
body whose region was never put there gets no clause, and its instructions come out unguarded.
-/

namespace MethodIL

open Outcome

/-- Each clause of a body is that of another handler of a tree.  The handlers are those whose region stands
in the body, and they stand there too, with their filters. -/
structure Body.EmitsHandlers (y : Body) (t : Tree) (handlers : List NodeId) : Prop where
  nodup : handlers.Nodup
  tells : List.Forall₂ (fun handler clause => ∃ region, t.protectedBy? handler = some region ∧
    t.TellsHandler (t.Fills y) region handler clause) handlers y.clauses
  mem_iff : ∀ handler, handler ∈ handlers ↔
    ∃ region, t.protectedBy? handler = some region ∧ t.isAttached region = true
  isAttached : ∀ handler ∈ handlers, t.isAttached handler = true ∧
    ∀ filterBlock, t.filterOf? handler = some filterBlock → t.isAttached filterBlock = true

namespace Tree

variable {t : Tree} {y : Body}

/-- No handler is listed twice by the regions of the body. -/
theorem RegionsLinked.nodup_flatMap_handlersOf (h : t.RegionsLinked) {regions : List NodeId}
    (hregions : regions.Nodup) : (regions.flatMap t.handlersOf).Nodup := by
  rw [List.nodup_flatMap]
  refine ⟨fun region _ => h.nodup region, hregions.imp fun {a b} hne => ?_⟩
  rw [Function.onFun, List.disjoint_left]
  intro handler ha hb
  have howner := (h.handler_iff handler a).mpr ha
  rw [(h.handler_iff handler b).mpr hb] at howner
  exact hne (Option.some.inj howner).symm

/-- The regions of the body that list handlers list those whose region stands in the body. -/
theorem Reachable.mem_flatMap_handlersOf (h : t.Reachable) {regions : List NodeId}
    (hregions : regions.Perm t.protectedRegions) {handler : NodeId} :
    handler ∈ regions.flatMap t.handlersOf ↔
      ∃ region, t.protectedBy? handler = some region ∧ t.isAttached region = true := by
  simp only [List.mem_flatMap, hregions.mem_iff, protectedRegions, List.mem_filter,
    h.regionsLinked.handler_iff, h.wellFormed.isAttached_iff]
  constructor
  · rintro ⟨region, ⟨hbody, -⟩, hlisted⟩
    exact ⟨region, hlisted, hbody⟩
  · rintro ⟨region, hlisted, hbody⟩
    exact ⟨region, ⟨hbody, by simpa using List.ne_nil_of_mem hlisted⟩, hlisted⟩

/-- The handlers whose region stands in the body get one clause each, and there are no other clauses. -/
theorem Reachable.exists_emitted_handlers (h : t.Reachable) (hy : t.toBody = .ok y) :
    ∃ handlers, y.EmitsHandlers t handlers := by
  have hlinked := h.regionsLinked
  obtain ⟨p, hlowers⟩ := toBody_eq_ok_iff.mp hy
  obtain ⟨regions, hperm, htells⟩ := (h.renders hy).clauses
  refine ⟨regions.flatMap t.handlersOf, ?_, ?_, fun _ => h.mem_flatMap_handlersOf hperm,
    fun handler hhandler => ?_⟩
  · refine hlinked.nodup_flatMap_handlersOf (hperm.nodup_iff.mpr ?_)
    exact (h.wellFormed.nodup_preOrder root).filter _
  · rw [← map_snd_listings, List.forall₂_map_left_iff]
    refine forall₂_imp_of_mem htells fun pair hpair clause _ hclause => ?_
    exact ⟨pair.1, (hlinked.handler_iff _ _).mpr (t.mem_listings_iff.mp hpair).2, hclause.1⟩
  · obtain ⟨region, howner, hbody⟩ := (h.mem_flatMap_handlersOf hperm).mp hhandler
    obtain ⟨hpart, hfilter⟩ := mem_partsOf ((hlinked.handler_iff handler region).mp howner)
    -- a part of the region outside the body would have been an obstacle
    have hinside : ∀ part ∈ t.partsOf region, t.isAttached part = true := by
      intro part hpart
      by_contra houtside
      exact hlowers.not_obstacle h _ (.outsideTree hbody hpart (Bool.not_eq_true _ ▸ houtside))
    exact ⟨hinside handler hpart, fun filterBlock hblock => hinside filterBlock (hfilter filterBlock hblock)⟩

/-- A handler of the body whose region was never put there, behind another region and its two handlers. -/
def strayHandler : Tree :=
  (new default).runAll (((Opcode.find? .single 0x00).map fun nop =>
      List.replicate 4 (Edit.newInstruction ⟨nop, .none⟩)).getD [] ++
    [.newBlock .newTry, .newBlock (.newHandler .catchClause), .newBlock (.newHandler .faultClause),
      .newBlock .newTry, .newBlock (.newHandler .finallyClause), .append root ⟨5⟩, .append root ⟨6⟩,
      .append root ⟨7⟩, .append root ⟨9⟩, .append ⟨5⟩ ⟨1⟩, .append ⟨6⟩ ⟨2⟩, .append ⟨7⟩ ⟨3⟩,
      .append ⟨9⟩ ⟨4⟩, .linkHandler ⟨5⟩ ⟨6⟩, .linkHandler ⟨5⟩ ⟨7⟩, .linkHandler ⟨8⟩ ⟨9⟩])

/-- The clauses of `strayHandler` are those of the two handlers whose region stands in the body. -/
theorem strayHandler_emits : strayHandler.Reachable ∧ ∃ y handlers, strayHandler.toBody = .ok y ∧
    y.EmitsHandlers strayHandler handlers ∧ y.clauses.length = 2 ∧ ⟨6⟩ ∈ handlers ∧ ⟨7⟩ ∈ handlers := by
  have hreachable : strayHandler.Reachable := (Reachable.new default).runAll _
  have hrun : (strayHandler.toBody.toOption.any fun y => y.clauses.length == 2) = true ∧
      strayHandler.protectedBy? ⟨6⟩ = some ⟨5⟩ ∧ strayHandler.protectedBy? ⟨7⟩ = some ⟨5⟩ ∧
        strayHandler.isAttached ⟨5⟩ = true := by
    decide +kernel
  obtain ⟨hrun, howner, howner', hbody⟩ := hrun
  rw [Option.any_eq_true] at hrun
  obtain ⟨y, hy, hcount⟩ := hrun
  rw [toOption_eq_some_iff] at hy
  obtain ⟨handlers, hemits⟩ := hreachable.exists_emitted_handlers hy
  exact ⟨hreachable, y, handlers, hy, hemits, beq_iff_eq.mp hcount,
    (hemits.mem_iff _).mpr ⟨_, howner, hbody⟩, (hemits.mem_iff _).mpr ⟨_, howner', hbody⟩⟩

/-- The handler of `strayHandler` whose region stands outside the body is lost: no clause has its range. -/
theorem strayHandler_lost : strayHandler.Reachable ∧ strayHandler.isAttached ⟨9⟩ = true ∧
    strayHandler.protectedBy? ⟨9⟩ = some ⟨8⟩ ∧ ∃ y, strayHandler.toBody = .ok y ∧
      ∀ clause ∈ y.clauses, ∀ region,
        ¬ strayHandler.TellsHandler (strayHandler.Fills y) region ⟨9⟩ clause := by
  have hrun : (strayHandler.toBody.toOption.any fun y =>
      y.start 3 == 3 && y.clauses.all fun clause => clause.handlerRange.2 ≤ 3) = true ∧
      strayHandler.isAttached ⟨9⟩ = true ∧ strayHandler.protectedBy? ⟨9⟩ = some ⟨8⟩ ∧
        strayHandler.instructions[3]? = some ⟨4⟩ ∧ ⟨4⟩ ∈ strayHandler.descendants ⟨9⟩ := by
    decide +kernel
  obtain ⟨hrun, hbody, howner, hinstruction, hbelow⟩ := hrun
  rw [Option.any_eq_true] at hrun
  obtain ⟨y, hy, hrun⟩ := hrun
  rw [toOption_eq_some_iff] at hy
  rw [Bool.and_eq_true, beq_iff_eq, List.all_eq_true] at hrun
  obtain ⟨hstart, hranges⟩ := hrun
  refine ⟨(Reachable.new default).runAll _, hbody, howner, y, hy, fun clause hclause region htells => ?_⟩
  -- the instruction below the handler stands behind all ranges of handlers
  have hinside := ((htells.handlerRange.2 3 ⟨4⟩ hinstruction).mp hbelow).2
  have hrange := of_decide_eq_true (hranges clause hclause)
  omega

end Tree

end MethodIL
