import Mathlib
import MethodIL.Proofs.Lowering.Faithful
set_option autoImplicit false

/-!
# What a tree says about its body

A tree rebuilds a body if it says in its own way what the body says: it has the instructions of the
body, one label for every offset, in front of the instruction that the offset leads to, and a handler
for every clause, whose blocks hold the instructions in the ranges of the clause.  Every lifted tree
rebuilds its body.  So the ranges of a body that can be lifted are made of whole instructions, and are
nested or apart, whatever the order of the clauses.
-/

namespace MethodIL

open Outcome

/-- A tree rebuilds a body.  A range that runs past the code ends with the code. -/
structure Tree.Rebuilds (t : Tree) (x : Body) : Prop where
  header : t.header = x.header
  length : t.instructions.length = x.instructions.length
  instructions : ∀ (k : Nat) (i : Instruction), x.instructions[k]? = some i →
    ∃ id operand, t.instructions[k]? = some id ∧ t.operation? id = some ⟨i.opcode, operand⟩ ∧
      operand.Matches (t.LeadsAlike x k) i.operand
  labels : (t.instructions.flatMap t.labelsOf).Perm t.labels ∧ t.labels.Nodup
  owners : ∀ id label, label ∈ t.labelsOf id → t.labelOwner? label = some id
  clauses : ∃ handlers : List NodeId, handlers.Nodup ∧ List.Forall₂ (fun clause handler =>
    ∃ region, handler ∈ t.handlersOf region ∧
      t.TellsHandler (fun block range => t.Fills x block (x.clip range)) region handler clause ∧
        ∀ block, t.filterOf? handler = some block →
          t.blockKind? block = some (.filter (some region) (some handler))) x.clauses handlers
  laminar : ∀ r ∈ x.ranges, ∀ s ∈ x.ranges, Laminar (x.clip r) (x.clip s)

namespace Tree

variable {t : Tree} {x : Body}

namespace Presents

variable (h : t.Presents x)

include h

/-! ## Labels -/

/-- A label that an instruction refers to is a label of the body. -/
theorem mem_labels_of_mem_labelsOf {id label : NodeId} (hlabel : label ∈ t.labelsOf id) :
    label ∈ t.labels := by
  have hisLabel := isLabel_of_labelOwner? (h.aimed.owned id label hlabel)
  obtain ⟨_, _, hcovers⟩ := h.aimed.labels label hisLabel
  have hbody := h.wellFormed.mem_body_of_covers hcovers
  rw [h.wellFormed.preOrder_eq, ← h.wellFormed.descendants_eq, List.mem_cons] at hbody
  refine List.mem_filter.mpr ⟨hbody.resolve_left ?_, hisLabel⟩
  rintro rfl
  rw [isLabel, blockKind?_eq_some_iff.mp h.wellFormed.root_kind] at hisLabel
  exact absurd hisLabel (by simp)

/-- The operands of the instructions refer to every label of the body once. -/
theorem labelsOf_perm : (t.instructions.flatMap t.labelsOf).Perm t.labels ∧ t.labels.Nodup := by
  have hnodup : t.labels.Nodup :=
    (((h.wellFormed.nodup_preOrder root).sublist (List.tail_sublist _)).filter _)
  refine ⟨(List.perm_ext_iff_of_nodup (List.nodup_flatMap.mpr ⟨fun id _ => h.aimed.nodup id, ?_⟩)
    hnodup).mpr fun label => ⟨fun hlabel => ?_, fun hlabel => ?_⟩, hnodup⟩
  · -- the owner of a label tells the instruction that refers to it
    have hdistinct : t.instructions.Nodup :=
      ((h.wellFormed.nodup_preOrder root).sublist (List.tail_sublist _)).filter _
    refine hdistinct.imp fun {a b} hne label hlabel hlabel' => hne ?_
    exact Option.some.inj ((h.aimed.owned a label hlabel).symm.trans (h.aimed.owned b label hlabel'))
  · obtain ⟨id, -, hlabel⟩ := List.mem_flatMap.mp hlabel
    exact h.mem_labels_of_mem_labelsOf hlabel
  · obtain ⟨k, hk, hreferenced⟩ := h.aimed.referenced label (List.mem_filter.mp hlabel).2
    exact List.mem_flatMap.mpr ⟨_, List.mem_of_getElem? (h.code.getElem? hk), hreferenced⟩

theorem length_eq : x.instructions.length = t.instructions.length := by
  rw [h.code, List.length_map, List.length_range]

end Presents

/-- A handler that stands for a clause and is listed by its region is told by the clause. -/
theorem Presents.tellsHandler (h : t.Presents x) (hfilters : t.FiltersLinked) {clause : Clause}
    {region handler : NodeId} (hholds : t.HoldsClause x clause handler)
    (howner : t.protectedBy? handler = some region) (hlisted : handler ∈ t.handlersOf region) :
    t.TellsHandler (fun block range => t.Fills x block (x.clip range)) region handler clause := by
  obtain ⟨region', howner', htells⟩ := hholds.tellsHandler
  obtain rfl := Option.some.inj (howner.symm.trans howner')
  exact htells.imp hfilters hlisted fun block kind range hkind hrange =>
    hrange.fills h.wellFormed h.sized.size_pos h.length_eq hkind

/-- Every handler of a lifted tree is listed by its region and linked with its filter, and is told by
its clause. -/
theorem tellsHandler_of_ofBody (h : ofBody x = .ok t) {handlers : List NodeId}
    (hcarries : t.Carries x x.clauses handlers) :
    List.Forall₂ (fun clause handler => ∃ region, handler ∈ t.handlersOf region ∧
      t.TellsHandler (fun block range => t.Fills x block (x.clip range)) region handler clause ∧
        ∀ block, t.filterOf? handler = some block →
          t.blockKind? block = some (.filter (some region) (some handler))) x.clauses handlers := by
  refine forall₂_imp_of_mem hcarries.clauses fun clause _ handler hmem hholds => ?_
  obtain ⟨region, howner, -⟩ := hholds.tellsHandler
  have hlisted := hcarries.mem_handlersOf hmem howner
  have htells := (presents_of_ofBody h).tellsHandler (Reachable.lifted h).filtersLinked hholds howner
    hlisted
  refine ⟨region, hlisted, htells, fun block hblock => ?_⟩
  obtain ⟨catchType, hkind, -⟩ := htells.isHandler
  rw [hblock] at hkind
  exact hcarries.filters handler hmem _ _ _ _ hkind

end Tree

/-! ## The main result -/

/-- A lifted tree rebuilds its body. -/
theorem Tree.rebuilds_of_ofBody (x : Body) (t : Tree) (h : Tree.ofBody x = .ok t) : t.Rebuilds x := by
  have hpresents := Tree.presents_of_ofBody h
  have wf := hpresents.wellFormed
  obtain ⟨handlers, hcarries⟩ := hpresents.carries
  refine ⟨hcarries.header, hpresents.length_eq.symm, fun k i hi => ?_, hpresents.labelsOf_perm,
    hpresents.aimed.owned, ⟨handlers, hcarries.nodup, ?_⟩, fun r hr s hs => ?_⟩
  · obtain ⟨operand, hoperation, hmatches⟩ := hpresents.operation_at hi
    refine ⟨_, operand, hcarries.code.getElem? (List.getElem?_eq_some_iff.mp hi).1, hoperation,
      hmatches.imp fun label offset ⟨hisLabel, target, hcovers, hlands⟩ => ?_⟩
    exact wf.leadsAlike hpresents.length_eq hisLabel hcovers.place?_eq hlands
  · exact tellsHandler_of_ofBody h hcarries
  · obtain ⟨c, hc, hr⟩ := List.mem_flatMap.mp hr
    obtain ⟨d, hd, hs⟩ := List.mem_flatMap.mp hs
    exact hcarries.laminar c hc r hr d hd s hs

/-- The tree of `filteredCode` has the two labels of its branches and rebuilds it. -/
theorem filteredCode_rebuilt : ∃ t, Tree.ofBody filteredCode = .ok t ∧ t.labels.length = 2 ∧
    t.Rebuilds filteredCode := by
  have hrun : ((Tree.ofBody filteredCode).toOption.any fun t => t.labels.length == 2) = true := by
    decide +kernel
  rw [Option.any_eq_true] at hrun
  obtain ⟨t, ht, hcount⟩ := hrun
  rw [toOption_eq_some_iff] at ht
  exact ⟨t, ht, beq_iff_eq.mp hcount, Tree.rebuilds_of_ofBody filteredCode t ht⟩

end MethodIL
