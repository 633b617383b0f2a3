import Mathlib
import MethodIL.Proofs.Lowering.Completion
import MethodIL.Proofs.Tree.Regrouping
set_option autoImplicit false

/-!
# Code without regard to plain blocks

A plain block takes no room in the code, no label marks it and no clause mentions it.  So a tree
becomes the same body when the block is taken off.  In the post-order of the body, by which the
clauses are sorted, the nodes behind the block move up by one, and they keep their order.
-/

namespace MethodIL

open Outcome

/-! ## Positions in a filtered list -/

/-- How many of the first `k` items pass a test: the place of item `k` among those that do. -/
def countBefore {α : Type} (p : α → Bool) (items : List α) (k : Nat) : Nat :=
  (items.take k).countP p

section CountBefore

variable {α : Type} {p : α → Bool} {items : List α}

theorem countBefore_mono : Monotone (countBefore p items) := by
  intro i j hij
  exact (List.take_prefix_take_left hij).sublist.countP_le

/-- Items that pass the test keep their order. -/
theorem countBefore_lt {a : α} {i j : Nat} (ha : items[i]? = some a) (hp : p a = true) (hij : i < j) :
    countBefore p items i < countBefore p items j := by
  have hnext : countBefore p items (i + 1) = countBefore p items i + 1 := by
    rw [countBefore, countBefore, List.take_add_one, ha, List.countP_append, Option.toList_some,
      List.countP_singleton, if_pos hp]
  have hle : countBefore p items (i + 1) ≤ countBefore p items j := countBefore_mono hij
  omega

/-- The greatest place among those that do is that of the greatest. -/
theorem foldl_max_countBefore (items : List α) (places : List Nat) (own : Nat) :
    (places.map (countBefore p items)).foldl max (countBefore p items own) =
      countBefore p items (places.foldl max own) := by
  rw [List.foldl_map]
  exact List.foldl_hom _ fun _ _ => countBefore_mono.map_max.symm

/-- An item that passes the test has its place among those that do. -/
theorem idxOf?_filter [BEq α] [LawfulBEq α] {a : α} (hp : p a = true) :
    (items.filter p).idxOf? a = (items.idxOf? a).map (countBefore p items) := by
  induction items with
  | nil => rfl
  | cons b items ih =>
    have hshift : ∀ k, countBefore p (b :: items) (k + 1) =
        countBefore p items k + if p b then 1 else 0 := by
      intro k
      rw [countBefore, List.take_succ_cons, List.countP_cons, countBefore]
    rw [List.idxOf?_cons]
    by_cases hb : b == a
    · rw [if_pos hb, Option.map_some]
      rw [LawfulBEq.eq_of_beq hb, List.filter_cons_of_pos hp, List.idxOf?_cons, if_pos (by simp)]
      rfl
    · rw [if_neg hb, Option.map_map]
      by_cases hpass : p b = true
      · rw [List.filter_cons_of_pos hpass, List.idxOf?_cons, if_neg hb, ih, Option.map_map]
        congr 1
        funext k
        simp only [Function.comp_apply, hshift, hpass, if_true]
      · rw [List.filter_cons_of_neg hpass, ih]
        congr 1
        funext k
        simp only [Function.comp_apply, hshift, hpass]
        rfl

end CountBefore

/-! ## Traversals with gaps -/

section Collect

variable {ε α β γ : Type}

/-- The answers of a traversal whose steps may have none. -/
def collect (f : α → Except ε (Option β)) (items : List α) : Except ε (List β) :=
  (items.mapM f).map (List.filterMap id)

theorem collect_cons (f : α → Except ε (Option β)) (a : α) (items : List α) :
    collect f (a :: items) =
      (f a).bind fun found => (collect f items).map fun rest => found.toList ++ rest := by
  rw [collect, collect, List.mapM_cons]
  cases f a with
  | error fault => rfl
  | ok found =>
    cases items.mapM f with
    | error fault => rfl
    | ok rest => cases found <;> rfl

/-- Items for which the steps have no answer may be left out. -/
theorem collect_filter {p : α → Bool} {f : α → Except ε (Option β)} {f' : α → Except ε (Option γ)}
    {g : β → γ} {items : List α} (hdropped : ∀ a, p a = false → f a = .ok none)
    (hkept : ∀ a, p a = true → f' a = (f a).map (Option.map g)) :
    collect f' (items.filter p) = (collect f items).map (List.map g) := by
  induction items with
  | nil => rfl
  | cons a items ih =>
    rw [collect_cons]
    by_cases hp : p a = true
    · rw [List.filter_cons_of_pos hp, collect_cons, hkept a hp, ih]
      cases f a with
      | error fault => rfl
      | ok found =>
        cases collect f items with
        | error fault => rfl
        | ok rest => cases found <;> rfl
    · rw [List.filter_cons_of_neg hp, ih, hdropped a (by simpa using hp)]
      cases collect f items <;> rfl

/-- A traversal whose steps answer what those of another do, but changed. -/
theorem mapM_eq_map {f : α → Except ε β} {f' : α → Except ε γ} {g : β → γ} {items : List α}
    (h : ∀ a ∈ items, f' a = (f a).map g) : items.mapM f' = (items.mapM f).map (List.map g) := by
  induction items with
  | nil => rfl
  | cons a items ih =>
    rw [List.forall_mem_cons] at h
    rw [List.mapM_cons, List.mapM_cons, h.1, ih h.2]
    cases f a with
    | error fault => rfl
    | ok answer => cases items.mapM f <;> rfl

end Collect

namespace Tree

variable {t t' : Tree}

/-! ## Places and slots -/

theorem place?_eq_coverage? (id : NodeId) :
    place? t.places id = (t.coverage? t.places id).map Prod.fst := by
  rw [coverage?]
  cases place? t.places id <;> rfl

namespace DissolvesPlain

variable {x : NodeId} (h : t'.DissolvesPlain x t)

include h

theorem coverage?_eq {id : NodeId} (hid : id ≠ x) :
    t.coverage? t.places id = t'.coverage? t'.places id := by
  apply Option.ext
  intro range
  exact h.covers_iff hid

theorem place?_eq {id : NodeId} (hid : id ≠ x) : place? t.places id = place? t'.places id := by
  rw [place?_eq_coverage?, place?_eq_coverage?, h.coverage?_eq hid]

theorem labels : t.labels = t'.labels := by
  have hroot : ∀ {u : Tree}, u.WellFormed → u.labels = (u.preOrder root).filter u.isLabel := by
    intro u wf
    have hother : u.isLabel root = false := by
      rw [Tree.isLabel, blockKind?_eq_some_iff.mp wf.root_kind]
    rw [Tree.labels, wf.descendants_eq, wf.preOrder_eq root,
      List.filter_cons_of_neg (by simp [hother])]
  rw [hroot h.after, hroot h.before, ← h.preOrder_root, List.filter_filter]
  apply List.filter_congr
  intro id _
  rw [h.isLabel]
  by_cases hid : id = x
  · have hother : t'.isLabel x = false := by
      rw [Tree.isLabel, blockKind?_eq_some_iff.mp h.plain]
    simp [hid, hother]
  · simp [hid]

theorem danglingLabel?_eq (count : Nat) :
    t.danglingLabel? t.places count = t'.danglingLabel? t'.places count := by
  rw [danglingLabel?, danglingLabel?, ← h.labels]
  apply List.find?_congr
  intro label hmem
  have hid := h.ne_of_isLabel (List.mem_filter.mp hmem).2
  rw [h.place?_eq hid, labelOwner?_of_payload? (h.payload label hid)]

theorem labelSlot_eq (count : Nat) {label : NodeId} (hid : label ≠ x) :
    labelSlot t.places count t label = labelSlot t'.places count t' label := by
  rw [labelSlot, labelSlot, h.place?_eq hid, h.isLabel]

theorem slotOf_eq (count : Nat) {operation : Operation NodeId}
    (hlabels : x ∉ operation.operand.targets) :
    t.slotOf t.places count operation = t'.slotOf t'.places count operation := by
  have htargets : operation.operand.targets.mapM (labelSlot t.places count t) =
      operation.operand.targets.mapM (labelSlot t'.places count t') := by
    apply mapM_congr
    intro label hmem
    apply h.labelSlot_eq
    intro heq
    exact hlabels (heq ▸ hmem)
  rw [slotOf, slotOf, htargets]

theorem slots_eq : t.slots t.places = t'.slots t'.places := by
  have hoperations : t.instructions.filterMap t.operation? =
      t'.instructions.filterMap t'.operation? := by
    rw [h.instructions]
    exact List.filterMap_congr fun id _ => h.operation id
  have hslots : ∀ count, (t.instructions.filterMap t.operation?).mapM (t.slotOf t.places count) =
      (t.instructions.filterMap t.operation?).mapM (t'.slotOf t'.places count) := by
    intro count
    apply mapM_congr
    intro operation hmem
    obtain ⟨id, -, hoperation⟩ := List.mem_filterMap.mp hmem
    apply h.slotOf_eq
    have hlabels := h.unlabeled id
    rwa [← h.labelsOf, Tree.labelsOf, hoperation] at hlabels
  rw [slots, slots, hslots, hoperations, h.danglingLabel?_eq]

end DissolvesPlain

end Tree

/-! ## Clauses -/

namespace Plan

variable {t t' : Tree}

/-- The layout of a tree, with the places that the nodes of another tree have. -/
def onto (p : Plan) (t : Tree) : Plan := { p with places := t.places }

theorem starts_onto (p : Plan) (t : Tree) : (p.onto t).starts = p.starts := rfl

theorem relative_onto (p : Plan) (t : Tree) : (p.onto t).relative = p.relative := by
  funext index target
  rw [relative, relative, starts_onto]

theorem operation_onto (p : Plan) (t : Tree) : (p.onto t).operation = p.operation := by
  funext index slot isLong
  rw [operation, operation, relative_onto]

/-- The instructions do not depend on the places. -/
theorem instructions_onto (p : Plan) (t : Tree) : (p.onto t).instructions = p.instructions := by
  simp only [instructions, instruction, operation_onto]
  rfl

/-- Move where a protection is completed. -/
def Protection.move (f : Nat → Nat) (protection : Protection) : Protection :=
  { protection with completed := f protection.completed }

theorem protections_eq_collect (t : Tree) :
    protections t = (collect (protection? t (t.postOrder Tree.root)) (t.preOrder Tree.root)).map
      fun found => found.mergeSort fun a b => a.completed ≤ b.completed := by
  unfold protections collect
  dsimp only
  cases (t.preOrder Tree.root).mapM (protection? t (t.postOrder Tree.root)) <;> rfl

/-- A protection is completed at a part of a protected region. -/
theorem exists_part_of_mem_collect (wf : t.WellFormed) {found : List Protection}
    (h : collect (protection? t (t.postOrder Tree.root)) (t.preOrder Tree.root) = .ok found)
    {protection : Protection} (hmem : protection ∈ found) :
    t.blockKind? protection.region = some (.tryBlock protection.handlers) ∧
      ∃ part ∈ t.partsOf protection.region,
        (t.postOrder Tree.root)[protection.completed]? = some part := by
  have hsorted : protections t = .ok (found.mergeSort fun a b => a.completed ≤ b.completed) := by
    rw [protections_eq_collect, h]
    rfl
  have hmem' : protection ∈ found.mergeSort fun a b => a.completed ≤ b.completed :=
    List.mem_mergeSort.mpr hmem
  have hprotects := (protections_eq_ok wf hsorted).1 protection hmem'
  obtain ⟨part, hpart, hposition⟩ := (Tree.completion_spec protection.region).1
  refine ⟨(mem_protections hsorted hmem').2.2, part, hpart, ?_⟩
  have hlisted := (wf.postOrder_perm _).mem_iff.mpr (hprotects.parts part hpart)
  rw [hprotects.completed, ← hposition]
  exact List.getElem?_eq_some_iff.mpr ⟨List.idxOf_lt_length_of_mem hlisted, List.getElem_idxOf _⟩

end Plan

namespace Tree.DissolvesPlain

open Plan

variable {t t' : Tree} {x : NodeId} (h : t'.DissolvesPlain x t)

include h

/-- What a region lists is not the plain block. -/
theorem ne_of_mentions {a b : NodeId} (hmentions : t'.Mentions a b) : b ≠ x := by
  intro heq
  exact h.unmentioned a (heq ▸ hmentions)

theorem ne_of_mem_partsOf {region part : NodeId} (hregion : region ≠ x)
    (hpart : part ∈ t'.partsOf region) : part ≠ x := by
  rw [partsOf, List.mem_cons, List.mem_flatMap] at hpart
  cases hpart with
  | inl heq => rwa [heq]
  | inr hbelow =>
    obtain ⟨handler, hhandler, hmem⟩ := hbelow
    cases List.mem_cons.mp hmem with
    | inl heq =>
      obtain ⟨handlers, hkind, hlisted⟩ := mem_handlersOf_iff.mp hhandler
      rw [heq]
      exact h.ne_of_mentions ⟨_, hkind, hlisted⟩
    | inr hfilter =>
      obtain ⟨kind, owner, catchType, hkind⟩ := filterOf?_eq_some_iff.mp (Option.mem_toList.mp hfilter)
      exact h.ne_of_mentions ⟨_, hkind, by simp [BlockKind.links]⟩

theorem positions_eq {parts : List NodeId} (hparts : ∀ part ∈ parts, part ≠ x) :
    positions (t.postOrder root) parts = (positions (t'.postOrder root) parts).map
      (List.map (countBefore (fun y => y ≠ x) (t'.postOrder root))) := by
  apply mapM_eq_map
  intro part hpart
  rw [← h.postOrder_root, idxOf?_filter (by simpa using hparts part hpart)]
  cases (t'.postOrder root).idxOf? part <;> rfl

theorem handlerParts_eq (region : NodeId) {handler : NodeId} (hid : handler ≠ x) :
    handlerParts t region handler = handlerParts t' region handler := by
  rw [handlerParts, handlerParts, h.blockKind hid]

theorem handlerPositions_eq (region : NodeId) {handlers : List NodeId}
    (hhandlers : ∀ handler ∈ handlers, handler ≠ x) :
    handlerPositions t (t.postOrder root) region handlers =
      (handlerPositions t' (t'.postOrder root) region handlers).map
        (List.map (countBefore (fun y => y ≠ x) (t'.postOrder root))) := by
  induction handlers with
  | nil => rfl
  | cons handler handlers ih =>
    rw [List.forall_mem_cons] at hhandlers
    rw [handlerPositions, handlerPositions, h.handlerParts_eq region hhandlers.1, ih hhandlers.2]
    cases hfound : handlerParts t' region handler with
    | error fault => rfl
    | ok parts =>
      obtain ⟨kind, filterBlock, catchType, hkind, rfl⟩ := handlerParts_eq_ok_iff.mp hfound
      have hparts : ∀ part ∈ handler :: filterBlock.toList, part ≠ x := by
        rw [List.forall_mem_cons]
        refine ⟨hhandlers.1, fun part hpart => h.ne_of_mentions ⟨_, hkind, ?_⟩⟩
        rw [BlockKind.links, List.mem_append]
        exact Or.inr hpart
      rw [ok_bind, ok_bind, h.positions_eq hparts]
      cases positions (t'.postOrder root) (handler :: filterBlock.toList) with
      | error fault => rfl
      | ok own =>
        cases handlerPositions t' (t'.postOrder root) region handlers with
        | error fault => rfl
        | ok others => exact congrArg Except.ok List.map_append.symm

/-- A protection is completed at the same node. -/
theorem protection?_eq {region : NodeId} (hid : region ≠ x) :
    protection? t (t.postOrder root) region = (protection? t' (t'.postOrder root) region).map
      (Option.map (.move (countBefore (fun y => y ≠ x) (t'.postOrder root)))) := by
  rw [protection?, protection?, h.blockKind hid]
  split
  case h_1 first others hkind =>
    have hhandlers : ∀ handler ∈ first :: others, handler ≠ x := by
      intro handler hhandler
      exact h.ne_of_mentions ⟨_, hkind, hhandler⟩
    have hown : ((t.postOrder root).idxOf? region).getD 0 =
        countBefore (fun y => y ≠ x) (t'.postOrder root)
          (((t'.postOrder root).idxOf? region).getD 0) := by
      rw [← h.postOrder_root, idxOf?_filter (by simpa using hid)]
      cases (t'.postOrder root).idxOf? region <;> rfl
    dsimp only
    rw [h.handlerPositions_eq region hhandlers, hown]
    cases handlerPositions t' (t'.postOrder root) region (first :: others) with
    | error fault => rfl
    | ok parts =>
      have hcompleted := foldl_max_countBefore (p := fun y => y ≠ x) (t'.postOrder root) parts
        (((t'.postOrder root).idxOf? region).getD 0)
      simp only [Except.map, ok_bind, hcompleted]
      rfl
  case h_2 => rfl

/-- The clauses come in the same order. -/
theorem protections_eq : protections t =
    (protections t').map (List.map (.move (countBefore (fun y => y ≠ x) (t'.postOrder root)))) := by
  have hdropped : ∀ region, decide (region ≠ x) = false →
      protection? t' (t'.postOrder root) region = .ok none := by
    intro region hregion
    rw [protection?, show region = x by simpa using hregion, h.plain]
  have hcollect : collect (protection? t (t.postOrder root)) ((t'.preOrder root).filter (· ≠ x)) = _ :=
    collect_filter hdropped fun region hregion => h.protection?_eq (by simpa using hregion)
  rw [h.preOrder_root] at hcollect
  rw [protections_eq_collect, protections_eq_collect, hcollect]
  cases hfound : collect (protection? t' (t'.postOrder root)) (t'.preOrder root) with
  | error fault => rfl
  | ok found =>
    refine congrArg Except.ok (List.map_mergeSort fun a ha b hb => ?_).symm
    -- what is compared are places of nodes that stay in the order
    have hkept : ∀ protection ∈ found, ∃ part,
        (t'.postOrder root)[protection.completed]? = some part ∧ decide (part ≠ x) = true := by
      intro protection hmem
      obtain ⟨hkind, part, hpart, hplace⟩ := exists_part_of_mem_collect h.before hfound hmem
      have hregion : protection.region ≠ x := by
        intro heq
        rw [heq, h.plain] at hkind
        exact absurd hkind (by simp)
      exact ⟨part, hplace, by simpa using h.ne_of_mem_partsOf hregion hpart⟩
    obtain ⟨part, hplace, hpart⟩ := hkept b hb
    rw [decide_eq_decide]
    constructor
    · intro hle
      exact countBefore_mono hle
    · intro hle
      by_contra hlt
      exact absurd hle (Nat.not_le_of_lt (countBefore_lt hplace hpart (Nat.lt_of_not_le hlt)))

theorem extent_eq {p : Plan} (hplaces : p.places = t'.places) {region : NodeId} (hid : region ≠ x) :
    (p.onto t).extent t region = p.extent t' region := by
  rw [extent, extent, hplaces, ← h.coverage?_eq hid, starts_onto]
  rfl

theorem clause_eq {p : Plan} (hplaces : p.places = t'.places) (range : Nat × Nat) {handler : NodeId}
    (hid : handler ≠ x) : (p.onto t).clause t range handler = p.clause t' range handler := by
  rw [clause, clause, h.blockKind hid, h.extent_eq hplaces hid]
  split
  case h_1 kind region filterBlock catchType hkind =>
    cases filterBlock with
    | none => cases kind <;> rfl
    | some block =>
      have hblock : block ≠ x := h.ne_of_mentions ⟨_, hkind, by simp [BlockKind.links]⟩
      cases kind with
      | filterClause => simp only [h.extent_eq hplaces hblock]
      | _ => rfl
  case h_2 => rfl

theorem clausesOf_eq {p : Plan} (hplaces : p.places = t'.places) {f : Nat → Nat}
    {protection : Protection}
    (hkind : t'.blockKind? protection.region = some (.tryBlock protection.handlers)) :
    (p.onto t).clausesOf t (protection.move f) = p.clausesOf t' protection := by
  have hregion : protection.region ≠ x := by
    intro heq
    rw [heq, h.plain] at hkind
    exact absurd hkind (by simp)
  have hclauses : ∀ range, protection.handlers.mapM ((p.onto t).clause t range) =
      protection.handlers.mapM (p.clause t' range) := by
    intro range
    apply mapM_congr
    intro handler hhandler
    exact h.clause_eq hplaces range (h.ne_of_mentions ⟨_, hkind, hhandler⟩)
  rw [clausesOf, clausesOf, Protection.move]
  simp only [h.extent_eq hplaces hregion, hclauses]

theorem clauses_eq {p : Plan} (hplaces : p.places = t'.places) :
    (p.onto t).clauses t = p.clauses t' := by
  rw [clauses, clauses, h.protections_eq]
  cases hfound : protections t' with
  | error fault => rw [Except.map, error_bind, error_bind]
  | ok found =>
    have hparts : (found.map (Protection.move
        (countBefore (fun y => y ≠ x) (t'.postOrder root)))).mapM ((p.onto t).clausesOf t) =
          found.mapM (p.clausesOf t') := by
      rw [List.mapM_map]
      apply mapM_congr
      intro protection hmem
      exact h.clausesOf_eq hplaces (mem_protections hfound hmem).2.2
    rw [Except.map, ok_bind, ok_bind, hparts]

/-- The layout is the same but for the places. -/
theorem plan_eq : Plan.ofTree t = (Plan.ofTree t').map (·.onto t) := by
  rw [Plan.ofTree, Plan.ofTree, h.slots_eq]
  cases t'.slots t'.places with
  | error fault => rfl
  | ok slots =>
    rw [ok_bind, ok_bind]
    cases slots.mapM Slot.piece with
    | error fault => rfl
    | ok pieces =>
      rw [ok_bind, ok_bind]
      dsimp only
      split <;> rfl

/-- The tree becomes the same body, or the same fault. -/
theorem toBody_eq : t.toBody = t'.toBody := by
  rw [toBody, toBody, h.plan_eq]
  cases hplan : Plan.ofTree t' with
  | error fault => rfl
  | ok plan =>
    have hplaces := (Plan.ofTree_eq_ok_iff.mp hplan).1
    simp only [Except.map, Except.mapError, ok_bind, body, instructions_onto, h.clauses_eq hplaces,
      h.header]

end Tree.DissolvesPlain

end MethodIL
