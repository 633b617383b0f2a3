import Mathlib
import MethodIL.Proofs.Body.Ranges
import MethodIL.Proofs.Lowering.Places
import MethodIL.Proofs.Tree.Changes
set_option autoImplicit false

/-!
# Coverage and changes of the tree

A block covers the places that its children cover together, and a label covers nothing.  Blocks that
are put around nodes or taken from around them, and labels that are put between nodes, leave the order
of the instructions alone, so every other node covers what it covered before.
-/

namespace MethodIL

namespace Tree

variable {t t' : Tree}

/-- A node of the body covers the places from `first` up to, but not including, `last`. -/
def Covers (t : Tree) (id : NodeId) (first last : Nat) : Prop :=
  t.coverage? t.places id = some (first, last)

theorem Covers.unique {id : NodeId} {first last first' last' : Nat} (h : t.Covers id first last)
    (h' : t.Covers id first' last') : first = first' ∧ last = last' := by
  rw [Covers, h, Option.some.injEq, Prod.mk.injEq] at h'
  exact h'

theorem Covers.place?_eq {id : NodeId} {first last : Nat} (h : t.Covers id first last) :
    place? t.places id = some first := by
  obtain ⟨place, hplace, hpair⟩ := Option.map_eq_some_iff.mp h
  rw [hplace, (Prod.mk.inj hpair).1]

namespace WellFormed

variable (wf : t.WellFormed)

include wf

/-- A node covers the instructions that stand at and below it in the flat order. -/
theorem covers_of_split (id : NodeId) (before after : List NodeId)
    (h : t.preOrder root = before ++ (t.preOrder id ++ after)) :
    t.Covers id (before.countP t.isInstruction)
      (before.countP t.isInstruction + (t.preOrder id).countP t.isInstruction) :=
  wf.coverage?_eq_some_iff.mpr ⟨before, after, h, rfl, rfl⟩

theorem exists_covers {id : NodeId} (h : id ∈ t.preOrder root) :
    ∃ first last, t.Covers id first last := by
  obtain ⟨before, after, horder⟩ := wf.exists_preOrder_append h
  exact ⟨_, _, wf.covers_of_split id before after horder⟩

theorem mem_body_of_covers {id : NodeId} {first last : Nat} (h : t.Covers id first last) :
    id ∈ t.preOrder root := by
  obtain ⟨before, after, horder, -⟩ := wf.coverage?_eq_some_iff.mp h
  rw [horder]
  simp [wf.self_mem_preOrder id]

theorem exists_of_covers {id : NodeId} {first last : Nat} (h : t.Covers id first last) :
    id.index < t.size :=
  wf.exists_of_mem_body (wf.mem_body_of_covers h)

/-- An instruction covers its own place. -/
theorem covers_instruction {k : Nat} {id : NodeId} (h : t.instructions[k]? = some id) :
    t.Covers id k (k + 1) := by
  obtain ⟨before, after, horder, hinstruction, rfl⟩ := wf.exists_of_getElem?_instructions h
  have hself : t.preOrder id = [id] := by
    rw [wf.preOrder_eq, children_eq_nil_of_isInstruction hinstruction]
    rfl
  have hcovers := wf.covers_of_split id before after
    (by rw [hself, horder]; rfl)
  rwa [hself, List.countP_cons_of_pos hinstruction, List.countP_nil] at hcovers

theorem covers_le_length {id : NodeId} {first last : Nat} (h : t.Covers id first last) :
    last ≤ t.instructions.length := by
  obtain ⟨before, after, horder, rfl, rfl⟩ := wf.coverage?_eq_some_iff.mp h
  rw [wf.instructions_eq, horder, ← List.countP_eq_length_filter, List.countP_append,
    List.countP_append]
  omega

/-- What lies below a block lies inside what the block covers. -/
theorem covers_inside {a b : NodeId} {first last first' last' : Nat} (hb : b ∈ t.preOrder a)
    (ha : t.Covers a first last) (hcovers : t.Covers b first' last') (hlt : first' < last') :
    first ≤ first' ∧ last' ≤ last := by
  have hle := wf.covers_le_length hcovers
  have hinside : ∀ k, first' ≤ k → k < last' → first ≤ k ∧ k < last := by
    intro k hfirst hlast
    have hnode : t.instructions[k]? = some t.instructions[k] :=
      List.getElem?_eq_getElem (Nat.lt_of_lt_of_le hlast hle)
    rw [← wf.mem_preOrder_iff_covered ha hnode]
    exact wf.preOrder_subset_of_mem hb _
      ((wf.mem_preOrder_iff_covered hcovers hnode).mpr ⟨hfirst, hlast⟩)
  have hstart := hinside first' (Nat.le_refl _) hlt
  have hstop := hinside (last' - 1) (by omega) (by omega)
  omega

/-- What two nodes cover is nested or apart. -/
theorem laminar_covers {a b : NodeId} {first last first' last' : Nat} (ha : t.Covers a first last)
    (hb : t.Covers b first' last') (hlt : first < last) (hlt' : first' < last') :
    Laminar (first, last) (first', last') := by
  by_cases hapart : last ≤ first' ∨ last' ≤ first
  · exact Or.inr (Or.inr hapart)
  · -- an instruction that both cover has both on its way upwards
    rw [not_or] at hapart
    have hle := wf.covers_le_length ha
    have hnode : t.instructions[max first first']? = some t.instructions[max first first'] :=
      List.getElem?_eq_getElem (by omega)
    have hmem := (wf.mem_preOrder_iff_covered ha hnode).mpr ⟨by omega, by omega⟩
    have hmem' := (wf.mem_preOrder_iff_covered hb hnode).mpr ⟨by omega, by omega⟩
    rcases wf.mem_preOrder_or_of_common hmem hmem' with hnested | hnested
    · exact Or.inl (wf.covers_inside hnested ha hb hlt')
    · exact Or.inr (Or.inl (wf.covers_inside hnested hb ha hlt))

/-! ## Blocks and their children -/

/-- The block around a node of the body stands in the body, with all its children. -/
theorem exists_split_of_child {p c : NodeId} {before after : List NodeId}
    (hchildren : t.children p = before ++ c :: after) (hc : c ∈ t.preOrder root) :
    ∃ left right, t.preOrder root = left ++ (t.preOrder p ++ right) ∧
      t.preOrder p =
        p :: (before.flatMap t.preOrder ++ (t.preOrder c ++ after.flatMap t.preOrder)) ∧
      t.isInstruction p = false := by
  have hparent : t.parent? c = some p := (wf.parent_iff c p).mpr (by simp [hchildren])
  have hp : p ∈ t.preOrder root := by
    rcases wf.mem_preOrder_iff.mp hc with rfl | hbelow
    · rw [wf.root_parent] at hparent
      exact absurd hparent (by simp)
    · rw [wf.ancestors_of_parent hparent, List.mem_cons] at hbelow
      exact wf.mem_preOrder_iff.mpr (hbelow.imp_left Eq.symm)
  obtain ⟨left, right, horder⟩ := wf.exists_preOrder_append hp
  refine ⟨left, right, horder, ?_, ?_⟩
  · rw [wf.preOrder_eq, hchildren, List.flatMap_append, List.flatMap_cons]
  · rw [Bool.eq_false_iff]
    intro hinstruction
    rw [children_eq_nil_of_isInstruction hinstruction] at hchildren
    exact absurd hchildren (by simp)

theorem preOrder_label {id : NodeId} (h : t.isLabel id = true) : t.preOrder id = [id] := by
  rw [wf.preOrder_eq, children_eq_nil_of_isLabel h]
  rfl

/-- A block starts where a child starts that has nothing but labels in front of it. -/
theorem covers_of_first {p c : NodeId} {before after : List NodeId} {first last : Nat}
    (hchildren : t.children p = before ++ c :: after)
    (hbefore : ∀ sibling ∈ before, t.isLabel sibling = true) (hc : t.Covers c first last) :
    ∃ last', t.Covers p first last' := by
  obtain ⟨left, right, horder, hblock, hother⟩ :=
    wf.exists_split_of_child hchildren (wf.mem_body_of_covers hc)
  have hlabels : (before.flatMap t.preOrder).countP t.isInstruction = 0 := by
    rw [List.countP_eq_zero]
    intro id hid
    obtain ⟨sibling, hsibling, hmem⟩ := List.mem_flatMap.mp hid
    rw [wf.preOrder_label (hbefore sibling hsibling), List.mem_singleton] at hmem
    rw [hmem, isInstruction_of_isLabel (hbefore sibling hsibling)]
    exact Bool.false_ne_true
  have hinner := wf.covers_of_split c (left ++ p :: before.flatMap t.preOrder)
    (after.flatMap t.preOrder ++ right) (by rw [horder, hblock]; simp)
  obtain ⟨hfirst, -⟩ := hc.unique hinner
  rw [List.countP_append, List.countP_cons_of_neg (by simp [hother]), hlabels, Nat.add_zero] at hfirst
  rw [hfirst]
  exact ⟨_, wf.covers_of_split p left right horder⟩

/-- A block ends where its last child ends. -/
theorem covers_of_last {p c : NodeId} {before : List NodeId} {first last : Nat}
    (hchildren : t.children p = before ++ [c]) (hc : t.Covers c first last) :
    ∃ first', t.Covers p first' last := by
  obtain ⟨left, right, horder, hblock, hother⟩ :=
    wf.exists_split_of_child hchildren (wf.mem_body_of_covers hc)
  have hinner := wf.covers_of_split c (left ++ p :: before.flatMap t.preOrder) right
    (by rw [horder, hblock]; simp)
  obtain ⟨-, hlast⟩ := hc.unique hinner
  have hsame : last =
      left.countP t.isInstruction + (t.preOrder p).countP t.isInstruction := by
    rw [hlast, hblock]
    simp only [List.countP_append, List.countP_cons, hother, Bool.false_eq_true, if_false,
      List.flatMap_nil, List.countP_nil]
    omega
  rw [hsame]
  exact ⟨_, wf.covers_of_split p left right horder⟩

/-- A label covers nothing at the start of the node behind it. -/
theorem covers_label {p label c : NodeId} {before after : List NodeId} {first last : Nat}
    (hchildren : t.children p = before ++ label :: c :: after) (hlabel : t.isLabel label = true)
    (hc : t.Covers c first last) : t.Covers label first first := by
  have hchildren' : t.children p = (before ++ [label]) ++ c :: after := by rw [hchildren]; simp
  obtain ⟨left, right, horder, hblock, hother⟩ :=
    wf.exists_split_of_child hchildren' (wf.mem_body_of_covers hc)
  have hself := wf.preOrder_label hlabel
  have hnone := isInstruction_of_isLabel hlabel
  have hinner := wf.covers_of_split c
    (left ++ p :: (before.flatMap t.preOrder ++ [label])) (after.flatMap t.preOrder ++ right)
    (by rw [horder, hblock]; simp [hself])
  have houter := wf.covers_of_split label (left ++ p :: before.flatMap t.preOrder)
    (t.preOrder c ++ after.flatMap t.preOrder ++ right)
    (by rw [horder, hblock]; simp [hself])
  obtain ⟨hfirst, -⟩ := hc.unique hinner
  have hsame : (left ++ p :: before.flatMap t.preOrder).countP t.isInstruction = first := by
    rw [hfirst]
    simp [List.countP_append, List.countP_cons, hnone]
  rw [hsame, hself, List.countP_cons_of_neg (by simp [hnone]), List.countP_nil] at houter
  exact houter

end WellFormed

/-! ## Dissolving a node -/

/-- The tree `t` is the tree `t'` with the node `x`, which is no instruction, taken out and its
children put in its place. -/
structure Dissolves (t' : Tree) (x : NodeId) (t : Tree) : Prop where
  before : t'.WellFormed
  after : t.WellFormed
  isOther : t'.isInstruction x = false
  isInstruction : ∀ id, id ≠ x → t.isInstruction id = t'.isInstruction id
  children : ∀ id, id ≠ x → t.children id =
    (t'.children id).flatMap fun child => if child = x then t'.children x else [child]
  ne_root : x ≠ root

namespace Dissolves

variable {x : NodeId} (h : t'.Dissolves x t)

include h

/-- The flat order of every other node loses the dissolved node and nothing else. -/
theorem preOrder_filter (id : NodeId) :
    (t'.preOrder id).filter (fun y => y ≠ x) =
      if id = x then (t'.children x).flatMap t.preOrder else t.preOrder id := by
  induction id using h.before.induction_below with
  | step id ih =>
    rw [h.before.preOrder_eq id]
    by_cases hid : id = x
    · subst hid
      rw [List.filter_cons_of_neg (by simp), if_pos rfl, List.filter_flatMap]
      refine List.flatMap_congr fun child hchild => ?_
      rw [ih child hchild, if_neg (h.before.ne_of_parent ((h.before.parent_iff child id).mpr hchild))]
    · rw [List.filter_cons_of_pos (by simpa using hid), if_neg hid, h.after.preOrder_eq id,
        h.children id hid, List.filter_flatMap, List.flatMap_assoc]
      congr 1
      refine List.flatMap_congr fun child hchild => ?_
      rw [ih child hchild]
      split
      · rfl
      · simp

theorem countP_filter (ids : List NodeId) :
    (ids.filter fun y => y ≠ x).countP t.isInstruction = ids.countP t'.isInstruction := by
  rw [List.countP_filter]
  refine List.countP_congr fun id _ => ?_
  by_cases hid : id = x
  · simp [hid, h.isOther]
  · simp [hid, h.isInstruction id hid]

theorem preOrder_root : (t'.preOrder root).filter (fun y => y ≠ x) = t.preOrder root := by
  rw [h.preOrder_filter, if_neg (Ne.symm h.ne_root)]

/-- The body has the same instructions. -/
theorem instructions : t.instructions = t'.instructions := by
  rw [h.after.instructions_eq, h.before.instructions_eq, ← h.preOrder_root, List.filter_filter]
  refine List.filter_congr fun id _ => ?_
  by_cases hid : id = x
  · simp [hid, h.isOther]
  · simp [hid, h.isInstruction id hid]

/-- Every other node covers the same places. -/
theorem covers_iff {id : NodeId} (hid : id ≠ x) {first last : Nat} :
    t.Covers id first last ↔ t'.Covers id first last := by
  have hdown : ∀ first last, t'.Covers id first last → t.Covers id first last := by
    intro first last hcovers
    obtain ⟨left, right, horder, rfl, rfl⟩ := h.before.coverage?_eq_some_iff.mp hcovers
    have hown : (t'.preOrder id).filter (fun y => y ≠ x) = t.preOrder id := by
      rw [h.preOrder_filter, if_neg hid]
    have hsplit := h.preOrder_root
    rw [horder, List.filter_append, List.filter_append, hown] at hsplit
    have hafter := h.after.covers_of_split _ _ _ hsplit.symm
    rwa [h.countP_filter, ← hown, h.countP_filter] at hafter
  refine ⟨fun hcovers => ?_, hdown first last⟩
  have hmem := h.after.mem_body_of_covers hcovers
  rw [← h.preOrder_root, List.mem_filter] at hmem
  obtain ⟨first', last', hcovers'⟩ := h.before.exists_covers hmem.1
  obtain ⟨rfl, rfl⟩ := hcovers.unique (hdown first' last' hcovers')
  exact hcovers'

omit h in
/-- If the dissolved node is a new one, the nodes of the old tree cover what they covered. -/
theorem covers_of_new (h : t'.Dissolves ⟨t.size⟩ t) {id : NodeId} {first last : Nat}
    (hcovers : t.Covers id first last) : t'.Covers id first last := by
  refine (h.covers_iff fun heq => ?_).mp hcovers
  have hexists := h.after.exists_of_covers hcovers
  rw [heq] at hexists
  exact Nat.lt_irrefl _ hexists

end Dissolves

namespace WellFormed

variable (wf : t.WellFormed)

include wf

/-- An enclosed run comes free again when the block around it is dissolved. -/
theorem dissolves_enclose {parent : NodeId} {before run after : List NodeId} (kind : BlockKind)
    (h : t.children parent = before ++ run ++ after) (hrun : run ≠ []) :
    (t.enclose parent before run after kind).2.Dissolves ⟨t.size⟩ t := by
  have hfresh := wf.size_notMem_children
  obtain ⟨c, hc⟩ := List.exists_mem_of_ne_nil run hrun
  have hne := Ne.symm (ne_size_of_mem_children (by simp [h, hc] : c ∈ t.children parent))
  refine ⟨wf.enclose h hrun, wf, ?_, fun id hid => ?_, fun id hid => ?_, ?_⟩
  · have hkind : (t.enclose parent before run after kind).2.blockKind? ⟨t.size⟩ = some kind := by
      rw [← payload?_eq_some_block, payload?_enclose, if_pos rfl]
    exact isInstruction_of_blockKind? hkind
  · exact (isInstruction_of_payload? (by rw [payload?_enclose, if_neg hid])).symm
  · rw [children_enclose h hrun, children_enclose h hrun, if_neg hne, if_pos rfl]
    by_cases hp : id = parent
    · have hparts := hfresh parent
      rw [h, List.mem_append, List.mem_append, not_or, not_or] at hparts
      rw [if_pos hp, hp, h, flatMap_replace hparts.1.1 hparts.2]
    · rw [if_neg hp, if_neg hid, flatMap_replace_of_notMem (hfresh id)]
  · exact wf.size_ne_root

/-- Splicing a block dissolves it. -/
theorem dissolves_splice {parent block : NodeId} (h : t.parent? block = some parent)
    (hblock : (t.blockKind? block).isSome) : t.Dissolves block (t.splice parent block) := by
  refine ⟨wf, wf.splice h hblock, ?_, fun id _ => ?_, fun id hid => ?_, fun heq => ?_⟩
  · obtain ⟨kind, hkind⟩ := Option.isSome_iff_exists.mp hblock
    exact isInstruction_of_blockKind? hkind
  · exact isInstruction_of_payload? (payload?_splice id)
  · rw [wf.children_splice h hblock]
    by_cases hp : id = parent
    · rw [if_pos hp, hp]
    · have hnot : block ∉ t.children id := by
        rw [← wf.parent_iff, h, Option.some.injEq]
        exact Ne.symm hp
      rw [if_neg hp, if_neg hid, flatMap_replace_of_notMem hnot]
  · rw [heq, wf.root_parent] at h
    exact absurd h (by simp)

/-- A new label in front of a node can be dissolved again.  It covers nothing, at the start of the
node. -/
theorem dissolves_placeLabel {anchor label : NodeId} (h : t.placeLabel anchor = .ok (label, t')) :
    t'.Dissolves ⟨t.size⟩ t ∧
      (∀ x, t'.payload? x = if x = ⟨t.size⟩ then some (.label none) else t.payload? x) ∧
        ∀ first last, t.Covers anchor first last → t'.Covers label first first := by
  have wf' := wf.steps (wf.steps_placeLabel h)
  obtain ⟨parent, hparent, rfl, rfl⟩ := placeLabel_eq_ok_iff.mp h
  have hmem := (wf.parent_iff anchor parent).mp hparent
  obtain ⟨kind, hkind⟩ := exists_kind_of_mem_children hmem
  have hfresh := wf.size_notMem_children
  have hne := ne_size_of_mem_children hmem
  have hpushed : ((t.push (.label none)).2.blockKind? parent).isSome := by
    rw [blockKind?_of_payload? (y := parent) (t := t) (by rw [payload?_push, if_neg hne]), hkind]
    rfl
  have hpayload : ∀ x, ((t.push (.label none)).2.attach parent ⟨t.size⟩
      (MethodIL.insertBefore anchor ⟨t.size⟩)).payload? x =
        if x = ⟨t.size⟩ then some (.label none) else t.payload? x := by
    intro x
    rw [payload?_attach, payload?_push]
    rfl
  obtain ⟨before, after, hitems, hinserted⟩ := insertBefore_eq_append ⟨t.size⟩ hmem
  have hchildren : ∀ x, ((t.push (.label none)).2.attach parent ⟨t.size⟩
      (MethodIL.insertBefore anchor ⟨t.size⟩)).children x =
        if x = parent then before ++ ⟨t.size⟩ :: anchor :: after else t.children x := by
    intro x
    rw [children_attach hpushed, children_push, if_neg hne, hinserted, children_push]
    by_cases hx : x = ⟨t.size⟩
    · rw [if_pos hx, hx, children_size]
      rfl
    · rw [if_neg hx]
  have hlabel : ((t.push (.label none)).2.attach parent ⟨t.size⟩
      (MethodIL.insertBefore anchor ⟨t.size⟩)).isLabel ⟨t.size⟩ = true := by
    rw [isLabel, payload?_eq_some_label.mp ((hpayload ⟨t.size⟩).trans (if_pos rfl))]
  have hdissolves : ((t.push (.label none)).2.attach parent ⟨t.size⟩
      (MethodIL.insertBefore anchor ⟨t.size⟩)).Dissolves ⟨t.size⟩ t := by
    refine ⟨wf', wf, isInstruction_of_isLabel hlabel, fun id hid => ?_, fun id hid => ?_, ?_⟩
    · exact (isInstruction_of_payload? (by rw [hpayload, if_neg hid])).symm
    · rw [hchildren, hchildren, if_neg (Ne.symm hne), children_size]
      by_cases hp : id = parent
      · have hparts := hfresh parent
        rw [hitems, List.mem_append, not_or] at hparts
        rw [if_pos hp, hp, hitems, flatMap_replace hparts.1 hparts.2, List.append_nil]
      · rw [if_neg hp, flatMap_replace_of_notMem (hfresh id)]
    · exact wf.size_ne_root
  refine ⟨hdissolves, hpayload, fun first last hcovers => ?_⟩
  have hold : anchor ≠ ⟨t.size⟩ := fun heq => hfresh parent (heq ▸ hmem)
  exact wf'.covers_label (by rw [hchildren, if_pos rfl]) hlabel
    ((hdissolves.covers_iff hold).mp hcovers)

/-- A tree whose nodes are linked as before and are instructions as before has lost nothing. -/
theorem dissolves_of_shape (wf' : t'.WellFormed) (hchildren : ∀ id, t'.children id = t.children id)
    (hinstruction : ∀ id, t'.isInstruction id = t.isInstruction id) :
    t'.Dissolves ⟨t.size⟩ t := by
  refine ⟨wf', wf, ?_, fun id _ => (hinstruction id).symm, fun id _ => ?_, ?_⟩
  · rw [hinstruction, isInstruction, operation?, content?_size]
    rfl
  · simp only [hchildren]
    rw [flatMap_replace_of_notMem (wf.size_notMem_children id)]
  · exact wf.size_ne_root

end WellFormed

end Tree

end MethodIL
