import Mathlib
import MethodIL.Layout.Slots
import MethodIL.Proofs.Tree.FlatOrder
set_option autoImplicit false

/-!
# Places in the code stream

The instructions of a tree stand in the code stream in flat order.  The place of a node is the
number of instructions in front of it, so it is the place of the first instruction at or behind the
node, and a block covers exactly the places of the instructions below it.
-/

namespace MethodIL

/-! ## Filtered lists -/

/-- An item that a filter keeps stands behind as many items as the filter keeps in front of it. -/
theorem getElem?_filter_append {α : Type} {p : α → Bool} (before rest : List α) :
    ((before ++ rest).filter p)[before.countP p]? = rest.find? p := by
  rw [List.filter_append, List.countP_eq_length_filter, List.getElem?_append_right (Nat.le_refl _),
    Nat.sub_self, ← List.head?_eq_getElem?, List.head?_filter]

/-- Every kept item has a place in the whole list. -/
theorem exists_append_of_getElem?_filter {α : Type} {p : α → Bool} {items : List α} {k : Nat}
    {a : α} (h : (items.filter p)[k]? = some a) :
    ∃ before after, items = before ++ a :: after ∧ p a = true ∧ before.countP p = k := by
  induction items generalizing k with
  | nil => exact absurd h (by simp)
  | cons x items ih =>
    by_cases hx : p x = true
    · rw [List.filter_cons_of_pos hx] at h
      cases k with
      | zero =>
        rw [List.getElem?_cons_zero, Option.some.injEq] at h
        exact ⟨[], items, by rw [h]; rfl, by rwa [← h], rfl⟩
      | succ k =>
        rw [List.getElem?_cons_succ] at h
        obtain ⟨before, after, hitems, ha, hcount⟩ := ih h
        exact ⟨x :: before, after, by rw [hitems]; rfl, ha, by
          rw [List.countP_cons_of_pos hx, hcount]⟩
    · rw [List.filter_cons_of_neg hx] at h
      obtain ⟨before, after, hitems, ha, hcount⟩ := ih h
      exact ⟨x :: before, after, by rw [hitems]; rfl, ha, by
        rw [List.countP_cons_of_neg hx, hcount]⟩

/-- An item that is listed once splits a list in one way only. -/
theorem append_cons_inj_of_nodup {α : Type} {a : α} {left right left' right' : List α}
    (hnodup : (left ++ a :: right).Nodup) (h : left ++ a :: right = left' ++ a :: right') :
    left = left' ∧ right = right' := by
  induction left generalizing left' with
  | nil =>
    cases left' with
    | nil => simpa using h
    | cons x left' =>
      simp only [List.nil_append, List.cons_append, List.cons.injEq] at h
      simp [h.2] at hnodup
  | cons x left ih =>
    rw [List.cons_append, List.nodup_cons] at hnodup
    cases left' with
    | nil =>
      simp only [List.nil_append, List.cons_append, List.cons.injEq] at h
      exact absurd (by simp [h.1]) hnodup.1
    | cons y left' =>
      simp only [List.cons_append, List.cons.injEq] at h
      obtain ⟨hleft, hright⟩ := ih hnodup.2 h.2
      exact ⟨by rw [h.1, hleft], hright⟩

namespace Tree

variable {t : Tree}

/-! ## Places -/

theorem place?_placesOf {ids : List NodeId} (hnodup : ids.Nodup)
    (hids : ∀ id ∈ ids, id.index < t.size) (count : Nat) {places : Array (Option Nat)}
    (hsize : places.size = t.size) (x : NodeId) :
    (∀ before after, ids = before ++ x :: after →
      place? (t.placesOf ids count places) x = some (count + before.countP t.isInstruction)) ∧
    (x ∉ ids → place? (t.placesOf ids count places) x = place? places x) := by
  induction ids generalizing count places with
  | nil => exact ⟨by simp, fun _ => rfl⟩
  | cons id ids ih =>
    rw [List.nodup_cons] at hnodup
    have hset : (places.setIfInBounds id.index (some count)).size = t.size := by simp [hsize]
    obtain ⟨hmem, hother⟩ := ih hnodup.2 (fun y hy => hids y (List.mem_cons_of_mem id hy))
      (if t.isInstruction id then count + 1 else count) hset
    have hhere : ∀ y : NodeId, place? (places.setIfInBounds id.index (some count)) y =
        if y = id then some count else place? places y := by
      intro y
      have hid := hids id List.mem_cons_self
      have hindex : id.index = y.index ↔ y = id := by rw [eq_comm, ← NodeId.mk.injEq]
      simp only [place?, Array.getD_eq_getD_getElem?, Array.getElem?_setIfInBounds, hindex]
      by_cases hy : y = id
      · simp [hy, hsize, hid]
      · simp [hy]
    refine ⟨fun before after horder => ?_, fun hx => ?_⟩
    · rw [placesOf]
      cases before with
      | nil =>
        rw [List.nil_append, List.cons.injEq] at horder
        rw [hother (by rw [← horder.1]; exact hnodup.1), hhere, if_pos horder.1.symm]
        rfl
      | cons y before =>
        rw [List.cons_append, List.cons.injEq] at horder
        rw [hmem before after horder.2, ← horder.1, List.countP_cons]
        split
        · simp only [Option.some.injEq]
          omega
        · simp
    · rw [List.mem_cons, not_or] at hx
      rw [placesOf, hother hx.2, hhere, if_neg hx.1]

namespace WellFormed

variable (wf : t.WellFormed)

include wf

theorem exists_of_mem_body {id : NodeId} (h : id ∈ t.preOrder root) : id.index < t.size :=
  wf.exists_of_mem_preOrder wf.root_exists h

private theorem places_spec (x : NodeId) :
    (∀ before after, t.preOrder root = before ++ x :: after →
      place? t.places x = some (before.countP t.isInstruction)) ∧
    (x ∉ t.preOrder root → place? t.places x = none) := by
  have hempty : (Array.replicate t.size (none : Option Nat)).size = t.size := Array.size_replicate
  obtain ⟨hmem, hother⟩ := place?_placesOf (wf.nodup_preOrder root)
    (fun _ => wf.exists_of_mem_body) 0 hempty x
  refine ⟨fun before after horder => ?_, fun hx => ?_⟩
  · rw [places, hmem before after horder, Nat.zero_add]
  · rw [places, hother hx, place?, Array.getD_eq_getD_getElem?, Array.getElem?_replicate]
    split <;> rfl

/-- The place of a node is the number of instructions in front of it. -/
theorem place?_eq {id : NodeId} {before after : List NodeId}
    (h : t.preOrder root = before ++ id :: after) :
    place? t.places id = some (before.countP t.isInstruction) :=
  (wf.places_spec id).1 before after h

/-- Only nodes of the body have a place. -/
theorem exists_of_place? {id : NodeId} {place : Nat} (h : place? t.places id = some place) :
    ∃ before after, t.preOrder root = before ++ id :: after ∧
      before.countP t.isInstruction = place := by
  by_cases hmem : id ∈ t.preOrder root
  · obtain ⟨before, after, horder⟩ := List.append_of_mem hmem
    rw [wf.place?_eq horder, Option.some.injEq] at h
    exact ⟨before, after, horder, h⟩
  · rw [(wf.places_spec id).2 hmem] at h
    exact absurd h (by simp)

theorem isInstruction_root : t.isInstruction root = false := isInstruction_of_blockKind? wf.root_kind

/-- The instructions of the body are those of the flat order. -/
theorem instructions_eq : t.instructions = (t.preOrder root).filter t.isInstruction := by
  rw [instructions, wf.descendants_eq, wf.preOrder_eq root,
    List.filter_cons_of_neg (by simp [wf.isInstruction_root])]

/-- At the place of a node stands the first instruction at or behind it. -/
theorem getElem?_instructions {before rest : List NodeId} (h : t.preOrder root = before ++ rest) :
    t.instructions[before.countP t.isInstruction]? = rest.find? t.isInstruction := by
  rw [wf.instructions_eq, h, getElem?_filter_append]

theorem exists_of_getElem?_instructions {k : Nat} {id : NodeId}
    (h : t.instructions[k]? = some id) :
    ∃ before after, t.preOrder root = before ++ id :: after ∧ t.isInstruction id = true ∧
      before.countP t.isInstruction = k := by
  rw [wf.instructions_eq] at h
  exact exists_append_of_getElem?_filter h

/-! ## Targets of labels -/

theorem nextInstructionUpTo_eq {limit : Nat} {top id : NodeId} {before after : List NodeId}
    (htop : t.parent? top = none) (h : t.preOrder top = before ++ id :: after)
    (hlimit : after.length ≤ limit) :
    t.nextInstructionUpTo limit id = after.find? t.isInstruction := by
  induction limit generalizing id before after with
  | zero =>
    obtain rfl := List.eq_nil_of_length_eq_zero (Nat.le_zero.mp hlimit)
    rfl
  | succ limit ih =>
    rw [nextInstructionUpTo, wf.nextInOrder?_eq_head? htop h]
    cases after with
    | nil => rfl
    | cons next after =>
      rw [List.head?_cons, List.find?_cons]
      dsimp only
      split
      case isTrue hnext => rw [hnext]
      case isFalse hnext =>
        rw [Bool.not_eq_true] at hnext
        have hsplit : t.preOrder top = (before ++ [id]) ++ next :: after := by rw [h]; simp
        rw [hnext, ih hsplit (Nat.le_of_succ_le_succ hlimit)]

/-- The next instruction is the first behind a node in the flat order of its tree of the forest. -/
theorem nextInstruction?_eq {top id : NodeId} {before after : List NodeId}
    (htop : t.parent? top = none) (h : t.preOrder top = before ++ id :: after) :
    t.nextInstruction? id = after.find? t.isInstruction := by
  have hlength := wf.length_preOrder_le top
  rw [h, List.length_append, List.length_cons] at hlength
  rw [nextInstruction?, wf.nextInstructionUpTo_eq htop h (by omega)]

/-- A label of the body leads to the instruction at its place. -/
theorem labelTarget?_eq {label : NodeId} {place : Nat} (hother : t.isInstruction label = false)
    (h : place? t.places label = some place) : t.labelTarget? label = t.instructions[place]? := by
  obtain ⟨before, after, horder, rfl⟩ := wf.exists_of_place? h
  rw [labelTarget?, wf.nextInstruction?_eq wf.root_parent horder, wf.getElem?_instructions horder,
    List.find?_cons_of_neg (by simp [hother])]

/-! ## Coverage -/

/-- What lies at and below a node stands together in every flat order that has the node. -/
theorem exists_preOrder_append {block id : NodeId} (h : id ∈ t.preOrder block) :
    ∃ before after, t.preOrder block = before ++ (t.preOrder id ++ after) := by
  induction block using wf.induction_below with
  | step block ih =>
    rw [wf.preOrder_eq, List.mem_cons, List.mem_flatMap] at h
    rcases h with rfl | ⟨child, hchild, hmem⟩
    · exact ⟨[], [], by simp⟩
    · obtain ⟨before, after, horder⟩ := ih child hchild hmem
      obtain ⟨left, right, hchildren⟩ := List.append_of_mem hchild
      refine ⟨block :: left.flatMap t.preOrder ++ before, after ++ right.flatMap t.preOrder, ?_⟩
      rw [wf.preOrder_eq block, hchildren, List.flatMap_append, List.flatMap_cons, horder]
      simp only [List.append_assoc, List.cons_append]

/-- A node of the body covers the places from its own on, one for each instruction at or below
it. -/
theorem coverage?_eq_some_iff {id : NodeId} {first last : Nat} :
    t.coverage? t.places id = some (first, last) ↔
      ∃ before after, t.preOrder root = before ++ (t.preOrder id ++ after) ∧
        before.countP t.isInstruction = first ∧
          last = first + (t.preOrder id).countP t.isInstruction := by
  unfold coverage?
  rw [Option.map_eq_some_iff]
  constructor
  · rintro ⟨place, hplace, hpair⟩
    obtain ⟨rfl, rfl⟩ := Prod.mk.inj hpair
    obtain ⟨before, after, horder, hcount⟩ := wf.exists_of_place? hplace
    have hmem : id ∈ t.preOrder root := by rw [horder]; simp
    obtain ⟨before', after', horder'⟩ := wf.exists_preOrder_append hmem
    refine ⟨before', after', horder', ?_, rfl⟩
    rw [wf.preOrder_eq id] at horder'
    have hplace' := wf.place?_eq horder'
    rw [hplace] at hplace'
    exact (Option.some.inj hplace').symm
  · rintro ⟨before, after, horder, hfirst, hlast⟩
    refine ⟨first, ?_, by rw [hlast]⟩
    rw [wf.preOrder_eq id] at horder
    rw [wf.place?_eq horder, hfirst]

/-- The instructions at and below a node of the body are those at the places that it covers. -/
theorem mem_preOrder_iff_covered {id : NodeId} {first last : Nat}
    (h : t.coverage? t.places id = some (first, last)) {k : Nat} {node : NodeId}
    (hnode : t.instructions[k]? = some node) :
    node ∈ t.preOrder id ↔ first ≤ k ∧ k < last := by
  obtain ⟨before, after, horder, rfl, rfl⟩ := (wf.coverage?_eq_some_iff).mp h
  obtain ⟨left, right, hsplit, hinstruction, rfl⟩ := wf.exists_of_getElem?_instructions hnode
  have hnodup := wf.nodup_preOrder root
  constructor
  · intro hmem
    obtain ⟨inner, outer, hinner⟩ := List.append_of_mem hmem
    have hsame : left = before ++ inner := by
      have horder' : t.preOrder root = (before ++ inner) ++ node :: (outer ++ after) := by
        rw [horder, hinner]
        simp
      rw [hsplit] at horder' hnodup
      exact (append_cons_inj_of_nodup hnodup horder').1
    rw [hsame, List.countP_append, hinner, List.countP_append, List.countP_cons_of_pos hinstruction]
    omega
  · rintro ⟨hfirst, hlast⟩
    have hmem : node ∈ before ++ (t.preOrder id ++ after) := by
      rw [← horder, hsplit]
      simp
    simp only [List.mem_append] at hmem
    rcases hmem with hmem | hmem | hmem
    · -- in front of the node there are too few instructions
      obtain ⟨inner, outer, hinner⟩ := List.append_of_mem hmem
      have horder' : t.preOrder root = inner ++ node :: (outer ++ (t.preOrder id ++ after)) := by
        rw [horder, hinner]
        simp
      rw [hsplit] at horder' hnodup
      have hsame := (append_cons_inj_of_nodup hnodup horder').1
      rw [hsame, hinner, List.countP_append, List.countP_cons_of_pos hinstruction] at hfirst
      omega
    · exact hmem
    · obtain ⟨inner, outer, hinner⟩ := List.append_of_mem hmem
      have horder' : t.preOrder root =
          (before ++ (t.preOrder id ++ inner)) ++ node :: outer := by
        rw [horder, hinner]
        simp
      rw [hsplit] at horder' hnodup
      have hsame := (append_cons_inj_of_nodup hnodup horder').1
      rw [hsame, List.countP_append, List.countP_append] at hlast
      omega

end WellFormed

end Tree

end MethodIL
