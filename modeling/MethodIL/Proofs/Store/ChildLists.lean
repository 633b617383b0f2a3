import Mathlib
import MethodIL.Proofs.Store.Refusal
import MethodIL.Proofs.Tree.BlockRemoval
set_option autoImplicit false

/-!
# Chains of siblings as lists

The children of a block are chained by their links.  Read forwards from the first child or backwards from
the last, a chain is the list that the tree keeps, and the work of an edit changes the chains as the edit
changes the lists: placing a node puts one item into one list, dissolving a block puts its list in its
place, and removing a node takes it and the labels that it lets go out of whatever lists they are in.
-/

namespace MethodIL

open Outcome

/-! ## What chains spell -/

namespace Store

/-- The chain of every block spells a list, forwards from its first child and backwards from its last. -/
def Lists (s : Store) (lists : NodeId → List NodeId) : Prop :=
  ∀ block, Follows s.next? (s.firstChild? block) (lists block) ∧
    Follows s.prev? (s.lastChild? block) (lists block).reverse

/-- The chains spell one list for each block. -/
theorem Lists.unique {s : Store} {lists lists' : NodeId → List NodeId} (h : s.Lists lists)
    (h' : s.Lists lists') : lists = lists' := by
  funext block
  exact (h block).1.unique (h' block).1

/-- The instruction that refers to a label. -/
def labelOwner? (s : Store) (id : NodeId) : Option NodeId :=
  match s.payload id with
  | some (.label owner) => owner
  | _ => none

end Store

namespace Tree

variable {t t' : Tree}

@[simp] theorem stored_labelOwner? (id : NodeId) : t.stored.labelOwner? id = t.labelOwner? id := by
  simp only [Store.labelOwner?, stored, payload?, labelOwner?]
  cases t.content? id with
  | none => rfl
  | some content => cases content <;> rfl

namespace WellFormed

variable (wf : t.WellFormed)

include wf

/-- The children up to one of them are chained backwards by their links to the previous sibling. -/
theorem follows_prev {block c : NodeId} {before after : List NodeId}
    (h : t.children block = before ++ c :: after) :
    Follows t.prev? (some c) (c :: before.reverse) := by
  induction before using List.reverseRecOn generalizing c after with
  | nil =>
    apply Follows.visit
    rw [wf.prev?_eq h]
    exact .done
  | append_singleton before b ih =>
    apply Follows.visit
    rw [wf.prev?_eq h, List.getLast?_concat, List.reverse_append]
    have hsplit : t.children block = before ++ b :: (c :: after) := by
      rw [h]
      simp
    exact ih hsplit

theorem stored_lists : t.stored.Lists t.children := by
  intro block
  refine ⟨wf.follows_children block, ?_⟩
  rw [stored_lastChild?, lastChild?]
  cases hlast : (t.children block).getLast? with
  | none =>
    rw [List.getLast?_eq_none_iff.mp hlast]
    exact .done
  | some last =>
    obtain ⟨before, hbefore⟩ := List.getLast?_eq_some_iff.mp hlast
    have hwalk := wf.follows_prev hbefore
    rw [hbefore, List.reverse_append]
    exact hwalk

end WellFormed

/-! ## Edits without an answer -/

/-- The work of an edit is done if the edit of the tree is, and leaves the changed tree as it is stored. -/
theorem Reachable.perform_eq_done_iff (h : t.Reachable) {edit : Edit} {outcome : Except EditFault Tree}
    (hrun : edit.run t = Edit.settle t (Edit.silently outcome)) {s : Store} :
    edit.perform t.stored = (.ok .done, s) ↔
      ∃ t', outcome = .ok t' ∧ s = t'.stored ∧ t'.WellFormed := by
  have wf' := (h.edited edit).wellFormed
  rw [h.perform_stored edit]
  rw [hrun] at wf' ⊢
  cases outcome with
  | error cause =>
    constructor
    · intro hdone
      exact absurd (Prod.mk.inj hdone).1 (by simp [Edit.settle, Edit.silently])
    · intro hchanged
      obtain ⟨t', ht', -⟩ := hchanged
      exact absurd ht' (by simp)
  | ok changed =>
    simp only [Edit.settle, Edit.silently] at wf' ⊢
    constructor
    · intro hdone
      exact ⟨changed, rfl, (Prod.mk.inj hdone).2.symm, wf'⟩
    · intro hchanged
      obtain ⟨t', ht', rfl, -⟩ := hchanged
      rw [Except.ok.inj ht']

/-! ## Placing -/

/-- The node can become a child of the block. -/
structure CanHold (t : Tree) (block node : NodeId) : Prop where
  isBlock : (t.blockKind? block).isSome = true
  exists_node : node.index < t.size
  ne_root : node ≠ root
  loose : t.parent? node = none
  ne_block : node ≠ block
  not_above : t.isBelow node block = false

theorem canHold_iff {block node : NodeId} {into : List NodeId → List NodeId} :
    t.CanHold block node ↔ ∃ t', t.place block node into = .ok t' := by
  simp only [place_eq_ok_iff, exists_and_left, exists_eq, and_true]
  constructor
  · intro h
    refine ⟨h.isBlock, h.exists_node, h.ne_root, h.loose, h.ne_block, ?_⟩
    have habove := h.not_above
    rwa [isBelow, List.contains_eq_mem, decide_eq_false_iff_not] at habove
  · intro h
    obtain ⟨hblock, hnode, hroot, hloose, hne, habove⟩ := h
    exact ⟨hblock, hnode, hroot, hloose, hne, by simpa [isBelow] using habove⟩

/-- The edit places a node among the children of a block, if it can be placed there, so that the given
list comes about, and touches no other list and nothing below the node. -/
structure PlacesInto (t : Tree) (edit : Edit) (block node : NodeId) (items : List NodeId) : Prop where
  done_iff : (∃ s, edit.perform t.stored = (.ok .done, s)) ↔ t.CanHold block node
  lists : ∀ s, edit.perform t.stored = (.ok .done, s) →
    s.Lists (Function.update t.children block items)
  intact : ∀ s, edit.perform t.stored = (.ok .done, s) →
    s.descendants node = t.descendants node ∧
      (s.firstChild? node = t.firstChild? node ∧ s.lastChild? node = t.lastChild? node) ∧
      ∀ x, t.isBelow node x = true → s.links x = t.links x

/-- What lies below a node that is placed elsewhere keeps its links. -/
theorem WellFormed.attach_intact (wf : t.WellFormed) {block node : NodeId}
    {into : List NodeId → List NodeId} (h : t.CanHold block node) :
    (∀ x ∈ t.preOrder node, (t.attach block node into).children x = t.children x) ∧
      ∀ x, t.isBelow node x = true → (t.attach block node into).links x = t.links x := by
  have hchildren : ∀ x ∈ t.preOrder node, (t.attach block node into).children x = t.children x := by
    intro x hx
    rw [children_attach h.isBlock, if_neg]
    intro heq
    rw [heq, wf.mem_preOrder_iff_isBelow] at hx
    cases hx with
    | inl hself => exact h.ne_block hself.symm
    | inr hbelow =>
      rw [h.not_above] at hbelow
      exact absurd hbelow (by simp)
  refine ⟨hchildren, fun x hbelow => ?_⟩
  have hx : x ∈ t.preOrder node := wf.mem_preOrder_iff_isBelow.mpr (Or.inr hbelow)
  have hself : t.isBelow node node = false := by
    rw [← Bool.not_eq_true, isBelow, List.contains_iff_mem]
    exact fun habove => Nat.lt_irrefl _ (wf.depth_lt_of_mem_ancestors habove)
  have hparent : (t.attach block node into).parent? x = t.parent? x := by
    rw [parent?_attach h.exists_node, if_neg]
    intro heq
    rw [heq, hself] at hbelow
    exact absurd hbelow (by simp)
  have hsiblings : (t.attach block node into).siblings x = t.siblings x := by
    rw [siblings, siblings, hparent]
    cases hp : t.parent? x with
    | none => rfl
    | some p =>
      apply hchildren
      rw [isBelow, List.contains_iff_mem, wf.ancestors_of_parent hp, List.mem_cons] at hbelow
      exact wf.mem_preOrder_iff.mpr (hbelow.imp_left Eq.symm)
  simp only [links, prev?, next?, firstChild?, lastChild?, hparent, hsiblings, hchildren x hx]

theorem Reachable.placesInto (h : t.Reachable) {edit : Edit} {block node : NodeId}
    {into : List NodeId → List NodeId}
    (hrun : edit.run t = Edit.settle t (Edit.silently (t.place block node into))) :
    t.PlacesInto edit block node (into (t.children block)) := by
  have wf := h.wellFormed
  constructor
  case done_iff =>
    rw [canHold_iff]
    constructor
    · intro hdone
      obtain ⟨s, hs⟩ := hdone
      obtain ⟨t', ht', -⟩ := (h.perform_eq_done_iff hrun).mp hs
      exact ⟨t', ht'⟩
    · intro hplaced
      obtain ⟨t', ht'⟩ := hplaced
      have hreached : (edit.run t).2 = t' := by rw [hrun, ht']; rfl
      exact ⟨t'.stored, (h.perform_eq_done_iff hrun).mpr
        ⟨t', ht', rfl, hreached ▸ (h.edited edit).wellFormed⟩⟩
  case lists =>
    intro s hs
    obtain ⟨t', ht', rfl, wf'⟩ := (h.perform_eq_done_iff hrun).mp hs
    obtain ⟨hblock, -, -, -, -, -, rfl⟩ := place_eq_ok_iff.mp ht'
    have hlists : Function.update t.children block (into (t.children block)) =
        (t.attach block node into).children := by
      funext x
      rw [children_attach hblock, Function.update_apply]
    rw [hlists]
    exact wf'.stored_lists
  case intact =>
    intro s hs
    obtain ⟨t', ht', rfl, wf'⟩ := (h.perform_eq_done_iff hrun).mp hs
    have hcan : t.CanHold block node := canHold_iff.mpr ⟨t', ht'⟩
    obtain ⟨-, -, -, -, -, -, rfl⟩ := place_eq_ok_iff.mp ht'
    obtain ⟨hchildren, hlinks⟩ := wf.attach_intact hcan
    have hnode := hchildren node (wf.self_mem_preOrder node)
    refine ⟨?_, ⟨?_, ?_⟩, hlinks⟩
    · rw [wf'.stored_descendants, descendants, wf.preOrder_congr wf' hchildren, descendants]
    · rw [stored_firstChild?, firstChild?, hnode, firstChild?]
    · rw [stored_lastChild?, lastChild?, hnode, lastChild?]

/-! ## Dissolving -/

theorem Reachable.lists_ungroup (h : t.Reachable) {block : NodeId} {s : Store}
    (hdone : (Edit.ungroup block).perform t.stored = (.ok .done, s)) :
    ∃ parent before after, parent ≠ block ∧ t.children parent = before ++ block :: after ∧
      s.Lists (Function.update (Function.update t.children parent
        (before ++ t.children block ++ after)) block []) := by
  have wf := h.wellFormed
  obtain ⟨t', ht', rfl, wf'⟩ := (h.perform_eq_done_iff rfl).mp hdone
  obtain ⟨-, kind, parent, hkind, -, hparent, rfl⟩ := ungroup_eq_ok_iff.mp ht'
  have hblock : (t.blockKind? block).isSome = true := by rw [hkind]; rfl
  obtain ⟨before, after, hitems⟩ := List.append_of_mem ((wf.parent_iff block parent).mp hparent)
  have hne : parent ≠ block := Ne.symm (wf.ne_of_parent hparent)
  refine ⟨parent, before, after, hne, hitems, ?_⟩
  have hlists : Function.update (Function.update t.children parent
      (before ++ t.children block ++ after)) block [] = (t.splice parent block).children := by
    funext x
    rw [wf.children_splice_of hparent hblock hitems]
    simp only [Function.update_apply]
    by_cases hx : x = block
    · rw [if_pos hx, if_neg (fun heq => hne (heq.symm.trans hx)), if_pos hx]
    · rw [if_neg hx, if_neg hx]
  rw [hlists]
  exact wf'.stored_lists

/-! ## Removing -/

/-- A node that is removed is cut off when some instructions at or below it have lost their labels. -/
theorem Owned.exists_drops_of_remove (h : t.Owned) (wf : t.WellFormed) {node : NodeId}
    (hremove : t.remove node = .ok t') : ∃ holders released, t.Drops holders released ∧
      t' = released.detach node ∧ ∀ holder ∈ holders, holder = node ∨ t.isBelow node holder = true := by
  obtain ⟨-, -, ⟨-, rfl⟩ | ⟨-, rfl⟩ | ⟨kind, released, -, -, hreleased, rfl⟩⟩ :=
    remove_eq_ok_iff.mp hremove
  · refine ⟨[], t, .refl t, rfl, fun holder hholder => ?_⟩
    exact absurd hholder List.not_mem_nil
  · refine ⟨[node], t.unbindLabels node, h.drops_unbindLabels wf node, rfl, fun holder hholder => ?_⟩
    exact Or.inl (List.mem_singleton.mp hholder)
  · obtain ⟨-, hfold⟩ := releaseBelow_eq_ok_iff.mp hreleased
    have hnodup : (t.descendants node).Nodup := (wf.nodup_preOrder node).tail
    refine ⟨t.outgoing node, released, ?_, rfl, fun holder hholder => ?_⟩
    · rw [hfold]
      exact (h.drops_foldl_dropOutside wf node hnodup).1
    · exact Or.inr (wf.mem_descendants_iff.mp (List.mem_of_mem_filter hholder))

/-- The label had an owner and has none any more. -/
def unbinds (t : Tree) (s : Store) (label : NodeId) : Bool :=
  (t.labelOwner? label).isSome && (s.labelOwner? label).isNone

theorem ReachableBy.lists_remove (h : t.ReachableBy Edit.ListsOnce) {node : NodeId} {s : Store}
    (hdone : (Edit.remove node).perform t.stored = (.ok .done, s)) :
    s.Lists (fun block => (t.children block).filter fun x => x ≠ node && !t.unbinds s x) ∧
      ∀ label, t.unbinds s label = true → t.isLabel label = true ∧
        ∃ owner, t.labelOwner? label = some owner ∧ (owner = node ∨ t.isBelow node owner = true) := by
  have wf := h.reachable.wellFormed
  obtain ⟨t', ht', rfl, wf'⟩ := (h.reachable.perform_eq_done_iff rfl).mp hdone
  obtain ⟨holders, released, hdrops, rfl, hholders⟩ := h.owned.exists_drops_of_remove wf ht'
  have hunbinds : ∀ x, t.unbinds (released.detach node).stored x = t.isReleased holders x := by
    intro x
    rw [unbinds, stored_labelOwner?, labelOwner?_of_payload? (payload?_detach x), hdrops.owner]
    cases hreleased : t.isReleased holders x with
    | true =>
      obtain ⟨owner, -, howner⟩ := isReleased_iff.mp hreleased
      rw [howner, if_pos rfl]
      rfl
    | false =>
      rw [if_neg Bool.false_ne_true]
      cases t.labelOwner? x <;> rfl
  constructor
  · have hlists : (fun block => (t.children block).filter fun x =>
        x ≠ node && !t.unbinds (released.detach node).stored x) = (released.detach node).children := by
      funext block
      have wf'' := hdrops.wellFormed wf
      rw [wf''.children_detach, (wf''.nodup block).erase_eq_filter, hdrops.children,
        List.filter_filter]
      apply List.filter_congr
      intro x _
      rw [hunbinds]
      by_cases hx : x = node <;> simp [hx]
    rw [hlists]
    exact wf'.stored_lists
  · intro label hlabel
    rw [hunbinds] at hlabel
    obtain ⟨owner, howner, heq⟩ := isReleased_iff.mp hlabel
    exact ⟨isLabel_of_isReleased hlabel, owner, heq, hholders owner howner⟩

/-! ## All edits of lists -/

/-- The chains of a tree are lists, and the edits that place, dissolve and remove nodes are edits of these
lists. -/
structure ChainsAreLists (t : Tree) : Prop where
  chained : t.stored.Lists t.children
  append : ∀ block node, t.PlacesInto (.append block node) block node (t.children block ++ [node])
  prepend : ∀ block node, t.PlacesInto (.prepend block node) block node (node :: t.children block)
  insertBefore : ∀ anchor node block before after,
    t.children block = before ++ anchor :: after →
      t.PlacesInto (.insertBefore anchor node) block node (before ++ node :: anchor :: after)
  insertAfter : ∀ anchor node block before after,
    t.children block = before ++ anchor :: after →
      t.PlacesInto (.insertAfter anchor node) block node (before ++ anchor :: node :: after)
  /-- there is no place beside a node that no block holds -/
  loose : ∀ anchor node s, t.parent? anchor = none →
    (Edit.insertBefore anchor node).perform t.stored ≠ (.ok .done, s) ∧
      (Edit.insertAfter anchor node).perform t.stored ≠ (.ok .done, s)
  ungroup : ∀ block s, (Edit.ungroup block).perform t.stored = (.ok .done, s) →
    ∃ parent before after, parent ≠ block ∧ t.children parent = before ++ block :: after ∧
      s.Lists (Function.update (Function.update t.children parent
        (before ++ t.children block ++ after)) block [])
  /-- besides the node, only labels of instructions at or below it leave their lists -/
  remove : ∀ node s, (Edit.remove node).perform t.stored = (.ok .done, s) →
    s.Lists (fun block => (t.children block).filter fun x => x ≠ node && !t.unbinds s x) ∧
      ∀ label, t.unbinds s label = true → t.isLabel label = true ∧
        ∃ owner, t.labelOwner? label = some owner ∧ (owner = node ∨ t.isBelow node owner = true)

theorem ReachableBy.chainsAreLists (h : t.ReachableBy Edit.ListsOnce) : t.ChainsAreLists := by
  have wf := h.reachable.wellFormed
  have hbeside : ∀ {block anchor before after}, t.children block = before ++ anchor :: after →
      t.parent? anchor = some block := by
    intro block anchor before after hitems
    rw [wf.parent_iff, hitems]
    exact List.mem_append_right _ List.mem_cons_self
  constructor
  case chained => exact wf.stored_lists
  case append =>
    intro block node
    have hrun : (Edit.append block node).run t = Edit.settle t
        (Edit.silently (t.place block node fun items => items ++ [node])) := rfl
    exact h.reachable.placesInto hrun
  case prepend =>
    intro block node
    have hrun : (Edit.prepend block node).run t = Edit.settle t
        (Edit.silently (t.place block node fun items => node :: items)) := rfl
    exact h.reachable.placesInto hrun
  case insertBefore =>
    intro anchor node block before after hitems
    have hrun : (Edit.insertBefore anchor node).run t = Edit.settle t
        (Edit.silently (t.place block node (MethodIL.insertBefore anchor node))) := by
      rw [Edit.run, Tree.insertBefore, hbeside hitems]
    rw [← insertBefore_append (wf.notMem_before hitems), ← hitems]
    exact h.reachable.placesInto hrun
  case insertAfter =>
    intro anchor node block before after hitems
    have hrun : (Edit.insertAfter anchor node).run t = Edit.settle t
        (Edit.silently (t.place block node (MethodIL.insertAfter anchor node))) := by
      rw [Edit.run, Tree.insertAfter, hbeside hitems]
    have hplaced : MethodIL.insertAfter anchor node (before ++ anchor :: after) =
        before ++ anchor :: node :: after := by
      rw [insertAfter_append (wf.notMem_before hitems), List.append_assoc, List.singleton_append]
    rw [← hplaced, ← hitems]
    exact h.reachable.placesInto hrun
  case loose =>
    intro anchor node s hloose
    have hnone : t.insertBefore anchor node = .error (.noParent anchor) ∧
        t.insertAfter anchor node = .error (.noParent anchor) := by
      rw [Tree.insertBefore, Tree.insertAfter, hloose]
      exact ⟨rfl, rfl⟩
    constructor
    · intro hdone
      obtain ⟨t', ht', -⟩ := (h.reachable.perform_eq_done_iff rfl).mp hdone
      exact absurd (hnone.1.symm.trans ht') (by simp)
    · intro hdone
      obtain ⟨t', ht', -⟩ := (h.reachable.perform_eq_done_iff rfl).mp hdone
      exact absurd (hnone.2.symm.trans ht') (by simp)
  case ungroup => exact fun block s => h.reachable.lists_ungroup
  case remove => exact fun node s => h.lists_remove

/-- In `mixedBorders`, a removed switch takes its labels out of two lists, and leaves a node that the list
of another block can hold. -/
theorem mixedBorders_chainsAreLists : ∃ jump switch, Opcode.find? .single 0x2B = some jump ∧
    Opcode.find? .single 0x45 = some switch ∧
    (mixedBorders jump switch).ReachableBy Edit.ListsOnce ∧
    (mixedBorders jump switch).ChainsAreLists ∧
    (mixedBorders jump switch).children ⟨1⟩ = [⟨2⟩, ⟨5⟩, ⟨4⟩, ⟨6⟩] ∧
    ((Edit.remove ⟨5⟩).run (mixedBorders jump switch)).2.children ⟨1⟩ = [⟨4⟩, ⟨6⟩] ∧
    ((Edit.remove ⟨5⟩).run (mixedBorders jump switch)).2.children root = [⟨1⟩, ⟨7⟩, ⟨9⟩] ∧
    ((mixedBorders jump switch).runAll [.remove ⟨5⟩, .insertAfter ⟨8⟩ ⟨5⟩]).children ⟨7⟩ =
      [⟨8⟩, ⟨5⟩] := by
  have hrun : ((Opcode.find? .single 0x2B).any fun jump =>
      (Opcode.find? .single 0x45).any fun switch =>
        (mixedBorders jump switch).children ⟨1⟩ == [⟨2⟩, ⟨5⟩, ⟨4⟩, ⟨6⟩] &&
        (((Edit.remove ⟨5⟩).run (mixedBorders jump switch)).2.children ⟨1⟩ == [⟨4⟩, ⟨6⟩] &&
        (((Edit.remove ⟨5⟩).run (mixedBorders jump switch)).2.children root == [⟨1⟩, ⟨7⟩, ⟨9⟩] &&
        ((mixedBorders jump switch).runAll [.remove ⟨5⟩, .insertAfter ⟨8⟩ ⟨5⟩]).children ⟨7⟩ ==
          [⟨8⟩, ⟨5⟩]))) = true := by
    decide +kernel
  simp only [Option.any_eq_true, Bool.and_eq_true, beq_iff_eq] at hrun
  obtain ⟨jump, hjump, switch, hswitch, hviews⟩ := hrun
  have hreachable := mixedBorders_reachable jump switch
  exact ⟨jump, switch, hjump, hswitch, hreachable, hreachable.chainsAreLists, hviews⟩

end Tree

end MethodIL
