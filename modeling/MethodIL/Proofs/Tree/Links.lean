import Mathlib
import MethodIL.Proofs.Tree.Linkage
import MethodIL.Proofs.Tree.Reachable
set_option autoImplicit false

/-!
# The links of the nodes

A tree lists the children of each block and computes the links to neighbours and to first and last
children from the lists.  This module compares them with links that are stored.  Whenever a step moves
nodes, the computed links change as stored ones are rewritten, by linking, unlinking, dissolving and
enclosing.  The links of a new tree lead nowhere, and those of a well-formed one fit together.
-/

namespace MethodIL

namespace Tree

variable {t t' : Tree}

/-- The links that a tree computes. -/
def links (t : Tree) : Linkage :=
  fun id => ⟨t.parent? id, t.prev? id, t.next? id, t.firstChild? id, t.lastChild? id⟩

theorem links_congr (hparent : ∀ x, t'.parent? x = t.parent? x)
    (hchildren : ∀ x, t'.children x = t.children x) : t'.links = t.links := by
  have hsiblings : ∀ x, t'.siblings x = t.siblings x := fun x => by
    simp only [siblings, hparent, hchildren]
  funext x
  simp only [links, prev?, next?, firstChild?, lastChild?, hparent, hchildren, hsiblings]

theorem next?_of_parent {x p : NodeId} (h : t.parent? x = some p) :
    t.next? x = following? x (t.children p) := by
  rw [next?, siblings, h]

theorem prev?_of_parent {x p : NodeId} (h : t.parent? x = some p) :
    t.prev? x = preceding? x (t.children p) := by
  rw [prev?, siblings, h]

theorem prev?_of_no_parent {id : NodeId} (h : t.parent? id = none) : t.prev? id = none := by
  rw [prev?, siblings, h]
  rfl

/-! ## Stretches of children -/

section Stretch

variable {parent x : NodeId} {before middle after : List NodeId}

theorem WellFormed.next?_inside (wf : t.WellFormed)
    (hitems : t.children parent = before ++ middle ++ after) (hx : x ∈ middle) :
    t.next? x = if middle.getLast? = some x then after.head? else following? x middle := by
  have hparent : t.parent? x = some parent := (wf.parent_iff x parent).mpr (by simp [hitems, hx])
  rw [next?_of_parent hparent, hitems, following?_inside (hitems ▸ wf.nodup parent) hx]

theorem WellFormed.prev?_inside (wf : t.WellFormed)
    (hitems : t.children parent = before ++ middle ++ after) (hx : x ∈ middle) :
    t.prev? x = if middle.head? = some x then before.getLast? else preceding? x middle := by
  have hparent : t.parent? x = some parent := (wf.parent_iff x parent).mpr (by simp [hitems, hx])
  rw [prev?_of_parent hparent, hitems, preceding?_inside (hitems ▸ wf.nodup parent) hx]

end Stretch

/-- A stretch of the children of a block is replaced by other nodes, and all nodes beside the two
stretches stay where they are. -/
structure Replaces (t t' : Tree) (parent : NodeId) (before old new after : List NodeId) : Prop where
  wf : t.WellFormed
  wf' : t'.WellFormed
  items : t.children parent = before ++ old ++ after
  items' : t'.children parent = before ++ new ++ after
  held : ∀ x, x ∉ old → x ∉ new → t'.parent? x = t.parent? x
  listed : ∀ x p, x ∉ old → x ∉ new → t.parent? x = some p → p ≠ parent →
    t'.children p = t.children p

namespace Replaces

variable {parent x : NodeId} {before old new after : List NodeId}
  (h : t.Replaces t' parent before old new after)

include h

/-- The other nodes keep their next siblings but for the one in front of the stretch. -/
theorem next?_beside (hold : x ∉ old) (hnew : x ∉ new) :
    t'.next? x = if before.getLast? = some x then (new ++ after).head? else t.next? x := by
  have hbefore : before.getLast? = some x → t.parent? x = some parent := fun hlast => by
    rw [h.wf.parent_iff, h.items]
    simp [List.mem_of_getLast? hlast]
  have hheld := h.held x hold hnew
  cases hp : t.parent? x with
  | none =>
    rw [if_neg fun hlast => absurd (hp.symm.trans (hbefore hlast)) (by simp),
      WellFormed.next?_of_no_parent hp, WellFormed.next?_of_no_parent (hheld.trans hp)]
  | some p =>
    rw [next?_of_parent hp, next?_of_parent (hheld.trans hp)]
    by_cases hpp : p = parent
    · rw [hpp, h.items, h.items', following?_beside (h.items ▸ h.wf.nodup parent) hold,
        following?_beside (h.items' ▸ h.wf'.nodup parent) hnew]
      split <;> rfl
    · rw [h.listed x p hold hnew hp hpp, if_neg fun hlast =>
        hpp (Option.some.inj (hp.symm.trans (hbefore hlast)))]

/-- The other nodes keep their previous siblings but for the one behind the stretch. -/
theorem prev?_beside (hold : x ∉ old) (hnew : x ∉ new) :
    t'.prev? x = if after.head? = some x then (before ++ new).getLast? else t.prev? x := by
  have hafter : after.head? = some x → t.parent? x = some parent := fun hhead => by
    rw [h.wf.parent_iff, h.items]
    simp [List.mem_of_head? hhead]
  have hheld := h.held x hold hnew
  cases hp : t.parent? x with
  | none =>
    rw [if_neg fun hhead => absurd (hp.symm.trans (hafter hhead)) (by simp),
      prev?_of_no_parent hp, prev?_of_no_parent (hheld.trans hp)]
  | some p =>
    rw [prev?_of_parent hp, prev?_of_parent (hheld.trans hp)]
    by_cases hpp : p = parent
    · rw [hpp, h.items, h.items', preceding?_beside (h.items ▸ h.wf.nodup parent) hold,
        preceding?_beside (h.items' ▸ h.wf'.nodup parent) hnew]
      split <;> rfl
    · rw [h.listed x p hold hnew hp hpp, if_neg fun hhead =>
        hpp (Option.some.inj (hp.symm.trans (hafter hhead)))]

/-- A block starts with the new nodes if nothing stands in front of them. -/
theorem firstChild? {first : NodeId} (hfirst : new.head? = some first) :
    t'.firstChild? parent = if before.getLast? = none then some first else t.firstChild? parent := by
  rw [Tree.firstChild?, Tree.firstChild?, h.items, h.items',
    head?_replace (List.ne_nil_of_mem (List.mem_of_head? hfirst)), hfirst]

/-- A block ends with the new nodes if nothing stands behind them. -/
theorem lastChild? {last : NodeId} (hlast : new.getLast? = some last) :
    t'.lastChild? parent = if after.head? = none then some last else t.lastChild? parent := by
  rw [Tree.lastChild?, Tree.lastChild?, h.items, h.items',
    getLast?_replace (List.ne_nil_of_mem (List.mem_of_getLast? hlast)), hlast]

end Replaces

/-! ## Attaching and detaching -/

/-- To attach a node is to link it between the children around its place. -/
theorem WellFormed.links_attach (wf : t.WellFormed) {parent node : NodeId}
    {place : List NodeId → List NodeId} (wf' : (t.attach parent node place).WellFormed)
    (hnode : node.index < t.size) (hparent : (t.blockKind? parent).isSome) {before after : List NodeId}
    (hitems : t.children parent = before ++ after)
    (hplaced : place (t.children parent) = before ++ node :: after) :
    (t.attach parent node place).links =
      t.links.link parent before.getLast? after.head? node := by
  have hheld : ∀ x, (t.attach parent node place).parent? x =
      if x = node then some parent else t.parent? x := parent?_attach hnode
  have hlisted : ∀ x, (t.attach parent node place).children x =
      if x = parent then before ++ node :: after else t.children x := fun x => by
    rw [children_attach hparent, hplaced]
  generalize t.attach parent node place = t' at *
  have hholds : t'.children parent = before ++ node :: after := by rw [hlisted, if_pos rfl]
  obtain ⟨hbefore, hafter⟩ := wf'.notMem_around hholds
  have hother : ∀ x, x ≠ parent → t'.children x = t.children x := fun x hx => by
    rw [hlisted, if_neg hx]
  have hreplaces : t.Replaces t' parent before [] [node] after :=
    ⟨wf, wf', by rw [hitems, List.append_nil], by rw [hholds, List.append_cons],
      fun x _ hx => by rw [hheld, if_neg (List.ne_of_not_mem_cons hx)], fun _ p _ _ _ => hother p⟩
  ext x : 1
  · rw [Linkage.link_parent]
    exact hheld x
  · rw [Linkage.link_prev]
    change t'.prev? x = if after.head? = some x then some node
      else if x = node then before.getLast? else t.prev? x
    by_cases hx : x = node
    · rw [hx, if_neg fun hhead => hafter (List.mem_of_head? hhead), if_pos rfl, wf'.prev?_eq hholds]
    · rw [if_neg hx, hreplaces.prev?_beside List.not_mem_nil (by simpa using hx),
        List.getLast?_concat]
  · rw [Linkage.link_next]
    change t'.next? x = if before.getLast? = some x then some node
      else if x = node then after.head? else t.next? x
    by_cases hx : x = node
    · rw [hx, if_neg fun hlast => hbefore (List.mem_of_getLast? hlast), if_pos rfl,
        wf'.next?_eq hholds]
    · rw [if_neg hx, hreplaces.next?_beside List.not_mem_nil (by simpa using hx)]
      rfl
  · rw [Linkage.link_first]
    change t'.firstChild? x = if before.getLast? = none ∧ x = parent then some node
      else t.firstChild? x
    by_cases hx : x = parent
    · simp only [hx, hreplaces.firstChild? rfl, and_true]
    · rw [if_neg fun h => hx h.2, firstChild?, firstChild?, hother x hx]
  · rw [Linkage.link_last]
    change t'.lastChild? x = if after.head? = none ∧ x = parent then some node else t.lastChild? x
    by_cases hx : x = parent
    · simp only [hx, hreplaces.lastChild? List.getLast?_singleton, and_true]
    · rw [if_neg fun h => hx h.2, lastChild?, lastChild?, hother x hx]

/-- Between two children that stand next to each other, and at either end of the children, there is a
gap. -/
theorem WellFormed.gap (wf : t.WellFormed) {parent : NodeId} {before after : List NodeId}
    (hitems : t.children parent = before ++ after) :
    t.links.Gap parent before.getLast? after.head? where
  on := by
    cases hlast : before.getLast? with
    | none =>
      change (t.children parent).head? = after.head?
      rw [hitems, List.getLast?_eq_none_iff.mp hlast, List.nil_append]
    | some prev =>
      obtain ⟨others, rfl⟩ := List.getLast?_eq_some_iff.mp hlast
      exact wf.next?_eq (by rw [hitems, List.append_assoc, List.singleton_append])
  back := by
    cases after with
    | nil =>
      change (t.children parent).getLast? = before.getLast?
      rw [hitems, List.append_nil]
    | cons next others => exact wf.prev?_eq hitems
  held := by
    intro neighbour hneighbour
    refine (wf.parent_iff neighbour parent).mpr ?_
    rw [hitems]
    rcases hneighbour with hlast | hhead
    · exact List.mem_append_left _ (List.mem_of_getLast? hlast)
    · exact List.mem_append_right _ (List.mem_of_head? hhead)

/-- To detach a node is to unlink it. -/
theorem WellFormed.links_detach (wf : t.WellFormed) (node : NodeId) :
    (t.detach node).links = t.links.unlink node := by
  cases hparent : t.parent? node with
  | none =>
    have hsame : t.detach node = t := by rw [Tree.detach, hparent]
    have hcut : t.links.unlink node = t.links.write node
        ({ · with parent := none, prev := none, next := none }) := by
      rw [Linkage.unlink, links, hparent]
    rw [hsame, hcut]
    funext x
    rw [Linkage.write_apply]
    split
    case isTrue hx =>
      rw [hx, links, hparent, prev?_of_no_parent hparent, WellFormed.next?_of_no_parent hparent]
    case isFalse => rfl
  | some parent =>
    obtain ⟨before, after, hitems⟩ := List.append_of_mem ((wf.parent_iff node parent).mp hparent)
    have hleft : (t.detach node).children parent = before ++ after := by
      rw [wf.children_detach, hitems, List.erase_append_right _ (wf.notMem_before hitems),
        List.erase_cons_head]
    have hnode : node.index < (t.detach node).size := by
      rw [size_detach]
      exact (wf.exists_of_parent hparent).1
    have hfree : (t.detach node).parent? node = none := by rw [parent?_detach, if_pos rfl]
    have hblock : ((t.detach node).blockKind? parent).isSome := by
      obtain ⟨kind, hkind⟩ := exists_kind_of_mem_children ((wf.parent_iff node parent).mp hparent)
      rw [blockKind?_of_payload? (payload?_detach parent), hkind]
      rfl
    -- attaching the node again gives back the links of the tree
    have hparents : ∀ x, ((t.detach node).attach parent node fun _ => before ++ node :: after).parent? x =
        t.parent? x := fun x => by
      rw [parent?_attach hnode, parent?_detach]
      split
      case isTrue hx => rw [hx, hparent]
      case isFalse => rfl
    have hchildren : ∀ x,
        ((t.detach node).attach parent node fun _ => before ++ node :: after).children x =
          t.children x := fun x => by
      rw [children_attach hblock, wf.children_detach]
      split
      case isTrue hx => rw [hx, hitems]
      case isFalse hx =>
        refine List.erase_of_not_mem fun hin => hx ?_
        rw [← wf.parent_iff, hparent] at hin
        exact (Option.some.inj hin).symm
    have wf' : ((t.detach node).attach parent node fun _ => before ++ node :: after).WellFormed :=
      wf.of_links (by rw [blockKind?_of_payload? ((payload?_attach root).trans (payload?_detach root)),
        wf.root_kind]) hparents hchildren
    have hagain := wf.detach.links_attach wf' hnode hblock hleft rfl
    rw [links_congr hparents hchildren] at hagain
    rw [hagain]
    exact (Linkage.unlink_link (wf.detach.gap hleft) hfree (prev?_of_no_parent hfree)
      (WellFormed.next?_of_no_parent hfree)).symm

/-! ## Splicing -/

section Splice

variable {parent block : NodeId}

/-- To splice a block without children is to unlink it. -/
theorem WellFormed.links_splice_nil (wf : t.WellFormed) (h : t.parent? block = some parent)
    (hblock : (t.blockKind? block).isSome) (hempty : t.children block = []) :
    (t.splice parent block).links = t.links.unlink block := by
  rw [← wf.links_detach]
  refine links_congr (fun x => ?_) fun x => ?_
  · rw [wf.parent?_splice h, parent?_detach, if_neg (c := t.parent? x = some block)]
    rw [wf.parent_iff, hempty]
    exact List.not_mem_nil
  · obtain ⟨before, after, hitems⟩ := List.append_of_mem ((wf.parent_iff block parent).mp h)
    rw [wf.children_splice_of h hblock hitems, wf.children_detach, hempty, List.append_nil]
    split
    case isTrue hx =>
      rw [hx, hitems, List.erase_append_right _ (wf.notMem_before hitems), List.erase_cons_head]
    case isFalse hx =>
      have hout : block ∉ t.children x := fun hin => hx (by
        rw [← wf.parent_iff, h] at hin
        exact (Option.some.inj hin).symm)
      rw [List.erase_of_not_mem hout]
      split
      case isTrue hblock => rw [hblock, hempty]
      case isFalse => rfl

/-- A block that is spliced is replaced by its children. -/
theorem WellFormed.replaces_splice (wf : t.WellFormed) (h : t.parent? block = some parent)
    (hblock : (t.blockKind? block).isSome) {before after : List NodeId}
    (hitems : t.children parent = before ++ block :: after) :
    t.Replaces (t.splice parent block) parent before [block] (t.children block) after where
  wf := wf
  wf' := wf.splice h hblock
  items := by rw [hitems, List.append_cons]
  items' := by rw [wf.children_splice_of h hblock hitems, if_pos rfl]
  held x hold hnew := by
    rw [← wf.parent_iff] at hnew
    rw [wf.parent?_splice h, if_neg (List.ne_of_not_mem_cons hold), if_neg hnew]
  listed x p _ hnew hxp hp := by
    rw [wf.children_splice_of h hblock hitems, if_neg hp, if_neg]
    rintro rfl
    exact hnew ((wf.parent_iff x p).mp hxp)

/-- To splice a block with children is to link them in its place. -/
theorem WellFormed.links_splice_some (wf : t.WellFormed) (h : t.parent? block = some parent)
    (hblock : (t.blockKind? block).isSome) {first last : NodeId}
    (hfirst : t.firstChild? block = some first) (hlast : t.lastChild? block = some last) :
    (t.splice parent block).links = t.links.dissolve block parent (t.children block) := by
  obtain ⟨before, after, hitems⟩ := List.append_of_mem ((wf.parent_iff block parent).mp h)
  have hreplaces := wf.replaces_splice h hblock hitems
  have hheld := wf.parent?_splice h
  have hlisted := wf.children_splice_of h hblock hitems
  have hprev := wf.prev?_eq hitems
  have hnext := wf.next?_eq hitems
  have hne : block ≠ parent := wf.ne_of_parent h
  generalize t.splice parent block = t' at *
  ext x : 1
  · rw [Linkage.dissolve_parent x hfirst hlast]
    change t'.parent? x = if x = block then none
      else if x ∈ t.children block then some parent else t.parent? x
    simp only [hheld, wf.parent_iff]
  · rw [Linkage.dissolve_prev x hfirst hlast]
    change t'.prev? x = if x = block then none else if t.next? block = some x then some last
      else if x = first then t.prev? block else t.prev? x
    rw [hnext, hprev]
    by_cases hx : x = block
    · rw [if_pos hx, prev?_of_no_parent (by rw [hheld, if_pos hx])]
    rw [if_neg hx]
    by_cases hin : x ∈ t.children block
    · have hafter := (hreplaces.wf'.notMem_beside hreplaces.items' hin).2
      rw [if_neg fun hhead => hafter (List.mem_of_head? hhead),
        hreplaces.wf'.prev?_inside hreplaces.items' hin,
        prev?_of_parent ((wf.parent_iff x block).mpr hin), ← firstChild?, hfirst]
      simp only [Option.some.injEq, eq_comm]
    · rw [hreplaces.prev?_beside (by simpa using hx) hin, List.getLast?_append, ← lastChild?, hlast,
        if_neg (c := x = first) fun heq => hin (heq ▸ List.mem_of_head? hfirst)]
      rfl
  · rw [Linkage.dissolve_next x hfirst hlast]
    change t'.next? x = if x = block then none else if t.prev? block = some x then some first
      else if x = last then t.next? block else t.next? x
    rw [hnext, hprev]
    by_cases hx : x = block
    · rw [if_pos hx, WellFormed.next?_of_no_parent (by rw [hheld, if_pos hx])]
    rw [if_neg hx]
    by_cases hin : x ∈ t.children block
    · have hbefore := (hreplaces.wf'.notMem_beside hreplaces.items' hin).1
      rw [if_neg fun hend => hbefore (List.mem_of_getLast? hend),
        hreplaces.wf'.next?_inside hreplaces.items' hin,
        next?_of_parent ((wf.parent_iff x block).mpr hin), ← lastChild?, hlast]
      simp only [Option.some.injEq, eq_comm]
    · rw [hreplaces.next?_beside (by simpa using hx) hin, List.head?_append, ← firstChild?, hfirst,
        if_neg (c := x = last) fun heq => hin (heq ▸ List.mem_of_getLast? hlast)]
      rfl
  · rw [Linkage.dissolve_first x hfirst hlast]
    change t'.firstChild? x = if x = block then none
      else if t.prev? block = none ∧ x = parent then some first else t.firstChild? x
    by_cases hx : x = block
    · rw [if_pos hx, hx, firstChild?, hlisted, if_neg hne, if_pos rfl]
      rfl
    rw [if_neg hx, hprev]
    by_cases hp : x = parent
    · simp only [hp, hreplaces.firstChild? hfirst, and_true]
    · rw [if_neg fun h => hp h.2, firstChild?, firstChild?, hlisted, if_neg hp, if_neg hx]
  · rw [Linkage.dissolve_last x hfirst hlast]
    change t'.lastChild? x = if x = block then none
      else if t.next? block = none ∧ x = parent then some last else t.lastChild? x
    by_cases hx : x = block
    · rw [if_pos hx, hx, lastChild?, hlisted, if_neg hne, if_pos rfl]
      rfl
    rw [if_neg hx, hnext]
    by_cases hp : x = parent
    · simp only [hp, hreplaces.lastChild? hlast, and_true]
    · rw [if_neg fun h => hp h.2, lastChild?, lastChild?, hlisted, if_neg hp, if_neg hx]

/-- To splice a block is to dissolve its links. -/
theorem WellFormed.links_splice (wf : t.WellFormed) (h : t.parent? block = some parent)
    (hblock : (t.blockKind? block).isSome) :
    (t.splice parent block).links = t.links.dissolve block parent (t.children block) := by
  cases hfirst : t.firstChild? block with
  | none =>
    have hempty : t.children block = [] := List.head?_eq_none_iff.mp hfirst
    rw [wf.links_splice_nil h hblock hempty, Linkage.dissolve, links, hfirst]
  | some first =>
    have hne : t.children block ≠ [] := List.ne_nil_of_mem (List.mem_of_head? hfirst)
    obtain ⟨last, hlast⟩ := Option.isSome_iff_exists.mp (List.getLast?_isSome.mpr hne)
    exact wf.links_splice_some h hblock hfirst hlast

end Splice

/-! ## Enclosing -/

section Enclose

variable {parent : NodeId} {before run after : List NodeId} {kind : BlockKind}

/-- A run that is enclosed is replaced by the new block. -/
theorem WellFormed.replaces_enclose (wf : t.WellFormed)
    (hitems : t.children parent = before ++ run ++ after) (hrun : run ≠ []) :
    t.Replaces (t.enclose parent before run after kind).2 parent before run [⟨t.size⟩] after where
  wf := wf
  wf' := wf.enclose hitems hrun
  items := hitems
  items' := by rw [children_enclose hitems hrun, if_pos rfl, List.append_cons]
  held x hold hnew := by
    rw [wf.parent?_enclose hitems, if_neg (List.ne_of_not_mem_cons hnew), if_neg hold]
  listed x p _ _ hxp hp := by
    rw [children_enclose hitems hrun, if_neg hp,
      if_neg (ne_size_of_mem_children ((wf.parent_iff x p).mp hxp))]

/-- To enclose a run of children is to link a new block in its place. -/
theorem WellFormed.links_enclose (wf : t.WellFormed) {first last : NodeId}
    (hitems : t.children parent = before ++ run ++ after) (hfirst : run.head? = some first)
    (hlast : run.getLast? = some last) :
    (t.enclose parent before run after kind).2.links =
      t.links.enclose parent first last ⟨t.size⟩ run := by
  have hfirstMem := List.mem_of_head? hfirst
  have hlastMem := List.mem_of_getLast? hlast
  have hrun : run ≠ [] := List.ne_nil_of_mem hfirstMem
  have hreplaces : t.Replaces (t.enclose parent before run after kind).2 parent before run [⟨t.size⟩]
      after := wf.replaces_enclose hitems hrun
  have hheld : ∀ x, (t.enclose parent before run after kind).2.parent? x =
      if x = ⟨t.size⟩ then some parent else if x ∈ run then some ⟨t.size⟩ else t.parent? x :=
    wf.parent?_enclose hitems
  have hlisted : ∀ x, (t.enclose parent before run after kind).2.children x =
      if x = parent then before ++ ⟨t.size⟩ :: after
      else if x = ⟨t.size⟩ then run else t.children x :=
    children_enclose hitems hrun
  have hprev : t.prev? first = before.getLast? := by rw [wf.prev?_inside hitems hfirstMem, if_pos hfirst]
  have hnext : t.next? last = after.head? := by rw [wf.next?_inside hitems hlastMem, if_pos hlast]
  have hne : (⟨t.size⟩ : NodeId) ≠ parent :=
    Ne.symm (ne_size_of_mem_children (by simp [hitems, hfirstMem] : first ∈ t.children parent))
  have hfresh : ∀ x ∈ run, x ≠ ⟨t.size⟩ := fun x hx heq =>
    wf.size_notMem_children parent (by simp [hitems, ← heq, hx])
  generalize (t.enclose parent before run after kind).2 = t' at *
  generalize (⟨t.size⟩ : NodeId) = block at *
  have hholds : t'.children parent = before ++ block :: after := by rw [hlisted, if_pos rfl]
  have hinner : t'.children block = run := by rw [hlisted, if_neg hne, if_pos rfl]
  have hheld' : ∀ x ∈ run, t'.parent? x = some block := fun x hx => by
    rw [hheld, if_neg (hfresh x hx), if_pos hx]
  have hnodup : run.Nodup := hinner ▸ hreplaces.wf'.nodup block
  obtain ⟨hbefore, hafter⟩ := hreplaces.wf'.notMem_around hholds
  ext x : 1
  · rw [Linkage.enclose_parent]
    exact hheld x
  · rw [Linkage.enclose_prev]
    change t'.prev? x = if t.next? last = some x then some block
      else if x = block then t.prev? first else if x = first then none else t.prev? x
    rw [hnext, hprev]
    by_cases hx : x = block
    · rw [hx, if_neg fun hhead => hafter (List.mem_of_head? hhead), if_pos rfl,
        hreplaces.wf'.prev?_eq hholds]
    rw [if_neg hx]
    by_cases hin : x ∈ run
    · have hout := (wf.notMem_beside hitems hin).2
      rw [if_neg fun hhead => hout (List.mem_of_head? hhead), prev?_of_parent (hheld' x hin), hinner,
        wf.prev?_inside hitems hin]
      by_cases hxf : x = first
      · rw [if_pos hxf, preceding?_of_head? hnodup (hxf ▸ hfirst)]
      · rw [if_neg hxf, if_neg (by simpa [hfirst] using Ne.symm hxf)]
    · rw [hreplaces.prev?_beside hin (by simpa using hx), List.getLast?_concat,
        if_neg (c := x = first) fun heq => hin (heq ▸ hfirstMem)]
  · rw [Linkage.enclose_next]
    change t'.next? x = if t.prev? first = some x then some block
      else if x = block then t.next? last else if x = last then none else t.next? x
    rw [hnext, hprev]
    by_cases hx : x = block
    · rw [hx, if_neg fun hend => hbefore (List.mem_of_getLast? hend), if_pos rfl,
        hreplaces.wf'.next?_eq hholds]
    rw [if_neg hx]
    by_cases hin : x ∈ run
    · have hout := (wf.notMem_beside hitems hin).1
      rw [if_neg fun hend => hout (List.mem_of_getLast? hend), next?_of_parent (hheld' x hin), hinner,
        wf.next?_inside hitems hin]
      by_cases hxl : x = last
      · rw [if_pos hxl, following?_of_getLast? hnodup (hxl ▸ hlast)]
      · rw [if_neg hxl, if_neg (by simpa [hlast] using Ne.symm hxl)]
    · rw [hreplaces.next?_beside hin (by simpa using hx),
        if_neg (c := x = last) fun heq => hin (heq ▸ hlastMem)]
      rfl
  · rw [Linkage.enclose_first]
    change t'.firstChild? x = if t.prev? first = none ∧ x = parent then some block
      else if x = block then some first else t.firstChild? x
    rw [hprev]
    by_cases hx : x = parent
    · simp only [hx, hreplaces.firstChild? rfl, and_true, if_neg (Ne.symm hne)]
    rw [if_neg fun h => hx h.2, firstChild?, hlisted, if_neg hx]
    split
    case isTrue => exact hfirst
    case isFalse => rfl
  · rw [Linkage.enclose_last]
    change t'.lastChild? x = if t.next? last = none ∧ x = parent then some block
      else if x = block then some last else t.lastChild? x
    rw [hnext]
    by_cases hx : x = parent
    · simp only [hx, hreplaces.lastChild? List.getLast?_singleton, and_true, if_neg (Ne.symm hne)]
    rw [if_neg fun h => hx h.2, lastChild?, hlisted, if_neg hx]
    split
    case isTrue => exact hlast
    case isFalse => rfl

end Enclose

/-! ## Steps -/

theorem WellFormed.follows_run (wf : t.WellFormed) {parent first last : NodeId}
    {before run after : List NodeId} (hitems : t.children parent = before ++ run ++ after)
    (hfirst : run.head? = some first) (hlast : run.getLast? = some last) :
    Follows (fun id => if id = last then none else t.next? id) (some first) run := by
  rw [← hfirst]
  refine .of_isChain ?_ fun end_ hend => if_pos (Option.some.inj (hend.symm.trans hlast))
  have hnodup := wf.nodup parent
  rw [hitems] at hnodup
  have hrun := (List.nodup_append.mp (List.nodup_append.mp hnodup).1).2.1
  rw [List.isChain_iff_getElem]
  intro k hk
  have hinner : run[k] ≠ last := by
    rw [List.getLast?_eq_getElem?, List.getElem?_eq_getElem (by omega), Option.some.injEq] at hlast
    rw [← hlast, Ne, hrun.getElem_inj_iff]
    omega
  have hsplit : t.children parent =
      (before ++ run.take k) ++ run[k] :: (run.drop (k + 1) ++ after) := by
    rw [hitems, ← List.cons_append, ← List.drop_eq_getElem_cons (by omega),
      List.append_assoc before (run.take k), ← List.append_assoc (run.take k), List.take_append_drop,
      List.append_assoc]
  rw [if_neg hinner, wf.next?_eq hsplit, List.head?_append, List.head?_drop,
    List.getElem?_eq_getElem hk]
  rfl

theorem links_size (wf : t.WellFormed) : t.links ⟨t.size⟩ = {} := by
  rw [links, wf.parent?_size, prev?_of_no_parent wf.parent?_size,
    WellFormed.next?_of_no_parent wf.parent?_size, firstChild?, lastChild?, children_size]
  rfl

theorem links_relinks (h : Relinks t t') : t'.links = t.links := by
  cases h with
  | catchType | unlink =>
    exact links_congr (parent?_mapKind t _ _) (children_mapKind t _ _)
  | handler | filter =>
    refine links_congr (fun x => ?_) fun x => ?_
    · rw [parent?_mapKind, parent?_mapKind]
    · rw [children_mapKind, children_mapKind]
  | drop | clear => exact links_congr (parent?_mapKind t _ _) (children_mapKind t _ _)

/-- A step leaves all links as they are or rewrites them. -/
theorem WellFormed.links_step (wf : t.WellFormed) (h : Step t t') :
    t'.links = t.links ∨ t.links.Rewires t'.links := by
  cases h with
  | header => exact Or.inl (links_congr (fun _ => rfl) fun _ => rfl)
  | operation => exact Or.inl (links_congr (parent?_setOperation t _ _) (children_setOperation t _ _))
  | owner => exact Or.inl (links_congr (parent?_setOwner t _ _) (children_setOwner t _ _))
  | push hchildren =>
    refine Or.inl (links_congr (parent?_push t _) fun x => ?_)
    rw [children_push]
    split
    case isTrue hx => rw [hchildren, hx, children_size]
    case isFalse => rfl
  | @attach parent node place hnode hroot hfree hparent hself hbelow hplace =>
    obtain ⟨before, after, hitems, hplaced⟩ := hplace (t.children parent)
    rw [wf.links_attach (wf.attach hnode hroot hfree hparent hself hbelow hplace.perm) hnode hparent
      hitems hplaced]
    exact Or.inr (.link (wf.gap hitems) hfree (prev?_of_no_parent hfree)
      (WellFormed.next?_of_no_parent hfree))
  | detach node =>
    rw [wf.links_detach]
    exact Or.inr (.unlink node)
  | splice hparent hblock =>
    rw [wf.links_splice hparent hblock]
    exact Or.inr (.dissolve hparent (wf.follows_children _))
  | @enclose parent before run after kind hchildren hrun hlinks =>
    obtain ⟨first, hfirst⟩ := Option.isSome_iff_exists.mp (List.isSome_head?.mpr hrun)
    obtain ⟨last, hlast⟩ := Option.isSome_iff_exists.mp (List.getLast?_isSome.mpr hrun)
    rw [wf.links_enclose hchildren hfirst hlast]
    refine Or.inr (.enclose (links_size wf) (fun member hmember => ?_)
      (wf.follows_run hchildren hfirst hlast))
    exact (wf.parent_iff member parent).mpr (by simp [hchildren, hmember])
  | relink h => exact Or.inl (links_relinks h)

theorem WellFormed.links_steps (wf : t.WellFormed) (h : Steps t t') :
    Relation.ReflTransGen Linkage.Rewires t.links t'.links := by
  induction h with
  | refl => exact .refl
  | tail hsteps hstep ih =>
    rcases (wf.steps hsteps).links_step hstep with hsame | hrewires
    · rwa [hsame]
    · exact ih.tail hrewires

/-- The links of a new tree lead nowhere. -/
theorem links_new (header : Header) : (new header).links = Linkage.blank := by
  have hparent : ∀ x, (new header).parent? x = none := fun x => by
    simp [new_eq_ofCode, parent?_ofCode]
  have hchildren : ∀ x, (new header).children x = [] := fun x => by
    simp [new_eq_ofCode, children_ofCode]
  funext x
  rw [links, prev?_of_no_parent (hparent x), WellFormed.next?_of_no_parent (hparent x), hparent,
    firstChild?, lastChild?, hchildren]
  rfl

/-! ## Links that fit -/

/-- The links of a tree fit together. -/
structure Linked (t : Tree) : Prop where
  /-- the chain of the children of a block, from the first along the next siblings -/
  chains : ∀ block, ∃ chain, Follows t.next? (t.firstChild? block) chain ∧ chain.Nodup ∧
    chain.getLast? = t.lastChild? block ∧
    ∀ before id after, chain = before ++ id :: after →
      t.parent? id = some block ∧ t.prev? id = before.getLast?
  /-- nodes that no block holds -/
  loose : ∀ id, t.parent? id = none → t.prev? id = none ∧ t.next? id = none ∧
    ∀ block chain, Follows t.next? (t.firstChild? block) chain → id ∉ chain
  /-- nodes that are no blocks -/
  leaves : ∀ id, t.blockKind? id = none →
    t.firstChild? id = none ∧ t.lastChild? id = none ∧ ∀ child, t.parent? child ≠ some id
  root : t.parent? root = none
  acyclic : ∀ id, ¬ Relation.TransGen (fun child block => t.parent? child = some block) id id
  /-- the walk upwards ends, and the blocks around a node are those that it meets -/
  upwards : ∀ id, ∃ path, Follows t.parent? (t.parent? id) path ∧ t.depth id = path.length ∧
    ∀ block, t.isBelow block id = true ↔ block ∈ path
  /-- the search for the node after a subtree ends -/
  successors : ∀ id, ∃ path last, Follows t.searchUp (some id) path ∧ path.getLast? = some last ∧
    t.successor? id = t.next? last
  /-- the walk over a node and all below it ends -/
  walks : ∀ id, Follows (t.stepInto (t.successorWithin? id)) (some id) (t.preOrder id)
  /-- the walk along the flat order ends from every node -/
  steps : ∀ id, ∃ walk, Follows t.nextInOrder? (some id) walk

theorem WellFormed.links_fit (wf : t.WellFormed) : t.Linked where
  chains block := by
    refine ⟨t.children block, wf.follows_children block, wf.nodup block, rfl,
      fun before id after hsplit => ⟨?_, wf.prev?_eq hsplit⟩⟩
    exact (wf.parent_iff id block).mpr (by simp [hsplit])
  loose id hloose := by
    refine ⟨prev?_of_no_parent hloose, next?_of_no_parent hloose, fun block chain hchain hin => ?_⟩
    rw [hchain.unique (wf.follows_children block), ← wf.parent_iff, hloose] at hin
    exact absurd hin (by simp)
  leaves id hleaf := by
    have hchildren : t.children id = [] := children_eq_nil_of_blockKind? hleaf
    refine ⟨by rw [firstChild?, hchildren]; rfl, by rw [lastChild?, hchildren]; rfl, fun child => ?_⟩
    rw [Ne, wf.parent_iff, hchildren]
    exact List.not_mem_nil
  root := wf.root_parent
  acyclic := wf.not_above_self
  upwards id := ⟨t.ancestors id, wf.follows_ancestors id, rfl, fun block => by simp [isBelow]⟩
  successors := wf.exists_follows_searchUp
  walks := wf.follows_preOrder
  steps := wf.exists_follows_nextInOrder

end Tree

end MethodIL
