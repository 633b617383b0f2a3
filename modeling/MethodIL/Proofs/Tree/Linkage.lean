import Mathlib
import MethodIL.Proofs.Tree.Chains
set_option autoImplicit false

/-!
# Links that are stored

An arena stores five links with each node: to the block around it, to its two neighbours, and to its
first and last child.  A change of a tree rewrites a few of them, those at the places next to what is
moved.  This module has the ways to rewrite links, one for each way to move nodes, and says what can be
read from rewritten links.
-/

namespace MethodIL

/-! ## Neighbours in a list that is put together -/

section Neighbours

variable {α : Type} [DecidableEq α] {a b : α} {items front back : List α}

theorem following?_cons_of_ne (h : b ≠ a) : following? a (b :: items) = following? a items := by
  cases items with
  | nil => rfl
  | cons c items => rw [following?, if_neg h]

theorem following?_of_notMem (h : a ∉ items) : following? a items = none := by
  induction items with
  | nil => rfl
  | cons b items ih =>
    rw [List.mem_cons, not_or] at h
    rw [following?_cons_of_ne (Ne.symm h.1), ih h.2]

theorem preceding?_of_notMem (h : a ∉ items) : preceding? a items = none := by
  cases items with
  | nil => rfl
  | cons b items => exact preceding?_eq_none fun hmem => h (List.mem_cons_of_mem b hmem)

/-- Behind the last item of a list stands the first of the list that is appended. -/
theorem following?_append (h : (front ++ back).Nodup) (a : α) :
    following? a (front ++ back) =
      if front.getLast? = some a then back.head?
      else (following? a front).or (following? a back) := by
  induction front with
  | nil => simp [following?]
  | cons b front ih =>
    obtain ⟨hb, h⟩ := List.nodup_cons.mp h
    cases front with
    | nil =>
      by_cases hba : b = a
      · cases back <;> simp [following?, hba]
      · simp [following?, hba, following?_cons_of_ne]
    | cons c front =>
      rw [List.getLast?_cons_cons, List.cons_append]
      by_cases hba : b = a
      · have hlast : (c :: front).getLast? ≠ some a := fun hlast =>
          hb (List.mem_append_left _ (hba ▸ List.mem_of_getLast? hlast))
        rw [if_neg hlast, List.cons_append, following?, following?, if_pos hba, if_pos hba, Option.some_or]
      · rw [following?_cons_of_ne hba, following?_cons_of_ne hba, ih h]

/-- In front of the first item of a list stands the last of the list that it is appended to. -/
theorem preceding?_append (h : (front ++ back).Nodup) (a : α) :
    preceding? a (front ++ back) =
      if back.head? = some a then front.getLast?
      else (preceding? a front).or (preceding? a back) := by
  induction front with
  | nil =>
    cases back with
    | nil => rfl
    | cons c back =>
      by_cases hca : c = a
      · rw [List.nil_append, preceding?_eq_none (hca ▸ (List.nodup_cons.mp h).1)]
        simp [hca]
      · simp [hca, preceding?]
  | cons b front ih =>
    obtain ⟨hb, h⟩ := List.nodup_cons.mp h
    cases front with
    | nil => cases back <;> simp [preceding?]
    | cons c front =>
      rw [List.getLast?_cons_cons, List.cons_append, List.cons_append, preceding?, preceding?,
        ← List.cons_append]
      by_cases hca : c = a
      · have hhead : back.head? ≠ some a := fun hhead =>
          (List.nodup_cons.mp h).1 (List.mem_append_right _ (hca ▸ List.mem_of_head? hhead))
        rw [if_pos hca, if_pos hca, if_neg hhead, Option.some_or]
      · rw [if_neg hca, if_neg hca, ih h]

/-- Behind the last item of a list stands nothing. -/
theorem following?_of_getLast? (h : items.Nodup) (ha : items.getLast? = some a) :
    following? a items = none := by
  obtain ⟨front, rfl⟩ := List.getLast?_eq_some_iff.mp ha
  rw [following?_append_cons fun hin => (List.nodup_append.mp h).2.2 a hin a List.mem_cons_self rfl]
  rfl

/-- In front of the first item of a list stands nothing. -/
theorem preceding?_of_head? (h : items.Nodup) (ha : items.head? = some a) :
    preceding? a items = none := by
  obtain ⟨back, rfl⟩ := List.head?_eq_some_iff.mp ha
  exact preceding?_eq_none (List.nodup_cons.mp h).1

variable {before middle after : List α}

/-- Inside a stretch of a list only the last item gets another item behind it. -/
theorem following?_inside (h : (before ++ middle ++ after).Nodup) (ha : a ∈ middle) :
    following? a (before ++ middle ++ after) =
      if middle.getLast? = some a then after.head? else following? a middle := by
  obtain ⟨hbefore, hafter⟩ := notMem_beside_of_nodup h ha
  have hlast : before.getLast? ≠ some a := fun heq => hbefore (List.mem_of_getLast? heq)
  obtain ⟨last, hmiddle⟩ := Option.isSome_iff_exists.mp
    (List.getLast?_isSome.mpr (List.ne_nil_of_mem ha))
  rw [following?_append h, following?_append (List.nodup_append.mp h).1, if_neg hlast,
    following?_of_notMem hbefore, following?_of_notMem hafter, Option.none_or, Option.or_none,
    List.getLast?_append, hmiddle]
  rfl

/-- Inside a stretch of a list only the first item gets another item in front of it. -/
theorem preceding?_inside (h : (before ++ middle ++ after).Nodup) (ha : a ∈ middle) :
    preceding? a (before ++ middle ++ after) =
      if middle.head? = some a then before.getLast? else preceding? a middle := by
  obtain ⟨hbefore, hafter⟩ := notMem_beside_of_nodup h ha
  have hhead : after.head? ≠ some a := fun heq => hafter (List.mem_of_head? heq)
  rw [preceding?_append h, preceding?_append (List.nodup_append.mp h).1, if_neg hhead,
    preceding?_of_notMem hbefore, preceding?_of_notMem hafter, Option.none_or, Option.or_none]

/-- Beside a stretch of a list only the item in front of it sees the stretch. -/
theorem following?_beside (h : (before ++ middle ++ after).Nodup) (ha : a ∉ middle) :
    following? a (before ++ middle ++ after) =
      if before.getLast? = some a then (middle ++ after).head?
      else (following? a before).or (following? a after) := by
  rw [List.append_assoc] at h ⊢
  rw [following?_append h, following?_append (List.nodup_append.mp h).2.1, following?_of_notMem ha,
    Option.none_or, if_neg fun hlast => ha (List.mem_of_getLast? hlast)]

/-- Beside a stretch of a list only the item behind it sees the stretch. -/
theorem preceding?_beside (h : (before ++ middle ++ after).Nodup) (ha : a ∉ middle) :
    preceding? a (before ++ middle ++ after) =
      if after.head? = some a then (before ++ middle).getLast?
      else (preceding? a before).or (preceding? a after) := by
  rw [preceding?_append h, preceding?_append (List.nodup_append.mp h).1, preceding?_of_notMem ha,
    Option.or_none, if_neg fun hhead => ha (List.mem_of_head? hhead)]

variable {old new : List α}

omit [DecidableEq α] in
/-- If a stretch of a list is replaced, the list starts as before unless it started with the stretch. -/
theorem head?_replace (h : new ≠ []) : (before ++ new ++ after).head? =
    if before.getLast? = none then new.head? else (before ++ old ++ after).head? := by
  obtain ⟨first, rest, rfl⟩ := List.exists_cons_of_ne_nil h
  cases before with
  | nil => rfl
  | cons b before => simp

omit [DecidableEq α] in
/-- If a stretch of a list is replaced, the list ends as before unless it ended with the stretch. -/
theorem getLast?_replace (h : new ≠ []) : (before ++ new ++ after).getLast? =
    if after.head? = none then new.getLast? else (before ++ old ++ after).getLast? := by
  obtain ⟨last, hlast⟩ := Option.isSome_iff_exists.mp (List.getLast?_isSome.mpr h)
  cases after with
  | nil => simp [hlast]
  | cons a after => simp [List.getLast?_cons]

end Neighbours

/-! ## Rewriting links -/

/-- The five links of a node. -/
structure Links where
  parent : Option NodeId := none
  prev : Option NodeId := none
  next : Option NodeId := none
  first : Option NodeId := none
  last : Option NodeId := none
  deriving DecidableEq

/-- The links of every node. -/
def Linkage := NodeId → Links

namespace Linkage

variable (s : Linkage)

/-- No node is linked to another. -/
def blank : Linkage := fun _ => {}

@[ext] theorem ext {s s' : Linkage} (hparent : ∀ x, (s x).parent = (s' x).parent)
    (hprev : ∀ x, (s x).prev = (s' x).prev) (hnext : ∀ x, (s x).next = (s' x).next)
    (hfirst : ∀ x, (s x).first = (s' x).first) (hlast : ∀ x, (s x).last = (s' x).last) : s = s' := by
  funext x
  have := hparent x
  have := hprev x
  have := hnext x
  have := hfirst x
  have := hlast x
  cases hs : s x
  cases hs' : s' x
  simp_all

/-- Rewrite the links of one node. -/
def write (id : NodeId) (f : Links → Links) : Linkage := fun x => if x = id then f (s x) else s x

/-- Set the block around each of some nodes. -/
def adopt (block : NodeId) (members : List NodeId) : Linkage :=
  members.foldl (fun s member => s.write member ({ · with parent := some block })) s

/-- Let a place among the children of a block lead on to a node: from the child in front of the place,
or from the block if the place is in front of all children. -/
def leadOn (block : NodeId) (prev node : Option NodeId) : Linkage :=
  match prev with
  | some prev => s.write prev ({ · with next := node })
  | none => s.write block ({ · with first := node })

/-- Let a place among the children of a block lead back to a node. -/
def leadBack (block : NodeId) (next node : Option NodeId) : Linkage :=
  match next with
  | some next => s.write next ({ · with prev := node })
  | none => s.write block ({ · with last := node })

/-- Link a node between two neighbours. -/
def link (block : NodeId) (prev next : Option NodeId) (node : NodeId) : Linkage :=
  ((s.write node ({ · with parent := some block, prev, next })).leadOn block prev (some node)).leadBack
    block next (some node)

/-- Unlink a node from its block and its neighbours. -/
def unlink (node : NodeId) : Linkage :=
  let cut := s.write node ({ · with parent := none, prev := none, next := none })
  match (s node).parent with
  | none => cut
  | some block =>
    (cut.leadOn block (s node).prev (s node).next).leadBack block (s node).next (s node).prev

/-- Link the children of a block in its place. -/
def dissolve (block parent : NodeId) (children : List NodeId) : Linkage :=
  match (s block).first, (s block).last with
  | some first, some last =>
    let joined := ((s.adopt parent children).write first ({ · with prev := (s block).prev })).write last
      ({ · with next := (s block).next })
    ((joined.leadOn parent (s block).prev (some first)).leadBack parent (s block).next
      (some last)).write block fun _ => {}
  | _, _ => s.unlink block

/-- Link a new block in place of a run of children. -/
def enclose (parent first last block : NodeId) (run : List NodeId) : Linkage :=
  let cut := ((s.adopt block run).write first ({ · with prev := none })).write last
    ({ · with next := none })
  (cut.write block ({ · with first := some first, last := some last })).link parent (s first).prev
    (s last).next block

/-! ### Reading rewritten links -/

variable (block node id : NodeId) (near far : Option NodeId) (x : NodeId)

@[simp] theorem write_apply (f : Links → Links) :
    (s.write id f) x = if x = id then f (s x) else s x := rfl

theorem adopt_apply (members : List NodeId) :
    (s.adopt block members) x = if x ∈ members then { s x with parent := some block } else s x := by
  unfold adopt
  induction members generalizing s with
  | nil => simp
  | cons member members ih =>
    rw [List.foldl_cons, ih, write_apply]
    by_cases hx : x = member <;> simp [hx]

@[simp] theorem leadOn_parent : ((s.leadOn block near far) x).parent = (s x).parent := by
  cases near <;> simp only [leadOn, write_apply] <;> split <;> rfl

@[simp] theorem leadOn_prev : ((s.leadOn block near far) x).prev = (s x).prev := by
  cases near <;> simp only [leadOn, write_apply] <;> split <;> rfl

@[simp] theorem leadOn_next :
    ((s.leadOn block near far) x).next = if near = some x then far else (s x).next := by
  cases near <;> simp only [leadOn, write_apply] <;> split <;> simp_all [eq_comm]

@[simp] theorem leadOn_first :
    ((s.leadOn block near far) x).first = if near = none ∧ x = block then far else (s x).first := by
  cases near <;> simp only [leadOn, write_apply] <;> split <;> simp_all

@[simp] theorem leadOn_last : ((s.leadOn block near far) x).last = (s x).last := by
  cases near <;> simp only [leadOn, write_apply] <;> split <;> rfl

@[simp] theorem leadBack_parent : ((s.leadBack block near far) x).parent = (s x).parent := by
  cases near <;> simp only [leadBack, write_apply] <;> split <;> rfl

@[simp] theorem leadBack_prev :
    ((s.leadBack block near far) x).prev = if near = some x then far else (s x).prev := by
  cases near <;> simp only [leadBack, write_apply] <;> split <;> simp_all [eq_comm]

@[simp] theorem leadBack_next : ((s.leadBack block near far) x).next = (s x).next := by
  cases near <;> simp only [leadBack, write_apply] <;> split <;> rfl

@[simp] theorem leadBack_first : ((s.leadBack block near far) x).first = (s x).first := by
  cases near <;> simp only [leadBack, write_apply] <;> split <;> rfl

@[simp] theorem leadBack_last :
    ((s.leadBack block near far) x).last = if near = none ∧ x = block then far else (s x).last := by
  cases near <;> simp only [leadBack, write_apply] <;> split <;> simp_all

variable (prev next : Option NodeId)

theorem link_parent : ((s.link block prev next node) x).parent =
    if x = node then some block else (s x).parent := by
  simp only [link, leadBack_parent, leadOn_parent, write_apply]
  split <;> rfl

theorem link_prev : ((s.link block prev next node) x).prev =
    if next = some x then some node else if x = node then prev else (s x).prev := by
  simp only [link, leadBack_prev, leadOn_prev, write_apply, apply_ite Links.prev]

theorem link_next : ((s.link block prev next node) x).next =
    if prev = some x then some node else if x = node then next else (s x).next := by
  simp only [link, leadBack_next, leadOn_next, write_apply, apply_ite Links.next]

theorem link_first : ((s.link block prev next node) x).first =
    if prev = none ∧ x = block then some node else (s x).first := by
  simp only [link, leadBack_first, leadOn_first, write_apply, apply_ite Links.first, ite_self]

theorem link_last : ((s.link block prev next node) x).last =
    if next = none ∧ x = block then some node else (s x).last := by
  simp only [link, leadBack_last, leadOn_last, write_apply, apply_ite Links.last, ite_self]

/-! ### Links of a dissolved block -/

section Dissolve

variable {s block node} {parent first last : NodeId} {children : List NodeId}

theorem dissolve_parent (hfirst : (s block).first = some first) (hlast : (s block).last = some last) :
    ((s.dissolve block parent children) x).parent =
      if x = block then none else if x ∈ children then some parent else (s x).parent := by
  simp only [dissolve, hfirst, hlast, write_apply, adopt_apply, leadBack_parent, leadOn_parent,
    apply_ite Links.parent, ite_self]

theorem dissolve_prev (hfirst : (s block).first = some first) (hlast : (s block).last = some last) :
    ((s.dissolve block parent children) x).prev =
      if x = block then none else if (s block).next = some x then some last
      else if x = first then (s block).prev else (s x).prev := by
  simp only [dissolve, hfirst, hlast, write_apply, adopt_apply, leadBack_prev, leadOn_prev,
    apply_ite Links.prev, ite_self]

theorem dissolve_next (hfirst : (s block).first = some first) (hlast : (s block).last = some last) :
    ((s.dissolve block parent children) x).next =
      if x = block then none else if (s block).prev = some x then some first
      else if x = last then (s block).next else (s x).next := by
  simp only [dissolve, hfirst, hlast, write_apply, adopt_apply, leadBack_next, leadOn_next,
    apply_ite Links.next, ite_self]

theorem dissolve_first (hfirst : (s block).first = some first) (hlast : (s block).last = some last) :
    ((s.dissolve block parent children) x).first =
      if x = block then none else if (s block).prev = none ∧ x = parent then some first
      else (s x).first := by
  simp only [dissolve, hfirst, hlast, write_apply, adopt_apply, leadBack_first, leadOn_first,
    apply_ite Links.first, ite_self]

theorem dissolve_last (hfirst : (s block).first = some first) (hlast : (s block).last = some last) :
    ((s.dissolve block parent children) x).last =
      if x = block then none else if (s block).next = none ∧ x = parent then some last
      else (s x).last := by
  simp only [dissolve, hfirst, hlast, write_apply, adopt_apply, leadBack_last, leadOn_last,
    apply_ite Links.last, ite_self]

end Dissolve

/-! ### Links of an enclosed run -/

section Enclose

variable (parent first last : NodeId) (run : List NodeId)

theorem enclose_parent : ((s.enclose parent first last block run) x).parent =
    if x = block then some parent else if x ∈ run then some block else (s x).parent := by
  simp only [enclose, link_parent, write_apply, adopt_apply, apply_ite Links.parent, ite_self]

theorem enclose_prev : ((s.enclose parent first last block run) x).prev =
    if (s last).next = some x then some block else if x = block then (s first).prev
    else if x = first then none else (s x).prev := by
  simp only [enclose, link_prev, write_apply, adopt_apply, apply_ite Links.prev, ite_self]

theorem enclose_next : ((s.enclose parent first last block run) x).next =
    if (s first).prev = some x then some block else if x = block then (s last).next
    else if x = last then none else (s x).next := by
  simp only [enclose, link_next, write_apply, adopt_apply, apply_ite Links.next, ite_self]

theorem enclose_first : ((s.enclose parent first last block run) x).first =
    if (s first).prev = none ∧ x = parent then some block else if x = block then some first
    else (s x).first := by
  simp only [enclose, link_first, write_apply, adopt_apply, apply_ite Links.first, ite_self]

theorem enclose_last : ((s.enclose parent first last block run) x).last =
    if (s last).next = none ∧ x = parent then some block else if x = block then some last
    else (s x).last := by
  simp only [enclose, link_last, write_apply, adopt_apply, apply_ite Links.last, ite_self]

end Enclose

/-! ### Links into a gap and out of it -/

theorem unlink_of_parent (h : (s node).parent = some block) :
    s.unlink node = ((s.write node ({ · with parent := none, prev := none, next := none })).leadOn block
      (s node).prev (s node).next).leadBack block (s node).next (s node).prev := by
  rw [unlink, h]

/-- The neighbours of a place among the children of a block: each leads to the other. -/
structure Gap (block : NodeId) (prev next : Option NodeId) : Prop where
  on : (prev.elim (s block).first fun prev => (s prev).next) = next
  back : (next.elim (s block).last fun next => (s next).prev) = prev
  held : ∀ neighbour, prev = some neighbour ∨ next = some neighbour → (s neighbour).parent = some block

variable {s block node prev next}

/-- Whatever is linked into a gap can be unlinked again. -/
theorem unlink_link (hgap : s.Gap block prev next) (hloose : (s node).parent = none)
    (hprev : (s node).prev = none) (hnext : (s node).next = none) :
    (s.link block prev next node).unlink node = s := by
  have hother : ∀ neighbour, prev = some neighbour ∨ next = some neighbour → neighbour ≠ node := by
    rintro neighbour hneighbour rfl
    rw [hgap.held _ hneighbour] at hloose
    exact absurd hloose (by simp)
  have hp : prev ≠ some node := fun h => hother node (Or.inl h) rfl
  have hn : next ≠ some node := fun h => hother node (Or.inr h) rfl
  have hon := hgap.on
  have hback := hgap.back
  rw [unlink_of_parent _ block node (by rw [link_parent, if_pos rfl]), link_prev, link_next,
    if_neg hn, if_neg hp, if_pos rfl, if_pos rfl]
  ext x : 1
  · simp only [leadBack_parent, leadOn_parent, write_apply]
    split
    case isTrue hx => rw [hx, hloose]
    case isFalse hx => rw [link_parent, if_neg hx]
  · simp only [leadBack_prev, leadOn_prev, write_apply]
    split
    case isTrue hx => rw [← hback, hx, Option.elim_some]
    case isFalse hfar =>
      split
      case isTrue hx => rw [hx, hprev]
      case isFalse hx => rw [link_prev, if_neg hfar, if_neg hx]
  · simp only [leadBack_next, leadOn_next, write_apply]
    split
    case isTrue hx => rw [← hon, hx, Option.elim_some]
    case isFalse hfar =>
      split
      case isTrue hx => rw [hx, hnext]
      case isFalse hx => rw [link_next, if_neg hfar, if_neg hx]
  · simp only [leadBack_first, leadOn_first, write_apply]
    split
    case isTrue hx => rw [← hon, hx.1, hx.2, Option.elim_none]
    case isFalse hfar =>
      rw [apply_ite Links.first, ite_self, link_first, if_neg hfar]
  · simp only [leadBack_last, leadOn_last, write_apply]
    split
    case isTrue hx => rw [← hback, hx.1, hx.2, Option.elim_none]
    case isFalse hfar =>
      rw [apply_ite Links.last, ite_self, link_last, if_neg hfar]

/-- Links are rewritten: a node without links to neighbours is linked into a gap, a node is unlinked, a
block is dissolved along the chain of its children, or a run of children, told by its ends, is enclosed in
a block without links. -/
inductive Rewires (s : Linkage) : Linkage → Prop
  | link {block node : NodeId} {prev next : Option NodeId} (hgap : s.Gap block prev next)
      (hloose : (s node).parent = none) (hprev : (s node).prev = none) (hnext : (s node).next = none) :
      Rewires s (s.link block prev next node)
  | unlink (node : NodeId) : Rewires s (s.unlink node)
  | dissolve {block parent : NodeId} {children : List NodeId} (hparent : (s block).parent = some parent)
      (hchildren : Follows (fun id => (s id).next) (s block).first children) :
      Rewires s (s.dissolve block parent children)
  | enclose {parent first last block : NodeId} {run : List NodeId} (hblock : s block = {})
      (hmembers : ∀ member ∈ run, (s member).parent = some parent)
      (hrun : Follows (fun id => if id = last then none else (s id).next) (some first) run) :
      Rewires s (s.enclose parent first last block run)

end Linkage

end MethodIL
