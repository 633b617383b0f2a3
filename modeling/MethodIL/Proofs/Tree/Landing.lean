import Mathlib
import MethodIL.Proofs.Lowering.Coverage
set_option autoImplicit false

/-!
# Where control lands

A jump to a node lands on the first instruction at or below it, or else on the next one behind it.  Both
are the first instruction in the flat order from the node on, so nodes that are no instructions can come
and go without another landing.
-/

namespace MethodIL

/-- What is gone has nothing to add. -/
theorem flatMap_filter {α β : Type} {f g : α → List β} {kept : α → Bool} {items : List α}
    (hkept : ∀ a ∈ items, kept a = true → f a = g a)
    (hgone : ∀ a ∈ items, kept a = false → g a = []) :
    (items.filter kept).flatMap f = items.flatMap g := by
  induction items with
  | nil => rfl
  | cons a items ih =>
    obtain ⟨hkeptHead, hkept⟩ := List.forall_mem_cons.mp hkept
    obtain ⟨hgoneHead, hgone⟩ := List.forall_mem_cons.mp hgone
    rw [List.flatMap_cons, ← ih hkept hgone]
    cases ha : kept a with
    | true => rw [List.filter_cons_of_pos ha, List.flatMap_cons, hkeptHead ha]
    | false => rw [List.filter_cons_of_neg (by simp [ha]), hgoneHead ha, List.nil_append]

namespace Tree

variable {t t' : Tree}

/-- The instruction that control reaches from a node: the first one at or below it, or else the next. -/
def landing? (t : Tree) (id : NodeId) : Option NodeId :=
  ((t.preOrder id).find? t.isInstruction).or (t.nextInstruction? id)

namespace WellFormed

variable (wf : t.WellFormed)

include wf

/-- The landing is the first instruction from the node on in the flat order of its tree of the forest. -/
theorem landing?_eq {top id : NodeId} {before after : List NodeId} (htop : t.parent? top = none)
    (h : t.preOrder top = before ++ id :: after) :
    t.landing? id = (id :: after).find? t.isInstruction := by
  -- what lies at and below the node stands in front of what lies behind it
  obtain ⟨before', rest, hsplit⟩ := wf.exists_preOrder_append (by simp [h] : id ∈ t.preOrder top)
  have hbehind : after = t.descendants id ++ rest := by
    rw [wf.preOrder_eq id, List.cons_append, ← wf.descendants_eq] at hsplit
    have hnodup := wf.nodup_preOrder top
    rw [hsplit] at hnodup
    exact (append_cons_inj_of_nodup hnodup (hsplit.symm.trans h)).2.symm
  rw [landing?, wf.nextInstruction?_eq htop h, hbehind, wf.preOrder_eq, ← wf.descendants_eq,
    List.find?_append]
  cases hself : t.isInstruction id with
  | true => rw [List.find?_cons_of_pos hself, List.find?_cons_of_pos hself, Option.some_or]
  | false =>
    rw [List.find?_cons_of_neg (by simp [hself]), List.find?_cons_of_neg (by simp [hself]),
      List.find?_append]
    cases (t.descendants id).find? t.isInstruction <;> rfl

/-- A node that is no instruction and has nothing below it lands where the next node lands. -/
theorem landing?_of_next {id next : NodeId} (hchildren : t.children id = [])
    (hother : t.isInstruction id = false) (hnext : t.next? id = some next) :
    t.landing? id = t.landing? next := by
  obtain ⟨top, htop, hmem⟩ := wf.exists_top id
  obtain ⟨before, after, horder⟩ := List.append_of_mem hmem
  have hafter : after.head? = some next := by
    rw [← wf.nextInOrder?_eq_head? htop horder, ← successor?_eq_nextInOrder? hchildren,
      wf.successor?_eq, hnext]
  obtain ⟨behind, rfl⟩ := List.head?_eq_some_iff.mp hafter
  have horder' : t.preOrder top = (before ++ [id]) ++ next :: behind := by simp [horder]
  rw [wf.landing?_eq htop horder, wf.landing?_eq htop horder',
    List.find?_cons_of_neg (by simp [hother])]

/-- A label lands where it leads. -/
theorem landing?_of_isLabel {label : NodeId} (hlabel : t.isLabel label = true) :
    t.landing? label = t.labelTarget? label := by
  rw [landing?, wf.preOrder_label hlabel,
    List.find?_cons_of_neg (by simp [isInstruction_of_isLabel hlabel])]
  rfl

end WellFormed

/-! ## Nodes that do not matter -/

/-- One tree is the other without some nodes that are no instructions.  The other nodes have the same
flat order below them but for those, and lie in the same trees of the forest. -/
structure Thins (t : Tree) (gone : NodeId → Bool) (t' : Tree) : Prop where
  before : t.WellFormed
  after : t'.WellFormed
  isInstruction : ∀ x, t'.isInstruction x = t.isInstruction x
  isOther : ∀ x, gone x = true → t.isInstruction x = false
  root_kept : gone root = false
  parent : ∀ x, t.parent? x = none → t'.parent? x = none
  preOrder : ∀ x, gone x = false → t'.preOrder x = (t.preOrder x).filter fun y => !gone y
  loose : ∀ x, gone x = true → t.parent? x = none → t.children x = []

namespace Thins

variable {gone : NodeId → Bool} (h : t.Thins gone t')

include h

/-- Instructions are found in the same order. -/
theorem find?_filter (ids : List NodeId) :
    (ids.filter fun y => !gone y).find? t'.isInstruction = ids.find? t.isInstruction := by
  rw [List.find?_filter]
  apply List.find?_congr
  intro x _
  rw [h.isInstruction]
  cases hgone : gone x with
  | true => simp [h.isOther x hgone]
  | false => simp

theorem exists_top {x : NodeId} (hx : gone x = false) :
    ∃ top, t.parent? top = none ∧ t'.parent? top = none ∧ x ∈ t.preOrder top ∧
      t'.preOrder top = (t.preOrder top).filter fun y => !gone y := by
  obtain ⟨top, htop, hmem⟩ := h.before.exists_top x
  have hkept : gone top = false := by
    rw [← Bool.not_eq_true]
    intro hgone
    rw [h.before.preOrder_eq, h.loose top hgone htop, List.flatMap_nil, List.mem_singleton] at hmem
    rw [hmem, hgone] at hx
    exact absurd hx (by simp)
  exact ⟨top, htop, h.parent top htop, hmem, h.preOrder top hkept⟩

/-- What stands in front of a node and behind it gets thinner each on its own. -/
theorem exists_split {x : NodeId} (hx : gone x = false) :
    ∃ top before after, t.parent? top = none ∧ t'.parent? top = none ∧
      t.preOrder top = before ++ x :: after ∧
      t'.preOrder top = (before.filter fun y => !gone y) ++ x :: after.filter fun y => !gone y := by
  obtain ⟨top, htop, htop', hmem, hfilter⟩ := h.exists_top hx
  obtain ⟨before, after, horder⟩ := List.append_of_mem hmem
  rw [horder, List.filter_append, List.filter_cons_of_pos (by simp [hx])] at hfilter
  exact ⟨top, before, after, htop, htop', horder, hfilter⟩

theorem nextInstruction? {x : NodeId} (hx : gone x = false) :
    t'.nextInstruction? x = t.nextInstruction? x := by
  obtain ⟨top, before, after, htop, htop', horder, horder'⟩ := h.exists_split hx
  rw [h.after.nextInstruction?_eq htop' horder', h.before.nextInstruction?_eq htop horder, h.find?_filter]

theorem landing? {x : NodeId} (hx : gone x = false) : t'.landing? x = t.landing? x := by
  obtain ⟨top, before, after, htop, htop', horder, horder'⟩ := h.exists_split hx
  rw [h.after.landing?_eq htop' horder', h.before.landing?_eq htop horder,
    ← List.filter_cons_of_pos (p := fun y => !gone y) (by simp [hx]), h.find?_filter]

theorem instructions : t'.instructions = t.instructions := by
  rw [h.after.instructions_eq, h.before.instructions_eq, h.preOrder root h.root_kept,
    List.filter_filter]
  apply List.filter_congr
  intro x _
  rw [h.isInstruction]
  cases hgone : gone x with
  | true => simp [h.isOther x hgone]
  | false => simp

end Thins

/-- A tree gets thinner where a node that a block held is dissolved and left empty. -/
theorem Dissolves.thins {x : NodeId} (h : t.Dissolves x t') (hheld : (t.parent? x).isSome)
    (hhollow : t'.children x = []) (hother : t'.isInstruction x = false) :
    t.Thins (fun y => y = x) t' where
  before := h.before
  after := h.after
  isInstruction y := by
    by_cases hy : y = x
    · rw [hy, hother, h.isOther]
    · exact h.isInstruction y hy
  isOther y hy := by rw [of_decide_eq_true hy, h.isOther]
  root_kept := decide_eq_false (Ne.symm h.ne_root)
  parent y hy := by
    rw [Option.eq_none_iff_forall_ne_some]
    intro p hp
    rw [h.after.parent_iff] at hp
    have hpx : p ≠ x := fun heq => by
      rw [heq, hhollow] at hp
      exact List.not_mem_nil hp
    rw [h.children p hpx, List.mem_flatMap] at hp
    obtain ⟨child, hchild, hmem⟩ := hp
    split at hmem
    case isTrue =>
      rw [(h.before.parent_iff y x).mpr hmem] at hy
      exact absurd hy (by simp)
    case isFalse =>
      rw [← List.mem_singleton.mp hmem, ← h.before.parent_iff, hy] at hchild
      exact absurd hchild (by simp)
  preOrder y hy := by
    have hfilter := h.preOrder_filter y
    rw [if_neg (of_decide_eq_false hy)] at hfilter
    rw [← hfilter]
    simp only [decide_not]
  loose y hy hloose := by
    rw [of_decide_eq_true hy] at hloose
    rw [hloose] at hheld
    exact absurd hheld (by simp)

/-- A tree gets thinner where labels are taken out of the blocks that hold them. -/
theorem WellFormed.thins_of_labels (wf : t.WellFormed) (wf' : t'.WellFormed) {gone : NodeId → Bool}
    (hinstruction : ∀ x, t'.isInstruction x = t.isInstruction x)
    (hgone : ∀ x, gone x = true → t.isLabel x = true)
    (hchildren : ∀ p, t'.children p = (t.children p).filter fun y => !gone y) : t.Thins gone t' where
  before := wf
  after := wf'
  isInstruction := hinstruction
  isOther x hx := isInstruction_of_isLabel (hgone x hx)
  root_kept := by
    rw [← Bool.not_eq_true]
    intro hroot
    obtain ⟨owner, hlabel⟩ := isLabel_iff.mp (hgone root hroot)
    have hkind := wf.root_kind
    rw [blockKind?, hlabel] at hkind
    exact absurd hkind (by simp)
  parent x hx := by
    rw [Option.eq_none_iff_forall_ne_some]
    intro p hp
    rw [wf'.parent_iff, hchildren, List.mem_filter, ← wf.parent_iff, hx] at hp
    exact absurd hp.1 (by simp)
  preOrder x hx := by
    induction x using wf.induction_below with
    | step x ih =>
      rw [wf.preOrder_eq, wf'.preOrder_eq, hchildren, List.filter_cons_of_pos (by simp [hx]),
        List.filter_flatMap]
      congr 1
      apply flatMap_filter
      case hkept => exact fun child hchild hkept => ih child hchild (by simpa using hkept)
      case hgone =>
        intro child _ hchild
        rw [Bool.not_eq_false'] at hchild
        rw [wf.preOrder_label (hgone child hchild), List.filter_cons_of_neg (by simp [hchild]),
          List.filter_nil]
  loose x hx _ := children_eq_nil_of_isLabel (hgone x hx)

end Tree

end MethodIL
