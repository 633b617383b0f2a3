import Mathlib
import MethodIL.Proofs.Outcome
import MethodIL.Proofs.Tree.Chains
import MethodIL.Tree.Wrap
set_option autoImplicit false

/-!
# Raising the ends of a run

An end of a run is raised to the block that it opens or closes.  Each level takes back one step of a walk
down the first or the last children, so an end that is raised by some levels is what a walk from the
outcome leads to.
-/

namespace MethodIL

open Outcome

namespace Tree

variable {t : Tree}

/-- A walk down the first children leads from a block to a node. -/
def OpenedBy (t : Tree) : NodeId → NodeId → Prop :=
  Relation.ReflTransGen fun block child => t.firstChild? block = some child

/-- A walk down the last children leads from a block to a node. -/
def ClosedBy (t : Tree) : NodeId → NodeId → Prop :=
  Relation.ReflTransGen fun block child => t.lastChild? block = some child

/-! ## Walks down -/

/-- A walk down that gets deeper comes from the block around its end. -/
theorem exists_step_of_walk (t : Tree) {child? : NodeId → Option NodeId} {top node : NodeId}
    (h : Relation.ReflTransGen (fun block child => child? block = some child) top node)
    (hdepth : t.depth top < t.depth node) :
    ∃ block, child? block = some node ∧
      Relation.ReflTransGen (fun block child => child? block = some child) top block := by
  rcases Relation.ReflTransGen.cases_tail h with heq | ⟨block, hwalk, hstep⟩
  · exact absurd hdepth (by simp [heq])
  · exact ⟨block, hstep, hwalk⟩

namespace WellFormed

variable (wf : t.WellFormed)

include wf

theorem depth_le_of_mem_preOrder {top node : NodeId} (h : node ∈ t.preOrder top) :
    t.depth top ≤ t.depth node := by
  rcases wf.mem_preOrder_iff.mp h with rfl | habove
  · exact Nat.le_refl _
  · exact Nat.le_of_lt (wf.depth_lt_of_mem_ancestors habove)

theorem exists_parent_of_depth {node : NodeId} (h : 0 < t.depth node) :
    ∃ p, t.parent? node = some p ∧ t.depth node = t.depth p + 1 := by
  cases hparent : t.parent? node with
  | none =>
    rw [depth, wf.ancestors_of_no_parent hparent] at h
    exact absurd h (by simp)
  | some p => exact ⟨p, rfl, wf.depth_of_parent hparent⟩

/-- What stands at or below a node stands below its parent. -/
theorem mem_preOrder_parent {node p id : NodeId} (hparent : t.parent? node = some p)
    (hid : id ∈ t.preOrder node) : id ∈ t.preOrder p := by
  refine wf.preOrder_subset_of_mem (wf.mem_preOrder_iff.mpr (Or.inr ?_)) id hid
  rw [wf.ancestors_of_parent hparent]
  exact List.mem_cons_self

theorem parent?_of_firstChild? {block child : NodeId} (h : t.firstChild? block = some child) :
    t.parent? child = some block :=
  (wf.parent_iff child block).mpr (List.mem_of_head? h)

theorem parent?_of_lastChild? {block child : NodeId} (h : t.lastChild? block = some child) :
    t.parent? child = some block :=
  (wf.parent_iff child block).mpr (List.mem_of_getLast? h)

section Walk

variable {child? : NodeId → Option NodeId}
  (hchild : ∀ block child, child? block = some child → t.parent? child = some block)

include hchild

/-- A walk down leads to what lies at or below its start. -/
theorem mem_preOrder_of_walk {top node : NodeId}
    (h : Relation.ReflTransGen (fun block child => child? block = some child) top node) :
    node ∈ t.preOrder top := by
  induction h using Relation.ReflTransGen.head_induction_on with
  | refl => exact wf.self_mem_preOrder _
  | head hstep _ ih => exact wf.mem_preOrder_parent (hchild _ _ hstep) ih

/-- A walk down that gets no deeper ends where it starts. -/
theorem eq_of_walk {top node : NodeId}
    (h : Relation.ReflTransGen (fun block child => child? block = some child) top node)
    (hdepth : t.depth node ≤ t.depth top) : top = node := by
  rcases wf.mem_preOrder_iff.mp (wf.mem_preOrder_of_walk hchild h) with heq | habove
  · exact heq.symm
  · exact absurd (wf.depth_lt_of_mem_ancestors habove) (Nat.not_lt_of_le hdepth)

/-- A walk down passes through every depth between those of its ends. -/
theorem exists_between_of_walk {top node : NodeId} {count : Nat}
    (h : Relation.ReflTransGen (fun block child => child? block = some child) top node)
    (hdepth : t.depth top + count ≤ t.depth node) :
    ∃ between, Relation.ReflTransGen (fun block child => child? block = some child) top between ∧
      Relation.ReflTransGen (fun block child => child? block = some child) between node ∧
        t.depth between + count = t.depth node := by
  induction count generalizing node with
  | zero => exact ⟨node, h, .refl, rfl⟩
  | succ count ih =>
    obtain ⟨block, hstep, hwalk⟩ := t.exists_step_of_walk h (by omega)
    have := wf.depth_of_parent (hchild _ _ hstep)
    obtain ⟨between, hupper, hlower, hbetween⟩ := ih hwalk (by omega)
    exact ⟨between, hupper, hlower.tail hstep, by omega⟩

/-- If raising a node takes back a step of walks down, raising it by some levels takes back as many. -/
theorem raiseBy_eq_ok_iff {raise : NodeId → Except EditFault NodeId}
    {raiseBy : Nat → NodeId → Except EditFault NodeId}
    (hraise : ∀ node block, raise node = .ok block ↔ child? block = some node)
    (hzero : ∀ node, raiseBy 0 node = .ok node)
    (hsucc : ∀ count node, raiseBy (count + 1) node = raise node >>= raiseBy count)
    {count : Nat} {node top : NodeId} :
    raiseBy count node = .ok top ↔
      Relation.ReflTransGen (fun block child => child? block = some child) top node ∧
        t.depth top + count = t.depth node := by
  induction count generalizing node with
  | zero =>
    rw [hzero, Except.ok.injEq]
    constructor
    · rintro rfl
      exact ⟨.refl, rfl⟩
    · rintro ⟨hwalk, hdepth⟩
      exact (wf.eq_of_walk hchild hwalk (by omega)).symm
  | succ count ih =>
    rw [hsucc, bind_eq_ok]
    constructor
    · rintro ⟨block, hblock, h⟩
      have hstep := (hraise node block).mp hblock
      obtain ⟨hwalk, hdepth⟩ := ih.mp h
      have := wf.depth_of_parent (hchild _ _ hstep)
      exact ⟨hwalk.tail hstep, by omega⟩
    · rintro ⟨hwalk, hdepth⟩
      obtain ⟨block, hstep, hwalk⟩ := t.exists_step_of_walk hwalk (by omega)
      have := wf.depth_of_parent (hchild _ _ hstep)
      exact ⟨block, (hraise node block).mpr hstep, ih.mpr ⟨hwalk, by omega⟩⟩

end Walk

/-! ## Raising takes back steps -/

theorem raiseFirst_eq_ok_iff {node block : NodeId} :
    t.raiseFirst node = .ok block ↔ t.firstChild? block = some node := by
  constructor
  · intro h
    unfold raiseFirst at h
    split at h
    · exact absurd h (by simp)
    · next hfirst =>
      split at h
      · next parent hparent =>
        obtain rfl := Except.ok.inj h
        obtain ⟨before, after, hchildren⟩ :=
          List.append_of_mem ((wf.parent_iff node parent).mp hparent)
        rw [wf.prev?_eq hchildren] at hfirst
        have hnil : before = [] := by simpa using hfirst
        rw [firstChild?, hchildren, hnil]
        rfl
      · exact absurd h (by simp)
  · intro h
    obtain ⟨after, hchildren⟩ := List.head?_eq_some_iff.mp h
    have hsplit : t.children block = [] ++ node :: after := hchildren
    rw [raiseFirst, wf.prev?_eq hsplit, wf.parent?_of_firstChild? h]
    rfl

theorem raiseLast_eq_ok_iff {node block : NodeId} :
    t.raiseLast node = .ok block ↔ t.lastChild? block = some node := by
  constructor
  · intro h
    unfold raiseLast at h
    split at h
    · exact absurd h (by simp)
    · next hlast =>
      split at h
      · next parent hparent =>
        obtain rfl := Except.ok.inj h
        obtain ⟨before, after, hchildren⟩ :=
          List.append_of_mem ((wf.parent_iff node parent).mp hparent)
        rw [wf.next?_eq hchildren] at hlast
        have hnil : after = [] := by simpa using hlast
        rw [lastChild?, hchildren, hnil, List.getLast?_concat]
      · exact absurd h (by simp)
  · intro h
    obtain ⟨before, hchildren⟩ := List.getLast?_eq_some_iff.mp h
    rw [raiseLast, wf.next?_eq hchildren, wf.parent?_of_lastChild? h]
    rfl

/-- A node that is raised goes up one level. -/
theorem parent?_of_raiseFirst {node block : NodeId} (h : t.raiseFirst node = .ok block) :
    t.parent? node = some block :=
  wf.parent?_of_firstChild? (wf.raiseFirst_eq_ok_iff.mp h)

theorem parent?_of_raiseLast {node block : NodeId} (h : t.raiseLast node = .ok block) :
    t.parent? node = some block :=
  wf.parent?_of_lastChild? (wf.raiseLast_eq_ok_iff.mp h)

theorem raiseFirstBy_eq_ok_iff {count : Nat} {node top : NodeId} :
    t.raiseFirstBy count node = .ok top ↔ t.OpenedBy top node ∧ t.depth top + count = t.depth node :=
  wf.raiseBy_eq_ok_iff (fun _ _ => wf.parent?_of_firstChild?) (fun _ _ => wf.raiseFirst_eq_ok_iff)
    (fun _ => rfl) (fun _ _ => rfl)

theorem raiseLastBy_eq_ok_iff {count : Nat} {node top : NodeId} :
    t.raiseLastBy count node = .ok top ↔ t.ClosedBy top node ∧ t.depth top + count = t.depth node :=
  wf.raiseBy_eq_ok_iff (fun _ _ => wf.parent?_of_lastChild?) (fun _ _ => wf.raiseLast_eq_ok_iff)
    (fun _ => rfl) (fun _ _ => rfl)

theorem mem_preOrder_of_openedBy {top node : NodeId} (h : t.OpenedBy top node) :
    node ∈ t.preOrder top :=
  wf.mem_preOrder_of_walk (fun _ _ => wf.parent?_of_firstChild?) h

theorem mem_preOrder_of_closedBy {top node : NodeId} (h : t.ClosedBy top node) :
    node ∈ t.preOrder top :=
  wf.mem_preOrder_of_walk (fun _ _ => wf.parent?_of_lastChild?) h

/-- A node that a block holds is not on the level of the nodes that no block holds. -/
theorem parent?_eq_none_of_depth {node : NodeId} (h : t.depth node = 0) : t.parent? node = none := by
  refine Option.eq_none_iff_forall_ne_some.mpr fun block hparent => ?_
  have := wf.depth_of_parent hparent
  omega

/-! ## Raising both ends -/

/-- Ends that are raised together lead back to what they are raised from, and one block holds both if
any does. -/
theorem walks_of_raiseTogether {limit : Nat} {start stop first last : NodeId}
    (h : t.raiseTogether limit start stop = .ok (first, last)) (hstart : t.depth start = limit)
    (hstop : t.depth stop = limit) :
    t.OpenedBy first start ∧ t.ClosedBy last stop ∧ t.parent? first = t.parent? last := by
  induction limit generalizing start stop with
  | zero =>
    obtain ⟨rfl, rfl⟩ := Prod.mk.inj (Except.ok.inj h)
    exact ⟨.refl, .refl, by rw [wf.parent?_eq_none_of_depth hstart, wf.parent?_eq_none_of_depth hstop]⟩
  | succ limit ih =>
    rw [raiseTogether] at h
    split at h
    case isTrue heq =>
      obtain ⟨rfl, rfl⟩ := Prod.mk.inj (Except.ok.inj h)
      exact ⟨.refl, .refl, heq⟩
    case isFalse =>
      obtain ⟨p, hraise, h⟩ := bind_eq_ok.mp h
      obtain ⟨q, hraise', h⟩ := bind_eq_ok.mp h
      have := wf.depth_of_parent (wf.parent?_of_raiseFirst hraise)
      have := wf.depth_of_parent (wf.parent?_of_raiseLast hraise')
      obtain ⟨hopened, hclosed, hparent⟩ := ih h (by omega) (by omega)
      exact ⟨hopened.tail (wf.raiseFirst_eq_ok_iff.mp hraise),
        hclosed.tail (wf.raiseLast_eq_ok_iff.mp hraise'), hparent⟩

theorem walks_of_runEnds {start stop first last : NodeId}
    (h : t.runEnds start stop = .ok (first, last)) :
    t.OpenedBy first start ∧ t.ClosedBy last stop ∧ t.parent? first = t.parent? last := by
  obtain ⟨start', hraise, h⟩ := bind_eq_ok.mp h
  obtain ⟨stop', hraise', h⟩ := bind_eq_ok.mp h
  obtain ⟨hopened, hdepth⟩ := wf.raiseFirstBy_eq_ok_iff.mp hraise
  obtain ⟨hclosed, hdepth'⟩ := wf.raiseLastBy_eq_ok_iff.mp hraise'
  obtain ⟨hopened', hclosed', hparent⟩ := wf.walks_of_raiseTogether h (by omega) (by omega)
  exact ⟨hopened'.trans hopened, hclosed'.trans hclosed, hparent⟩

/-- Wrapping comes to a block once its run is found. -/
theorem wrap_eq {start stop first last parent : NodeId} {kind : BlockKind} {before run after : List NodeId}
    (hbody : kind ≠ .body) (hlinks : kind.isLinked = false)
    (hends : t.runEnds start stop = .ok (first, last)) (hparent : t.parent? first = some parent)
    (hsplit : splitRun? first last (t.children parent) = some (before, run, after)) :
    t.wrap start stop kind =
      if before.isEmpty && after.isEmpty && (t.blockKind? parent).any (·.sameVariant kind) then
        .ok (parent, false, t)
      else .ok (⟨t.size⟩, true, (t.enclose parent before run after kind).2) := by
  obtain ⟨hopened, hclosed, hsame⟩ := wf.walks_of_runEnds hends
  have hcontent : ∀ {top node : NodeId}, t.parent? top = some parent → node ∈ t.preOrder top →
      ∃ content, t.content node = .ok content := by
    intro top node htop hnode
    have hexists := wf.exists_of_mem_preOrder (wf.exists_of_parent htop).1 hnode
    rw [← isSome_content?_iff, Option.isSome_iff_exists] at hexists
    obtain ⟨content, hcontent⟩ := hexists
    exact ⟨content, by rw [Tree.content, hcontent]⟩
  obtain ⟨content, hstart⟩ := hcontent hparent (wf.mem_preOrder_of_openedBy hopened)
  obtain ⟨content', hstop⟩ := hcontent (hsame.symm.trans hparent) (wf.mem_preOrder_of_closedBy hclosed)
  unfold wrap
  dsimp only
  rw [if_neg (by simpa using hbody), if_neg (by simp [hlinks]), hstart, ok_bind, hstop, ok_bind, hends,
    ok_bind]
  simp only [hparent, hsplit]
  split <;> rfl

end WellFormed

end Tree

end MethodIL
