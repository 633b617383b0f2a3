import Mathlib
import MethodIL.Proofs.Lifting.Regions
set_option autoImplicit false

/-!
# When a range can be wrapped

A range of instructions can be wrapped as soon as it is nested with what every block covers, or apart
from it.  A block that is opened by the first instruction of the range and does not hold the last one
then lies inside the range, so nothing stands in front of that instruction in it, and the end of the run
can be raised to it.  Both ends meet in the lowest block that holds them: if this block covers nothing
but the range, it takes the part of a new one whenever it is of the same variant.
-/

namespace MethodIL

open Outcome

/-- A run is found if its last item does not stand in front of its first. -/
theorem exists_splitRun? {α : Type} [DecidableEq α] {first last : α} {before rest : List α}
    (hfirst : first ∉ before) (hlast : last ∈ first :: rest) :
    ∃ parts, splitRun? first last (before ++ first :: rest) = some parts := by
  have htail : (before ++ first :: rest).dropWhile (· ≠ first) = first :: rest := by
    rw [List.dropWhile_append_of_pos]
    · simp
    · rintro a ha
      simp only [ne_eq, decide_not, Bool.not_eq_true', decide_eq_false_iff_not]
      rintro rfl
      exact hfirst ha
  unfold splitRun?
  dsimp only
  rw [htail]
  split
  case h_1 hnil =>
    rw [List.dropWhile_eq_nil_iff] at hnil
    exact absurd (hnil last hlast) (by simp)
  case h_2 => exact ⟨_, rfl⟩

namespace Tree

variable {t t' : Tree}

/-- Every node of the body but the root stands for instructions. -/
def Solid (t : Tree) : Prop := ∀ id first last, t.Covers id first last → id ≠ root → first < last

namespace WellFormed

variable (wf : t.WellFormed)

include wf

/-! ## Siblings -/

/-- A node above a node of the body is a node of the body. -/
theorem mem_body_of_above {id above : NodeId} (hid : id ∈ t.preOrder root)
    (habove : id ∈ t.preOrder above) : above ∈ t.preOrder root := by
  rcases wf.mem_preOrder_or_of_common hid habove with h | h
  · exact h
  · rcases wf.mem_preOrder_iff.mp h with rfl | h
    · exact wf.self_mem_preOrder _
    · rw [wf.ancestors_of_no_parent wf.root_parent] at h
      exact absurd h List.not_mem_nil

/-- Every node of the body but the root stands below another. -/
theorem exists_parent_of_mem_body {id : NodeId} (hid : id ∈ t.preOrder root) (hne : id ≠ root) :
    ∃ p, t.parent? id = some p := by
  cases hparent : t.parent? id with
  | some p => exact ⟨p, rfl⟩
  | none =>
    have habove := (wf.mem_preOrder_iff.mp hid).resolve_left hne
    rw [wf.ancestors_of_no_parent hparent] at habove
    exact absurd habove List.not_mem_nil

theorem mem_body_of_getElem? {k : Nat} {id : NodeId} (h : t.instructions[k]? = some id) :
    id ∈ t.preOrder root :=
  wf.mem_body_of_covers (wf.covers_instruction h)

/-- What a child covers stands behind what the block starts with and the children in front cover. -/
theorem covers_of_child {p c : NodeId} {before after : List NodeId} {first last first' last' : Nat}
    (hchildren : t.children p = before ++ c :: after) (hp : t.Covers p first last)
    (hc : t.Covers c first' last') :
    first' = first + (before.flatMap t.preOrder).countP t.isInstruction ∧
      last = last' + (after.flatMap t.preOrder).countP t.isInstruction := by
  obtain ⟨left, right, horder, hblock, hother⟩ :=
    wf.exists_split_of_child hchildren (wf.mem_body_of_covers hc)
  obtain ⟨rfl, rfl⟩ := hp.unique (wf.covers_of_split p left right horder)
  obtain ⟨rfl, rfl⟩ := hc.unique (wf.covers_of_split c (left ++ p :: before.flatMap t.preOrder)
    (after.flatMap t.preOrder ++ right) (by rw [horder, hblock]; simp))
  rw [hblock]
  simp only [List.countP_append, List.countP_cons, hother, Bool.false_eq_true, if_false]
  omega

/-- In a solid tree, nodes that hold no instructions are no nodes. -/
theorem eq_nil_of_countP {p : NodeId} {nodes : List NodeId} (hsolid : t.Solid)
    (hp : p ∈ t.preOrder root) (hnodes : ∀ c ∈ nodes, c ∈ t.children p)
    (hnone : (nodes.flatMap t.preOrder).countP t.isInstruction = 0) : nodes = [] := by
  refine List.eq_nil_iff_forall_not_mem.mpr fun c hc => ?_
  have hparent := (wf.parent_iff c p).mpr (hnodes c hc)
  have hbelow : c ∈ t.preOrder p :=
    wf.mem_preOrder_iff.mpr (Or.inr (by rw [wf.ancestors_of_parent hparent]; exact List.mem_cons_self))
  obtain ⟨first, last, hcovers⟩ := wf.exists_covers (wf.preOrder_subset_of_mem hp c hbelow)
  have hne : c ≠ root := by
    rintro rfl
    rw [wf.root_parent] at hparent
    exact absurd hparent (by simp)
  have hlt := hsolid c first last hcovers hne
  obtain ⟨-, -, -, -, hlast⟩ := wf.coverage?_eq_some_iff.mp hcovers
  have hown : (t.preOrder c).countP t.isInstruction = 0 := by
    rw [List.countP_eq_zero] at hnone ⊢
    exact fun id hid => hnone id (List.mem_flatMap.mpr ⟨c, hc, hid⟩)
  omega

/-- In a solid tree, nothing stands in front of a child that starts where its block starts. -/
theorem eq_nil_of_start {p c : NodeId} {before after : List NodeId} {first last first' last' : Nat}
    (hsolid : t.Solid) (hchildren : t.children p = before ++ c :: after) (hp : t.Covers p first last)
    (hc : t.Covers c first' last') (hle : first' ≤ first) : before = [] := by
  obtain ⟨hfirst, -⟩ := wf.covers_of_child hchildren hp hc
  exact wf.eq_nil_of_countP hsolid (wf.mem_body_of_covers hp) (fun b hb => by simp [hchildren, hb])
    (by omega)

/-- In a solid tree, nothing stands behind a child that ends where its block ends. -/
theorem eq_nil_of_stop {p c : NodeId} {before after : List NodeId} {first last first' last' : Nat}
    (hsolid : t.Solid) (hchildren : t.children p = before ++ c :: after) (hp : t.Covers p first last)
    (hc : t.Covers c first' last') (hle : last ≤ last') : after = [] := by
  obtain ⟨-, hlast⟩ := wf.covers_of_child hchildren hp hc
  exact wf.eq_nil_of_countP hsolid (wf.mem_body_of_covers hp) (fun b hb => by simp [hchildren, hb])
    (by omega)

/-- A child that holds an instruction does not stand in front of one that holds an earlier
instruction. -/
theorem end_notMem_before {p a b start stop : NodeId} {before after : List NodeId} {i j : Nat}
    (hchildren : t.children p = before ++ a :: after) (hstart : t.instructions[i]? = some start)
    (hstop : t.instructions[j]? = some stop) (hle : i ≤ j) (ha : start ∈ t.preOrder a)
    (hb : stop ∈ t.preOrder b) : b ∉ before := by
  intro hmem
  obtain ⟨left, middle, rfl⟩ := List.append_of_mem hmem
  have hchildren' : t.children p = left ++ b :: (middle ++ a :: after) := by rw [hchildren]; simp
  obtain ⟨first, last, hcovers⟩ :=
    wf.exists_covers (wf.mem_body_of_above (wf.mem_body_of_getElem? hstart) ha)
  obtain ⟨first', last', hcovers'⟩ :=
    wf.exists_covers (wf.mem_body_of_above (wf.mem_body_of_getElem? hstop) hb)
  obtain ⟨first₀, last₀, hp⟩ : ∃ first₀ last₀, t.Covers p first₀ last₀ := by
    refine wf.exists_covers (wf.mem_body_of_above (wf.mem_body_of_covers hcovers) ?_)
    refine wf.mem_preOrder_iff.mpr (Or.inr ?_)
    rw [wf.ancestors_of_parent ((wf.parent_iff a p).mpr (by simp [hchildren]))]
    exact List.mem_cons_self
  have hin := (wf.mem_preOrder_iff_covered hcovers hstart).mp ha
  have hin' := (wf.mem_preOrder_iff_covered hcovers' hstop).mp hb
  obtain ⟨hfirst, -⟩ := wf.covers_of_child hchildren hp hcovers
  obtain ⟨hfirst', -⟩ := wf.covers_of_child hchildren' hp hcovers'
  obtain ⟨-, -, -, -, hlast'⟩ := wf.coverage?_eq_some_iff.mp hcovers'
  rw [List.flatMap_append, List.flatMap_cons, List.countP_append, List.countP_append] at hfirst
  omega

/-! ## The lowest block that holds both ends -/

/-- Ends at the same depth are raised no further than to a block that holds both. -/
theorem mem_ancestors_of_raiseTogether {limit : Nat} {start stop first last block : NodeId}
    (h : t.raiseTogether limit start stop = .ok (first, last)) (hdepth : t.depth start = t.depth stop)
    (hstart : block ∈ t.ancestors start) (hstop : block ∈ t.ancestors stop) :
    block ∈ t.ancestors first := by
  induction limit generalizing start stop with
  | zero =>
    obtain ⟨rfl, -⟩ := Prod.mk.inj (Except.ok.inj h)
    exact hstart
  | succ limit ih =>
    rw [raiseTogether] at h
    split at h
    case isTrue =>
      obtain ⟨rfl, -⟩ := Prod.mk.inj (Except.ok.inj h)
      exact hstart
    case isFalse hne =>
      obtain ⟨p, hraise, h⟩ := bind_eq_ok.mp h
      obtain ⟨q, hraise', h⟩ := bind_eq_ok.mp h
      have hp := wf.parent?_of_raiseFirst hraise
      have hq := wf.parent?_of_raiseLast hraise'
      have hdepth' : t.depth p = t.depth q := by
        have := wf.depth_of_parent hp
        have := wf.depth_of_parent hq
        omega
      rw [wf.ancestors_of_parent hp, List.mem_cons] at hstart
      rw [wf.ancestors_of_parent hq, List.mem_cons] at hstop
      rw [hp, hq, Option.some.injEq] at hne
      rcases hstart with rfl | hstart
      · rcases hstop with rfl | hstop
        · exact absurd rfl hne
        · exact absurd hdepth' (Nat.ne_of_lt (wf.depth_lt_of_mem_ancestors hstop))
      · rcases hstop with rfl | hstop
        · exact absurd hdepth' (Nat.ne_of_gt (wf.depth_lt_of_mem_ancestors hstart))
        · exact ih h hdepth' hstart hstop

/-- The run that two nodes stand for lies in every block that holds both. -/
theorem mem_ancestors_of_runEnds {start stop first last block : NodeId}
    (h : t.runEnds start stop = .ok (first, last)) (hstart : block ∈ t.ancestors start)
    (hstop : block ∈ t.ancestors stop) : block ∈ t.ancestors first := by
  obtain ⟨start', hraise, h⟩ := bind_eq_ok.mp h
  obtain ⟨stop', hraise', h⟩ := bind_eq_ok.mp h
  obtain ⟨hopened, hdepth⟩ := wf.raiseFirstBy_eq_ok_iff.mp hraise
  obtain ⟨hclosed, hdepth'⟩ := wf.raiseLastBy_eq_ok_iff.mp hraise'
  have hlt := wf.depth_lt_of_mem_ancestors hstart
  have hlt' := wf.depth_lt_of_mem_ancestors hstop
  -- a block above a node stands above all nodes on the way that lie deeper
  have habove : ∀ {node top : NodeId}, block ∈ t.ancestors node → node ∈ t.preOrder top →
      t.depth block < t.depth top → block ∈ t.ancestors top := by
    intro node top hblock htop hdeep
    rcases wf.mem_preOrder_or_of_common htop (wf.mem_preOrder_iff.mpr (Or.inr hblock)) with hin | hin
    · rcases wf.mem_preOrder_iff.mp hin with rfl | hin
      · exact absurd hdeep (Nat.lt_irrefl _)
      · exact absurd hdeep (Nat.lt_asymm (wf.depth_lt_of_mem_ancestors hin))
    · rcases wf.mem_preOrder_iff.mp hin with rfl | hin
      · exact absurd hdeep (Nat.lt_irrefl _)
      · exact hin
  exact wf.mem_ancestors_of_raiseTogether h (by omega)
    (habove hstart (wf.mem_preOrder_of_openedBy hopened) (by omega))
    (habove hstop (wf.mem_preOrder_of_closedBy hclosed) (by omega))

/-- A block stands above the instructions that it covers. -/
theorem mem_ancestors_of_covers {block id : NodeId} {first last k : Nat}
    (hcovers : t.Covers block first last) (hblock : t.isInstruction block = false)
    (hid : t.instructions[k]? = some id) (hfirst : first ≤ k) (hlast : k < last) :
    block ∈ t.ancestors id := by
  have hmem := (wf.mem_preOrder_iff_covered hcovers hid).mpr ⟨hfirst, hlast⟩
  refine (wf.mem_preOrder_iff.mp hmem).resolve_left ?_
  rintro rfl
  obtain ⟨-, -, -, hinstruction, -⟩ := wf.exists_of_getElem?_instructions hid
  rw [hblock] at hinstruction
  exact absurd hinstruction (by simp)

/-- If a block covers nothing but the range, and so do only blocks of the variant that is asked for
among those inside it, then one of them is taken. -/
theorem isNew_eq_false {start stop block region : NodeId} {kind : BlockKind} {isNew : Bool} {i j : Nat}
    (hsolid : t.Solid) (h : Wraps t start stop kind block isNew t')
    (hstart : t.instructions[i]? = some start) (hstop : t.instructions[j]? = some stop) (hle : i ≤ j)
    (hregion : t.Covers region i (j + 1)) (hblock : t.isInstruction region = false)
    (hinner : ∀ id kind', id ∈ t.preOrder region → t.blockKind? id = some kind' →
      t.Covers id i (j + 1) → kind'.sameVariant kind = true) : isNew = false := by
  cases h with
  | reused => rfl
  | @enclosed first last parent before run after hends hparent hsplit hother =>
    -- both ends stand below the region, so the run does as well
    have hrun := wf.mem_ancestors_of_runEnds hends
      (wf.mem_ancestors_of_covers hregion hblock hstart (Nat.le_refl _) (Nat.lt_succ_of_le hle))
      (wf.mem_ancestors_of_covers hregion hblock hstop hle (Nat.lt_succ_self _))
    rw [wf.ancestors_of_parent hparent, List.mem_cons] at hrun
    have hinside : parent ∈ t.preOrder region :=
      wf.mem_preOrder_iff.mpr (hrun.imp_left Eq.symm)
    obtain ⟨⟨_, hfirst⟩, _, hlast⟩ := wf.covers_of_runEnds hends (wf.covers_instruction hstart)
      (wf.covers_instruction hstop)
    obtain ⟨hchildren, hhead, hend⟩ := splitRun?_eq_some hsplit
    obtain ⟨tail, rfl⟩ := List.head?_eq_some_iff.mp hhead
    obtain ⟨front, hfront⟩ := List.getLast?_eq_some_iff.mp hend
    have hchildren₁ : t.children parent = before ++ first :: (tail ++ after) := by
      rw [hchildren]; simp
    have hchildren₂ : t.children parent = (before ++ front) ++ last :: after := by
      rw [hchildren, hfront]; simp
    obtain ⟨u, v, hcovers⟩ := wf.exists_covers (wf.mem_body_of_above
      (wf.mem_body_of_covers hfirst) (wf.mem_preOrder_parent hparent (wf.self_mem_preOrder _)))
    obtain ⟨hstarts, -⟩ := wf.covers_of_child hchildren₁ hcovers hfirst
    obtain ⟨-, hstops⟩ := wf.covers_of_child hchildren₂ hcovers hlast
    obtain ⟨hu, hv⟩ := wf.covers_inside hinside hregion hcovers (by omega)
    obtain rfl : u = i := by omega
    obtain rfl : v = j + 1 := by omega
    obtain ⟨kind', hkind'⟩ := exists_kind_of_mem_children
      ((wf.parent_iff first parent).mp hparent)
    have hsame := hother (wf.eq_nil_of_start hsolid hchildren₁ hcovers hfirst (Nat.le_refl _))
      (wf.eq_nil_of_stop hsolid hchildren₂ hcovers hlast (Nat.le_refl _)) kind' hkind'
    rw [hinner parent kind' hinside hkind' hcovers] at hsame
    exact absurd hsame (by simp)

/-! ## Success -/

section Nested

variable {start stop : NodeId} {i j : Nat} (hsolid : t.Solid)
  (hstart : t.instructions[i]? = some start) (hstop : t.instructions[j]? = some stop)
  (hle : i ≤ j) (hnested : ∀ id first last, t.Covers id first last → id ≠ root →
    Laminar (i, j + 1) (first, last))

include hsolid hstart hstop hle hnested

/-- A block that holds the start of the range but not its end is opened by the start. -/
theorem raiseFirst_eq_ok {node p : NodeId} (hnode : start ∈ t.preOrder node)
    (hparent : t.parent? node = some p) (hapart : stop ∉ t.preOrder p) :
    t.raiseFirst node = .ok p := by
  have hbody := wf.mem_body_of_getElem? hstart
  have hp := wf.mem_preOrder_parent hparent hnode
  obtain ⟨first, last, hcovers⟩ := wf.exists_covers (wf.mem_body_of_above hbody hnode)
  obtain ⟨first', last', hcovers'⟩ := wf.exists_covers (wf.mem_body_of_above hbody hp)
  have hin := (wf.mem_preOrder_iff_covered hcovers hstart).mp hnode
  have hin' := (wf.mem_preOrder_iff_covered hcovers' hstart).mp hp
  rw [wf.mem_preOrder_iff_covered hcovers' hstop] at hapart
  have hlaminar := hnested p first' last' hcovers' (by
    rintro rfl
    exact hapart ((wf.mem_preOrder_iff_covered hcovers' hstop).mp (wf.mem_body_of_getElem? hstop)))
  simp only [Laminar] at hlaminar
  obtain ⟨before, after, hchildren⟩ := List.append_of_mem ((wf.parent_iff node p).mp hparent)
  have hfront := wf.eq_nil_of_start hsolid hchildren hcovers' hcovers (by omega)
  rw [raiseFirst, wf.prev?_eq hchildren, hfront, hparent]
  rfl

/-- A block that holds the end of the range but not its start is closed by the end. -/
theorem raiseLast_eq_ok {node p : NodeId} (hnode : stop ∈ t.preOrder node)
    (hparent : t.parent? node = some p) (hapart : start ∉ t.preOrder p) :
    t.raiseLast node = .ok p := by
  have hbody := wf.mem_body_of_getElem? hstop
  have hp := wf.mem_preOrder_parent hparent hnode
  obtain ⟨first, last, hcovers⟩ := wf.exists_covers (wf.mem_body_of_above hbody hnode)
  obtain ⟨first', last', hcovers'⟩ := wf.exists_covers (wf.mem_body_of_above hbody hp)
  have hin := (wf.mem_preOrder_iff_covered hcovers hstop).mp hnode
  have hin' := (wf.mem_preOrder_iff_covered hcovers' hstop).mp hp
  rw [wf.mem_preOrder_iff_covered hcovers' hstart] at hapart
  have hlaminar := hnested p first' last' hcovers' (by
    rintro rfl
    exact hapart ((wf.mem_preOrder_iff_covered hcovers' hstart).mp (wf.mem_body_of_getElem? hstart)))
  simp only [Laminar] at hlaminar
  obtain ⟨before, after, hchildren⟩ := List.append_of_mem ((wf.parent_iff node p).mp hparent)
  have hbehind := wf.eq_nil_of_stop hsolid hchildren hcovers' hcovers (by omega)
  rw [raiseLast, wf.next?_eq hchildren, hbehind, hparent]
  rfl

omit hsolid hstart hle hnested in
/-- A block no deeper than an instruction is not above it unless it is strictly less deep. -/
theorem notMem_of_depth_le {node p : NodeId} (hparent : t.parent? node = some p)
    (hdepth : t.depth stop ≤ t.depth p) : stop ∉ t.preOrder p := by
  intro hmem
  rcases wf.mem_preOrder_iff.mp hmem with rfl | habove
  · obtain ⟨-, -, -, hinstruction, -⟩ := wf.exists_of_getElem?_instructions hstop
    have hchild := (wf.parent_iff node stop).mp hparent
    rw [children_eq_nil_of_isInstruction hinstruction] at hchild
    exact absurd hchild List.not_mem_nil
  · exact absurd (wf.depth_lt_of_mem_ancestors habove) (Nat.not_lt_of_le hdepth)

/-- The start can be raised to the depth of the end. -/
theorem exists_raiseFirstBy {count : Nat} {node : NodeId} (hnode : start ∈ t.preOrder node)
    (hdepth : count ≤ t.depth node - t.depth stop) : ∃ top, t.raiseFirstBy count node = .ok top := by
  induction count generalizing node with
  | zero => exact ⟨node, rfl⟩
  | succ count ih =>
    obtain ⟨p, hparent, hdepth'⟩ := wf.exists_parent_of_depth (by omega : 0 < t.depth node)
    have hraise := wf.raiseFirst_eq_ok hsolid hstart hstop hle hnested hnode hparent
      (wf.notMem_of_depth_le hstop hparent (by omega))
    obtain ⟨top, htop⟩ := ih (wf.mem_preOrder_parent hparent hnode) (by omega)
    exact ⟨top, by rw [raiseFirstBy, hraise, ok_bind, htop]⟩

/-- The end can be raised to the depth of the start. -/
theorem exists_raiseLastBy {count : Nat} {node : NodeId} (hnode : stop ∈ t.preOrder node)
    (hdepth : count ≤ t.depth node - t.depth start) : ∃ top, t.raiseLastBy count node = .ok top := by
  induction count generalizing node with
  | zero => exact ⟨node, rfl⟩
  | succ count ih =>
    obtain ⟨p, hparent, hdepth'⟩ := wf.exists_parent_of_depth (by omega : 0 < t.depth node)
    have hraise := wf.raiseLast_eq_ok hsolid hstart hstop hle hnested hnode hparent
      (wf.notMem_of_depth_le hstart hparent (by omega))
    obtain ⟨top, htop⟩ := ih (wf.mem_preOrder_parent hparent hnode) (by omega)
    exact ⟨top, by rw [raiseLastBy, hraise, ok_bind, htop]⟩

/-- Ends at the same depth can be raised until one block holds both. -/
theorem exists_raiseTogether {limit : Nat} {node node' : NodeId} (hnode : start ∈ t.preOrder node)
    (hnode' : stop ∈ t.preOrder node') (hdepth : t.depth node = limit)
    (hdepth' : t.depth node' = limit) (hlimit : 0 < limit) :
    ∃ first last p, t.raiseTogether limit node node' = .ok (first, last) ∧
      t.parent? first = some p ∧ t.parent? last = some p ∧ start ∈ t.preOrder first ∧
        stop ∈ t.preOrder last := by
  induction limit generalizing node node' with
  | zero => exact absurd hlimit (Nat.lt_irrefl 0)
  | succ limit ih =>
    obtain ⟨p, hparent, hp⟩ := wf.exists_parent_of_depth (by omega : 0 < t.depth node)
    obtain ⟨q, hparent', hq⟩ := wf.exists_parent_of_depth (by omega : 0 < t.depth node')
    have hin := wf.mem_preOrder_parent hparent hnode
    have hin' := wf.mem_preOrder_parent hparent' hnode'
    rw [raiseTogether]
    by_cases heq : t.parent? node = t.parent? node'
    · rw [if_pos heq]
      exact ⟨node, node', p, rfl, hparent, heq.symm.trans hparent, hnode, hnode'⟩
    · rw [if_neg heq]
      rw [hparent, hparent', Option.some.injEq] at heq
      have hunique : ∀ {id : NodeId}, id ∈ t.preOrder p → id ∈ t.preOrder q → False :=
        fun hidp hidq => heq (wf.eq_of_depth_eq ((wf.mem_preOrder_iff.mp hidp).imp_left Eq.symm)
          ((wf.mem_preOrder_iff.mp hidq).imp_left Eq.symm) (by omega))
      have hraise := wf.raiseFirst_eq_ok hsolid hstart hstop hle hnested hnode hparent
        fun hmem => hunique hmem hin'
      have hraise' := wf.raiseLast_eq_ok hsolid hstart hstop hle hnested hnode' hparent'
        fun hmem => hunique hin hmem
      have hpositive : 0 < limit := by
        by_contra hzero
        -- at depth zero there is only the root
        have hroot : ∀ {id top : NodeId}, id ∈ t.preOrder root → id ∈ t.preOrder top →
            t.depth top = 0 → top = root := by
          intro id top hbody htop hdepth
          refine wf.eq_of_depth_eq ((wf.mem_preOrder_iff.mp htop).imp_left Eq.symm)
            ((wf.mem_preOrder_iff.mp hbody).imp_left Eq.symm) ?_
          rw [hdepth, depth, wf.ancestors_of_no_parent wf.root_parent]
          rfl
        exact heq ((hroot (wf.mem_body_of_getElem? hstart) hin (by omega)).trans
          (hroot (wf.mem_body_of_getElem? hstop) hin' (by omega)).symm)
      obtain ⟨first, last, r, hdone, hrest⟩ := ih hin hin' (by omega) (by omega) hpositive
      exact ⟨first, last, r, by rw [hraise, ok_bind, hraise', ok_bind, hdone], hrest⟩

/-- The ends of the range can be raised to siblings. -/
theorem exists_runEnds : ∃ first last p, t.runEnds start stop = .ok (first, last) ∧
    t.parent? first = some p ∧ t.parent? last = some p ∧ start ∈ t.preOrder first ∧
      stop ∈ t.preOrder last := by
  have hdeep : ∀ {k : Nat} {id : NodeId}, t.instructions[k]? = some id → 0 < t.depth id := by
    intro k id hid
    have hbody := wf.mem_body_of_getElem? hid
    rcases wf.mem_preOrder_iff.mp hbody with rfl | habove
    · obtain ⟨-, -, -, hinstruction, -⟩ := wf.exists_of_getElem?_instructions hid
      rw [wf.isInstruction_root] at hinstruction
      exact absurd hinstruction (by simp)
    · exact Nat.zero_lt_of_lt (wf.depth_lt_of_mem_ancestors habove)
  have := hdeep hstart
  have := hdeep hstop
  obtain ⟨top, hraise⟩ := wf.exists_raiseFirstBy hsolid hstart hstop hle hnested
    (wf.self_mem_preOrder start) (Nat.le_refl _)
  obtain ⟨top', hraise'⟩ := wf.exists_raiseLastBy hsolid hstart hstop hle hnested
    (wf.self_mem_preOrder stop) (Nat.le_refl _)
  obtain ⟨hopened, hdepth⟩ := wf.raiseFirstBy_eq_ok_iff.mp hraise
  obtain ⟨hclosed, hdepth'⟩ := wf.raiseLastBy_eq_ok_iff.mp hraise'
  obtain ⟨first, last, p, hdone, hrest⟩ := wf.exists_raiseTogether hsolid hstart hstop hle hnested
    (wf.mem_preOrder_of_openedBy hopened) (wf.mem_preOrder_of_closedBy hclosed)
    (by omega : t.depth top = min (t.depth start) (t.depth stop)) (by omega) (by omega)
  exact ⟨first, last, p, by rw [runEnds, hraise, ok_bind, hraise', ok_bind, hdone], hrest⟩

/-- A range that is nested with what every block covers, or apart from it, can be wrapped. -/
theorem exists_wrap {kind : BlockKind} (hbody : kind ≠ .body) (hlinks : kind.isLinked = false) :
    ∃ wrapped, t.wrap start stop kind = .ok wrapped := by
  obtain ⟨first, last, p, hends, hparent, hparent', hfirst, hlast⟩ :=
    wf.exists_runEnds hsolid hstart hstop hle hnested
  -- the last node of the run does not stand in front of the first
  obtain ⟨before, after, hchildren⟩ := List.append_of_mem ((wf.parent_iff first p).mp hparent)
  have hmem := (wf.parent_iff last p).mp hparent'
  have hnotBefore := wf.end_notMem_before hchildren hstart hstop hle hfirst hlast
  rw [hchildren, List.mem_append] at hmem
  obtain ⟨⟨front, run, behind⟩, hsplit⟩ :=
    exists_splitRun? (wf.notMem_before hchildren) (hmem.resolve_left hnotBefore)
  rw [← hchildren] at hsplit
  rw [wf.wrap_eq hbody hlinks hends hparent hsplit]
  split <;> exact ⟨_, rfl⟩

end Nested

end WellFormed

end Tree

end MethodIL
