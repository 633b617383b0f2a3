import Mathlib
import MethodIL.Proofs.Tree.Reachable
import MethodIL.Proofs.Lifting.Wrapping
set_option autoImplicit false

/-!
# Which runs can be wrapped

Two nodes stand for a run of children of a block if walks down the first children and down the last
children lead from the ends of the run to them.  Blocks that hold such a run for the same two nodes lie
one inside the other, and the deepest of them is the one where a run is wrapped.  Raising an end by one
level takes back one step of a walk, so the ends of the deepest run are what the raised ends meet in:
they stop no deeper, because a run in a deeper block would have been found first, and they do not pass
it, because both ends are raised by the same number of levels.
-/

namespace MethodIL

open Outcome

/-- A run of a list without repetitions is what is found between its ends. -/
theorem splitRun?_eq {α : Type} [DecidableEq α] {first last : α} {before run after : List α}
    (hnodup : (before ++ run ++ after).Nodup) (hfirst : run.head? = some first)
    (hlast : run.getLast? = some last) :
    splitRun? first last (before ++ run ++ after) = some (before, run, after) := by
  obtain ⟨tail, hrun⟩ := List.head?_eq_some_iff.mp hfirst
  obtain ⟨front, hrun'⟩ := List.getLast?_eq_some_iff.mp hlast
  have hbefore : ∀ a ∈ before, a ≠ first := fun a ha =>
    ne_of_mem_of_not_mem ha (notMem_beside_of_nodup hnodup (List.mem_of_head? hfirst)).1
  have hfront : ∀ a ∈ front, a ≠ last := by
    have hcut : (before ++ front) ++ [last] ++ after = before ++ run ++ after := by simp [hrun']
    have hapart := notMem_beside_of_nodup (hcut ▸ hnodup) (List.mem_singleton_self last)
    exact fun a ha => ne_of_mem_of_not_mem (List.mem_append_right before ha) hapart.1
  have hcut : before ++ run ++ after = before ++ first :: (tail ++ after) := by simp [hrun]
  have htail : first :: (tail ++ after) = front ++ last :: after := by
    rw [← List.cons_append, ← hrun, hrun']
    simp
  rw [hcut]
  simp only [splitRun?]
  rw [List.dropWhile_append_of_pos (by simpa using hbefore),
    List.takeWhile_append_of_pos (by simpa using hbefore), List.dropWhile_cons_of_neg (by simp),
    List.takeWhile_cons_of_neg (by simp), htail, List.dropWhile_append_of_pos (by simpa using hfront),
    List.takeWhile_append_of_pos (by simpa using hfront), List.dropWhile_cons_of_neg (by simp),
    List.takeWhile_cons_of_neg (by simp), hrun']
  simp

namespace Tree

variable {t t' : Tree}

/-- Two nodes stand for a run of children of a block: the one opens the first of them, the other closes
the last. -/
structure RunBetween (t : Tree) (start stop block : NodeId) (before run after : List NodeId) :
    Prop where
  children : t.children block = before ++ run ++ after
  opened : ∃ first, run.head? = some first ∧ t.OpenedBy first start
  closed : ∃ last, run.getLast? = some last ∧ t.ClosedBy last stop

/-- No block that holds a run for the two nodes lies deeper. -/
structure DeepestRun (t : Tree) (start stop block : NodeId) (before run after : List NodeId) : Prop
    extends t.RunBetween start stop block before run after where
  deepest : ∀ block' before' run' after', t.RunBetween start stop block' before' run' after' →
    t.depth block' ≤ t.depth block

/-- All that wrapping a run in a new block changes: there is one more node, it takes the place of the
run, and the run is what it holds. -/
structure Encloses (t t' : Tree) (block : NodeId) (before run after : List NodeId)
    (kind : BlockKind) : Prop where
  size : t'.size = t.size + 1
  header : t'.header = t.header
  payload : ∀ x, t'.payload? x = if x = ⟨t.size⟩ then some (.block kind []) else t.payload? x
  children : ∀ x, t'.children x =
    if x = block then before ++ ⟨t.size⟩ :: after else if x = ⟨t.size⟩ then run else t.children x
  parent : ∀ x, t'.parent? x =
    if x = ⟨t.size⟩ then some block else if x ∈ run then some ⟨t.size⟩ else t.parent? x

namespace WellFormed

variable (wf : t.WellFormed)

include wf

section Held

variable {start stop first last block : NodeId} (hfirst : t.parent? first = some block)
  (hlast : t.parent? last = some block) (hopened : t.OpenedBy first start)
  (hclosed : t.ClosedBy last stop)

include hfirst hlast hopened hclosed

/-- Ends below the ends of a run are raised no further than to the run. -/
theorem exists_raiseTogether_of_walks {limit : Nat} (hstart : t.depth start = limit)
    (hstop : t.depth stop = limit) :
    ∃ first' last', t.raiseTogether limit start stop = .ok (first', last') ∧
      t.OpenedBy first first' ∧ t.ClosedBy last last' := by
  have hdepth := wf.depth_of_parent hfirst
  have hdepth' := wf.depth_of_parent hlast
  induction limit generalizing start stop with
  | zero =>
    have := wf.depth_le_of_mem_preOrder (wf.mem_preOrder_of_openedBy hopened)
    omega
  | succ limit ih =>
    rw [raiseTogether]
    by_cases hsame : t.parent? start = t.parent? stop
    · rw [if_pos hsame]
      exact ⟨start, stop, rfl, hopened, hclosed⟩
    · -- neither end has reached the run: they would have reached it together
      have hbelow := wf.depth_le_of_mem_preOrder (wf.mem_preOrder_of_openedBy hopened)
      have hdeeper : t.depth first < t.depth start := by
        refine Nat.lt_of_le_of_ne hbelow fun heq => hsame ?_
        obtain rfl := wf.eq_of_walk (fun _ _ => wf.parent?_of_firstChild?) hopened (by omega)
        obtain rfl := wf.eq_of_walk (fun _ _ => wf.parent?_of_lastChild?) hclosed (by omega)
        rw [hfirst, hlast]
      obtain ⟨p, hstep, hopened⟩ := t.exists_step_of_walk hopened hdeeper
      obtain ⟨q, hstep', hclosed⟩ := t.exists_step_of_walk hclosed (by omega)
      have := wf.depth_of_parent (wf.parent?_of_firstChild? hstep)
      have := wf.depth_of_parent (wf.parent?_of_lastChild? hstep')
      obtain ⟨first', last', hdone, hrest⟩ := ih hopened hclosed (by omega) (by omega)
      refine ⟨first', last', ?_, hrest⟩
      rw [if_neg hsame, wf.raiseFirst_eq_ok_iff.mpr hstep, ok_bind, wf.raiseLast_eq_ok_iff.mpr hstep',
        ok_bind, hdone]

theorem exists_runEnds_of_walks :
    ∃ first' last', t.runEnds start stop = .ok (first', last') ∧
      t.OpenedBy first first' ∧ t.ClosedBy last last' := by
  have hdepth := wf.depth_of_parent hfirst
  have hdepth' := wf.depth_of_parent hlast
  have hbelow := wf.depth_le_of_mem_preOrder (wf.mem_preOrder_of_openedBy hopened)
  have hbelow' := wf.depth_le_of_mem_preOrder (wf.mem_preOrder_of_closedBy hclosed)
  obtain ⟨start', hopened, hwalk, hraised⟩ :=
    wf.exists_between_of_walk (fun _ _ => wf.parent?_of_firstChild?) hopened
      (by omega : t.depth first + (t.depth start - t.depth stop) ≤ t.depth start)
  obtain ⟨stop', hclosed, hwalk', hraised'⟩ :=
    wf.exists_between_of_walk (fun _ _ => wf.parent?_of_lastChild?) hclosed
      (by omega : t.depth last + (t.depth stop - t.depth start) ≤ t.depth stop)
  obtain ⟨first', last', hdone, hrest⟩ := wf.exists_raiseTogether_of_walks hfirst hlast hopened hclosed
    (by omega : t.depth start' = min (t.depth start) (t.depth stop)) (by omega)
  refine ⟨first', last', ?_, hrest⟩
  rw [runEnds, wf.raiseFirstBy_eq_ok_iff.mpr ⟨hwalk, hraised⟩, ok_bind,
    wf.raiseLastBy_eq_ok_iff.mpr ⟨hwalk', hraised'⟩, ok_bind, hdone]

end Held

/-! ## The run that is wrapped -/

/-- What is found for two nodes is a run between them. -/
theorem runBetween_of_runEnds {start stop first last block : NodeId} {before run after : List NodeId}
    (hends : t.runEnds start stop = .ok (first, last))
    (hsplit : splitRun? first last (t.children block) = some (before, run, after)) :
    t.RunBetween start stop block before run after := by
  obtain ⟨hopened, hclosed, -⟩ := wf.walks_of_runEnds hends
  obtain ⟨hchildren, hhead, hlast⟩ := splitRun?_eq_some hsplit
  exact ⟨hchildren, ⟨first, hhead, hopened⟩, last, hlast, hclosed⟩

/-- A block that holds a run lies above the node that closes it. -/
theorem depth_lt_of_runBetween {start stop block : NodeId} {before run after : List NodeId}
    (h : t.RunBetween start stop block before run after) : t.depth block < t.depth stop := by
  obtain ⟨last, hend, hclosed⟩ := h.closed
  have hheld : last ∈ t.children block := by simp [h.children, List.mem_of_getLast? hend]
  have hdepth := wf.depth_of_parent ((wf.parent_iff last block).mpr hheld)
  have hbelow := wf.depth_le_of_mem_preOrder (wf.mem_preOrder_of_closedBy hclosed)
  omega

/-- If there is a run between two nodes, it is found, or one that lies deeper. -/
theorem exists_found {start stop block : NodeId} {before run after : List NodeId}
    (h : t.RunBetween start stop block before run after) :
    ∃ first last block' before' run' after', t.runEnds start stop = .ok (first, last) ∧
      t.parent? first = some block' ∧
      splitRun? first last (t.children block') = some (before', run', after') ∧
      ((block', before', run', after') = (block, before, run, after) ∨ block ∈ t.ancestors block') := by
  obtain ⟨hchildren, ⟨first, hhead, hopened⟩, last, hend, hclosed⟩ := h
  have hheld : ∀ id ∈ run, t.parent? id = some block := fun id hid =>
    (wf.parent_iff id block).mpr (by simp [hchildren, hid])
  have hfirst := hheld first (List.mem_of_head? hhead)
  have hlast := hheld last (List.mem_of_getLast? hend)
  obtain ⟨first', last', hends, hopened', hclosed'⟩ :=
    wf.exists_runEnds_of_walks hfirst hlast hopened hclosed
  obtain ⟨-, -, hparent⟩ := wf.walks_of_runEnds hends
  have hdepth := wf.depth_of_parent hfirst
  have hdepth' := wf.depth_of_parent hlast
  have hbelow := wf.depth_le_of_mem_preOrder (wf.mem_preOrder_of_openedBy hopened')
  obtain ⟨block', hblock, hlevel⟩ := wf.exists_parent_of_depth (by omega : 0 < t.depth first')
  have hlevel' := wf.depth_of_parent (hparent.symm.trans hblock)
  refine ⟨first', last', block', ?_⟩
  rcases Nat.eq_or_lt_of_le hbelow with heq | hdeeper
  · -- both ends have reached the run
    obtain rfl := wf.eq_of_walk (fun _ _ => wf.parent?_of_firstChild?) hopened' (by omega)
    obtain rfl := wf.eq_of_walk (fun _ _ => wf.parent?_of_lastChild?) hclosed' (by omega)
    obtain rfl := Option.some.inj (hfirst.symm.trans hblock)
    have hnodup := wf.nodup block
    rw [hchildren] at hnodup
    exact ⟨before, run, after, hends, hblock, hchildren ▸ splitRun?_eq hnodup hhead hend, .inl rfl⟩
  · -- the ends are the first and the last of all that a deeper block holds
    obtain ⟨opened, hstep, hwalk⟩ := t.exists_step_of_walk hopened' hdeeper
    obtain ⟨closed, hstep', -⟩ := t.exists_step_of_walk hclosed' (by omega)
    have hsame := Option.some.inj ((wf.parent?_of_firstChild? hstep).symm.trans hblock)
    have hsame' := Option.some.inj
      ((wf.parent?_of_lastChild? hstep').symm.trans (hparent.symm.trans hblock))
    rw [hsame] at hstep hwalk
    rw [hsame'] at hstep'
    refine ⟨[], t.children block', [], hends, hblock, ?_, .inr ?_⟩
    · have hwhole : splitRun? first' last' ([] ++ t.children block' ++ []) =
          some ([], t.children block', []) :=
        splitRun?_eq (by simpa using wf.nodup block') hstep hstep'
      simpa using hwhole
    · have hin := wf.mem_preOrder_of_openedBy hwalk
      have habove : block ∈ t.ancestors first := by
        rw [wf.ancestors_of_parent hfirst]
        exact List.mem_cons_self
      rcases wf.mem_preOrder_iff.mp hin with rfl | hin
      · exact habove
      · exact wf.mem_ancestors_trans habove hin

omit wf in
/-- What wrapping a run does once the run is found. -/
theorem group_of_found {start stop first last block : NodeId} {before run after : List NodeId}
    {kind : BlockKind} (hstart : start.index < t.size) (hstop : stop.index < t.size)
    (hbody : kind ≠ .body) (hlinks : kind.isLinked = false)
    (hends : t.runEnds start stop = .ok (first, last)) (hparent : t.parent? first = some block)
    (hsplit : splitRun? first last (t.children block) = some (before, run, after)) :
    t.group start stop kind = .ok
      (if t.children block = run ∧ (t.blockKind? block).any (·.sameVariant kind) = true then (block, t)
        else t.enclose block before run after kind) := by
  have hcontent : ∀ {id : NodeId}, id.index < t.size → ∃ content, t.content id = .ok content := by
    intro id hid
    rw [← isSome_content?_iff, Option.isSome_iff_exists] at hid
    obtain ⟨content, hcontent⟩ := hid
    exact ⟨content, by rw [Tree.content, hcontent]⟩
  obtain ⟨content, hcontent₁⟩ := hcontent hstart
  obtain ⟨content', hcontent₂⟩ := hcontent hstop
  obtain ⟨hchildren, -, -⟩ := splitRun?_eq_some hsplit
  have hwhole : t.children block = run ↔ before = [] ∧ after = [] := by
    rw [hchildren]
    constructor
    · intro heq
      have := congrArg List.length heq
      simp only [List.length_append] at this
      exact ⟨List.length_eq_zero_iff.mp (by omega), List.length_eq_zero_iff.mp (by omega)⟩
    · rintro ⟨rfl, rfl⟩
      simp
  unfold group wrap
  dsimp only
  rw [if_neg (by simpa using hbody), if_neg (by simp [hlinks]), hcontent₁, ok_bind, hcontent₂, ok_bind,
    hends, ok_bind]
  simp only [hparent, hsplit, hwhole, Bool.and_eq_true, List.isEmpty_iff]
  split <;> rfl

/-- Wrapping a run in a new block changes nothing else. -/
theorem encloses {block : NodeId} {before run after : List NodeId} {kind : BlockKind}
    (hchildren : t.children block = before ++ run ++ after) (hrun : run ≠ []) :
    t.Encloses (t.enclose block before run after kind).2 block before run after kind where
  size := size_enclose
  header := header_enclose
  payload := payload?_enclose
  children := children_enclose hchildren hrun
  parent := wf.parent?_enclose hchildren

end WellFormed

/-- A run is wrapped exactly if there is one between the two nodes.  Then there is a deepest one, and
what is answered is the block that holds it, if that holds nothing else and is of the variant that is
asked for, and a new block around it otherwise. -/
theorem Reachable.group_wraps_runs {start stop : NodeId} {kind : BlockKind} (h : t.Reachable)
    (hstart : start.index < t.size) (hstop : stop.index < t.size) (hbody : kind ≠ .body)
    (hlinks : kind.isLinked = false) :
    ((∃ made, t.group start stop kind = .ok made) ↔
        ∃ block before run after, t.RunBetween start stop block before run after) ∧
      ((∃ block before run after, t.RunBetween start stop block before run after) →
        ∃ block before run after, t.DeepestRun start stop block before run after) ∧
      ∀ block before run after, t.DeepestRun start stop block before run after →
        if t.children block = run ∧ (t.blockKind? block).any (·.sameVariant kind) = true then
          t.group start stop kind = .ok (block, t)
        else ∃ t', t.group start stop kind = .ok (⟨t.size⟩, t') ∧
          t.Encloses t' block before run after kind := by
  have wf := h.wellFormed
  refine ⟨⟨?_, ?_⟩, ?_, ?_⟩
  · rintro ⟨⟨made, t'⟩, hmade⟩
    obtain ⟨⟨made', isNew, changed⟩, hwrap, -⟩ := bind_eq_ok.mp hmade
    cases wraps_of_wrap hwrap with
    | reused hends _ hsplit => exact ⟨_, _, _, _, wf.runBetween_of_runEnds hends hsplit⟩
    | enclosed hends _ hsplit => exact ⟨_, _, _, _, wf.runBetween_of_runEnds hends hsplit⟩
  · rintro ⟨block, before, run, after, hrun⟩
    obtain ⟨first, last, block', before', run', after', hends, hparent, hsplit, -⟩ := wf.exists_found hrun
    exact ⟨_, WellFormed.group_of_found hstart hstop hbody hlinks hends hparent hsplit⟩
  · rintro ⟨block, before, run, after, hrun⟩
    obtain ⟨first, last, block', before', run', after', hends, hparent, hsplit, -⟩ :=
      wf.exists_found hrun
    refine ⟨block', before', run', after', wf.runBetween_of_runEnds hends hsplit, ?_⟩
    intro other _ _ _ hother
    -- the same run is found for every block that holds one
    obtain ⟨first', last', found, _, _, _, hends', hparent', -, hfound⟩ := wf.exists_found hother
    obtain ⟨rfl, rfl⟩ := Prod.mk.inj (Except.ok.inj (hends.symm.trans hends'))
    obtain rfl := Option.some.inj (hparent.symm.trans hparent')
    rcases hfound with heq | habove
    · rw [(Prod.mk.inj heq).1]
    · exact Nat.le_of_lt (wf.depth_lt_of_mem_ancestors habove)
  · intro block before run after hdeepest
    obtain ⟨first, last, block', before', run', after', hends, hparent, hsplit, hfound⟩ :=
      wf.exists_found hdeepest.toRunBetween
    have hthis : (block', before', run', after') = (block, before, run, after) := by
      refine hfound.resolve_right fun habove => ?_
      have := hdeepest.deepest _ _ _ _ (wf.runBetween_of_runEnds hends hsplit)
      have := wf.depth_lt_of_mem_ancestors habove
      omega
    obtain ⟨rfl, rfl, rfl, rfl⟩ : block' = block ∧ before' = before ∧ run' = run ∧ after' = after := by
      simpa using hthis
    have hgroup := WellFormed.group_of_found hstart hstop hbody hlinks hends hparent hsplit
    obtain ⟨hchildren, hhead, -⟩ := splitRun?_eq_some hsplit
    split
    case isTrue hwhole => rw [hgroup, if_pos hwhole]
    case isFalse hwhole =>
      refine ⟨_, by rw [hgroup, if_neg hwhole]; rfl, wf.encloses hchildren fun hnil => ?_⟩
      rw [hnil] at hhead
      exact absurd hhead (by simp)

/-- The one end of a run lies below a block, the other stands behind that block. -/
def unevenRun : Tree :=
  (new default).runAll [.newLabel, .newBlock .plain, .newLabel, .newLabel, .newLabel, .newLabel,
    .append root ⟨1⟩, .append root ⟨2⟩, .append ⟨2⟩ ⟨3⟩, .append ⟨2⟩ ⟨4⟩, .append root ⟨5⟩,
    .append root ⟨6⟩]

/-- The run of `unevenRun` is wrapped in a block of the root, but not one that would split a block. -/
theorem unevenRun_wraps : unevenRun.Reachable ∧
    unevenRun.DeepestRun ⟨3⟩ ⟨5⟩ root [⟨1⟩] [⟨2⟩, ⟨5⟩] [⟨6⟩] ∧
    (∃ t', unevenRun.group ⟨3⟩ ⟨5⟩ .newTry = .ok (⟨7⟩, t') ∧
      unevenRun.Encloses t' root [⟨1⟩] [⟨2⟩, ⟨5⟩] [⟨6⟩] .newTry) ∧
    unevenRun.group ⟨3⟩ ⟨4⟩ .plain = .ok (⟨2⟩, unevenRun) ∧
    ¬ ∃ block before run after, unevenRun.RunBetween ⟨4⟩ ⟨5⟩ block before run after := by
  have hreachable : unevenRun.Reachable := (Reachable.new default).runAll _
  have hrun : (unevenRun.size = 7 ∧ unevenRun.children root = [⟨1⟩] ++ [⟨2⟩, ⟨5⟩] ++ [⟨6⟩] ∧
      unevenRun.children ⟨2⟩ = [] ++ [⟨3⟩, ⟨4⟩] ++ []) ∧
      (unevenRun.depth root = 0 ∧ unevenRun.depth ⟨5⟩ = 1 ∧ unevenRun.depth ⟨2⟩ = 1 ∧
        unevenRun.depth ⟨4⟩ = 2) ∧
      (unevenRun.blockKind? ⟨2⟩ = some .plain ∧
        (unevenRun.group ⟨4⟩ ⟨5⟩ .newTry).toOption.isNone) := by
    decide +kernel
  obtain ⟨⟨hsize, hroot, hinner⟩, ⟨hdepth, hdepth', hdepth₁, hdepth₁'⟩, hkind, hrefused⟩ := hrun
  have hdeepest : unevenRun.DeepestRun ⟨3⟩ ⟨5⟩ root [⟨1⟩] [⟨2⟩, ⟨5⟩] [⟨6⟩] := by
    refine ⟨⟨hroot, ⟨⟨2⟩, rfl, .single ?_⟩, ⟨5⟩, rfl, .refl⟩, fun _ _ _ _ hother => ?_⟩
    · rw [firstChild?, hinner]
      rfl
    · have := hreachable.wellFormed.depth_lt_of_runBetween hother
      omega
  have hdeepest' : unevenRun.DeepestRun ⟨3⟩ ⟨4⟩ ⟨2⟩ [] [⟨3⟩, ⟨4⟩] [] := by
    refine ⟨⟨hinner, ⟨⟨3⟩, rfl, .refl⟩, ⟨4⟩, rfl, .refl⟩, fun _ _ _ _ hother => ?_⟩
    have := hreachable.wellFormed.depth_lt_of_runBetween hother
    omega
  have hexists : ∀ {index : Nat}, index < 7 → (⟨index⟩ : NodeId).index < unevenRun.size := by
    intro index hindex
    rw [hsize]
    exact hindex
  refine ⟨hreachable, hdeepest, ?_, ?_, fun hexistsRun => ?_⟩
  · have hwrapped := (hreachable.group_wraps_runs (hexists (by decide)) (hexists (by decide))
      (by decide : BlockKind.newTry ≠ .body) (by decide : BlockKind.newTry.isLinked = false)).2.2
      _ _ _ _ hdeepest
    rw [if_neg (by simp [hroot]), hsize] at hwrapped
    exact hwrapped
  · have hwrapped := (hreachable.group_wraps_runs (hexists (by decide)) (hexists (by decide))
      (by decide : BlockKind.plain ≠ .body) (by decide : BlockKind.plain.isLinked = false)).2.2
      _ _ _ _ hdeepest'
    rwa [if_pos ⟨hinner, by rw [hkind]; rfl⟩] at hwrapped
  · obtain ⟨made, hmade⟩ := (hreachable.group_wraps_runs (hexists (by decide)) (hexists (by decide))
      (by decide : BlockKind.newTry ≠ .body) (by decide : BlockKind.newTry.isLinked = false)).1.mpr
      hexistsRun
    rw [hmade] at hrefused
    exact absurd hrefused (by simp [Except.toOption])

end Tree

end MethodIL
