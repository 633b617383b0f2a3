import Mathlib
import MethodIL.Proofs.Tree.FlatOrder
set_option autoImplicit false

/-!
# Walks along the links

A walk takes steps from node to node as long as there is a next one.  Walks along siblings, upwards
and along the flat order all end, and this module says which nodes they visit.  They are stated
without bounds on their length, so nothing here depends on the limits by which the views of a tree are
computed.
-/

namespace MethodIL

/-! ## Walks -/

/-- The walk from a start, if there is one, visits the given items in order and ends. -/
inductive Follows {α : Type} (next : α → Option α) : Option α → List α → Prop
  | done : Follows next none []
  | visit {a : α} {rest : List α} (h : Follows next (next a) rest) :
      Follows next (some a) (a :: rest)

namespace Follows

variable {α : Type} {next : α → Option α}

/-- There is only one walk from a start. -/
theorem unique {start : Option α} {items items' : List α} (h : Follows next start items)
    (h' : Follows next start items') : items = items' := by
  induction h generalizing items' with
  | done =>
    cases h'
    rfl
  | visit _ ih =>
    cases h' with
    | visit h' => rw [ih h']

/-- A list in which every item leads to the one behind it, and the last one nowhere, is a walk. -/
theorem of_isChain {items : List α} (hchain : items.IsChain fun a b => next a = some b)
    (hlast : ∀ last, items.getLast? = some last → next last = none) :
    Follows next items.head? items := by
  induction items with
  | nil => exact .done
  | cons a items ih =>
    refine .visit ?_
    cases items with
    | nil =>
      rw [hlast a rfl]
      exact .done
    | cons b items =>
      obtain ⟨hstep, hchain⟩ := List.isChain_cons_cons.mp hchain
      rw [hstep]
      exact ih hchain fun last hl => hlast last (by rwa [List.getLast?_cons_cons])

end Follows

namespace Tree

/-! ## Ways to leave a node -/

/-- The search for a node with a next sibling goes on with the block around a node that has none. -/
def searchUp (t : Tree) (id : NodeId) : Option NodeId :=
  if (t.next? id).isSome then none else t.parent? id

/-- Where a node at or below a block is left for without leaving the block: its next sibling, or that of
the nearest block around it that has one. -/
def successorWithin? (t : Tree) (bound id : NodeId) : Option NodeId :=
  ((id :: t.ancestors id).takeWhile (· ≠ bound)).findSome? t.next?

namespace WellFormed

variable {t : Tree} (wf : t.WellFormed)

include wf

/-! ## Along the children of a block -/

/-- The children of a block are chained by their links to the next sibling. -/
theorem follows_children (block : NodeId) :
    Follows t.next? (t.firstChild? block) (t.children block) := by
  refine .of_isChain ?_ fun last hlast => ?_
  · rw [List.isChain_iff_getElem]
    intro k hk
    have hsplit : t.children block = (t.children block).take k ++
        (t.children block)[k] :: (t.children block).drop (k + 1) := by
      rw [← List.drop_eq_getElem_cons, List.take_append_drop]
    rw [wf.next?_eq hsplit, List.head?_drop, List.getElem?_eq_getElem hk]
  · obtain ⟨before, hsplit⟩ := List.getLast?_eq_some_iff.mp hlast
    rw [wf.next?_eq hsplit]
    rfl

/-! ## Upwards -/

/-- The blocks around a node are met one after the other on the way upwards. -/
theorem follows_ancestors (id : NodeId) : Follows t.parent? (t.parent? id) (t.ancestors id) := by
  induction id using wf.induction_above with
  | step id ih =>
    cases hparent : t.parent? id with
    | none =>
      rw [wf.ancestors_of_no_parent hparent]
      exact .done
    | some p =>
      rw [wf.ancestors_of_parent hparent]
      exact .visit (ih p hparent)

/-- No node lies around itself. -/
theorem not_above_self (id : NodeId) :
    ¬ Relation.TransGen (fun child block => t.parent? child = some block) id id := by
  obtain ⟨rank, hrank⟩ := wf.ranked
  intro hcycle
  have hfalls : ∀ a b, Relation.TransGen (fun child block => t.parent? child = some block) a b →
      rank b < rank a := by
    intro a b hab
    induction hab with
    | single h => exact hrank _ _ h
    | tail _ h ih => exact Nat.lt_trans (hrank _ _ h) ih
  exact Nat.lt_irrefl _ (hfalls id id hcycle)

/-- The search for the node after a subtree ends, and answers the next sibling of the last block that it
has come to. -/
theorem exists_follows_searchUp (id : NodeId) :
    ∃ path last, Follows t.searchUp (some id) path ∧ path.getLast? = some last ∧
      t.successor? id = t.next? last := by
  induction id using wf.induction_above with
  | step id ih =>
    cases hnext : t.next? id with
    | some sibling =>
      refine ⟨[id], id, .visit ?_, rfl, by rw [wf.successor?_eq, hnext]⟩
      rw [searchUp, hnext]
      exact .done
    | none =>
      cases hparent : t.parent? id with
      | none =>
        refine ⟨[id], id, .visit ?_, rfl, by rw [wf.successor?_of_no_parent hparent, hnext]⟩
        rw [searchUp, hnext, hparent]
        exact .done
      | some p =>
        obtain ⟨path, last, hpath, hlast, hanswer⟩ := ih p hparent
        refine ⟨id :: path, last, .visit ?_, ?_, ?_⟩
        · rw [searchUp, hnext, hparent]
          exact hpath
        · rw [List.getLast?_cons, hlast]
          rfl
        · rw [wf.successor?_eq, hnext, hparent]
          exact hanswer

/-! ## Along the flat order -/

theorem successorWithin?_eq {bound c p : NodeId} (hparent : t.parent? c = some p)
    (hbound : p ∈ t.preOrder bound) :
    t.successorWithin? bound c = (t.next? c).or (t.successorWithin? bound p) := by
  have hne : c ≠ bound := by
    rintro rfl
    have hdepth := wf.depth_of_parent hparent
    rcases wf.mem_preOrder_iff.mp hbound with rfl | habove
    · omega
    · have := wf.depth_lt_of_mem_ancestors habove
      omega
  rw [successorWithin?, wf.ancestors_of_parent hparent, List.takeWhile_cons_of_pos (by simpa using hne),
    List.findSome?_cons]
  cases t.next? c <;> rfl

/-- The walk from a node that does not leave the node visits it and all below it in flat order. -/
theorem follows_preOrder (id : NodeId) :
    Follows (t.stepInto (t.successorWithin? id)) (some id) (t.preOrder id) := by
  obtain ⟨hchain, hlast⟩ := wf.isChain_preOrder_of
    (fun c p hparent hbound => wf.successorWithin?_eq hparent hbound) (wf.self_mem_preOrder id)
  have hwalk := Follows.of_isChain hchain fun last hl => by
    rw [hlast last hl, successorWithin?, List.takeWhile_cons_of_neg (by simp)]
    rfl
  rwa [wf.preOrder_eq, List.head?_cons, ← wf.preOrder_eq] at hwalk

/-- The walk along the flat order ends from every node. -/
theorem exists_follows_nextInOrder (id : NodeId) :
    ∃ walk, Follows t.nextInOrder? (some id) walk := by
  obtain ⟨top, htop, hmem⟩ := wf.exists_top id
  obtain ⟨before, after, hsplit⟩ := List.append_of_mem hmem
  obtain ⟨hchain, hlast⟩ := wf.isChain_preOrder top
  rw [hsplit] at hchain hlast
  refine ⟨id :: after, .of_isChain (List.isChain_append.mp hchain).2.1 fun last hl => ?_⟩
  rw [hlast last (by rw [List.getLast?_append, hl]; rfl), wf.successor?_of_no_parent htop]

end WellFormed

end Tree

end MethodIL
