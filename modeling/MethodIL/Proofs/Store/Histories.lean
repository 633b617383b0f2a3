import Mathlib
import MethodIL.Proofs.Store.Refusal
import MethodIL.Proofs.Tree.Raising
set_option autoImplicit false

/-!
# Histories of stored nodes

Whatever is asked of a tree, in whatever order, the nodes as they are stored keep up with it: the work of
the edits leaves the nodes and links of the tree that the edits lead to.  Lifting does nothing that edits
cannot do, so all that is ever stored comes from a single root by the work of edits, and the links fit
together in it.
-/

namespace MethodIL

open Outcome

/-! ## Stored nodes -/

namespace Store

/-- The nodes of a new tree: the root, which is linked to nothing. -/
def new (header : Header) : Store where
  header := header
  size := 1
  links := Linkage.blank
  payload id := if id = Tree.root then some (.block .body []) else none

/-- The nodes after the work of some edits, refused ones included. -/
def performAll (s : Store) (edits : List Edit) : Store :=
  edits.foldl (fun s edit => (edit.perform s).2) s

/-- Links that are stored fit together. -/
structure Linked (s : Store) : Prop where
  /-- the chain of the children of a block, from the first along the next siblings -/
  chains : ∀ block, ∃ chain, Follows s.next? (s.firstChild? block) chain ∧ chain.Nodup ∧
    chain.getLast? = s.lastChild? block ∧
    ∀ before id after, chain = before ++ id :: after →
      s.parent? id = some block ∧ s.prev? id = before.getLast?
  /-- nodes that no block holds -/
  loose : ∀ id, s.parent? id = none → s.prev? id = none ∧ s.next? id = none ∧
    ∀ block chain, Follows s.next? (s.firstChild? block) chain → id ∉ chain
  /-- nodes that are no blocks -/
  leaves : ∀ id, s.blockKind? id = none →
    s.firstChild? id = none ∧ s.lastChild? id = none ∧ ∀ child, s.parent? child ≠ some id
  root : s.parent? Tree.root = none
  acyclic : ∀ id, ¬ Relation.TransGen (fun child block => s.parent? child = some block) id id
  /-- the walk upwards ends, and the blocks around a node are those that it meets -/
  upwards : ∀ id, ∃ path, Follows s.parent? (s.parent? id) path ∧ s.depth id = path.length ∧
    ∀ block, s.isBelow block id = true ↔ block ∈ path
  /-- the search for the node after a subtree ends -/
  successors : ∀ id, ∃ path last, Follows s.searchUp (some id) path ∧ path.getLast? = some last ∧
    s.successor? id = s.next? last
  /-- the walk over a node and all below it ends -/
  walks : ∀ id, Follows (s.nextBelow? id) (some id) (id :: s.descendants id)
  /-- the walk along the flat order ends from every node -/
  steps : ∀ id, ∃ walk, Follows s.nextInOrder? (some id) walk

end Store

namespace Tree

variable {t t' : Tree}

theorem stored_new (header : Header) : (new header).stored = Store.new header := by
  have hpayload : (new header).payload? = (Store.new header).payload := funext fun id => by
    rw [payload?, content?, new_eq_ofCode]
    rcases eq_root_or_instructionNode id with rfl | ⟨index, rfl⟩
    · rw [node?_ofCode_root]
      rfl
    · rw [node?_ofCode_instruction]
      simp [Store.new, instructionNode_ne_root]
  exact Store.ext rfl rfl (links_new header) hpayload

/-- The links of a well-formed tree fit together where they are stored. -/
theorem WellFormed.stored_linked (wf : t.WellFormed) : t.stored.Linked where
  chains := wf.links_fit.chains
  loose := wf.links_fit.loose
  leaves id hleaf := wf.links_fit.leaves id (by rwa [stored_blockKind?] at hleaf)
  root := wf.links_fit.root
  acyclic := wf.links_fit.acyclic
  upwards id := by
    obtain ⟨path, hpath, hdepth, hbelow⟩ := wf.links_fit.upwards id
    refine ⟨path, hpath, ?_, fun block => ?_⟩
    · rw [Store.depth, wf.stored_ancestors]
      exact hdepth
    · rw [wf.stored_isBelow]
      exact hbelow block
  successors id := by
    obtain ⟨path, last, hpath, hlast, hsuccessor⟩ := wf.links_fit.successors id
    exact ⟨path, last, hpath, hlast, (wf.stored_successor? id).trans hsuccessor⟩
  walks id := by
    rw [wf.stored_nextBelow?, wf.stored_descendants, wf.descendants_eq, ← wf.preOrder_eq]
    exact wf.links_fit.walks id
  steps := by
    rw [wf.stored_nextInOrder?]
    exact wf.links_fit.steps

/-- The work of edits comes to what the edits make of the tree. -/
theorem Reachable.performAll_stored (h : t.Reachable) (edits : List Edit) :
    t.stored.performAll edits = (t.runAll edits).stored := by
  induction edits generalizing t with
  | nil => rfl
  | cons edit edits ih =>
    rw [Store.performAll, List.foldl_cons, h.perform_stored edit]
    exact ih (h.edited edit)

/-! ## Histories -/

theorem runAll_append (first second : List Edit) :
    t.runAll (first ++ second) = (t.runAll first).runAll second :=
  List.foldl_append ..

theorem WellFormed.steps_runAll (wf : t.WellFormed) (edits : List Edit) : Steps t (t.runAll edits) := by
  induction edits generalizing t with
  | nil => exact .refl
  | cons edit edits ih =>
    have hstep := Edit.steps_run wf edit
    exact hstep.trans (ih (wf.steps hstep))

/-- The tree is made of another by edits. -/
def MadeFrom (t' t : Tree) : Prop := ∃ edits, t' = t.runAll edits

theorem MadeFrom.refl (t : Tree) : t.MadeFrom t := ⟨[], rfl⟩

theorem MadeFrom.trans {t'' : Tree} (h : t'.MadeFrom t) (h' : t''.MadeFrom t') : t''.MadeFrom t := by
  obtain ⟨first, rfl⟩ := h
  obtain ⟨second, rfl⟩ := h'
  exact ⟨first ++ second, (runAll_append first second).symm⟩

theorem madeFrom_run (t : Tree) (edit : Edit) : (edit.run t).2.MadeFrom t := ⟨[edit], rfl⟩

theorem MadeFrom.of_run (edit : Edit) (h : (edit.run t).2 = t') : t'.MadeFrom t :=
  h ▸ t.madeFrom_run edit

theorem MadeFrom.steps (h : t'.MadeFrom t) (wf : t.WellFormed) : Steps t t' := by
  obtain ⟨edits, rfl⟩ := h
  exact wf.steps_runAll edits

/-- Bare code is made by creating one instruction after the other and placing it behind the others. -/
theorem madeFrom_ofCode (header : Header) {code : List Instruction}
    (hfits : ∀ i ∈ code, i.operand.fits i.opcode.operandType = true) :
    (ofCode header code).MadeFrom (new header) := by
  induction code using List.reverseRecOn with
  | nil => exact .refl _
  | append_singleton code i ih =>
    let operation : Operation NodeId := ⟨i.opcode, i.operand.withoutTargets⟩
    let pushed := ((ofCode header code).push (.instruction operation)).2
    let node := instructionNode code.length
    have hsuits : acceptsOperand operation = true :=
      acceptsOperand_withoutTargets (hfits i (List.mem_append_right code (List.mem_singleton_self i)))
    have hcreate : ((Edit.newInstruction operation).run (ofCode header code)).2 = pushed := by
      rw [Edit.run, newInstruction, hsuits, i.operand.targets_withoutTargets]
      rfl
    have hplace : ((Edit.append root node).run pushed).2 = ofCode header (code ++ [i]) := by
      have wfPushed : pushed.WellFormed := (wellFormed_ofCode header code).push rfl
      have hroot : (pushed.blockKind? root).isSome := by
        rw [wfPushed.root_kind]
        rfl
      have hnode : node.index < pushed.size := by
        simp [node, pushed, instructionNode]
      have hfree : pushed.parent? node = none :=
        (parent?_push _ _ node).trans (parent?_ofCode_length header code)
      have hbelow : node ∉ pushed.ancestors root := by
        rw [wfPushed.ancestors_of_no_parent wfPushed.root_parent]
        exact List.not_mem_nil
      have happend : pushed.append root node = .ok (ofCode header (code ++ [i])) :=
        place_eq_ok_iff.mpr ⟨hroot, hnode, instructionNode_ne_root _, hfree, instructionNode_ne_root _,
          hbelow, ofCode_concat header code i⟩
      rw [Edit.run, happend]
      rfl
    exact (ih fun j hj => hfits j (List.mem_append_left [i] hj)).trans
      ((MadeFrom.of_run _ hcreate).trans (.of_run _ hplace))

/-- Wrapping succeeds where what it does is done. -/
theorem WellFormed.wrap_of_wraps (wf : t.WellFormed) {start stop block : NodeId} {kind : BlockKind}
    {isNew : Bool} (h : Wraps t start stop kind block isNew t') (hbody : kind ≠ .body)
    (hlinks : kind.isLinked = false) : t.wrap start stop kind = .ok (block, isNew, t') := by
  cases h with
  | reused hends hparent hsplit hkind hvariant =>
    rw [wf.wrap_eq hbody hlinks hends hparent hsplit, if_pos]
    simp [hkind, hvariant]
  | @enclosed _ _ parent before _ after hends hparent hsplit hother _ =>
    rw [wf.wrap_eq hbody hlinks hends hparent hsplit, if_neg]
    simp only [Bool.and_eq_true, List.isEmpty_iff, Option.any_eq_true, not_and, not_exists]
    rintro ⟨hbefore, hafter⟩ parentKind hkind
    simp [hother hbefore hafter parentKind hkind]

/-- Every part of lifting is an edit, or nothing is done. -/
theorem madeFrom_parts : LiftingParts fun t t' => t.WellFormed → t'.MadeFrom t where
  refl t _ := .refl t
  trans h h' wf := (h wf).trans (h' (wf.steps ((h wf).steps wf)))
  wraps {t t' start stop kind block isNew} h hbody hlinks wf := by
    have hwrap : t.wrap start stop kind = .ok (block, isNew, t') := wf.wrap_of_wraps h hbody hlinks
    exact .of_run (.group start stop kind) (by rw [Edit.run, group, hwrap]; rfl)
  ungroup {_ _ block} h _ := .of_run (.ungroup block) (by rw [Edit.run, h]; rfl)
  linkHandler {_ _ region handler} h _ := .of_run (.linkHandler region handler) (by rw [Edit.run, h]; rfl)
  linkFilter {_ _ filterBlock handler} h _ :=
    .of_run (.linkFilter filterBlock handler) (by rw [Edit.run, h]; rfl)
  setCatchType {_ _ handler token} h _ := .of_run (.setCatchType handler token) (by rw [Edit.run, h]; rfl)
  setBranchTarget {_ _ id target _} h _ := .of_run (.setBranchTarget id target) (by rw [Edit.run, h]; rfl)
  setSwitchTargets {_ _ id targets _} h _ :=
    .of_run (.setSwitchTargets id targets) (by rw [Edit.run, h]; rfl)

/-- Every reachable tree is made of a new one by edits, whether it was lifted or not. -/
theorem Reachable.madeFrom_new (h : t.Reachable) : ∃ header, t.MadeFrom (Tree.new header) := by
  induction h with
  | new header => exact ⟨header, .refl _⟩
  | @lifted body _ h =>
    exact ⟨body.header, (madeFrom_ofCode body.header (fits_of_ofBody h)).trans
      (madeFrom_parts.ofBody h (wellFormed_ofCode body.header body.instructions))⟩
  | @edited t _ edit ih =>
    obtain ⟨header, ih⟩ := ih
    exact ⟨header, ih.trans (t.madeFrom_run edit)⟩

/-- The links of every reachable tree come about by rewriting links, from links that lead nowhere. -/
theorem Reachable.rewires (h : t.Reachable) :
    Relation.ReflTransGen Linkage.Rewires Linkage.blank t.links := by
  obtain ⟨header, hmade⟩ := h.madeFrom_new
  have wf := (Reachable.new header).wellFormed
  rw [← links_new header]
  exact wf.links_steps (hmade.steps wf)

/-- The links of every reachable tree fit together, and they are those that come about by rewriting
links, from links that lead nowhere.  As they are stored, they come from a single root by the work of
edits, and whatever work of edits follows, they are those of the tree and fit together. -/
theorem Reachable.linked (h : t.Reachable) :
    t.Linked ∧ Relation.ReflTransGen Linkage.Rewires Linkage.blank t.links ∧
      (∃ header edits, t.stored = (Store.new header).performAll edits) ∧
      ∀ edits, t.stored.performAll edits = (t.runAll edits).stored ∧
        (t.stored.performAll edits).Linked := by
  refine ⟨h.wellFormed.links_fit, h.rewires, ?_, fun edits => ?_⟩
  · obtain ⟨header, edits, rfl⟩ := h.madeFrom_new
    exact ⟨header, edits, by rw [← stored_new, (Reachable.new header).performAll_stored]⟩
  · have hstored := h.performAll_stored edits
    refine ⟨hstored, ?_⟩
    rw [hstored]
    exact (h.runAll edits).wellFormed.stored_linked

/-- Two labels in a plain block are enclosed in a protected region, which takes the place of the block;
then the first label moves in front of it.  The last two edits are refused. -/
def splicedRun : Tree :=
  (new default).runAll [.newBlock .plain, .newLabel, .newLabel, .append root ⟨1⟩, .append ⟨1⟩ ⟨2⟩,
    .insertAfter ⟨2⟩ ⟨3⟩, .group ⟨2⟩ ⟨3⟩ .newTry, .ungroup ⟨1⟩, .remove ⟨2⟩, .prepend root ⟨2⟩,
    .append ⟨1⟩ root, .remove ⟨1⟩]

/-- The links of `splicedRun` fit together, and stay so in the store once the region is dissolved and a
label is taken out. -/
theorem splicedRun_linked :
    splicedRun.Reachable ∧ splicedRun.firstChild? root = some ⟨2⟩ ∧
      splicedRun.next? ⟨2⟩ = some ⟨4⟩ ∧ splicedRun.prev? ⟨4⟩ = some ⟨2⟩ ∧
      splicedRun.children ⟨4⟩ = [⟨3⟩] ∧ splicedRun.parent? ⟨1⟩ = none ∧
      (splicedRun.stored.performAll [.ungroup ⟨4⟩, .remove ⟨2⟩]).firstChild? root = some ⟨3⟩ ∧
      splicedRun.Linked ∧ Relation.ReflTransGen Linkage.Rewires Linkage.blank splicedRun.links ∧
      (splicedRun.stored.performAll [.ungroup ⟨4⟩, .remove ⟨2⟩]).Linked := by
  have hreachable : splicedRun.Reachable := (Reachable.new default).runAll _
  obtain ⟨hlinked, hrewires, -, hedits⟩ := hreachable.linked
  obtain ⟨hstored, hfit⟩ := hedits [.ungroup ⟨4⟩, .remove ⟨2⟩]
  refine ⟨hreachable, ?_, ?_, ?_, ?_, ?_, ?_, hlinked, hrewires, hfit⟩
  case refine_6 =>
    rw [hstored]
    decide +kernel
  all_goals decide +kernel

end Tree

end MethodIL
