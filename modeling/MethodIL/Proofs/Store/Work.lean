import Mathlib
import MethodIL.Proofs.Store.Basic
set_option autoImplicit false

/-!
# Work on stored nodes

Nodes are rewritten one at a time, and each time the node may turn out not to exist.  Work is a program of
such rewritings that stops at the first fault; what was rewritten before stays rewritten.  The links of a
node are rewritten at several nodes, of which each has to exist.
-/

namespace MethodIL

namespace Store

variable (s : Store)

/-- There is such a node. -/
def Has (id : NodeId) : Prop := (s.payload id).isSome

/-- Rewrite the links of one node. -/
def relink (id : NodeId) (f : Links → Links) : Store := { s with links := s.links.write id f }

/-- Rewrite what one node is. -/
def recast (id : NodeId) (f : Content → Content) : Store :=
  { s with payload := fun x => if x = id then (s.payload x).map f else s.payload x }

/-- Add a node that is not linked. -/
def push (content : Content) : Store where
  header := s.header
  size := s.size + 1
  links := s.links.write ⟨s.size⟩ fun _ => {}
  payload := fun x => if x = ⟨s.size⟩ then some content else s.payload x

theorem content_eq_ok_iff {s : Store} {id : NodeId} : (∃ content, s.content id = .ok content) ↔ s.Has id := by
  unfold content Has
  cases s.payload id <;> simp

theorem has_push {content : Content} {id : NodeId} :
    (s.push content).Has id ↔ id = ⟨s.size⟩ ∨ s.Has id := by
  unfold Has push
  by_cases hid : id = ⟨s.size⟩ <;> simp [hid]

end Store

/-- A program that rewrites nodes and may stop with a fault. -/
abbrev Work (α : Type) : Type := ExceptT Fault (StateM Store) α

namespace Work

variable {α β : Type} {s s' : Store}

/-- Ask a question that may be answered with a refusal. -/
def ask (question : Store → Except EditFault α) : Work α := fun s => ((question s).mapError .edit, s)

/-- Look something up. -/
def look (view : Store → α) : Work α := fun s => (.ok (view s), s)

/-- Refuse to go on. -/
def refuse (cause : EditFault) : Work α := throw (.edit cause)

/-- Rewrite the links of one node. -/
def relink (id : NodeId) (f : Links → Links) : Work Unit := do
  let _ ← ask (·.content id)
  modify (·.relink id f)

/-- Rewrite what one node is. -/
def recast (id : NodeId) (f : Content → Content) : Work Unit := do
  let _ ← ask (·.content id)
  modify (·.recast id f)

/-- Add a node that is not linked. -/
def push (content : Content) : Work NodeId := do
  let id ← look fun s => ⟨s.size⟩
  modify (·.push content)
  return id

/-! ## Running work -/

theorem bind_run_of_ok {work : Work α} {next : α → Work β} {a : α} (h : work s = (.ok a, s')) :
    (work >>= next) s = next a s' := by
  simp only [bind, ExceptT.bind, ExceptT.mk, StateT.bind, h]
  rfl

theorem bind_run_of_error {work : Work α} {next : α → Work β} {fault : Fault}
    (h : work s = (.error fault, s')) : (work >>= next) s = (.error fault, s') := by
  simp only [bind, ExceptT.bind, ExceptT.mk, StateT.bind, h]
  rfl

theorem map_run (f : α → β) (work : Work α) : (f <$> work) s = ((work s).1.map f, (work s).2) := by
  show (work >>= fun a => pure (f a)) s = _
  cases h : work s with
  | mk outcome s' =>
    cases outcome with
    | ok a => exact bind_run_of_ok h
    | error fault => exact bind_run_of_error h

@[simp] theorem bind_ask (question : Store → Except EditFault α) (next : α → Work β) :
    (ask question >>= next) s = match question s with
      | .ok a => next a s
      | .error cause => (.error (.edit cause), s) := by
  cases h : question s with
  | ok a => exact bind_run_of_ok (by rw [ask, h]; rfl)
  | error cause => exact bind_run_of_error (by rw [ask, h]; rfl)

@[simp] theorem bind_look (view : Store → α) (next : α → Work β) :
    (look view >>= next) s = next (view s) s := rfl

theorem relink_run {id : NodeId} {f : Links → Links} (h : s.Has id) :
    relink id f s = (.ok (), s.relink id f) := by
  obtain ⟨content, hcontent⟩ := Store.content_eq_ok_iff.mpr h
  rw [relink, bind_ask, hcontent]
  rfl

theorem recast_run {id : NodeId} {f : Content → Content} (h : s.Has id) :
    recast id f s = (.ok (), s.recast id f) := by
  obtain ⟨content, hcontent⟩ := Store.content_eq_ok_iff.mpr h
  rw [recast, bind_ask, hcontent]
  rfl

theorem push_run (content : Content) : push content s = (.ok ⟨s.size⟩, s.push content) := rfl

/-- A loop does at each item what is done to the tree, as long as what it relies on lasts. -/
theorem forM_run (view : α → Store) {items : List β} {body : β → Work Unit} {step : α → β → α}
    (lasts : α → Prop) (h : ∀ a, lasts a → ∀ item ∈ items,
      body item (view a) = (.ok (), view (step a item)) ∧ lasts (step a item)) :
    ∀ a, lasts a → items.forM body (view a) = (.ok (), view (items.foldl step a)) := by
  induction items with
  | nil => exact fun a _ => rfl
  | cons item items ih =>
    intro a ha
    obtain ⟨hrun, hlasts⟩ := h a ha item List.mem_cons_self
    refine (bind_run_of_ok hrun).trans ?_
    exact ih (fun b hb other hother => h b hb other (List.mem_cons_of_mem item hother)) _ hlasts

/-- A loop of questions rewrites nothing. -/
theorem forM_ask_run {items : List β} (question : β → Store → Except EditFault Unit)
    {check : β → Except EditFault Unit} (h : ∀ item ∈ items, question item s = check item) :
    (items.forM fun item => ask (question item)) s = ((items.forM check).mapError .edit, s) := by
  induction items with
  | nil => rfl
  | cons item items ih =>
    obtain ⟨hitem, hitems⟩ := List.forall_mem_cons.mp h
    refine (bind_ask (question item) fun _ => items.forM fun item => ask (question item)).trans ?_
    rw [hitem, List.forM]
    cases check item with
    | error => rfl
    | ok => exact ih hitems

/-! ## Linking nodes -/

/-- Let a place among the children of a block lead on to a node. -/
def leadOn (block : NodeId) (prev node : Option NodeId) : Work Unit :=
  match prev with
  | some prev => relink prev ({ · with next := node })
  | none => relink block ({ · with first := node })

/-- Let a place among the children of a block lead back to a node. -/
def leadBack (block : NodeId) (next node : Option NodeId) : Work Unit :=
  match next with
  | some next => relink next ({ · with prev := node })
  | none => relink block ({ · with last := node })

/-- Link a node between two neighbours. -/
def link (block : NodeId) (prev next : Option NodeId) (node : NodeId) : Work Unit := do
  relink node ({ · with parent := some block, prev, next })
  leadOn block prev (some node)
  leadBack block next (some node)

/-- Unlink a node from its block and its neighbours. -/
def unlink (node : NodeId) : Work Unit := do
  let old ← look (·.links node)
  relink node ({ · with parent := none, prev := none, next := none })
  match old.parent with
  | none => return ()
  | some block =>
    leadOn block old.prev old.next
    leadBack block old.next old.prev

section Linking

variable {block node : NodeId} {prev next : Option NodeId} {links : Linkage}

theorem write_run {id : NodeId} {f : Links → Links} (h : s.Has id) :
    relink id f { s with links } = (.ok (), { s with links := links.write id f }) :=
  relink_run (s := { s with links }) h

theorem leadOn_run {far : Option NodeId} (hblock : s.Has block) (hprev : ∀ x ∈ prev, s.Has x) :
    leadOn block prev far { s with links } = (.ok (), { s with links := links.leadOn block prev far }) := by
  cases prev with
  | none => exact write_run hblock
  | some prev => exact write_run (hprev prev rfl)

theorem leadBack_run {far : Option NodeId} (hblock : s.Has block) (hnext : ∀ x ∈ next, s.Has x) :
    leadBack block next far { s with links } =
      (.ok (), { s with links := links.leadBack block next far }) := by
  cases next with
  | none => exact write_run hblock
  | some next => exact write_run (hnext next rfl)

theorem link_run (hnode : s.Has node) (hblock : s.Has block) (hprev : ∀ x ∈ prev, s.Has x)
    (hnext : ∀ x ∈ next, s.Has x) : link block prev next node { s with links } =
      (.ok (), { s with links := links.link block prev next node }) := by
  rw [link, bind_run_of_ok (write_run hnode), bind_run_of_ok (leadOn_run hblock hprev)]
  exact leadBack_run hblock hnext

theorem unlink_run (hnode : s.Has node) (hblock : ∀ x ∈ (s.links node).parent, s.Has x)
    (hprev : ∀ x ∈ (s.links node).prev, s.Has x) (hnext : ∀ x ∈ (s.links node).next, s.Has x) :
    unlink node s = (.ok (), { s with links := s.links.unlink node }) := by
  rw [unlink, bind_look, bind_run_of_ok (relink_run hnode), Linkage.unlink]
  cases hparent : (s.links node).parent with
  | none => rfl
  | some block =>
    have hblock := hblock block hparent
    simp only [Store.relink]
    rw [bind_run_of_ok (leadOn_run hblock hprev)]
    exact leadBack_run hblock hnext

/-- The block around each of some nodes is rewritten. -/
theorem adopt_run (links : Linkage) {members : List NodeId} (hmembers : ∀ member ∈ members, s.Has member) :
    (members.forM fun member => relink member ({ · with parent := some block })) { s with links } =
      (.ok (), { s with links := links.adopt block members }) :=
  forM_run (fun links => { s with links }) (fun _ => True)
    (fun _ _ member hmember => ⟨write_run (hmembers member hmember), trivial⟩) links trivial

end Linking

end Work

end MethodIL
