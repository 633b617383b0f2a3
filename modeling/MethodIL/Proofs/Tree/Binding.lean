import Mathlib
import MethodIL.Proofs.Tree.Ownership
set_option autoImplicit false

/-!
# The labels of a new instruction

An instruction that is created with labels is refused before it exists if one of them is no label or
belongs to another instruction.  Then the instruction is added and takes its labels one by one.  A label
that is listed once is taken whenever it passed the check.  A label that is listed twice is taken at its
first place and found taken at its second, and what was done before is not undone: the instruction is
there, lists all its labels, and owns those up to the second place.
-/

namespace MethodIL

/-- The first repetition in a list. -/
theorem exists_first_repetition {α : Type} {l : List α} (h : ¬ l.Nodup) :
    ∃ front a rest, l = front ++ a :: rest ∧ front.Nodup ∧ a ∈ front := by
  induction l using List.reverseRecOn with
  | nil => exact absurd List.nodup_nil h
  | append_singleton l a ih =>
    cases Classical.em l.Nodup with
    | inl hnodup =>
      refine ⟨l, a, [], rfl, hnodup, Classical.byContradiction fun hmem => h ?_⟩
      exact List.nodup_append.mpr ⟨hnodup, List.nodup_singleton a, fun x hx y hy heq =>
        hmem (by rwa [← List.mem_singleton.mp hy, ← heq])⟩
    | inr hrepeats =>
      obtain ⟨front, b, rest, rfl, hfront, hmem⟩ := ih hrepeats
      exact ⟨front, b, rest ++ [a], by simp, hfront, hmem⟩

namespace Tree

variable {t t' : Tree} {operation : Operation NodeId}

/-! ## Owners of many labels -/

theorem node?_setOwner (t : Tree) (label : NodeId) (owner : Option NodeId) (x : NodeId) :
    (t.setOwner label owner).node? x =
      if x = label then (t.node? x).map fun node => { node with content := node.content.setOwner owner }
      else t.node? x := by
  rw [setOwner, node?_modify]
  congr 2
  funext node
  obtain ⟨parent, content⟩ := node
  cases content <;> rfl

theorem node?_setOwners (labels : List NodeId) (owner : Option NodeId) (t : Tree) (x : NodeId) :
    (labels.foldl (fun t label => t.setOwner label owner) t).node? x =
      if x ∈ labels then (t.node? x).map fun node => { node with content := node.content.setOwner owner }
      else t.node? x := by
  induction labels generalizing t with
  | nil => simp
  | cons label labels ih =>
    have htwice : ∀ content : Content, (content.setOwner owner).setOwner owner = content.setOwner owner :=
      fun content => by cases content <;> rfl
    rw [List.foldl_cons, ih, node?_setOwner]
    by_cases hx : x = label <;> by_cases hmem : x ∈ labels <;>
      simp [hx, hmem, htwice, Function.comp_def]

theorem size_setOwners (labels : List NodeId) (owner : Option NodeId) (t : Tree) :
    (labels.foldl (fun t label => t.setOwner label owner) t).size = t.size := by
  induction labels generalizing t with
  | nil => rfl
  | cons label labels ih => rw [List.foldl_cons, ih, size_setOwner]

/-! ## Binding one by one -/

/-- The label is there and no instruction refers to it. -/
def IsUnbound (t : Tree) (label : NodeId) : Prop := t.content? label = some (.label none)

theorem bindLabels_append (owner : NodeId) (front labels : List NodeId) (t : Tree) :
    bindLabels owner (front ++ labels) t =
      match bindLabels owner front t with
      | (.ok (), bound) => bindLabels owner labels bound
      | (.error cause, bound) => (.error cause, bound) := by
  induction front generalizing t with
  | nil => rfl
  | cons label front ih =>
    rw [List.cons_append, bindLabels, bindLabels]
    cases t.checkUnbound label with
    | error cause => rfl
    | ok => exact ih _

/-- A label that comes again stops the binding at its second place. -/
theorem bindLabels_of_repeated (owner : NodeId) {front : List NodeId} (rest : List NodeId)
    {label : NodeId} (hnodup : front.Nodup) (hmem : label ∈ front)
    (hunbound : ∀ x ∈ front, t.IsUnbound x) :
    bindLabels owner (front ++ label :: rest) t =
      (.error (.alreadyBound label owner),
        front.foldl (fun t label => t.setOwner label (some owner)) t) := by
  have htaken : (front.foldl (fun t label => t.setOwner label (some owner)) t).content? label =
      some (.label (some owner)) := by
    have hcontent := hunbound label hmem
    rw [IsUnbound, content?] at hcontent
    rw [content?, node?_setOwners, if_pos hmem]
    obtain ⟨node, hnode, hlabel⟩ := Option.map_eq_some_iff.mp hcontent
    rw [hnode, Option.map_some, Option.map_some, hlabel]
    rfl
  have hrefused : (front.foldl (fun t label => t.setOwner label (some owner)) t).checkUnbound label =
      .error (.alreadyBound label owner) := by
    rw [checkUnbound, Tree.content, htaken]
    rfl
  rw [bindLabels_append, bindLabels_of_unbound owner hnodup hunbound]
  simp only [bindLabels, hrefused]

/-! ## Creating -/

/-- The operand suits the opcode, and each node that it lists is a label that is unbound. -/
structure Bindable (t : Tree) (operation : Operation NodeId) : Prop where
  suits : acceptsOperand operation = true
  unbound : ∀ label ∈ operation.operand.targets, t.IsUnbound label

/-- One node more: an instruction in no block, to which some labels refer from now on. -/
structure Gains (t : Tree) (operation : Operation NodeId) (bound : List NodeId) (t' : Tree) : Prop where
  header : t'.header = t.header
  size : t'.size = t.size + 1
  created : t'.node? ⟨t.size⟩ = some ⟨none, .instruction operation⟩
  taken : ∀ label ∈ bound, t'.node? label = some ⟨t.parent? label, .label (some ⟨t.size⟩)⟩
  others : ∀ x, x ≠ ⟨t.size⟩ → x ∉ bound → t'.node? x = t.node? x

theorem IsUnbound.ne_size {label : NodeId} (h : t.IsUnbound label) : label ≠ ⟨t.size⟩ := by
  intro heq
  rw [IsUnbound, heq, content?_size] at h
  exact absurd h (by simp)

theorem IsUnbound.push {label : NodeId} (h : t.IsUnbound label) (content : Content) :
    (t.push content).2.IsUnbound label := by
  rw [IsUnbound, content?_push, if_neg h.ne_size]
  exact h

/-- Labels that are unbound are taken by the instruction that is added. -/
theorem Gains.of_unbound {bound : List NodeId} (hunbound : ∀ label ∈ bound, t.IsUnbound label) :
    t.Gains operation bound (bound.foldl (fun grown label => grown.setOwner label (some ⟨t.size⟩))
      (t.push (.instruction operation)).2) := by
  obtain ⟨honly, -, -⟩ := LinksOnly.of_setOwners bound (some ⟨t.size⟩) (t.push (.instruction operation)).2
  refine ⟨honly.header, ?_, ?_, fun label hmem => ?_, fun x hx hmem => ?_⟩
  · rw [size_setOwners, size_push]
  · rw [node?_setOwners, if_neg fun hmem => (hunbound _ hmem).ne_size rfl, node?_push, if_pos rfl]
  · rw [node?_setOwners, if_pos hmem, node?_push, if_neg (hunbound label hmem).ne_size]
    obtain ⟨node, hnode, hcontent⟩ := Option.map_eq_some_iff.mp (hunbound label hmem)
    rw [parent?, hnode, Option.map_some, hcontent]
    rfl
  · rw [node?_setOwners, if_neg hmem, node?_push, if_neg hx]

/-- What a request for an instruction comes to, by the first obstacle that it meets. -/
inductive Requests (t : Tree) (operation : Operation NodeId) : Except Fault NodeId × Tree → Prop
  | unsuited (h : acceptsOperand operation = false) :
    Requests t operation
      (.error (.unsupportedOperand (.treeMismatch operation.opcode operation.operand)), t)
  | refused {front rest : List NodeId} {label : NodeId} {cause : EditFault}
    (hsuits : acceptsOperand operation = true)
    (hsplit : operation.operand.targets = front ++ label :: rest)
    (hfront : ∀ x ∈ front, t.IsUnbound x) (hlabel : t.checkUnbound label = .error cause) :
    Requests t operation (.error (.edit cause), t)
  | repeated {front rest : List NodeId} {label : NodeId} {t' : Tree} (hbindable : t.Bindable operation)
    (hsplit : operation.operand.targets = front ++ label :: rest) (hnodup : front.Nodup)
    (hmem : label ∈ front) (hgains : t.Gains operation front t') :
    Requests t operation (.error (.edit (.alreadyBound label ⟨t.size⟩)), t')
  | made {t' : Tree} (hbindable : t.Bindable operation) (hnodup : operation.operand.targets.Nodup)
    (hgains : t.Gains operation operation.operand.targets t') :
    Requests t operation (.ok ⟨t.size⟩, t')

/-- The first label that a check refuses. -/
theorem exists_refused {labels : List NodeId} {cause : EditFault}
    (h : labels.forM t.checkUnbound = .error cause) :
    ∃ front label rest, labels = front ++ label :: rest ∧ (∀ x ∈ front, t.IsUnbound x) ∧
      t.checkUnbound label = .error cause := by
  induction labels with
  | nil => exact absurd h (by simp [pure, Except.pure])
  | cons first labels ih =>
    change (t.checkUnbound first >>= fun _ => labels.forM t.checkUnbound) = .error cause at h
    cases hfirst : t.checkUnbound first with
    | error other =>
      rw [hfirst] at h
      obtain rfl := Except.error.inj h
      exact ⟨[], first, labels, rfl, fun _ hmem => absurd hmem List.not_mem_nil, hfirst⟩
    | ok =>
      rw [hfirst] at h
      obtain ⟨front, label, rest, rfl, hfront, hlabel⟩ := ih h
      refine ⟨first :: front, label, rest, rfl, fun x hmem => ?_, hlabel⟩
      cases List.mem_cons.mp hmem with
      | inl heq => exact heq ▸ checkUnbound_eq_ok_iff.mp hfirst
      | inr hmem => exact hfront x hmem

theorem requests (t : Tree) (operation : Operation NodeId) :
    t.Requests operation (t.newInstruction operation) := by
  unfold newInstruction
  cases hsuits : acceptsOperand operation with
  | false => exact .unsuited hsuits
  | true =>
    simp only [Bool.not_true, Bool.false_eq_true, if_false]
    cases hcheck : operation.operand.targets.forM t.checkUnbound with
    | error cause =>
      obtain ⟨front, label, rest, hsplit, hfront, hlabel⟩ := exists_refused hcheck
      exact .refused hsuits hsplit hfront hlabel
    | ok =>
      have hbindable : t.Bindable operation := ⟨hsuits, forM_checkUnbound hcheck⟩
      have hgrown : ∀ label ∈ operation.operand.targets,
          (t.push (.instruction operation)).2.IsUnbound label :=
        fun label hmem => (hbindable.unbound label hmem).push _
      cases Classical.em operation.operand.targets.Nodup with
      | inl hnodup =>
        have hbound := bindLabels_of_unbound ⟨t.size⟩ hnodup hgrown
        simp only [push_fst, hbound]
        exact .made hbindable hnodup (.of_unbound hbindable.unbound)
      | inr hrepeats =>
        obtain ⟨front, label, rest, hsplit, hnodup, hmem⟩ := exists_first_repetition hrepeats
        have hlisted : ∀ x ∈ front, x ∈ operation.operand.targets := fun x hx => by
          rw [hsplit]
          exact List.mem_append_left _ hx
        have hbound := bindLabels_of_repeated ⟨t.size⟩ rest hnodup hmem
          fun x hx => hgrown x (hlisted x hx)
        simp only [push_fst, hsplit, hbound]
        exact .repeated hbindable hsplit hnodup hmem
          (.of_unbound fun x hx => hbindable.unbound x (hlisted x hx))

/-! ## All or nothing -/

namespace Gains

variable {bound : List NodeId}

theorem operation? (h : t.Gains operation bound t') : t'.operation? ⟨t.size⟩ = some operation := by
  rw [Tree.operation?, content?, h.created]
  rfl

theorem labelOwner? (h : t.Gains operation bound t') {label : NodeId} (hmem : label ∈ bound) :
    t'.labelOwner? label = some ⟨t.size⟩ := by
  rw [Tree.labelOwner?, content?, h.taken label hmem]
  rfl

theorem labelsOf (h : t.Gains operation bound t') :
    t'.labelsOf ⟨t.size⟩ = operation.operand.targets := by
  rw [Tree.labelsOf, h.operation?]
  rfl

theorem ne (h : t.Gains operation bound t') : t' ≠ t := by
  intro heq
  have hsize := h.size
  rw [heq] at hsize
  omega

end Gains

/-- What a request for an instruction leaves behind when it is granted and when it is refused. -/
structure CreationFits (t : Tree) (operation : Operation NodeId) : Prop where
  ok_iff : (∃ id, (t.newInstruction operation).1 = .ok id) ↔
    t.Bindable operation ∧ operation.operand.targets.Nodup
  made : ∀ id t', t.newInstruction operation = (.ok id, t') →
    id = ⟨t.size⟩ ∧ t.Gains operation operation.operand.targets t' ∧
      t'.labelsOf id = operation.operand.targets ∧
      ∀ label ∈ operation.operand.targets,
        t'.labelOwner? label = some id ∧ (t'.labelsOf id).count label = 1
  unchanged_iff : ∀ fault t', t.newInstruction operation = (.error fault, t') →
    (t' = t ↔ ¬ t.Bindable operation)
  left : ∀ fault t', t.newInstruction operation = (.error fault, t') → t' ≠ t →
    ∃ front label rest, operation.operand.targets = front ++ label :: rest ∧ front.Nodup ∧
      label ∈ front ∧ fault = .edit (.alreadyBound label ⟨t.size⟩) ∧ t.Gains operation front t'

namespace CreationFits

/-- A request that the check refuses. -/
theorem of_unchanged {fault : Fault} (h : t.newInstruction operation = (.error fault, t))
    (hbindable : ¬ t.Bindable operation) : t.CreationFits operation where
  ok_iff := by simp [h, hbindable]
  made id t' hmade := by simp [h] at hmade
  unchanged_iff other t' hrefused := by
    rw [h, Prod.mk.injEq] at hrefused
    exact iff_of_true hrefused.2.symm hbindable
  left other t' hrefused hchanged := by
    rw [h, Prod.mk.injEq] at hrefused
    exact absurd hrefused.2.symm hchanged

/-- A request that lists a label twice. -/
theorem of_repeated {front rest : List NodeId} {label : NodeId} {left : Tree}
    (h : t.newInstruction operation = (.error (.edit (.alreadyBound label ⟨t.size⟩)), left))
    (hbindable : t.Bindable operation) (hsplit : operation.operand.targets = front ++ label :: rest)
    (hnodup : front.Nodup) (hmem : label ∈ front) (hgains : t.Gains operation front left) :
    t.CreationFits operation where
  ok_iff := by
    have hrepeats : ¬ operation.operand.targets.Nodup := fun hall => by
      rw [hsplit, List.append_cons] at hall
      exact (notMem_beside_of_nodup hall (List.mem_singleton_self label)).1 hmem
    simp [h, hrepeats]
  made id t' hmade := by simp [h] at hmade
  unchanged_iff other t' hrefused := by
    rw [h, Prod.mk.injEq] at hrefused
    exact iff_of_false (hrefused.2 ▸ hgains.ne) (not_not_intro hbindable)
  left other t' hrefused _ := by
    rw [h, Prod.mk.injEq] at hrefused
    obtain ⟨hfault, rfl⟩ := hrefused
    exact ⟨front, label, rest, hsplit, hnodup, hmem, (Except.error.inj hfault).symm, hgains⟩

/-- A request that is granted. -/
theorem of_made {grown : Tree} (h : t.newInstruction operation = (.ok ⟨t.size⟩, grown))
    (hbindable : t.Bindable operation) (hnodup : operation.operand.targets.Nodup)
    (hgains : t.Gains operation operation.operand.targets grown) : t.CreationFits operation where
  ok_iff := by simp [h, hbindable, hnodup]
  made id t' hmade := by
    rw [h, Prod.mk.injEq] at hmade
    obtain ⟨hid, rfl⟩ := hmade
    obtain rfl := Except.ok.inj hid
    refine ⟨rfl, hgains, hgains.labelsOf, fun label hmem => ⟨hgains.labelOwner? hmem, ?_⟩⟩
    rw [hgains.labelsOf]
    exact List.count_eq_one_of_mem hnodup hmem
  unchanged_iff fault t' hrefused := by simp [h] at hrefused
  left fault t' hrefused := by simp [h] at hrefused

end CreationFits

/-- A new instruction takes all its labels or is refused, and a refusal leaves the tree as it was unless
the operand lists unbound labels only and one of them twice: then the instruction stays, with all labels
in its operand, and those in front of the first repetition refer to it. -/
theorem newInstruction_fits (t : Tree) (operation : Operation NodeId) : t.CreationFits operation := by
  have hrequest := t.requests operation
  generalize hresult : t.newInstruction operation = result at hrequest
  cases hrequest with
  | unsuited hsuits =>
    refine .of_unchanged hresult fun hbindable => ?_
    rw [hbindable.suits] at hsuits
    exact absurd hsuits (by simp)
  | @refused front rest label cause _ hsplit _ hlabel =>
    refine .of_unchanged hresult fun hbindable => ?_
    have hunbound := hbindable.unbound label (by simp [hsplit])
    rw [checkUnbound_eq_ok_iff.mpr hunbound] at hlabel
    exact absurd hlabel (by simp)
  | repeated hbindable hsplit hnodup hmem hgains =>
    exact .of_repeated hresult hbindable hsplit hnodup hmem hgains
  | made hbindable hnodup hgains => exact .of_made hresult hbindable hnodup hgains

/-- A tree with one label that nobody refers to. -/
def looseLabel : Tree := (new default).runAll [.newLabel]

/-- A switch that lists the one label of a tree twice is refused, and the tree is another: the switch is
there and has the label. -/
theorem looseLabel_listed_twice : ∃ opcode, Opcode.find? .single 0x45 = some opcode ∧
    looseLabel.Reachable ∧
    (looseLabel.newInstruction ⟨opcode, .switch [⟨1⟩, ⟨1⟩]⟩).1 =
      .error (.edit (.alreadyBound ⟨1⟩ ⟨2⟩)) ∧
    (looseLabel.newInstruction ⟨opcode, .switch [⟨1⟩, ⟨1⟩]⟩).2 ≠ looseLabel ∧
    (looseLabel.newInstruction ⟨opcode, .switch [⟨1⟩, ⟨1⟩]⟩).2.nodes =
      looseLabel.nodes.modify 1 (fun label => { label with content := .label (some ⟨2⟩) }) ++
        #[⟨none, .instruction ⟨opcode, .switch [⟨1⟩, ⟨1⟩]⟩⟩] := by
  have hrun : ((Opcode.find? .single 0x45).any fun opcode =>
      (looseLabel.newInstruction ⟨opcode, .switch [⟨1⟩, ⟨1⟩]⟩).1 ==
        .error (.edit (.alreadyBound ⟨1⟩ ⟨2⟩)) &&
      (looseLabel.newInstruction ⟨opcode, .switch [⟨1⟩, ⟨1⟩]⟩).2.nodes ==
        looseLabel.nodes.modify 1 (fun label => { label with content := .label (some ⟨2⟩) }) ++
          #[⟨none, .instruction ⟨opcode, .switch [⟨1⟩, ⟨1⟩]⟩⟩]) = true := by
    decide +kernel
  rw [Option.any_eq_true] at hrun
  obtain ⟨opcode, hopcode, hleft⟩ := hrun
  rw [Bool.and_eq_true, beq_iff_eq, beq_iff_eq] at hleft
  obtain ⟨hrefused, hnodes⟩ := hleft
  refine ⟨opcode, hopcode, (Reachable.new default).runAll _, hrefused, fun heq => ?_, hnodes⟩
  have hsize := congrArg Array.size hnodes
  rw [heq, Array.size_append, Array.size_modify] at hsize
  exact absurd hsize (by simp)

end Tree

end MethodIL
