import Mathlib
import MethodIL.Tree.Order
set_option autoImplicit false

/-!
# Looking at a changed tree

What each change of a node does to the views of a tree: to the parents, the contents and the
children.  The changes of several nodes are built from these, and later proofs see a changed tree
through the views only.
-/

namespace MethodIL

/-! ## Changing contents -/

namespace Content

/-- Change the children of a block. -/
def mapChildren (f : List NodeId → List NodeId) : Content → Content
  | .block kind children => .block kind (f children)
  | content => content

/-- Change what a block is for. -/
def mapKind (f : BlockKind → BlockKind) : Content → Content
  | .block kind children => .block (f kind) children
  | content => content

/-- Replace the operation of an instruction. -/
def setOperation (operation : Operation NodeId) : Content → Content
  | .instruction _ => .instruction operation
  | content => content

/-- Set the instruction that refers to a label. -/
def setOwner (owner : Option NodeId) : Content → Content
  | .label _ => .label owner
  | content => content

/-- The children of a block; other nodes have none. -/
def children : Content → List NodeId
  | .block _ children => children
  | _ => []

/-- What a block is for. -/
def kind? : Content → Option BlockKind
  | .block kind _ => some kind
  | _ => none

/-- The operation of an instruction. -/
def operation? : Content → Option (Operation NodeId)
  | .instruction operation => some operation
  | _ => none

/-- Labels alone can be targets. -/
def isLabel : Content → Bool
  | .label _ => true
  | _ => false

/-- The instruction that refers to a label. -/
def owner? : Content → Option NodeId
  | .label owner => owner
  | _ => none

end Content

namespace Tree

variable (t : Tree)

theorem children_eq (id : NodeId) : t.children id = ((t.content? id).map Content.children).getD [] := by
  unfold children
  cases t.content? id with
  | none => rfl
  | some content => cases content <;> rfl

/-! ## One node -/

@[simp] theorem size_modify (id : NodeId) (f : Node → Node) : (t.modify id f).size = t.size := by
  simp [modify, size]

theorem node?_modify (id x : NodeId) (f : Node → Node) :
    (t.modify id f).node? x = if x = id then (t.node? x).map f else t.node? x := by
  have hindex : id.index = x.index ↔ x = id := by
    rw [eq_comm, ← NodeId.mk.injEq]
  simp only [modify, node?, Array.getElem?_modify, hindex]

theorem node?_eq_none_iff (id : NodeId) : t.node? id = none ↔ t.size ≤ id.index := by
  simp [node?, size]

theorem isSome_content?_iff (id : NodeId) : (t.content? id).isSome ↔ id.index < t.size := by
  simp [content?, node?, size]

/-- A change of the content of one node. -/
theorem modify_content {id : NodeId} {f : Node → Node} {g : Content → Content}
    (hf : ∀ node : Node, f node = { node with content := g node.content }) (x : NodeId) :
    (t.modify id f).parent? x = t.parent? x ∧
      (t.modify id f).content? x = if x = id then (t.content? x).map g else t.content? x := by
  simp only [parent?, content?, node?_modify]
  split
  · cases t.node? x <;> simp [hf]
  · exact ⟨rfl, rfl⟩

@[simp] theorem size_setParent (id : NodeId) (parent : Option NodeId) :
    (t.setParent id parent).size = t.size := size_modify t id _

@[simp] theorem size_mapChildren (id : NodeId) (f : List NodeId → List NodeId) :
    (t.mapChildren id f).size = t.size := size_modify t id _

@[simp] theorem size_mapKind (id : NodeId) (f : BlockKind → BlockKind) :
    (t.mapKind id f).size = t.size := size_modify t id _

@[simp] theorem size_setOperation (id : NodeId) (operation : Operation NodeId) :
    (t.setOperation id operation).size = t.size := size_modify t id _

@[simp] theorem size_setOwner (id : NodeId) (owner : Option NodeId) :
    (t.setOwner id owner).size = t.size := size_modify t id _

theorem parent?_setParent (id x : NodeId) (parent : Option NodeId) :
    (t.setParent id parent).parent? x =
      if x = id ∧ x.index < t.size then parent else t.parent? x := by
  simp only [setParent, parent?, node?_modify]
  by_cases hx : x = id
  · cases hnode : t.node? x with
    | none =>
      have hsize := (node?_eq_none_iff t x).mp hnode
      simp [Nat.not_lt.mpr hsize]
    | some node =>
      have hsize : x.index < t.size := by
        by_contra hout
        rw [(node?_eq_none_iff t x).mpr (Nat.not_lt.mp hout)] at hnode
        exact absurd hnode (by simp)
      simp [hx ▸ hsize, hx]
  · simp [hx]

@[simp] theorem content?_setParent (id x : NodeId) (parent : Option NodeId) :
    (t.setParent id parent).content? x = t.content? x := by
  simp only [setParent, content?, node?_modify]
  split
  · cases t.node? x <;> rfl
  · rfl

private theorem mapChildren_content (id : NodeId) (f : List NodeId → List NodeId) (x : NodeId) :
    (t.mapChildren id f).parent? x = t.parent? x ∧
      (t.mapChildren id f).content? x =
        if x = id then (t.content? x).map (Content.mapChildren f) else t.content? x := by
  apply modify_content
  rintro ⟨parent, content⟩
  cases content <;> rfl

private theorem mapKind_content (id : NodeId) (f : BlockKind → BlockKind) (x : NodeId) :
    (t.mapKind id f).parent? x = t.parent? x ∧
      (t.mapKind id f).content? x =
        if x = id then (t.content? x).map (Content.mapKind f) else t.content? x := by
  apply modify_content
  rintro ⟨parent, content⟩
  cases content <;> rfl

private theorem setOperation_content (id : NodeId) (operation : Operation NodeId) (x : NodeId) :
    (t.setOperation id operation).parent? x = t.parent? x ∧
      (t.setOperation id operation).content? x =
        if x = id then (t.content? x).map (Content.setOperation operation) else t.content? x := by
  apply modify_content
  rintro ⟨parent, content⟩
  cases content <;> rfl

private theorem setOwner_content (id : NodeId) (owner : Option NodeId) (x : NodeId) :
    (t.setOwner id owner).parent? x = t.parent? x ∧
      (t.setOwner id owner).content? x =
        if x = id then (t.content? x).map (Content.setOwner owner) else t.content? x := by
  apply modify_content
  rintro ⟨parent, content⟩
  cases content <;> rfl

@[simp] theorem parent?_mapChildren (id : NodeId) (f : List NodeId → List NodeId) (x : NodeId) :
    (t.mapChildren id f).parent? x = t.parent? x := (mapChildren_content t id f x).1

theorem content?_mapChildren (id : NodeId) (f : List NodeId → List NodeId) (x : NodeId) :
    (t.mapChildren id f).content? x =
      if x = id then (t.content? x).map (Content.mapChildren f) else t.content? x :=
  (mapChildren_content t id f x).2

@[simp] theorem parent?_mapKind (id : NodeId) (f : BlockKind → BlockKind) (x : NodeId) :
    (t.mapKind id f).parent? x = t.parent? x := (mapKind_content t id f x).1

theorem content?_mapKind (id : NodeId) (f : BlockKind → BlockKind) (x : NodeId) :
    (t.mapKind id f).content? x =
      if x = id then (t.content? x).map (Content.mapKind f) else t.content? x :=
  (mapKind_content t id f x).2

@[simp] theorem parent?_setOperation (id : NodeId) (operation : Operation NodeId) (x : NodeId) :
    (t.setOperation id operation).parent? x = t.parent? x := (setOperation_content t id operation x).1

theorem content?_setOperation (id : NodeId) (operation : Operation NodeId) (x : NodeId) :
    (t.setOperation id operation).content? x =
      if x = id then (t.content? x).map (Content.setOperation operation) else t.content? x :=
  (setOperation_content t id operation x).2

@[simp] theorem parent?_setOwner (id : NodeId) (owner : Option NodeId) (x : NodeId) :
    (t.setOwner id owner).parent? x = t.parent? x := (setOwner_content t id owner x).1

theorem content?_setOwner (id : NodeId) (owner : Option NodeId) (x : NodeId) :
    (t.setOwner id owner).content? x =
      if x = id then (t.content? x).map (Content.setOwner owner) else t.content? x :=
  (setOwner_content t id owner x).2

/-! ## Children -/

@[simp] theorem children_setParent (id : NodeId) (parent : Option NodeId) (x : NodeId) :
    (t.setParent id parent).children x = t.children x := by
  rw [children_eq, children_eq, content?_setParent]

theorem children_mapChildren (id : NodeId) (f : List NodeId → List NodeId) (x : NodeId) :
    (t.mapChildren id f).children x =
      if x = id ∧ (t.blockKind? x).isSome then f (t.children x) else t.children x := by
  unfold children blockKind?
  rw [content?_mapChildren]
  by_cases hx : x = id
  · cases t.content? x with
    | none => simp
    | some content => cases content <;> simp [hx, Content.mapChildren]
  · simp [hx]

@[simp] theorem children_mapKind (id : NodeId) (f : BlockKind → BlockKind) (x : NodeId) :
    (t.mapKind id f).children x = t.children x := by
  rw [children_eq, children_eq, content?_mapKind]
  split
  · cases t.content? x with
    | none => rfl
    | some content => cases content <;> rfl
  · rfl

@[simp] theorem children_setOperation (id : NodeId) (operation : Operation NodeId) (x : NodeId) :
    (t.setOperation id operation).children x = t.children x := by
  rw [children_eq, children_eq, content?_setOperation]
  split
  · cases t.content? x with
    | none => rfl
    | some content => cases content <;> rfl
  · rfl

@[simp] theorem children_setOwner (id : NodeId) (owner : Option NodeId) (x : NodeId) :
    (t.setOwner id owner).children x = t.children x := by
  rw [children_eq, children_eq, content?_setOwner]
  split
  · cases t.content? x with
    | none => rfl
    | some content => cases content <;> rfl
  · rfl

/-! ## A new node -/

@[simp] theorem push_fst (content : Content) : (t.push content).1 = ⟨t.size⟩ := rfl

@[simp] theorem size_push (content : Content) : (t.push content).2.size = t.size + 1 := by
  simp [push, size]

theorem node?_push (content : Content) (x : NodeId) :
    (t.push content).2.node? x = if x = ⟨t.size⟩ then some ⟨none, content⟩ else t.node? x := by
  have hindex : x.index = t.nodes.size ↔ x = ⟨t.size⟩ := by
    rw [← NodeId.mk.injEq]
    rfl
  simp only [push, node?, Array.getElem?_push, hindex]

@[simp] theorem parent?_push (content : Content) (x : NodeId) :
    (t.push content).2.parent? x = t.parent? x := by
  simp only [parent?, node?_push]
  split
  case isTrue hx =>
    have hnone : t.node? x = none := (node?_eq_none_iff t x).mpr (by rw [hx])
    rw [hnone]
    rfl
  case isFalse => rfl

theorem content?_push (content : Content) (x : NodeId) :
    (t.push content).2.content? x = if x = ⟨t.size⟩ then some content else t.content? x := by
  simp only [content?, node?_push]
  split <;> rfl

theorem children_push (content : Content) (x : NodeId) :
    (t.push content).2.children x = if x = ⟨t.size⟩ then content.children else t.children x := by
  rw [children_eq, content?_push, children_eq]
  split <;> rfl

/-- There is nothing at the number that the next node will have. -/
theorem content?_size : t.content? ⟨t.size⟩ = none := by
  rw [← Option.not_isSome_iff_eq_none, isSome_content?_iff]
  simp

/-! ## Kinds of nodes -/

variable {t}

theorem blockKind?_eq_some_iff {id : NodeId} {kind : BlockKind} :
    t.blockKind? id = some kind ↔ t.content? id = some (.block kind (t.children id)) := by
  unfold blockKind? children
  cases t.content? id with
  | none => simp
  | some content => cases content <;> simp

theorem operation?_eq_some_iff {id : NodeId} {operation : Operation NodeId} :
    t.operation? id = some operation ↔ t.content? id = some (.instruction operation) := by
  unfold operation?
  cases t.content? id with
  | none => simp
  | some content => cases content <;> simp

/-- A block is no instruction. -/
theorem isInstruction_of_blockKind? {id : NodeId} {kind : BlockKind}
    (h : t.blockKind? id = some kind) : t.isInstruction id = false := by
  rw [isInstruction, operation?, blockKind?_eq_some_iff.mp h]
  rfl

theorem isInstruction_iff {id : NodeId} :
    t.isInstruction id = true ↔ ∃ operation, t.content? id = some (.instruction operation) := by
  simp only [isInstruction, Option.isSome_iff_exists, operation?_eq_some_iff]

theorem isLabel_iff {id : NodeId} :
    t.isLabel id = true ↔ ∃ owner, t.content? id = some (.label owner) := by
  unfold isLabel
  cases t.content? id with
  | none => simp
  | some content => cases content <;> simp

/-- A label is no instruction. -/
theorem isInstruction_of_isLabel {id : NodeId} (h : t.isLabel id = true) :
    t.isInstruction id = false := by
  obtain ⟨owner, hcontent⟩ := isLabel_iff.mp h
  rw [isInstruction, operation?, hcontent]
  rfl

/-! Whatever has a content exists. -/

theorem index_lt_of_content? {id : NodeId} {content : Content}
    (h : t.content? id = some content) : id.index < t.size :=
  (isSome_content?_iff t id).mp (Option.isSome_of_eq_some h)

theorem index_lt_of_blockKind? {id : NodeId} {kind : BlockKind}
    (h : t.blockKind? id = some kind) : id.index < t.size :=
  index_lt_of_content? (blockKind?_eq_some_iff.mp h)

theorem index_lt_of_operation? {id : NodeId} {operation : Operation NodeId}
    (h : t.operation? id = some operation) : id.index < t.size :=
  index_lt_of_content? (operation?_eq_some_iff.mp h)

theorem index_lt_of_isLabel {id : NodeId} (h : t.isLabel id = true) : id.index < t.size := by
  obtain ⟨owner, hcontent⟩ := isLabel_iff.mp h
  exact index_lt_of_content? hcontent

/-- Only blocks have children. -/
theorem exists_kind_of_mem_children {id child : NodeId} (h : child ∈ t.children id) :
    ∃ kind, t.blockKind? id = some kind := by
  unfold children at h
  unfold blockKind?
  cases hcontent : t.content? id with
  | none => simp [hcontent] at h
  | some content => cases content <;> simp [hcontent] at h ⊢

theorem children_eq_nil_of_blockKind? {id : NodeId} (h : t.blockKind? id = none) :
    t.children id = [] := by
  refine List.eq_nil_iff_forall_not_mem.mpr fun child hchild => ?_
  obtain ⟨kind, hkind⟩ := exists_kind_of_mem_children hchild
  rw [h] at hkind
  exact absurd hkind (by simp)

theorem children_eq_nil_of_isInstruction {id : NodeId} (h : t.isInstruction id = true) :
    t.children id = [] := by
  obtain ⟨operation, hcontent⟩ := isInstruction_iff.mp h
  rw [children_eq, hcontent]
  rfl

theorem children_eq_nil_of_isLabel {id : NodeId} (h : t.isLabel id = true) : t.children id = [] := by
  obtain ⟨owner, hcontent⟩ := isLabel_iff.mp h
  rw [children_eq, hcontent]
  rfl

/-! ## What a node is apart from its children -/

/-- What a node is, without the children of a block. -/
def payload? (t : Tree) (id : NodeId) : Option Content :=
  (t.content? id).map (Content.mapChildren fun _ => [])

theorem payload?_mapChildren (id : NodeId) (f : List NodeId → List NodeId) (x : NodeId) :
    (t.mapChildren id f).payload? x = t.payload? x := by
  rw [payload?, payload?, content?_mapChildren]
  split
  · cases t.content? x with
    | none => rfl
    | some content => cases content <;> rfl
  · rfl

theorem payload?_setParent (id : NodeId) (parent : Option NodeId) (x : NodeId) :
    (t.setParent id parent).payload? x = t.payload? x := by
  rw [payload?, payload?, content?_setParent]

theorem payload?_push (content : Content) (x : NodeId) :
    (t.push content).2.payload? x =
      if x = ⟨t.size⟩ then some (content.mapChildren fun _ => []) else t.payload? x := by
  rw [payload?, content?_push]
  split <;> rfl

section Operations

variable (t : Tree) (id : NodeId)

theorem operation?_setOperation (operation : Operation NodeId) (x : NodeId) :
    (t.setOperation id operation).operation? x =
      if x = id then (t.operation? x).map fun _ => operation else t.operation? x := by
  rw [operation?, operation?, content?_setOperation]
  by_cases hx : x = id
  · rw [if_pos hx, if_pos hx]
    cases t.content? x with
    | none => rfl
    | some content => cases content <;> rfl
  · rw [if_neg hx, if_neg hx]

theorem operation?_setOwner (owner : Option NodeId) (x : NodeId) :
    (t.setOwner id owner).operation? x = t.operation? x := by
  rw [operation?, operation?, content?_setOwner]
  by_cases hx : x = id
  · rw [if_pos hx]
    cases t.content? x with
    | none => rfl
    | some content => cases content <;> rfl
  · rw [if_neg hx]

theorem operation?_mapKind (f : BlockKind → BlockKind) (x : NodeId) :
    (t.mapKind id f).operation? x = t.operation? x := by
  rw [operation?, operation?, content?_mapKind]
  by_cases hx : x = id
  · rw [if_pos hx]
    cases t.content? x with
    | none => rfl
    | some content => cases content <;> rfl
  · rw [if_neg hx]

end Operations

section Payload

variable (t : Tree) (x : NodeId)

theorem blockKind?_eq_payload? : t.blockKind? x = (t.payload? x).bind Content.kind? := by
  rw [blockKind?, payload?]
  cases t.content? x with
  | none => rfl
  | some content => cases content <;> rfl

theorem operation?_eq_payload? : t.operation? x = (t.payload? x).bind Content.operation? := by
  rw [operation?, payload?]
  cases t.content? x with
  | none => rfl
  | some content => cases content <;> rfl

theorem isLabel_eq_payload? : t.isLabel x = (t.payload? x).any Content.isLabel := by
  rw [isLabel, payload?]
  cases t.content? x with
  | none => rfl
  | some content => cases content <;> rfl

theorem labelOwner?_eq_payload? : t.labelOwner? x = (t.payload? x).bind Content.owner? := by
  rw [labelOwner?, payload?]
  cases t.content? x with
  | none => rfl
  | some content => cases content <;> rfl

variable {t x} {t' : Tree} {y : NodeId} (h : t'.payload? x = t.payload? y)

include h

theorem blockKind?_of_payload? : t'.blockKind? x = t.blockKind? y := by
  rw [blockKind?_eq_payload?, blockKind?_eq_payload?, h]

theorem operation?_of_payload? : t'.operation? x = t.operation? y := by
  rw [operation?_eq_payload?, operation?_eq_payload?, h]

theorem isInstruction_of_payload? : t'.isInstruction x = t.isInstruction y := by
  rw [isInstruction, isInstruction, operation?_of_payload? h]

theorem isLabel_of_payload? : t'.isLabel x = t.isLabel y := by
  rw [isLabel_eq_payload?, isLabel_eq_payload?, h]

theorem labelOwner?_of_payload? : t'.labelOwner? x = t.labelOwner? y := by
  rw [labelOwner?_eq_payload?, labelOwner?_eq_payload?, h]

end Payload

end Tree

end MethodIL
