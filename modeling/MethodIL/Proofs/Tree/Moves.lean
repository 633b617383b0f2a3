import Mathlib
import MethodIL.Proofs.Tree.WellFormed
import MethodIL.Tree.Wrap
import MethodIL.Tree.Placement
set_option autoImplicit false

/-!
# Moving nodes

The four changes that move nodes: a node is attached to a block or detached from it, a block is
spliced into the block around it, and a run of children is enclosed in a new block.  For each of
them there are the views of the tree that it leaves, and the proof that a well-formed tree stays
well formed.  What a node is apart from its children is the same before and after.
-/

namespace MethodIL

/-- Replacing an item that is not listed changes nothing. -/
theorem flatMap_replace_of_notMem {α : Type} [DecidableEq α] {x : α} {items new : List α}
    (h : x ∉ items) : (items.flatMap fun a => if a = x then new else [a]) = items := by
  induction items with
  | nil => rfl
  | cons a items ih =>
    rw [List.mem_cons, not_or] at h
    rw [List.flatMap_cons, if_neg (Ne.symm h.1), ih h.2, List.singleton_append]

/-- The list that has other items in place of one. -/
theorem flatMap_replace {α : Type} [DecidableEq α] {x : α} {before new after : List α}
    (hbefore : x ∉ before) (hafter : x ∉ after) :
    ((before ++ x :: after).flatMap fun a => if a = x then new else [a]) = before ++ new ++ after := by
  rw [List.flatMap_append, List.flatMap_cons, if_pos rfl, flatMap_replace_of_notMem hbefore,
    flatMap_replace_of_notMem hafter, List.append_assoc]

namespace Tree

variable {t t' : Tree}

/-! ## Setting many parents -/

@[simp] theorem size_foldl_setParent (ids : List NodeId) (parent : Option NodeId) (t : Tree) :
    (ids.foldl (fun t id => t.setParent id parent) t).size = t.size := by
  induction ids generalizing t with
  | nil => rfl
  | cons id ids ih => rw [List.foldl_cons, ih, size_setParent]

theorem parent?_foldl_setParent (ids : List NodeId) (parent : Option NodeId) (t : Tree)
    (x : NodeId) :
    (ids.foldl (fun t id => t.setParent id parent) t).parent? x =
      if x ∈ ids ∧ x.index < t.size then parent else t.parent? x := by
  induction ids generalizing t with
  | nil => simp
  | cons id ids ih =>
    rw [List.foldl_cons, ih, size_setParent, parent?_setParent]
    by_cases hx : x = id
    · by_cases hid : id.index < t.size <;> simp [hx, hid]
    · simp [hx]

@[simp] theorem content?_foldl_setParent (ids : List NodeId) (parent : Option NodeId) (t : Tree)
    (x : NodeId) :
    (ids.foldl (fun t id => t.setParent id parent) t).content? x = t.content? x := by
  induction ids generalizing t with
  | nil => rfl
  | cons id ids ih => rw [List.foldl_cons, ih, content?_setParent]

@[simp] theorem header_foldl_setParent (ids : List NodeId) (parent : Option NodeId) (t : Tree) :
    (ids.foldl (fun t id => t.setParent id parent) t).header = t.header := by
  induction ids generalizing t with
  | nil => rfl
  | cons id ids ih => rw [List.foldl_cons, ih, setParent, modify]

/-! ## Trees with the same links -/

/-- The links alone decide whether a tree is well formed. -/
theorem WellFormed.of_links (wf : t.WellFormed) (hroot : t'.blockKind? root = some .body)
    (hparent : ∀ x, t'.parent? x = t.parent? x) (hchildren : ∀ x, t'.children x = t.children x) :
    t'.WellFormed where
  root_kind := hroot
  root_parent := by rw [hparent, wf.root_parent]
  parent_iff id p := by rw [hparent, hchildren, wf.parent_iff]
  nodup p := by rw [hchildren]; exact wf.nodup p
  ranked := by
    obtain ⟨rank, hrank⟩ := wf.ranked
    exact ⟨rank, fun id p h => hrank id p (by rw [← hparent, h])⟩

/-! ## A new node -/

theorem WellFormed.parent?_size (wf : t.WellFormed) : t.parent? ⟨t.size⟩ = none := by
  rw [Option.eq_none_iff_forall_ne_some]
  intro p hp
  exact Nat.lt_irrefl _ (wf.exists_of_parent hp).1

theorem WellFormed.size_notMem_children (wf : t.WellFormed) (p : NodeId) :
    (⟨t.size⟩ : NodeId) ∉ t.children p := by
  intro h
  rw [← wf.parent_iff, wf.parent?_size] at h
  exact absurd h (by simp)

theorem children_size (t : Tree) : t.children ⟨t.size⟩ = [] := by
  rw [children_eq, content?_size]
  rfl

theorem ne_size_of_mem_children {p child : NodeId} (h : child ∈ t.children p) : p ≠ ⟨t.size⟩ := by
  rintro rfl
  rw [children_size] at h
  exact absurd h List.not_mem_nil

theorem payload?_eq_some_block {x : NodeId} {kind : BlockKind} :
    t.payload? x = some (.block kind []) ↔ t.blockKind? x = some kind := by
  unfold payload? blockKind?
  cases t.content? x with
  | none => simp
  | some content => cases content <;> simp [Content.mapChildren]

theorem payload?_eq_some_label {x : NodeId} {owner : Option NodeId} :
    t.payload? x = some (.label owner) ↔ t.content? x = some (.label owner) := by
  unfold payload?
  cases t.content? x with
  | none => simp
  | some content => cases content <;> simp [Content.mapChildren]

/-- A new node without children is a tree of its own. -/
theorem WellFormed.push (wf : t.WellFormed) {content : Content} (h : content.children = []) :
    (t.push content).2.WellFormed := by
  have hne := Ne.symm wf.size_ne_root
  refine wf.of_links ?_ (parent?_push t content) fun x => ?_
  · rw [← payload?_eq_some_block, payload?_push, if_neg hne, payload?_eq_some_block, wf.root_kind]
  · rw [children_push]
    split
    case isTrue hx => rw [h, hx, children_size]
    case isFalse => rfl

/-! ## Attaching -/

section Attach

variable {parent node : NodeId} {place : List NodeId → List NodeId}

@[simp] theorem size_attach : (t.attach parent node place).size = t.size := by
  rw [attach, size_mapChildren, size_setParent]

theorem payload?_attach (x : NodeId) :
    (t.attach parent node place).payload? x = t.payload? x := by
  rw [attach, payload?_mapChildren, payload?_setParent]

theorem parent?_attach (hnode : node.index < t.size) (x : NodeId) :
    (t.attach parent node place).parent? x = if x = node then some parent else t.parent? x := by
  rw [attach, parent?_mapChildren, parent?_setParent]
  by_cases hx : x = node
  · simp [hx, hnode]
  · simp [hx]

theorem children_attach (hparent : (t.blockKind? parent).isSome) (x : NodeId) :
    (t.attach parent node place).children x =
      if x = parent then place (t.children parent) else t.children x := by
  have hkind : (t.setParent node (some parent)).blockKind? parent = t.blockKind? parent :=
    blockKind?_of_payload? (payload?_setParent node (some parent) parent)
  rw [attach, children_mapChildren, children_setParent]
  by_cases hx : x = parent
  · rw [hx, hkind, if_pos ⟨rfl, hparent⟩, if_pos rfl]
  · rw [if_neg (fun h => hx h.1), if_neg hx]

/-- A node that no block holds can go into any block that is not below it. -/
theorem WellFormed.attach (wf : t.WellFormed) (hnode : node.index < t.size)
    (hroot : node ≠ root) (hfree : t.parent? node = none)
    (hparent : (t.blockKind? parent).isSome) (hself : node ≠ parent)
    (hbelow : node ∉ t.ancestors parent)
    (hplace : ∀ items, (place items).Perm (node :: items)) :
    (t.attach parent node place).WellFormed := by
  have hfresh : ∀ p, node ∉ t.children p := fun p hp => by
    rw [← wf.parent_iff, hfree] at hp
    exact absurd hp (by simp)
  refine ⟨?_, ?_, ?_, ?_, ?_⟩
  · rw [blockKind?_of_payload? (payload?_attach root), wf.root_kind]
  · rw [parent?_attach hnode, if_neg (Ne.symm hroot), wf.root_parent]
  · intro id p
    rw [parent?_attach hnode, children_attach hparent]
    by_cases hid : id = node
    · by_cases hp : p = parent
      · simp [hid, hp, (hplace _).mem_iff]
      · simp [hid, hp, hfresh, Ne.symm hp]
    · by_cases hp : p = parent
      · simp [hid, hp, (hplace _).mem_iff, wf.parent_iff]
      · simp [hid, hp, wf.parent_iff]
  · intro p
    rw [children_attach hparent]
    split
    · rw [(hplace _).nodup_iff, List.nodup_cons]
      exact ⟨hfresh parent, wf.nodup parent⟩
    · exact wf.nodup p
  · -- whatever hangs below the node is ranked behind its new block
    obtain ⟨rank, hrank⟩ := wf.ranked
    refine ⟨fun x =>
      if x = node ∨ node ∈ t.ancestors x then rank x + rank parent + 1 else rank x, ?_⟩
    intro id p h
    rw [parent?_attach hnode] at h
    beta_reduce
    by_cases hid : id = node
    · rw [if_pos hid, Option.some.injEq] at h
      subst h
      rw [if_neg (not_or.mpr ⟨Ne.symm hself, hbelow⟩), if_pos (Or.inl hid)]
      omega
    · rw [if_neg hid] at h
      have hlt := hrank id p h
      have hbelowId : (id = node ∨ node ∈ t.ancestors id) ↔ (p = node ∨ node ∈ t.ancestors p) := by
        rw [wf.ancestors_of_parent h, List.mem_cons]
        simp [hid, eq_comm]
      by_cases hp : p = node ∨ node ∈ t.ancestors p
      · simp only [if_pos hp, if_pos (hbelowId.mpr hp)]
        omega
      · simp only [if_neg hp, if_neg (mt hbelowId.mp hp)]
        exact hlt

end Attach

/-! ## Detaching -/

section Detach

variable {node : NodeId}

@[simp] theorem size_detach : (t.detach node).size = t.size := by
  unfold detach
  split <;> simp

theorem payload?_detach (x : NodeId) : (t.detach node).payload? x = t.payload? x := by
  unfold detach
  split
  · rfl
  · rw [payload?_setParent, payload?_mapChildren]

theorem parent?_detach (x : NodeId) :
    (t.detach node).parent? x = if x = node then none else t.parent? x := by
  unfold detach
  split
  case h_1 hparent =>
    split
    case isTrue hx => rw [hx, hparent]
    case isFalse => rfl
  case h_2 parent hparent =>
    rw [parent?_setParent, parent?_mapChildren, size_mapChildren]
    have hnode : node.index < t.size := by
      by_contra hout
      rw [parent?, (node?_eq_none_iff t node).mpr (Nat.not_lt.mp hout)] at hparent
      exact absurd hparent (by simp)
    by_cases hx : x = node
    · simp [hx, hnode]
    · simp [hx]

theorem WellFormed.children_detach (wf : t.WellFormed) (x : NodeId) :
    (t.detach node).children x = (t.children x).erase node := by
  have hother : t.parent? node ≠ some x → (t.children x).erase node = t.children x := by
    intro h
    rw [Ne, wf.parent_iff] at h
    exact List.erase_of_not_mem h
  unfold detach
  split
  case h_1 hparent =>
    rw [hother (by rw [hparent]; simp)]
  case h_2 parent hparent =>
    rw [children_setParent, children_mapChildren]
    obtain ⟨kind, hkind⟩ := exists_kind_of_mem_children ((wf.parent_iff node parent).mp hparent)
    by_cases hx : x = parent
    · rw [hx, if_pos ⟨rfl, by rw [hkind]; rfl⟩]
    · rw [if_neg (fun h => hx h.1), hother (by rw [hparent]; simpa using Ne.symm hx)]

theorem WellFormed.detach (wf : t.WellFormed) : (t.detach node).WellFormed := by
  refine ⟨?_, ?_, ?_, ?_, ?_⟩
  · rw [blockKind?_of_payload? (payload?_detach root), wf.root_kind]
  · rw [parent?_detach, wf.root_parent, ite_self]
  · intro id p
    rw [parent?_detach, wf.children_detach, (wf.nodup p).mem_erase_iff, ← wf.parent_iff]
    by_cases hid : id = node <;> simp [hid]
  · intro p
    rw [wf.children_detach]
    exact (wf.nodup p).erase node
  · obtain ⟨rank, hrank⟩ := wf.ranked
    refine ⟨rank, fun id p h => hrank id p ?_⟩
    rw [parent?_detach] at h
    by_cases hid : id = node
    · rw [if_pos hid] at h
      exact absurd h (by simp)
    · rwa [if_neg hid] at h

end Detach

/-! ## Splicing -/

section Splice

variable {parent block : NodeId}

@[simp] theorem size_splice : (t.splice parent block).size = t.size := by
  simp only [splice, size_mapChildren, size_setParent, size_foldl_setParent]

theorem payload?_foldl_setParent (ids : List NodeId) (holder : Option NodeId) (t : Tree)
    (x : NodeId) :
    (ids.foldl (fun t id => t.setParent id holder) t).payload? x = t.payload? x := by
  rw [payload?, content?_foldl_setParent, payload?]

theorem children_foldl_setParent (ids : List NodeId) (holder : Option NodeId) (t : Tree)
    (x : NodeId) :
    (ids.foldl (fun t id => t.setParent id holder) t).children x = t.children x := by
  rw [children_eq, content?_foldl_setParent, children_eq]

theorem header_splice : (t.splice parent block).header = t.header :=
  header_foldl_setParent (t.children block) (some parent) t

theorem payload?_splice (x : NodeId) : (t.splice parent block).payload? x = t.payload? x := by
  simp only [splice, payload?_mapChildren, payload?_setParent, payload?_foldl_setParent]

theorem WellFormed.parent?_splice (wf : t.WellFormed) (h : t.parent? block = some parent)
    (x : NodeId) :
    (t.splice parent block).parent? x =
      if x = block then none
      else if t.parent? x = some block then some parent
      else t.parent? x := by
  have hblock := (wf.exists_of_parent h).1
  simp only [splice, parent?_mapChildren, parent?_setParent, parent?_foldl_setParent,
    size_mapChildren, size_foldl_setParent]
  by_cases hx : x = block
  · simp [hx, hblock]
  · by_cases hmem : t.parent? x = some block
    · simp [hx, ← wf.parent_iff, hmem, (wf.exists_of_parent hmem).1]
    · simp [hx, ← wf.parent_iff, hmem]

theorem WellFormed.children_splice (wf : t.WellFormed) (h : t.parent? block = some parent)
    (hblock : (t.blockKind? block).isSome) (x : NodeId) :
    (t.splice parent block).children x =
      if x = parent then
        (t.children parent).flatMap fun child => if child = block then t.children block else [child]
      else if x = block then [] else t.children x := by
  have hne : parent ≠ block := Ne.symm (wf.ne_of_parent h)
  obtain ⟨kind, hkind⟩ := exists_kind_of_mem_children ((wf.parent_iff block parent).mp h)
  have hparent : (t.blockKind? parent).isSome := by rw [hkind]; rfl
  have hmoved : ∀ y, ((t.children block).foldl (fun t child => t.setParent child (some parent))
      t).blockKind? y = t.blockKind? y :=
    fun y => blockKind?_of_payload? (payload?_foldl_setParent _ _ t y)
  have hcleared : ∀ y, ((((t.children block).foldl
      (fun t child => t.setParent child (some parent)) t).mapChildren block fun _ => []).setParent
        block none).blockKind? y = t.blockKind? y := by
    intro y
    rw [← hmoved y]
    exact blockKind?_of_payload? ((payload?_setParent _ _ y).trans (payload?_mapChildren _ _ y))
  simp only [splice, children_mapChildren, children_setParent, children_foldl_setParent, hmoved,
    hcleared]
  by_cases hx : x = parent
  · simp [hx, hparent, hne]
  · by_cases hb : x = block
    · simp [hb, hblock, Ne.symm hne]
    · simp [hx, hb]

/-- The children of a block that is spliced stand in its place. -/
theorem WellFormed.children_splice_of (wf : t.WellFormed) (h : t.parent? block = some parent)
    (hblock : (t.blockKind? block).isSome) {before after : List NodeId}
    (hitems : t.children parent = before ++ block :: after) (x : NodeId) :
    (t.splice parent block).children x =
      if x = parent then before ++ t.children block ++ after
      else if x = block then [] else t.children x := by
  obtain ⟨hbefore, hafter⟩ := wf.notMem_around hitems
  rw [wf.children_splice h hblock, hitems, flatMap_replace hbefore hafter]

/-- The children that a block has once another of its children is replaced by that one's. -/
theorem WellFormed.mem_spliced (wf : t.WellFormed) (h : t.parent? block = some parent)
    {id : NodeId} :
    (id ∈ (t.children parent).flatMap fun child =>
        if child = block then t.children block else [child]) ↔
      id ≠ block ∧ (t.parent? id = some parent ∨ t.parent? id = some block) := by
  have hmem := (wf.parent_iff block parent).mp h
  rw [List.mem_flatMap, wf.parent_iff, wf.parent_iff]
  constructor
  · rintro ⟨child, hchild, hid⟩
    split at hid
    case isTrue hblock =>
      exact ⟨wf.ne_of_parent ((wf.parent_iff id block).mpr hid), Or.inr hid⟩
    case isFalse hblock =>
      obtain rfl := List.mem_singleton.mp hid
      exact ⟨hblock, Or.inl hchild⟩
  · rintro ⟨hne, hid | hid⟩
    · exact ⟨id, hid, by rw [if_neg hne]; exact List.mem_singleton_self id⟩
    · exact ⟨block, hmem, by rw [if_pos rfl]; exact hid⟩

theorem WellFormed.splice (wf : t.WellFormed) (h : t.parent? block = some parent)
    (hblock : (t.blockKind? block).isSome) : (t.splice parent block).WellFormed := by
  have hroot : block ≠ root := fun heq => by
    rw [heq, wf.root_parent] at h
    exact absurd h (by simp)
  refine ⟨?_, ?_, ?_, ?_, ?_⟩
  · rw [blockKind?_of_payload? (payload?_splice root), wf.root_kind]
  · rw [wf.parent?_splice h, if_neg (Ne.symm hroot), wf.root_parent]
    simp
  · intro id p
    rw [wf.parent?_splice h, wf.children_splice h hblock]
    by_cases hp : p = parent
    · rw [if_pos hp, wf.mem_spliced h]
      by_cases hid : id = block
      · simp [hid]
      · by_cases hin : t.parent? id = some block <;> simp [hid, hin, hp]
    · rw [if_neg hp]
      by_cases hid : id = block
      · have hne : t.parent? block ≠ some p := by
          rw [h]
          simpa using Ne.symm hp
        by_cases hpb : p = block <;> simp [hid, hpb, ← wf.parent_iff, hne]
      · by_cases hin : t.parent? id = some block
        · by_cases hpb : p = block
          · simp [hid, hin, hpb, Ne.symm (hpb ▸ hp : block ≠ parent)]
          · simp [hid, hin, hpb, Ne.symm hp, ← wf.parent_iff, Ne.symm hpb]
        · by_cases hpb : p = block
          · simp [hid, hin, hpb]
          · simp [hid, hin, hpb, wf.parent_iff]
  · intro p
    rw [wf.children_splice h hblock]
    split
    · rw [List.nodup_flatMap]
      refine ⟨fun child _ => ?_, (wf.nodup parent).imp_of_mem fun {a b} ha hb hab => ?_⟩
      · split
        · exact wf.nodup block
        · exact List.nodup_singleton child
      · -- a child of the block is no child of the block around it
        have hapart : ∀ c, c ∈ t.children parent → c ∉ t.children block := by
          intro c hc hcb
          rw [← wf.parent_iff] at hc hcb
          rw [hc, Option.some.injEq] at hcb
          exact wf.ne_of_parent h hcb.symm
        rw [Function.onFun, List.disjoint_left]
        intro c hca hcb
        split at hca
        · split at hcb
          · simp_all
          · exact hapart c (by rw [List.mem_singleton.mp hcb]; exact hb) hca
        · split at hcb
          · exact hapart c (by rw [List.mem_singleton.mp hca]; exact ha) hcb
          · exact hab (by rw [← List.mem_singleton.mp hca, List.mem_singleton.mp hcb])
    · split
      · exact List.nodup_nil
      · exact wf.nodup p
  · obtain ⟨rank, hrank⟩ := wf.ranked
    refine ⟨rank, fun id p hp => ?_⟩
    rw [wf.parent?_splice h] at hp
    split at hp
    · exact absurd hp (by simp)
    · split at hp
      case isTrue hid =>
        obtain rfl := Option.some.inj hp
        exact Nat.lt_trans (hrank block parent h) (hrank id block hid)
      case isFalse => exact hrank id p hp

end Splice

/-! ## Enclosing -/

section Enclose

variable {parent : NodeId} {before run after : List NodeId} {kind : BlockKind}

@[simp] theorem size_enclose :
    (t.enclose parent before run after kind).2.size = t.size + 1 := by
  simp only [enclose, size_attach, size_foldl_setParent, size_push]

theorem header_enclose : (t.enclose parent before run after kind).2.header = t.header :=
  header_foldl_setParent run (some ⟨t.size⟩) (t.push (.block kind run)).2

theorem payload?_enclose (x : NodeId) :
    (t.enclose parent before run after kind).2.payload? x =
      if x = ⟨t.size⟩ then some (.block kind []) else t.payload? x := by
  simp only [enclose, payload?_attach, payload?_foldl_setParent, payload?_push]
  rfl

theorem WellFormed.parent?_enclose (wf : t.WellFormed)
    (h : t.children parent = before ++ run ++ after) (x : NodeId) :
    (t.enclose parent before run after kind).2.parent? x =
      if x = ⟨t.size⟩ then some parent else if x ∈ run then some ⟨t.size⟩ else t.parent? x := by
  have hexists : ∀ c ∈ run, c.index < t.size := fun c hc =>
    (wf.exists_of_parent ((wf.parent_iff c parent).mpr (by simp [h, hc]))).1
  simp only [enclose]
  rw [parent?_attach (by simp), parent?_foldl_setParent, parent?_push, size_push]
  by_cases hx : x = ⟨t.size⟩
  · simp [hx]
  · by_cases hrun : x ∈ run
    · have := hexists x hrun
      simp [hx, hrun, Nat.lt_succ_of_lt this]
    · simp [hx, hrun]

theorem children_enclose (h : t.children parent = before ++ run ++ after) (hrun : run ≠ [])
    (x : NodeId) :
    (t.enclose parent before run after kind).2.children x =
      if x = parent then before ++ ⟨t.size⟩ :: after
      else if x = ⟨t.size⟩ then run else t.children x := by
  obtain ⟨c, hc⟩ := List.exists_mem_of_ne_nil run hrun
  have hmem : c ∈ t.children parent := by simp [h, hc]
  obtain ⟨parentKind, hkind⟩ := exists_kind_of_mem_children hmem
  have hne := ne_size_of_mem_children hmem
  simp only [enclose]
  rw [children_attach, children_foldl_setParent, children_push]
  · rfl
  · rw [blockKind?_of_payload? (payload?_foldl_setParent _ _ _ parent),
      blockKind?_of_payload? (y := parent) (t := t), hkind]
    · rfl
    · rw [payload?_push, if_neg hne]

theorem WellFormed.enclose (wf : t.WellFormed)
    (h : t.children parent = before ++ run ++ after) (hrun : run ≠ []) :
    (t.enclose parent before run after kind).2.WellFormed := by
  obtain ⟨c, hc⟩ := List.exists_mem_of_ne_nil run hrun
  have hcparent : t.parent? c = some parent := (wf.parent_iff c parent).mpr (by simp [h, hc])
  have hparentNe := ne_size_of_mem_children ((wf.parent_iff c parent).mp hcparent)
  have hrootNe := Ne.symm wf.size_ne_root
  have hnodup := wf.nodup parent
  have hfresh := wf.size_notMem_children parent
  rw [h] at hnodup hfresh
  have hmem : ∀ x, x ∈ run → t.parent? x = some parent := fun x hx =>
    (wf.parent_iff x parent).mpr (by simp [h, hx])
  have hnew : ∀ x, x ∈ run → x ≠ ⟨t.size⟩ := fun x hx heq => hfresh (by simp [← heq, hx])
  refine ⟨?_, ?_, ?_, ?_, ?_⟩
  · rw [blockKind?_of_payload? (y := root) (t := t), wf.root_kind]
    rw [payload?_enclose, if_neg hrootNe]
  · rw [wf.parent?_enclose h, if_neg hrootNe, if_neg, wf.root_parent]
    intro hmemRoot
    have hheld := hmem root hmemRoot
    rw [wf.root_parent] at hheld
    exact absurd hheld (by simp)
  · intro id p
    rw [wf.parent?_enclose h, children_enclose h hrun]
    have hapart : id ∈ run → id ∉ before ∧ id ∉ after := wf.notMem_beside h
    by_cases hp : p = parent
    · subst hp
      by_cases hid : id = ⟨t.size⟩
      · simp [hid]
      · by_cases hin : id ∈ run
        · simp [hid, hin, hapart hin, Ne.symm hparentNe]
        · rw [if_neg hid, if_neg hin, if_pos rfl, wf.parent_iff, h]
          simp [hid, hin]
    · by_cases hpn : p = ⟨t.size⟩
      · subst hpn
        by_cases hid : id = ⟨t.size⟩
        · have : (⟨t.size⟩ : NodeId) ∉ run := fun hx => hnew _ hx rfl
          simp [hid, Ne.symm hp, this, hp]
        · by_cases hin : id ∈ run
          · simp [hid, hin, hp]
          · simp [hid, hin, hp, wf.parent_iff, children_size]
      · rw [if_neg hp, if_neg hpn]
        by_cases hid : id = ⟨t.size⟩
        · simp [hid, Ne.symm hp, wf.size_notMem_children]
        · by_cases hin : id ∈ run
          · have hother : id ∉ t.children p := by
              rw [← wf.parent_iff, hmem id hin]
              simpa using Ne.symm hp
            simp [hid, hin, hother, Ne.symm hpn]
          · simp [hid, hin, wf.parent_iff]
  · intro p
    rw [children_enclose h hrun]
    split
    · have hbefore : (⟨t.size⟩ : NodeId) ∉ before := fun hx => hfresh (by simp [hx])
      have hafter : (⟨t.size⟩ : NodeId) ∉ after := fun hx => hfresh (by simp [hx])
      simp only [List.nodup_append, List.mem_append, List.nodup_cons, List.mem_cons] at hnodup ⊢
      refine ⟨hnodup.1.1, ⟨hafter, hnodup.2.1⟩, ?_⟩
      rintro a ha b (rfl | hb) heq
      · exact hbefore (heq ▸ ha)
      · exact hnodup.2.2 a (Or.inl ha) b hb heq
    · split
      · simp only [List.nodup_append] at hnodup
        exact hnodup.1.2.1
      · exact wf.nodup p
  · -- there is room for the rank of the block between those of its parent and its children
    obtain ⟨rank, hrank⟩ := wf.ranked
    refine ⟨fun x => if x = ⟨t.size⟩ then 2 * rank parent + 1 else 2 * rank x, fun id p hp => ?_⟩
    rw [wf.parent?_enclose h] at hp
    beta_reduce
    by_cases hid : id = ⟨t.size⟩
    · rw [if_pos hid, Option.some.injEq] at hp
      rw [← hp, if_neg hparentNe, if_pos hid]
      omega
    · rw [if_neg hid] at hp ⊢
      by_cases hin : id ∈ run
      · rw [if_pos hin, Option.some.injEq] at hp
        have := hrank id parent (hmem id hin)
        rw [← hp, if_pos rfl]
        omega
      · rw [if_neg hin] at hp
        have hlt := hrank id p hp
        have hpn : p ≠ ⟨t.size⟩ := fun heq => by
          have := (wf.exists_of_parent hp).2
          rw [heq] at this
          exact Nat.lt_irrefl _ this
        rw [if_neg hpn]
        omega

end Enclose

end Tree

end MethodIL
