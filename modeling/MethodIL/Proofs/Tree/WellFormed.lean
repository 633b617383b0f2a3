import Mathlib
import MethodIL.Proofs.Tree.Lookup
set_option autoImplicit false

/-!
# Well-formed trees

A tree is well formed if the two directions of its links agree, no block lists a node twice, the
root is a block that no block holds, and the way upwards never returns.  The last point is stated
by a rank that grows from a block to its children; a change of the tree then only has to say how
ranks change.  From the rank follow the bounds of the walks: upwards there are fewer steps than
nodes, and the views that are defined by walks satisfy the equations that they would have without
bounds.
-/

namespace MethodIL

/-- In a list without repetitions, what stands in a stretch stands nowhere beside it. -/
theorem notMem_beside_of_nodup {α : Type} {a : α} {before middle after : List α}
    (h : (before ++ middle ++ after).Nodup) (ha : a ∈ middle) : a ∉ before ∧ a ∉ after := by
  obtain ⟨hfront, -, hafter⟩ := List.nodup_append.mp h
  obtain ⟨-, -, hbefore⟩ := List.nodup_append.mp hfront
  exact ⟨fun hin => hbefore a hin a ha rfl, fun hin => hafter a (List.mem_append_right _ ha) a hin rfl⟩

namespace Tree

/-- The links of a tree agree, and none of them leads back upwards. -/
structure WellFormed (t : Tree) : Prop where
  root_kind : t.blockKind? root = some .body
  root_parent : t.parent? root = none
  parent_iff : ∀ id p, t.parent? id = some p ↔ id ∈ t.children p
  nodup : ∀ p, (t.children p).Nodup
  ranked : ∃ rank : NodeId → Nat, ∀ id p, t.parent? id = some p → rank p < rank id

namespace WellFormed

variable {t : Tree} (wf : t.WellFormed)

include wf

theorem root_exists : 0 < t.size := index_lt_of_blockKind? wf.root_kind

/-- The root is not the next node to be created. -/
theorem size_ne_root : (⟨t.size⟩ : NodeId) ≠ root := by
  have hsize := wf.root_exists
  rw [root, Ne, NodeId.mk.injEq]
  omega

/-! ## Among the children of a block -/

/-- What stands in a stretch of the children of a block stands nowhere beside it. -/
theorem notMem_beside {p c : NodeId} {before middle after : List NodeId}
    (h : t.children p = before ++ middle ++ after) (hc : c ∈ middle) : c ∉ before ∧ c ∉ after :=
  notMem_beside_of_nodup (h ▸ wf.nodup p) hc

/-- No child of a block stands in front of itself or behind itself. -/
theorem notMem_around {p c : NodeId} {before after : List NodeId}
    (h : t.children p = before ++ c :: after) : c ∉ before ∧ c ∉ after := by
  rw [List.append_cons] at h
  exact wf.notMem_beside h (List.mem_singleton_self c)

theorem notMem_before {p c : NodeId} {before after : List NodeId}
    (h : t.children p = before ++ c :: after) : c ∉ before :=
  (wf.notMem_around h).1

/-! ## Upwards -/

theorem exists_of_parent {id p : NodeId} (h : t.parent? id = some p) :
    id.index < t.size ∧ p.index < t.size := by
  constructor
  · by_contra hout
    rw [parent?, (node?_eq_none_iff t id).mpr (Nat.le_of_not_lt hout)] at h
    exact absurd h (by simp)
  · obtain ⟨kind, hkind⟩ := exists_kind_of_mem_children ((wf.parent_iff id p).mp h)
    exact index_lt_of_blockKind? hkind

/-- A walk upwards meets existing nodes of falling rank. -/
theorem ancestorsUpTo_sorted {rank : NodeId → Nat}
    (hrank : ∀ id p, t.parent? id = some p → rank p < rank id) (limit : Nat) (id : NodeId) :
    (id :: t.ancestorsUpTo limit id).Pairwise (fun a b => rank b < rank a) ∧
      ∀ a ∈ t.ancestorsUpTo limit id, a.index < t.size ∧ id.index < t.size := by
  induction limit generalizing id with
  | zero => simp [ancestorsUpTo]
  | succ limit ih =>
    rw [ancestorsUpTo]
    cases hparent : t.parent? id with
    | none => simp
    | some p =>
      obtain ⟨hsorted, hexists⟩ := ih p
      obtain ⟨hid, hp⟩ := wf.exists_of_parent hparent
      have hlt := hrank id p hparent
      refine ⟨List.pairwise_cons.mpr ⟨?_, hsorted⟩, ?_⟩
      · intro a ha
        rcases List.mem_cons.mp ha with rfl | ha
        · exact hlt
        · exact Nat.lt_trans ((List.pairwise_cons.mp hsorted).1 a ha) hlt
      · intro a ha
        rcases List.mem_cons.mp ha with rfl | ha
        · exact ⟨hp, hid⟩
        · exact ⟨(hexists a ha).1, hid⟩

/-- A walk upwards is shorter than the number of nodes. -/
theorem length_ancestorsUpTo_lt (limit : Nat) {id : NodeId} (hid : id.index < t.size) :
    (t.ancestorsUpTo limit id).length < t.size := by
  obtain ⟨rank, hrank⟩ := wf.ranked
  obtain ⟨hsorted, hexists⟩ := wf.ancestorsUpTo_sorted hrank limit id
  have hnodup : ((id :: t.ancestorsUpTo limit id).map NodeId.index).Nodup := by
    refine List.Nodup.map (fun a b hab => ?_) (hsorted.imp fun hlt heq => ?_)
    · cases a
      cases b
      exact congrArg _ hab
    · rw [heq] at hlt
      exact Nat.lt_irrefl _ hlt
  have hsub : ((id :: t.ancestorsUpTo limit id).map NodeId.index) ⊆ List.range t.size := by
    intro index hindex
    obtain ⟨a, ha, rfl⟩ := List.mem_map.mp hindex
    rw [List.mem_range]
    rcases List.mem_cons.mp ha with rfl | ha
    · exact hid
    · exact (hexists a ha).1
  have hlen := (hnodup.subperm hsub).length_le
  simpa using hlen

end WellFormed

/-- A walk upwards that has ended before its limit does not depend on it. -/
theorem ancestorsUpTo_eq_of_length_lt (t : Tree) {limit : Nat} {id : NodeId}
    (h : (t.ancestorsUpTo limit id).length < limit) (more : Nat) :
    t.ancestorsUpTo (limit + more) id = t.ancestorsUpTo limit id := by
  induction limit generalizing id with
  | zero => simp [ancestorsUpTo] at h
  | succ limit ih =>
    rw [Nat.succ_add, ancestorsUpTo]
    rw [ancestorsUpTo] at h ⊢
    cases hparent : t.parent? id with
    | none => rfl
    | some p =>
      simp only [hparent, List.length_cons, Nat.add_lt_add_iff_right] at h
      simp only [ih h]

namespace WellFormed

variable {t : Tree} (wf : t.WellFormed)

include wf

/-- The blocks around a node are its parent and the blocks around that. -/
theorem ancestors_eq (id : NodeId) :
    t.ancestors id = match t.parent? id with
      | some p => p :: t.ancestors p
      | none => [] := by
  cases hparent : t.parent? id with
  | none =>
    rw [ancestors]
    cases hsize : t.size with
    | zero => rfl
    | succ limit => simp [ancestorsUpTo, hparent]
  | some p =>
    have hshort := wf.length_ancestorsUpTo_lt t.size (wf.exists_of_parent hparent).1
    show t.ancestorsUpTo t.size id = p :: t.ancestorsUpTo t.size p
    rw [← ancestorsUpTo_eq_of_length_lt t hshort 1, ancestorsUpTo, hparent]

theorem ancestors_of_parent {id p : NodeId} (h : t.parent? id = some p) :
    t.ancestors id = p :: t.ancestors p := by
  rw [wf.ancestors_eq, h]

theorem ancestors_of_no_parent {id : NodeId} (h : t.parent? id = none) : t.ancestors id = [] := by
  rw [wf.ancestors_eq, h]

theorem depth_of_parent {id p : NodeId} (h : t.parent? id = some p) :
    t.depth id = t.depth p + 1 := by
  rw [depth, depth, wf.ancestors_of_parent h, List.length_cons]

/-- No block holds itself. -/
theorem ne_of_parent {id p : NodeId} (h : t.parent? id = some p) : id ≠ p := by
  intro heq
  have hdepth := wf.depth_of_parent h
  rw [heq] at hdepth
  omega

theorem depth_lt {id : NodeId} (h : id.index < t.size) : t.depth id < t.size :=
  wf.length_ancestorsUpTo_lt t.size h

/-- What is handed up from children to their block holds everywhere. -/
theorem induction_below {motive : NodeId → Prop}
    (step : ∀ id, (∀ child ∈ t.children id, motive child) → motive id) (id : NodeId) :
    motive id := by
  induction hgap : t.size - t.depth id using Nat.strongRecOn generalizing id with
  | ind gap ih =>
    apply step
    intro child hchild
    have hparent := (wf.parent_iff child id).mpr hchild
    have hdepth := wf.depth_of_parent hparent
    have hlt := wf.depth_lt (wf.exists_of_parent hparent).1
    exact ih (t.size - t.depth child) (by omega) child rfl

/-- What is handed down from a block to its children holds everywhere. -/
theorem induction_above {motive : NodeId → Prop}
    (step : ∀ id, (∀ p, t.parent? id = some p → motive p) → motive id) (id : NodeId) :
    motive id := by
  induction hdepth : t.depth id using Nat.strongRecOn generalizing id with
  | ind depth ih =>
    apply step
    intro p hparent
    have := wf.depth_of_parent hparent
    exact ih (t.depth p) (by omega) p rfl

/-! ## Downwards -/

/-- With enough levels a walk downwards does not depend on their number, whatever it makes of a node and
of what lies below it. -/
theorem downUpTo_eq (down : Nat → NodeId → List NodeId) (join : NodeId → List NodeId → List NodeId)
    (hstop : ∀ id, down 0 id = join id [])
    (hstep : ∀ levels id, down (levels + 1) id = join id ((t.children id).flatMap (down levels)))
    {a b : Nat} {id : NodeId} (ha : t.size ≤ a + t.depth id) (hb : t.size ≤ b + t.depth id) :
    down a id = down b id := by
  induction id using wf.induction_below generalizing a b with
  | step id ih =>
    cases hchildren : t.children id with
    | nil => cases a <;> cases b <;> simp [hstop, hstep, hchildren]
    | cons first others =>
      have hfirst : t.parent? first = some id := (wf.parent_iff first id).mpr (by simp [hchildren])
      have hdepth := wf.depth_lt (wf.exists_of_parent hfirst).2
      obtain ⟨a, rfl⟩ : ∃ a', a = a' + 1 := ⟨a - 1, by omega⟩
      obtain ⟨b, rfl⟩ : ∃ b', b = b' + 1 := ⟨b - 1, by omega⟩
      rw [hstep, hstep]
      refine congrArg (join id) (List.flatMap_congr fun child hchild => ih child hchild ?_ ?_)
      all_goals
        have hlevel := wf.depth_of_parent ((wf.parent_iff child id).mpr hchild)
        omega

/-- The flat order lists a node and then what lies at and below its children. -/
theorem preOrder_eq (id : NodeId) : t.preOrder id = id :: (t.children id).flatMap t.preOrder := by
  have hmore : t.preOrder id = t.preOrderUpTo (t.size + 1) id :=
    wf.downUpTo_eq t.preOrderUpTo List.cons (fun _ => rfl) (fun _ _ => rfl) (by omega) (by omega)
  rw [hmore, preOrderUpTo]
  rfl

/-- The post-order lists what lies at and below the children of a node and then the node. -/
theorem postOrder_eq (id : NodeId) :
    t.postOrder id = (t.children id).flatMap t.postOrder ++ [id] := by
  have hmore : t.postOrder id = t.postOrderUpTo (t.size + 1) id :=
    wf.downUpTo_eq t.postOrderUpTo (fun id below => below ++ [id]) (fun _ => rfl) (fun _ _ => rfl)
      (by omega) (by omega)
  rw [hmore, postOrderUpTo]
  rfl

theorem descendants_eq (id : NodeId) : t.descendants id = (t.children id).flatMap t.preOrder := by
  rw [descendants, wf.preOrder_eq, List.tail_cons]

/-! ## Below -/

/-- What holds of the children of a block, and is handed down, holds of all that is below the block. -/
theorem induction_of_mem_ancestors {a id : NodeId} {motive : NodeId → Prop}
    (held : ∀ id, t.parent? id = some a → motive id)
    (step : ∀ id p, t.parent? id = some p → motive p → motive id) (h : a ∈ t.ancestors id) :
    motive id := by
  induction id using wf.induction_above with
  | step id ih =>
    cases hparent : t.parent? id with
    | none => simp [wf.ancestors_of_no_parent hparent] at h
    | some p =>
      rw [wf.ancestors_of_parent hparent, List.mem_cons] at h
      rcases h with rfl | h
      · exact held id hparent
      · exact step id p hparent (ih p hparent h)

theorem depth_lt_of_mem_ancestors {a id : NodeId} (h : a ∈ t.ancestors id) :
    t.depth a < t.depth id := by
  refine wf.induction_of_mem_ancestors (motive := fun id => t.depth a < t.depth id)
    (fun id hheld => ?_) (fun id p hparent hlt => ?_) h
  · rw [wf.depth_of_parent hheld]
    exact Nat.lt_succ_self _
  · rw [wf.depth_of_parent hparent]
    exact Nat.lt_succ_of_lt hlt

theorem mem_ancestors_trans {a b c : NodeId} (hab : a ∈ t.ancestors b) (hbc : b ∈ t.ancestors c) :
    a ∈ t.ancestors c := by
  refine wf.induction_of_mem_ancestors (motive := fun id => a ∈ t.ancestors id)
    (fun id hheld => ?_) (fun id p hparent hmem => ?_) hbc
  · rw [wf.ancestors_of_parent hheld]
    exact List.mem_cons_of_mem b hab
  · rw [wf.ancestors_of_parent hparent]
    exact List.mem_cons_of_mem p hmem

/-- A node with something below it has children. -/
theorem children_ne_nil {block id : NodeId} (h : block ∈ t.ancestors id) : t.children block ≠ [] :=
  wf.induction_of_mem_ancestors
    (fun id hheld => List.ne_nil_of_mem ((wf.parent_iff id block).mp hheld)) (fun _ _ _ hne => hne) h

/-- The nodes on the way upwards from a node are told apart by their depth. -/
theorem eq_of_depth_eq {a b id : NodeId} (ha : a = id ∨ a ∈ t.ancestors id)
    (hb : b = id ∨ b ∈ t.ancestors id) (h : t.depth a = t.depth b) : a = b := by
  induction id using wf.induction_above with
  | step id ih =>
    rcases ha with rfl | ha
    · rcases hb with rfl | hb
      · rfl
      · have := wf.depth_lt_of_mem_ancestors hb
        omega
    · rcases hb with rfl | hb
      · have := wf.depth_lt_of_mem_ancestors ha
        omega
      · cases hparent : t.parent? id with
        | none => simp [wf.ancestors_of_no_parent hparent] at ha
        | some p =>
          rw [wf.ancestors_of_parent hparent, List.mem_cons] at ha hb
          exact ih p hparent ha hb

/-- A node lists in flat order itself and everything below it. -/
theorem mem_preOrder_iff {block id : NodeId} :
    id ∈ t.preOrder block ↔ id = block ∨ block ∈ t.ancestors id := by
  constructor
  · intro h
    induction block using wf.induction_below with
    | step block ih =>
      rw [wf.preOrder_eq, List.mem_cons, List.mem_flatMap] at h
      rcases h with rfl | ⟨child, hchild, hmem⟩
      · exact Or.inl rfl
      · have hparent := (wf.parent_iff child block).mpr hchild
        have hchildBelow : block ∈ t.ancestors child := by
          rw [wf.ancestors_of_parent hparent]
          exact List.mem_cons_self
        rcases ih child hchild hmem with rfl | hbelow
        · exact Or.inr hchildBelow
        · exact Or.inr (wf.mem_ancestors_trans hchildBelow hbelow)
  · intro h
    induction id using wf.induction_above with
    | step id ih =>
      rcases h with rfl | h
      · rw [wf.preOrder_eq]
        exact List.mem_cons_self
      · cases hparent : t.parent? id with
        | none => simp [wf.ancestors_of_no_parent hparent] at h
        | some p =>
          rw [wf.ancestors_of_parent hparent, List.mem_cons] at h
          have hp : p ∈ t.preOrder block := ih p hparent (h.imp_left Eq.symm)
          -- the children of whatever is listed are listed with it
          clear h ih
          induction block using wf.induction_below with
          | step block ih =>
            rw [wf.preOrder_eq, List.mem_cons, List.mem_flatMap] at hp ⊢
            rcases hp with rfl | ⟨child, hchild, hmem⟩
            · right
              refine ⟨id, (wf.parent_iff id p).mp hparent, ?_⟩
              rw [wf.preOrder_eq]
              exact List.mem_cons_self
            · exact Or.inr ⟨child, hchild, ih child hchild hmem⟩

theorem self_mem_preOrder (id : NodeId) : id ∈ t.preOrder id :=
  wf.mem_preOrder_iff.mpr (Or.inl rfl)

theorem preOrder_subset_of_mem {block id : NodeId} (h : id ∈ t.preOrder block) :
    ∀ x ∈ t.preOrder id, x ∈ t.preOrder block := by
  intro x hx
  rw [wf.mem_preOrder_iff] at h hx ⊢
  rcases hx with rfl | hx
  · exact h
  · rcases h with rfl | h
    · exact Or.inr hx
    · exact Or.inr (wf.mem_ancestors_trans h hx)

/-- Of two nodes with something in common below them, one lies below the other. -/
theorem mem_preOrder_or_of_common {a b x : NodeId} (ha : x ∈ t.preOrder a) (hb : x ∈ t.preOrder b) :
    b ∈ t.preOrder a ∨ a ∈ t.preOrder b := by
  induction x using wf.induction_above with
  | step x ih =>
    rw [wf.mem_preOrder_iff] at ha hb
    rcases ha with rfl | ha
    · exact Or.inr (wf.mem_preOrder_iff.mpr hb)
    · rcases hb with rfl | hb
      · exact Or.inl (wf.mem_preOrder_iff.mpr (Or.inr ha))
      · cases hparent : t.parent? x with
        | none => simp [wf.ancestors_of_no_parent hparent] at ha
        | some p =>
          rw [wf.ancestors_of_parent hparent, List.mem_cons] at ha hb
          exact ih p hparent (wf.mem_preOrder_iff.mpr (ha.imp_left Eq.symm))
            (wf.mem_preOrder_iff.mpr (hb.imp_left Eq.symm))

/-- The subtrees of two children share no node. -/
theorem child_unique {p a b x : NodeId} (ha : a ∈ t.children p) (hb : b ∈ t.children p)
    (hxa : x ∈ t.preOrder a) (hxb : x ∈ t.preOrder b) : a = b := by
  have hda := wf.depth_of_parent ((wf.parent_iff a p).mpr ha)
  have hdb := wf.depth_of_parent ((wf.parent_iff b p).mpr hb)
  exact wf.eq_of_depth_eq ((wf.mem_preOrder_iff.mp hxa).imp_left Eq.symm)
    ((wf.mem_preOrder_iff.mp hxb).imp_left Eq.symm) (by omega)

/-- The flat order lists no node twice. -/
theorem nodup_preOrder (id : NodeId) : (t.preOrder id).Nodup := by
  induction id using wf.induction_below with
  | step id ih =>
    rw [wf.preOrder_eq, List.nodup_cons, List.nodup_flatMap]
    refine ⟨?_, ih, ?_⟩
    · rw [List.mem_flatMap]
      rintro ⟨child, hchild, hmem⟩
      have hdepth := wf.depth_of_parent ((wf.parent_iff child id).mpr hchild)
      rcases wf.mem_preOrder_iff.mp hmem with rfl | hbelow
      · omega
      · have := wf.depth_lt_of_mem_ancestors hbelow
        omega
    · refine (wf.nodup id).imp_of_mem fun {a b} ha hb hab => ?_
      rw [Function.onFun, List.disjoint_left]
      intro x hxa hxb
      exact hab (wf.child_unique ha hb hxa hxb)

/-- The two orders list the same nodes. -/
theorem postOrder_perm (id : NodeId) : (t.postOrder id).Perm (t.preOrder id) := by
  induction id using wf.induction_below with
  | step id ih =>
    rw [wf.preOrder_eq, wf.postOrder_eq]
    refine (List.perm_append_singleton _ _).trans (List.Perm.cons id ?_)
    exact List.Perm.flatMap_left _ ih

end WellFormed

end Tree

end MethodIL
