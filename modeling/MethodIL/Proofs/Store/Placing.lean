import Mathlib
import MethodIL.Proofs.Store.Edits
import MethodIL.Proofs.Tree.RegionRemoval
set_option autoImplicit false

/-!
# Placing stored nodes

The work that places, cuts off, dissolves and wraps nodes comes to what is made of the tree: every node on
the way exists, so nothing behind the first rewriting is refused.
-/

namespace MethodIL

open Outcome

namespace Tree

variable {t t' : Tree}

/-! ## Changed trees as they are stored -/

@[simp] theorem stored_has (id : NodeId) : t.stored.Has id ↔ id.index < t.size := by
  rw [← isSome_content?_iff]
  exact Option.isSome_map ▸ Iff.rfl

/-- A change of places rewrites links and nothing else. -/
theorem stored_places {links : Linkage} (hheader : t'.header = t.header) (hsize : t'.size = t.size)
    (hlinks : t'.links = links) (hpayload : ∀ x, t'.payload? x = t.payload? x) :
    t'.stored = { t.stored with links } :=
  Store.ext hheader hsize hlinks (funext hpayload)

/-- A change of what one node is leaves the links alone. -/
theorem stored_recast {id : NodeId} {f : Content → Content} (hheader : t'.header = t.header)
    (hsize : t'.size = t.size) (hparent : ∀ x, t'.parent? x = t.parent? x)
    (hchildren : ∀ x, t'.children x = t.children x)
    (hcontent : ∀ x, t'.content? x = if x = id then (t.content? x).map f else t.content? x)
    (hf : ∀ content, (f content).mapChildren (fun _ => []) = f (content.mapChildren fun _ => [])) :
    t'.stored = t.stored.recast id f := by
  refine Store.ext hheader hsize (links_congr hparent hchildren) (funext fun x => ?_)
  simp only [stored, Store.recast, payload?, hcontent]
  split
  · cases t.content? x <;> simp [hf]
  · rfl

theorem stored_setOwner (id : NodeId) (owner : Option NodeId) :
    (t.setOwner id owner).stored = t.stored.recast id (Content.setOwner owner) :=
  stored_recast rfl (size_setOwner t id owner) (parent?_setOwner t id owner)
    (children_setOwner t id owner) (content?_setOwner t id owner) fun content => by cases content <;> rfl

theorem stored_setOperation (id : NodeId) (operation : Operation NodeId) :
    (t.setOperation id operation).stored = t.stored.recast id (Content.setOperation operation) :=
  stored_recast rfl (size_setOperation t id operation) (parent?_setOperation t id operation)
    (children_setOperation t id operation) (content?_setOperation t id operation)
    fun content => by cases content <;> rfl

theorem stored_mapKind (id : NodeId) (f : BlockKind → BlockKind) :
    (t.mapKind id f).stored = t.stored.recast id (Content.mapKind f) :=
  stored_recast rfl (size_mapKind t id f) (parent?_mapKind t id f) (children_mapKind t id f)
    (content?_mapKind t id f) fun content => by cases content <;> rfl

theorem links_push {content : Content} (h : content.children = []) :
    (t.push content).2.links = t.links := by
  refine links_congr (parent?_push t content) fun x => ?_
  rw [children_push]
  split
  next hx => rw [h, hx, children_size]
  next => rfl

namespace WellFormed

variable (wf : t.WellFormed)

include wf

theorem stored_push {content : Content} (h : content.mapChildren (fun _ => []) = content) :
    (t.push content).2.stored = t.stored.push content := by
  have hchildren : content.children = [] := by
    rw [← h]
    cases content <;> rfl
  refine Store.ext rfl (size_push t content) ?_ (funext fun x => ?_)
  · refine (links_push hchildren).trans (funext fun x => ?_)
    show _ = (if x = ⟨t.size⟩ then ({} : Links) else t.links x)
    split
    next hx => rw [hx, links_size wf]
    next => rfl
  · exact (payload?_push content x).trans (by rw [h]; rfl)

theorem stored_detach (node : NodeId) :
    (t.detach node).stored = { t.stored with links := t.links.unlink node } := by
  refine stored_places ?_ size_detach (wf.links_detach node) payload?_detach
  rw [Tree.detach]
  split <;> rfl

/-- The nodes beside a node are held by the block that holds it. -/
theorem mem_siblings {id beside : NodeId} (h : t.prev? id = some beside ∨ t.next? id = some beside) :
    ∃ parent, t.parent? id = some parent ∧ beside ∈ t.children parent := by
  cases hparent : t.parent? id with
  | none =>
    simp [prev?_of_no_parent hparent, next?, siblings, hparent, following?] at h
  | some parent =>
    obtain ⟨before, after, hitems⟩ := List.append_of_mem ((wf.parent_iff id parent).mp hparent)
    rw [wf.prev?_eq hitems, wf.next?_eq hitems] at h
    refine ⟨parent, rfl, hitems ▸ ?_⟩
    rcases h with h | h
    · exact List.mem_append_left _ (List.mem_of_getLast? h)
    · exact List.mem_append_right _ (List.mem_cons_of_mem _ (List.mem_of_head? h))

theorem has_beside {id beside : NodeId} (h : t.prev? id = some beside ∨ t.next? id = some beside) :
    t.stored.Has beside := by
  obtain ⟨parent, -, hmem⟩ := wf.mem_siblings h
  exact (stored_has beside).mpr (wf.exists_of_mem_children hmem)

theorem has_parent {id parent : NodeId} (h : t.parent? id = some parent) : t.stored.Has parent :=
  (stored_has parent).mpr (wf.exists_of_parent h).2

end WellFormed

theorem content_eq_ok_iff {id : NodeId} {content : Content} :
    t.content id = .ok content ↔ t.content? id = some content := by
  unfold Tree.content
  cases t.content? id <;> simp

/-- A loop of checks stops at the first refusal. -/
theorem forM_refusals {refusal? : NodeId → Option EditFault} (ids : List NodeId) :
    (ids.forM fun id => Option.elim (refusal? id) (.ok ()) Except.error) =
      Option.elim (ids.findSome? refusal?) (.ok ()) .error := by
  induction ids with
  | nil => rfl
  | cons id ids ih =>
    rw [List.forM, List.findSome?_cons]
    cases refusal? id with
    | some cause => rfl
    | none => exact ih

theorem size_foldl {f : Tree → NodeId → Tree} (h : ∀ t id, (f t id).size = t.size) (ids : List NodeId)
    (t : Tree) : (ids.foldl f t).size = t.size := by
  induction ids generalizing t with
  | nil => rfl
  | cons id ids ih => rw [List.foldl_cons, ih, h]

@[simp] theorem size_unbindLabels (id : NodeId) : (t.unbindLabels id).size = t.size := by
  rcases t.unbindLabels_cases id with ⟨-, hsame⟩ | ⟨operation, -, -, hcut⟩
  · rw [hsame]
  · rw [hcut, size_foldl fun t label => by rw [size_detach, size_setOwner], size_setOperation]

theorem size_releaseBelow {block : NodeId} (h : t.releaseBelow block = .ok t') : t'.size = t.size :=
  releaseBelow_induction (motive := fun released => released.size = t.size) h rfl
    fun _ member hsize => (size_unbindLabels member).trans hsize

theorem content?_eq_of_isLabel {id : NodeId} (h : t.isLabel id = true) :
    t.content? id = some (.label (t.labelOwner? id)) := by
  obtain ⟨owner, hcontent⟩ := isLabel_iff.mp h
  rw [labelOwner?, hcontent]

/-! ## What work comes to -/

section Settled

variable {α : Type}

/-- What comes out for the stored nodes of a tree when a change of the tree is settled. -/
def settled (t : Tree) : Except Fault (α × Tree) → Except Fault α × Store
  | .ok (a, changed) => (.ok a, changed.stored)
  | .error fault => (.error fault, t.stored)

/-- The outcome of a change without an answer. -/
def silent (outcome : Except EditFault Tree) : Except Fault (Unit × Tree) :=
  (((), ·) <$> outcome).mapError .edit

end Settled

/-! ## Placing -/

namespace WellFormed

variable (wf : t.WellFormed)

include wf

theorem link_run {parent node : NodeId} {into : List NodeId → List NodeId} (hinto : Inserts node into)
    (hplace : t.place parent node into = .ok t') {before after : List NodeId}
    (hitems : t.children parent = before ++ after)
    (hplaced : into (t.children parent) = before ++ node :: after) :
    Work.link parent before.getLast? after.head? node t.stored = (.ok (), t'.stored) := by
  have wf' := wf.steps (steps_place hinto hplace)
  obtain ⟨hparent, hnode, -, -, -, -, rfl⟩ := place_eq_ok_iff.mp hplace
  have hchild : ∀ x ∈ t.children parent, t.stored.Has x := fun x hx =>
    (stored_has x).mpr (wf.exists_of_mem_children hx)
  have hblock : t.stored.Has parent := by
    obtain ⟨kind, hkind⟩ := Option.isSome_iff_exists.mp hparent
    exact (stored_has parent).mpr (index_lt_of_blockKind? hkind)
  refine (Work.link_run ((stored_has node).mpr hnode) hblock (fun x hx => hchild x ?_)
    fun x hx => hchild x ?_).trans (congrArg (Prod.mk _) ?_)
  · exact hitems ▸ List.mem_append_left _ (List.mem_of_getLast? hx)
  · exact hitems ▸ List.mem_append_right _ (List.mem_of_head? hx)
  · symm
    exact stored_places rfl size_attach (wf.links_attach wf' hnode hparent hitems hplaced) payload?_attach

/-- A node is placed between two neighbours if it can become a child of the block. -/
theorem place_run {parent node : NodeId} {into : List NodeId → List NodeId} (hinto : Inserts node into)
    {before after : List NodeId} (hitems : t.children parent = before ++ after)
    (hplaced : into (t.children parent) = before ++ node :: after) {work : Unit → Work Unit}
    (hwork : work () t.stored = Work.link parent before.getLast? after.head? node t.stored) :
    (Work.ask (·.checkInsertable parent node) >>= work) t.stored =
      t.settled (silent (t.place parent node into)) := by
  rw [Work.bind_ask, wf.stored_checkInsertable]
  cases hcheck : t.checkInsertable parent node with
  | error cause => rw [place, hcheck]; rfl
  | ok =>
    have hplace : t.place parent node into = .ok (t.attach parent node into) := by rw [place, hcheck]; rfl
    rw [hplace]
    exact hwork.trans (wf.link_run hinto hplace hitems hplaced)

theorem append_run (parent node : NodeId) :
    Work.append parent node t.stored = t.settled (silent (t.append parent node)) :=
  wf.place_run (fun items => ⟨items, [], (List.append_nil _).symm, rfl⟩) (List.append_nil _).symm rfl rfl

theorem prepend_run (parent node : NodeId) :
    Work.prepend parent node t.stored = t.settled (silent (t.prepend parent node)) :=
  wf.place_run (fun items => ⟨[], items, rfl, rfl⟩) (List.nil_append _).symm rfl rfl

theorem insertBefore_run (anchor node : NodeId) :
    Work.insertBefore anchor node t.stored = t.settled (silent (t.insertBefore anchor node)) := by
  rw [Work.insertBefore, Work.bind_ask, insertBefore, stored_parent?]
  cases hparent : t.parent? anchor with
  | none => rfl
  | some parent =>
    obtain ⟨before, after, hitems⟩ := List.append_of_mem ((wf.parent_iff anchor parent).mp hparent)
    refine wf.place_run (insertBefore_inserts anchor node) hitems ?_ ?_
    · rw [hitems, insertBefore_append (wf.notMem_before hitems)]
    · rw [Work.bind_look, stored_prev?, wf.prev?_eq hitems]
      rfl

theorem insertAfter_run (anchor node : NodeId) :
    Work.insertAfter anchor node t.stored = t.settled (silent (t.insertAfter anchor node)) := by
  rw [Work.insertAfter, Work.bind_ask, insertAfter, stored_parent?]
  cases hparent : t.parent? anchor with
  | none => rfl
  | some parent =>
    obtain ⟨before, after, hitems⟩ := List.append_of_mem ((wf.parent_iff anchor parent).mp hparent)
    have hitems' : t.children parent = before ++ [anchor] ++ after := by simp [hitems]
    refine wf.place_run (insertAfter_inserts anchor node) hitems' ?_ ?_
    · rw [hitems, insertAfter_append (wf.notMem_before hitems)]
    · rw [Work.bind_look, stored_next?, wf.next?_eq hitems, List.getLast?_concat]

/-! ## Cutting off -/

theorem unlink_run {node : NodeId} (hnode : node.index < t.size) :
    Work.unlink node t.stored = (.ok (), (t.detach node).stored) := by
  rw [wf.stored_detach]
  exact Work.unlink_run ((stored_has node).mpr hnode) (fun _ hx => wf.has_parent hx)
    (fun _ hx => wf.has_beside (.inl hx)) fun _ hx => wf.has_beside (.inr hx)

theorem cutOff_run {label : NodeId} (hlabel : label.index < t.size) :
    Work.cutOff label t.stored = (.ok (), ((t.setOwner label none).detach label).stored) := by
  rw [Work.cutOff, Work.bind_run_of_ok (Work.recast_run ((stored_has label).mpr hlabel)),
    ← stored_setOwner]
  exact (wf.step (.owner label none)).unlink_run (by rwa [size_setOwner])

/-- All labels of an instruction exist, so they are cut off one after the other. -/
theorem unbindLabels_run (htargets : t.TargetsLabeled) {id : NodeId} {operation : Operation NodeId}
    (hoperation : t.operation? id = some operation) :
    Work.unbindLabels id t.stored = (.ok (), (t.unbindLabels id).stored) := by
  have hlabels : ∀ label ∈ operation.operand.targets, label.index < t.size := fun label hmem =>
    index_lt_of_isLabel (htargets id label (by rwa [labelsOf, hoperation]))
  rw [Work.unbindLabels, Work.bind_ask, stored_operation, operation_eq_ok_iff.mpr hoperation, unbindLabels,
    hoperation]
  dsimp only
  split
  · rfl
  · rw [Work.bind_run_of_ok (Work.recast_run ((stored_has id).mpr (index_lt_of_operation? hoperation))),
      ← stored_setOperation]
    refine Work.forM_run stored (fun cut => cut.WellFormed ∧ cut.size = t.size) ?_ _
      ⟨wf.setOperation id _, size_setOperation t id _⟩
    rintro cut ⟨wf', hsize⟩ label hmem
    refine ⟨wf'.cutOff_run (hsize ▸ hlabels label hmem),
      (wf'.step (.owner label none)).detach, by simpa using hsize⟩

theorem dropOutside_run (htargets : t.TargetsLabeled) (block member : NodeId) :
    Work.dropOutside block member t.stored = (.ok (), (dropOutside block t member).stored) := by
  rw [Work.dropOutside, Work.bind_look, stored_operation?, dropOutside, labelsOf]
  cases hoperation : t.operation? member with
  | none => rfl
  | some operation =>
    simp only [Work.bind_look, wf.stored_isBelow, Option.map_some, Option.getD_some]
    split
    · exact wf.unbindLabels_run htargets hoperation
    · rfl

theorem releaseBelow_run (htargets : t.TargetsLabeled) (block : NodeId) :
    Work.releaseBelow block t.stored = t.settled (silent (t.releaseBelow block)) := by
  have hasked := Work.forM_ask_run (s := t.stored) (fun member s => s.checkReleased block member)
    fun member (hmem : member ∈ t.descendants block) =>
      wf.stored_checkReleased block (wf.exists_of_mem_descendants hmem)
  rw [forM_refusals] at hasked
  rw [Work.releaseBelow, Work.bind_look, wf.stored_descendants, releaseBelow]
  cases hheld : (t.descendants block).findSome? (t.heldBy? block) with
  | some cause =>
    rw [hheld] at hasked
    exact Work.bind_run_of_error hasked
  | none =>
    rw [hheld] at hasked
    refine (Work.bind_run_of_ok hasked).trans ?_
    refine Work.forM_run stored (fun released => released.WellFormed ∧ released.TargetsLabeled) ?_ t ⟨wf, htargets⟩
    rintro released ⟨wf', htargets'⟩ member -
    refine ⟨wf'.dropOutside_run htargets' block member, ?_⟩
    rcases released.dropOutside_cases block member with hsame | hunbound
    · rw [hsame]
      exact ⟨wf', htargets'⟩
    · rw [hunbound]
      exact ⟨wf'.steps (steps_unbindLabels member), htargets'.stage (.unbinds member)⟩

theorem remove_run (htargets : t.TargetsLabeled) (node : NodeId) :
    Work.remove node t.stored = t.settled (silent (t.remove node)) := by
  rw [Work.remove, Work.bind_denied, remove]
  split
  case isTrue => rfl
  case isFalse =>
    rw [Work.bind_denied, stored_parent?]
    split
    case isTrue => rfl
    case isFalse hheld =>
      have hnode : node.index < t.size := by
        cases hparent : t.parent? node with
        | none => exact absurd hparent (by simpa using hheld)
        | some parent => exact (wf.exists_of_parent hparent).1
      rw [Work.bind_ask, stored_content]
      cases hcontent : t.content node with
      | error => rfl
      | ok content =>
        cases content with
        | label owner =>
          cases owner with
          | some owner => rfl
          | none => exact wf.unlink_run hnode
        | instruction operation =>
          have hoperation : t.operation? node = some operation := by
            simp [operation?, content_eq_ok_iff.mp hcontent]
          refine (Work.bind_run_of_ok (wf.unbindLabels_run htargets hoperation)).trans ?_
          exact (wf.steps (steps_unbindLabels node)).unlink_run (by rwa [size_unbindLabels])
        | block kind =>
          refine (Work.bind_denied (fun _ => kind.isLinked) _ _ _).trans ?_
          change _ = t.settled (silent (if kind.isLinked = true then .error (.linkedRegion node)
            else t.releaseBelow node >>= fun released => pure (released.detach node)))
          split
          case isTrue => rfl
          case isFalse =>
            have hrun := wf.releaseBelow_run htargets node
            cases hrelease : t.releaseBelow node with
            | error cause =>
              rw [hrelease] at hrun
              exact Work.bind_run_of_error hrun
            | ok released =>
              rw [hrelease] at hrun
              refine (Work.bind_run_of_ok hrun).trans ?_
              exact (wf.steps (steps_releaseBelow hrelease)).unlink_run (by rwa [size_releaseBelow hrelease])

/-! ## Dissolving and wrapping -/

theorem dissolve_run {block parent first last : NodeId} (hkind : (t.blockKind? block).isSome)
    (hparent : t.parent? block = some parent) (hfirst : t.firstChild? block = some first)
    (hlast : t.lastChild? block = some last) :
    Work.dissolve block parent first last t.stored = (.ok (), (t.splice parent block).stored) := by
  have hchild : ∀ child ∈ t.children block, t.stored.Has child := fun child hmem =>
    (stored_has child).mpr (wf.exists_of_mem_children hmem)
  have hfirst' := hchild first (List.mem_of_head? hfirst)
  have hlast' := hchild last (List.mem_of_getLast? hlast)
  have hblock : t.stored.Has block := (stored_has block).mpr (wf.exists_of_parent hparent).1
  rw [stored_places header_splice size_splice (wf.links_splice hparent hkind) payload?_splice,
    Work.dissolve, Work.bind_look, Work.bind_look, wf.stored_children]
  have hlinks : t.links.dissolve block parent (t.children block) =
      (((((t.links.adopt parent (t.children block)).write first
        ({ · with prev := (t.links block).prev })).write last
          ({ · with next := (t.links block).next })).leadOn parent (t.links block).prev
            (some first)).leadBack parent (t.links block).next (some last)).write block fun _ => {} := by
    rw [Linkage.dissolve, show (t.links block).first = some first from hfirst,
      show (t.links block).last = some last from hlast]
  rw [hlinks]
  refine (Work.bind_run_of_ok (Work.adopt_run (s := t.stored) t.links hchild)).trans ?_
  refine (Work.bind_run_of_ok (Work.write_run hfirst')).trans ?_
  refine (Work.bind_run_of_ok (Work.write_run hlast')).trans ?_
  refine (Work.bind_run_of_ok (Work.leadOn_run (wf.has_parent hparent)
    fun _ h => wf.has_beside (.inl h))).trans ?_
  refine (Work.bind_run_of_ok (Work.leadBack_run (wf.has_parent hparent)
    fun _ h => wf.has_beside (.inr h))).trans ?_
  exact Work.write_run hblock

theorem ungroup_run (block : NodeId) :
    Work.ungroup block t.stored = t.settled (silent (t.ungroup block)) := by
  rw [Work.ungroup, Work.bind_denied, ungroup]
  split
  case isTrue => rfl
  case isFalse =>
    rw [Work.bind_ask, stored_blockKind]
    cases hkind : t.blockKind block with
    | error => rfl
    | ok kind =>
      refine (Work.bind_denied (fun _ => kind.isLinked) _ _ _).trans ?_
      change _ = t.settled (silent (if kind.isLinked = true then _ else _))
      split
      case isTrue => rfl
      case isFalse =>
        rw [Work.bind_ask, stored_parent?]
        have hkind := Option.isSome_iff_exists.mpr ⟨kind, blockKind_eq_ok_iff.mp hkind⟩
        cases hparent : t.parent? block with
        | none => rfl
        | some parent =>
          refine (Work.bind_look _ _).trans ?_
          cases hitems : t.children block with
          | nil =>
            have hfirst : (t.stored.links block).first = none := by
              rw [show (t.stored.links block).first = (t.children block).head? from rfl, hitems]
              rfl
            simp only [hfirst]
            refine (wf.unlink_run (wf.exists_of_parent hparent).1).trans (congrArg (Prod.mk _) ?_)
            rw [wf.stored_detach]
            exact (stored_places header_splice size_splice (wf.links_splice_nil hparent hkind hitems)
              payload?_splice).symm
          | cons first rest =>
            have hfirst : t.firstChild? block = some first := by rw [firstChild?, hitems]; rfl
            obtain ⟨last, hlast⟩ : ∃ last, t.lastChild? block = some last :=
              Option.isSome_iff_exists.mp (by simp [lastChild?, hitems])
            simp only [show (t.stored.links block).first = some first from hfirst,
              show (t.stored.links block).last = some last from hlast]
            exact wf.dissolve_run hkind hparent hfirst hlast

/-- A new block is linked in place of a run that it takes over. -/
theorem enclose_run {parent first last : NodeId} {before run after : List NodeId} {kind : BlockKind}
    (hitems : t.children parent = before ++ run ++ after) (hfirst : run.head? = some first)
    (hlast : run.getLast? = some last) :
    Work.enclose parent first last run kind t.stored =
      (.ok ⟨t.size⟩, (t.enclose parent before run after kind).2.stored) := by
  have hrun : ∀ x ∈ run, x ∈ t.children parent := fun x hx => by simp [hitems, hx]
  have hmember : ∀ x ∈ t.children parent, t.stored.Has x := fun x hx =>
    (stored_has x).mpr (wf.exists_of_mem_children hx)
  have hlinks : (t.stored.push (.block kind [])).links = t.links := by
    rw [← wf.stored_push rfl]
    exact links_push rfl
  have henclosed : (t.enclose parent before run after kind).2.stored = { (t.push (.block kind [])).2.stored with
      links := t.links.enclose parent first last ⟨t.size⟩ run } :=
    stored_places header_enclose (size_enclose.trans (size_push t _).symm)
      (wf.links_enclose hitems hfirst hlast) fun x => by rw [payload?_enclose, payload?_push]; rfl
  rw [henclosed, wf.stored_push rfl]
  have hparent : t.stored.Has parent :=
    wf.has_parent ((wf.parent_iff first parent).mpr (hrun first (List.mem_of_head? hfirst)))
  exact Work.enclose_run hlinks hparent (fun x hx => hmember x (hrun x hx)) (List.mem_of_head? hfirst)
    (List.mem_of_getLast? hlast) (fun _ hx => wf.has_beside (.inl hx)) fun _ hx => wf.has_beside (.inr hx)

/-- Once the ends of a run are known, the run is wrapped as it is in the tree. -/
theorem wrapRun_run (start stop first last : NodeId) (kind : BlockKind) :
    Work.wrapRun start stop first last kind t.stored = t.settled (Except.mapError Fault.edit
      ((match t.parent? first with
      | none => throw (.noSharedParent start stop)
      | some parent =>
        match splitRun? first last (t.children parent) with
        | none => throw (.outOfOrder start stop)
        | some (before, run, after) => do
          if before.isEmpty && after.isEmpty && ((t.blockKind? parent).any (·.sameVariant kind)) then
            return (parent, false, t)
          let (block, wrapped) := t.enclose parent before run after kind
          return (block, true, wrapped)) >>= fun (block, _, wrapped) => return (block, wrapped))) := by
  rw [Work.wrapRun, Work.bind_ask, stored_parent?]
  cases hparent : t.parent? first with
  | none => rfl
  | some parent =>
    refine (Work.bind_ask _ _).trans ?_
    rw [show t.stored.size = t.size from rfl, wf.stored_runTo hparent]
    dsimp only
    cases hsplit : splitRun? first last (t.children parent) with
    | none => rfl
    | some parts =>
      obtain ⟨before, run, after⟩ := parts
      obtain ⟨hitems, hfirst, hlast⟩ := splitRun?_eq_some hsplit
      obtain ⟨front, rfl⟩ := List.getLast?_eq_some_iff.mp hlast
      have hprev : t.prev? first = before.getLast? := by
        obtain ⟨rest, hrest⟩ := List.head?_eq_some_iff.mp hfirst
        have hsplit : t.children parent = before ++ first :: (rest ++ after) := by rw [hitems, hrest]; simp
        exact wf.prev?_eq hsplit
      have hnext : t.next? last = after.head? := by
        have hsplit : t.children parent = before ++ front ++ last :: after := by rw [hitems]; simp
        exact wf.next?_eq hsplit
      have hwhole : ((t.prev? first).isNone && (t.next? last).isNone) =
          (before.isEmpty && after.isEmpty) := by
        rw [hprev, hnext]
        cases after <;> cases before <;> simp
      simp only [Work.found, Option.map_some, Work.bind_look, stored_prev?, stored_next?, stored_blockKind?,
        hwhole]
      split
      · rfl
      · exact wf.enclose_run hitems hfirst hlast

theorem group_run (start stop : NodeId) (kind : BlockKind) :
    Work.group start stop kind t.stored = t.settled ((t.group start stop kind).mapError .edit) := by
  rw [Work.group, Work.bind_denied, group, wrap]
  split
  case isTrue => rfl
  case isFalse =>
    refine (Work.bind_denied (fun _ => kind.isLinked) _ _ _).trans ?_
    dsimp only
    split
    case isTrue => rfl
    case isFalse =>
      rw [Work.bind_ask, stored_content]
      cases t.content start with
      | error => rfl
      | ok =>
        refine (Work.bind_ask _ _).trans ?_
        rw [stored_content]
        cases t.content stop with
        | error => rfl
        | ok =>
          refine (Work.bind_ask _ _).trans ?_
          rw [wf.stored_runEnds]
          cases t.runEnds start stop with
          | error => rfl
          | ok ends =>
            obtain ⟨first, last⟩ := ends
            exact wf.wrapRun_run start stop first last kind

end WellFormed

end Tree

end MethodIL
