import Mathlib
import MethodIL.Proofs.Outcome
import MethodIL.Proofs.Tree.Step
import MethodIL.Tree.Edit
set_option autoImplicit false

/-!
# The steps of the edits

What each edit does when it succeeds, and the steps that it takes.  So whatever no step breaks, no
edit breaks.
-/

namespace MethodIL

open Outcome

/-! ## Lists of children -/

theorem insertBefore_append {anchor node : NodeId} {before after : List NodeId} (h : anchor ∉ before) :
    insertBefore anchor node (before ++ anchor :: after) = before ++ node :: anchor :: after := by
  induction before with
  | nil => simp [insertBefore]
  | cons a before ih =>
    rw [List.mem_cons, not_or] at h
    rw [List.cons_append, insertBefore, if_neg (Ne.symm h.1), ih h.2, List.cons_append]

theorem insertBefore_eq_append {anchor : NodeId} {items : List NodeId} (node : NodeId)
    (h : anchor ∈ items) :
    ∃ before after, items = before ++ anchor :: after ∧
      insertBefore anchor node items = before ++ node :: anchor :: after := by
  obtain ⟨before, after, rfl, hbefore⟩ := List.eq_append_cons_of_mem h
  exact ⟨before, after, rfl, insertBefore_append hbefore⟩

theorem insertAfter_append {anchor node : NodeId} {before after : List NodeId} (h : anchor ∉ before) :
    insertAfter anchor node (before ++ anchor :: after) = before ++ [anchor] ++ node :: after := by
  induction before with
  | nil => simp [insertAfter]
  | cons a before ih =>
    rw [List.mem_cons, not_or] at h
    rw [List.cons_append, insertAfter, if_neg (Ne.symm h.1), ih h.2, List.cons_append, List.cons_append]

theorem insertBefore_inserts (anchor node : NodeId) :
    Tree.Inserts node (insertBefore anchor node) := by
  intro items
  induction items with
  | nil => exact ⟨[], [], rfl, rfl⟩
  | cons a items ih =>
    rw [insertBefore]
    split
    · exact ⟨[], a :: items, rfl, rfl⟩
    · obtain ⟨before, after, hitems, hplaced⟩ := ih
      exact ⟨a :: before, after, by rw [hitems]; rfl, by rw [hplaced]; rfl⟩

theorem insertAfter_inserts (anchor node : NodeId) :
    Tree.Inserts node (insertAfter anchor node) := by
  intro items
  induction items with
  | nil => exact ⟨[], [], rfl, rfl⟩
  | cons a items ih =>
    rw [insertAfter]
    split
    · exact ⟨[a], items, rfl, rfl⟩
    · obtain ⟨before, after, hitems, hplaced⟩ := ih
      exact ⟨a :: before, after, by rw [hitems]; rfl, by rw [hplaced]; rfl⟩

/-- A list is cut at the ends of a run. -/
theorem splitRun?_eq_some {α : Type} [DecidableEq α] {first last : α}
    {items before run after : List α} (h : splitRun? first last items = some (before, run, after)) :
    items = before ++ run ++ after ∧ run.head? = some first ∧ run.getLast? = some last := by
  unfold splitRun? at h
  dsimp only at h
  have hcut := List.takeWhile_append_dropWhile (p := fun x => decide (x ≠ first)) (l := items)
  generalize htail : items.dropWhile (fun x => decide (x ≠ first)) = tail at h hcut
  have hcut' := List.takeWhile_append_dropWhile (p := fun x => decide (x ≠ last)) (l := tail)
  cases hrest : tail.dropWhile (fun x => decide (x ≠ last)) with
  | nil => rw [hrest] at h; exact absurd h (by simp)
  | cons stop rest =>
    simp only [hrest, Option.some.injEq, Prod.mk.injEq] at h
    obtain ⟨rfl, rfl, rfl⟩ := h
    have hstop : stop = last := by
      have := List.head?_dropWhile_not (fun x => decide (x ≠ last)) tail
      rw [hrest] at this
      simpa using this
    have hfirst : tail.head? = some first := by
      cases tail with
      | nil => simp at hrest
      | cons a tail =>
        have := List.head?_dropWhile_not (fun x => decide (x ≠ first)) items
        rw [htail] at this
        have ha : a = first := by simpa using this
        rw [ha]
        rfl
    rw [hrest] at hcut'
    refine ⟨?_, ?_, ?_⟩
    · rw [List.append_assoc, List.append_assoc, List.singleton_append, hcut', hcut]
    · rw [← hfirst]
      conv_rhs => rw [← hcut']
      rw [List.head?_append, List.head?_append]
      rfl
    · rw [List.getLast?_append, hstop]
      rfl

namespace Tree

variable {t t' : Tree}

/-! ## Looking up with faults -/

theorem blockKind_eq_ok_iff {id : NodeId} {kind : BlockKind} :
    t.blockKind id = .ok kind ↔ t.blockKind? id = some kind := by
  unfold Tree.blockKind blockKind? Tree.content
  cases t.content? id with
  | none => simp [bind, Except.bind]
  | some content =>
    cases content <;> simp [bind, Except.bind, pure, Except.pure, throw, throwThe,
      MonadExceptOf.throw]

theorem operation_eq_ok_iff {id : NodeId} {operation : Operation NodeId} :
    t.operation id = .ok operation ↔ t.operation? id = some operation := by
  unfold Tree.operation operation? Tree.content
  cases t.content? id with
  | none => simp [bind, Except.bind]
  | some content =>
    cases content <;> simp [bind, Except.bind, pure, Except.pure, throw, throwThe,
      MonadExceptOf.throw]

/-! ## New nodes and new operands -/

theorem steps_push_of_unlinked {kind : BlockKind} (h : kind.isLinked = false) :
    Steps t (t.push (.block kind [])).2 :=
  .single (.push rfl (fun kind' _ heq => by
    rw [Content.block.injEq] at heq
    rwa [← heq.1]) (by simp))

theorem steps_bindLabels (owner : NodeId) (labels : List NodeId) :
    Steps t (bindLabels owner labels t).2 := by
  induction labels generalizing t with
  | nil => exact .refl
  | cons label labels ih =>
    unfold bindLabels
    split
    · exact .refl
    · exact .head (.owner label (some owner)) ih

theorem steps_newInstruction (operation : Operation NodeId) :
    Steps t (t.newInstruction operation).2 := by
  simp only [newInstruction]
  split
  · exact .refl
  · next hrefused =>
    have hpush : Step t (t.push (.instruction operation)).2 := .push rfl (by simp) fun other heq => by
      rw [← Content.instruction.inj heq]
      simpa using hrefused
    have hbound := Relation.ReflTransGen.head hpush (steps_bindLabels
      (t.push (.instruction operation)).1 operation.operand.targets)
    split
    · exact .refl
    · split
      case h_1 heq => rwa [heq] at hbound
      case h_2 heq => rwa [heq] at hbound

theorem newBlock_eq_ok_iff {kind : BlockKind} {block : NodeId} :
    t.newBlock kind = .ok (block, t') ↔ (kind == .body) = false ∧ kind.isLinked = false ∧
      block = ⟨t.size⟩ ∧ t' = (t.push (.block kind [])).2 := by
  unfold newBlock
  cases hbody : kind == .body with
  | true => simp
  | false => cases hlinks : kind.isLinked <;> simp [Prod.ext_iff, eq_comm]

theorem steps_newBlock {kind : BlockKind} {block : NodeId} (h : t.newBlock kind = .ok (block, t')) :
    Steps t t' := by
  obtain ⟨-, hlinked, -, rfl⟩ := newBlock_eq_ok_iff.mp h
  exact steps_push_of_unlinked hlinked

/-- An operand that suits an opcode suits those that the opcode may be replaced by. -/
theorem acceptsOperand_setOpcode {operation : Operation NodeId} {opcode : Opcode}
    (hsuits : acceptsOperand operation = true) (h : acceptsOpcode operation opcode = true) :
    acceptsOperand { operation with opcode } = true := by
  obtain ⟨old, operand⟩ := operation
  simp only [acceptsOperand, acceptsOpcode, Opcode.isBranch, Opcode.isSwitch] at hsuits h ⊢
  cases operand with
  | immediate value =>
    have hplain : value.operandType ≠ .shortBranch ∧ value.operandType ≠ .branch := by
      cases value <;> simp [Immediate.operandType]
    simp only [Operand.fits, beq_iff_eq, Bool.or_eq_true, Bool.and_eq_true, reduceCtorEq, false_and,
      or_false] at hsuits
    cases htype : opcode.operandType <;> rw [htype] at h <;> simp_all [Operand.fits]
  | _ =>
    cases htype : opcode.operandType <;> rw [htype] at h <;> simp_all [Operand.fits]

theorem setOpcode_eq_ok_iff {id : NodeId} {opcode : Opcode} :
    t.setOpcode id opcode = .ok t' ↔ ∃ operation, t.operation? id = some operation ∧
      acceptsOpcode operation opcode = true ∧ t' = t.setOperation id { operation with opcode } := by
  simp only [← operation_eq_ok_iff]
  unfold setOpcode
  cases t.operation id with
  | error cause => simp
  | ok operation => cases haccepts : acceptsOpcode operation opcode <;> simp [haccepts, eq_comm (a := t')]

theorem steps_setOpcode {id : NodeId} {opcode : Opcode} (h : t.setOpcode id opcode = .ok t') :
    Steps t t' := by
  obtain ⟨operation, hoperation, haccepts, rfl⟩ := setOpcode_eq_ok_iff.mp h
  refine .single (.operation fun old hold hsuits => ?_)
  obtain rfl := Option.some.inj (hoperation.symm.trans hold)
  exact acceptsOperand_setOpcode hsuits haccepts

/-- Only the operand of an instruction without targets can be replaced, by one without targets. -/
theorem setOperand_eq_ok_iff {id : NodeId} {operand : Operand NodeId} :
    t.setOperand id operand = .ok t' ↔ ∃ operation, t.operation? id = some operation ∧
      operand.fits operation.opcode.operandType = true ∧ operation.opcode.isBranch = false ∧
        operation.opcode.isSwitch = false ∧ t' = t.setOperation id { operation with operand } := by
  simp only [← operation_eq_ok_iff]
  unfold setOperand
  cases t.operation id with
  | error cause => simp
  | ok operation =>
    cases hfits : operand.fits operation.opcode.operandType <;>
      cases hbranch : operation.opcode.isBranch <;> cases hswitch : operation.opcode.isSwitch <;>
        simp [hfits, hbranch, hswitch, eq_comm (a := t')]

theorem steps_setOperand {id : NodeId} {operand : Operand NodeId}
    (h : t.setOperand id operand = .ok t') : Steps t t' := by
  obtain ⟨operation, -, hfits, -, -, rfl⟩ := setOperand_eq_ok_iff.mp h
  refine .single (.operation fun _ _ _ => ?_)
  rw [acceptsOperand, hfits, Bool.true_or]

/-! ## Protected regions -/

theorem setCatchType_eq_ok_iff {handler : NodeId} {token : Token} :
    t.setCatchType handler token = .ok t' ↔
      ∃ region filterBlock catchType,
        t.blockKind? handler = some (.handler .catchClause region filterBlock catchType) ∧
          t' = t.mapKind handler fun _ =>
            .handler .catchClause region filterBlock (some token) := by
  simp only [Tree.setCatchType, bind_eq_ok, blockKind_eq_ok_iff]
  constructor
  · rintro ⟨kind, hkind, h⟩
    split at h
    · exact ⟨_, _, _, hkind, (pure_eq_ok.mp h).symm⟩
    · exact absurd h throw_ne_ok
  · rintro ⟨region, filterBlock, catchType, hkind, rfl⟩
    exact ⟨_, hkind, rfl⟩

theorem linkHandler_eq_ok_iff {region handler : NodeId} :
    t.linkHandler region handler = .ok t' ↔
      ∃ handlers kind filterBlock catchType,
        t.blockKind? region = some (.tryBlock handlers) ∧
        t.blockKind? handler = some (.handler kind none filterBlock catchType) ∧
          t' = (t.mapKind handler fun _ =>
            .handler kind (some region) filterBlock catchType).mapKind region fun _ =>
              .tryBlock (handlers ++ [handler]) := by
  unfold Tree.linkHandler
  split
  case h_1 handlers hregion =>
    simp only [bind_eq_ok, blockKind_eq_ok_iff]
    constructor
    · rintro ⟨kind, hkind, h⟩
      split at h
      · exact ⟨_, _, _, _, hregion, hkind, (pure_eq_ok.mp h).symm⟩
      · exact absurd h throw_ne_ok
      · exact absurd h throw_ne_ok
    · rintro ⟨handlers', kind, filterBlock, catchType, hregion', hkind, rfl⟩
      rw [hregion, Option.some.injEq, BlockKind.tryBlock.injEq] at hregion'
      exact ⟨_, hkind, by rw [hregion']; rfl⟩
  case h_2 hregion =>
    constructor
    · intro h
      exact absurd h (by simp)
    · rintro ⟨handlers, _, _, _, hkind, _⟩
      exact absurd hkind (hregion handlers)

theorem linkFilter_eq_ok_iff {filterBlock handler : NodeId} :
    t.linkFilter filterBlock handler = .ok t' ↔
      ∃ region catchType,
        t.blockKind? handler = some (.handler .filterClause (some region) none catchType) ∧
        t.blockKind? filterBlock = some (.filter none none) ∧
          t' = (t.mapKind filterBlock fun _ => .filter (some region) (some handler)).mapKind
            handler fun _ => .handler .filterClause (some region) (some filterBlock) catchType := by
  unfold Tree.linkFilter
  split
  case h_1 region catchType hhandler =>
    simp only [bind_eq_ok, blockKind_eq_ok_iff]
    constructor
    · rintro ⟨kind, hkind, h⟩
      split at h
      · exact ⟨_, _, hhandler, hkind, (pure_eq_ok.mp h).symm⟩
      · exact absurd h throw_ne_ok
    · rintro ⟨region', catchType', hhandler', hkind, rfl⟩
      rw [hhandler] at hhandler'
      simp only [Option.some.injEq, BlockKind.handler.injEq, true_and] at hhandler'
      exact ⟨_, hkind, by rw [hhandler'.1, hhandler'.2]; rfl⟩
  case h_2 hhandler =>
    constructor
    · intro h
      exact absurd h (by simp)
    · rintro ⟨region, catchType, hkind, _⟩
      exact absurd hkind (hhandler region catchType)

theorem steps_setCatchType {handler : NodeId} {token : Token}
    (h : t.setCatchType handler token = .ok t') : Steps t t' := by
  obtain ⟨region, filterBlock, catchType, hkind, rfl⟩ := setCatchType_eq_ok_iff.mp h
  exact .single (.relink (.catchType hkind))

theorem steps_linkHandler {region handler : NodeId} (h : t.linkHandler region handler = .ok t') :
    Steps t t' := by
  obtain ⟨handlers, kind, filterBlock, catchType, hregion, hhandler, rfl⟩ :=
    linkHandler_eq_ok_iff.mp h
  exact .single (.relink (.handler hregion hhandler))

theorem steps_linkFilter {filterBlock handler : NodeId}
    (h : t.linkFilter filterBlock handler = .ok t') : Steps t t' := by
  obtain ⟨region, catchType, hhandler, hfilter, rfl⟩ := linkFilter_eq_ok_iff.mp h
  exact .single (.relink (.filter hhandler hfilter))

theorem steps_unlinkHandler {handler : NodeId} (h : t.unlinkHandler handler = .ok t') :
    Steps t t' := by
  obtain ⟨kind, hkind, h⟩ := bind_eq_ok.mp h
  rw [blockKind_eq_ok_iff] at hkind
  split at h
  case h_2 => exact absurd h throw_ne_ok
  case h_1 kind region filterBlock catchType =>
    obtain rfl := pure_eq_ok.mp h
    have hcleared : Steps t (t.mapKind handler fun _ => .handler kind none none catchType) :=
      .single (.relink (.unlink hkind))
    have hdropped : Steps t (region.elim (t.mapKind handler fun _ => .handler kind none none catchType)
        ((t.mapKind handler fun _ => .handler kind none none catchType).dropHandler handler)) := by
      cases region with
      | none => exact hcleared
      | some region => exact hcleared.tail (.relink (.drop handler region))
    cases filterBlock with
    | none => exact hdropped
    | some filterBlock => exact hdropped.tail (.relink (.clear filterBlock))

/-! ## Placing -/

theorem place_eq_ok_iff {parent node : NodeId} {into : List NodeId → List NodeId} :
    t.place parent node into = .ok t' ↔
      (t.blockKind? parent).isSome ∧ node.index < t.size ∧ node ≠ root ∧
        t.parent? node = none ∧ node ≠ parent ∧ node ∉ t.ancestors parent ∧
          t' = t.attach parent node into := by
  have hcheck : t.checkInsertable parent node = .ok () ↔
      (t.blockKind? parent).isSome ∧ node.index < t.size ∧ node ≠ root ∧
        t.parent? node = none ∧ node ≠ parent ∧ node ∉ t.ancestors parent := by
    rw [← isSome_content?_iff]
    unfold checkInsertable Tree.content blockKind? isBelow
    cases t.content? parent with
    | none => simp [bind, Except.bind]
    | some content =>
      cases t.content? node with
      | none =>
        cases content <;>
          simp [bind, Except.bind, throw, throwThe, MonadExceptOf.throw]
      | some placed =>
        rcases eq_or_ne node parent with rfl | hself
        · cases t.parent? node <;> by_cases hroot : node = root <;> cases content <;>
            simp [bind, Except.bind, throw, throwThe, MonadExceptOf.throw, hroot]
        · cases t.parent? node <;> by_cases hroot : node = root <;>
            by_cases hbelow : node ∈ t.ancestors parent <;> cases content <;>
            simp [bind, Except.bind, throw, throwThe, MonadExceptOf.throw, pure, Except.pure, hroot,
              hself, hbelow]
  unfold place
  rw [bind_eq_ok]
  constructor
  · rintro ⟨_, hchecked, h⟩
    obtain ⟨hparent, hnode, hroot, hfree, hself, hbelow⟩ := hcheck.mp hchecked
    exact ⟨hparent, hnode, hroot, hfree, hself, hbelow, (pure_eq_ok.mp h).symm⟩
  · rintro ⟨hparent, hnode, hroot, hfree, hself, hbelow, rfl⟩
    exact ⟨(), hcheck.mpr ⟨hparent, hnode, hroot, hfree, hself, hbelow⟩, rfl⟩

theorem steps_place {parent node : NodeId} {into : List NodeId → List NodeId}
    (hinto : Inserts node into) (h : t.place parent node into = .ok t') :
    Steps t t' := by
  obtain ⟨hparent, hnode, hroot, hfree, hself, hbelow, rfl⟩ := place_eq_ok_iff.mp h
  exact .single (.attach hnode hroot hfree hparent hself hbelow hinto)

theorem steps_append {parent node : NodeId} (h : t.append parent node = .ok t') : Steps t t' :=
  steps_place (fun items => ⟨items, [], (List.append_nil items).symm, rfl⟩) h

theorem steps_prepend {parent node : NodeId} (h : t.prepend parent node = .ok t') : Steps t t' :=
  steps_place (fun items => ⟨[], items, rfl, rfl⟩) h

theorem insertBefore_eq_ok_iff {anchor node : NodeId} :
    t.insertBefore anchor node = .ok t' ↔ ∃ parent, t.parent? anchor = some parent ∧
      t.place parent node (MethodIL.insertBefore anchor node) = .ok t' := by
  unfold Tree.insertBefore
  cases t.parent? anchor <;> simp

theorem insertAfter_eq_ok_iff {anchor node : NodeId} :
    t.insertAfter anchor node = .ok t' ↔ ∃ parent, t.parent? anchor = some parent ∧
      t.place parent node (MethodIL.insertAfter anchor node) = .ok t' := by
  unfold Tree.insertAfter
  cases t.parent? anchor <;> simp

theorem steps_insertBefore {anchor node : NodeId} (h : t.insertBefore anchor node = .ok t') :
    Steps t t' := by
  obtain ⟨parent, -, hplace⟩ := insertBefore_eq_ok_iff.mp h
  exact steps_place (insertBefore_inserts anchor node) hplace

theorem steps_insertAfter {anchor node : NodeId} (h : t.insertAfter anchor node = .ok t') :
    Steps t t' := by
  obtain ⟨parent, -, hplace⟩ := insertAfter_eq_ok_iff.mp h
  exact steps_place (insertAfter_inserts anchor node) hplace

/-! ## Cutting off and dissolving -/

/-- Steps for each item of a list are steps for the list. -/
theorem steps_foldl {items : List NodeId} {f : Tree → NodeId → Tree}
    (h : ∀ t, ∀ item ∈ items, Steps t (f t item)) : Steps t (items.foldl f t) :=
  List.foldlRecOn items f .refl fun t' ht item hitem => ht.trans (h t' item hitem)

/-- An instruction with targets may lack them. -/
theorem acceptsOperand_without {operation : Operation NodeId} (hsuits : acceptsOperand operation = true)
    (htargets : operation.operand.targets ≠ []) :
    acceptsOperand { operation with operand := .none } = true := by
  obtain ⟨opcode, operand⟩ := operation
  simp only [acceptsOperand, Opcode.isBranch, Opcode.isSwitch] at hsuits ⊢
  cases operand <;> simp_all [Operand.fits, Operand.targets]

/-- An instruction without labels has none to lose.  Any other one loses its operand, and its labels
are cut off one by one. -/
theorem unbindLabels_cases (t : Tree) (id : NodeId) :
    t.labelsOf id = [] ∧ t.unbindLabels id = t ∨
      ∃ operation, t.operation? id = some operation ∧ operation.operand.targets ≠ [] ∧
        t.unbindLabels id = operation.operand.targets.foldl
          (fun t label => (t.setOwner label none).detach label)
          (t.setOperation id { operation with operand := .none }) := by
  rw [unbindLabels, labelsOf]
  cases t.operation? id with
  | none => exact Or.inl ⟨rfl, rfl⟩
  | some operation =>
    by_cases htargets : operation.operand.targets = []
    · exact Or.inl ⟨htargets, by simp [htargets]⟩
    · exact Or.inr ⟨operation, rfl, htargets, by simp [htargets]⟩

theorem steps_unbindLabels (id : NodeId) : Steps t (t.unbindLabels id) := by
  rcases t.unbindLabels_cases id with ⟨-, hsame⟩ | ⟨operation, hoperation, htargets, hcut⟩
  · rw [hsame]
  · rw [hcut]
    refine .head (.operation fun old hold hsuits => ?_) (steps_foldl fun t label _ => ?_)
    · obtain rfl := Option.some.inj (hoperation.symm.trans hold)
      exact acceptsOperand_without hsuits htargets
    · exact .head (.owner label none) (.single (.detach label))

theorem dropOutside_cases (t : Tree) (block member : NodeId) :
    dropOutside block t member = t ∨ dropOutside block t member = t.unbindLabels member := by
  unfold dropOutside
  split
  · exact Or.inr rfl
  · exact Or.inl rfl

theorem releaseBelow_eq_ok_iff {block : NodeId} : t.releaseBelow block = .ok t' ↔
    (∀ member ∈ t.descendants block, t.heldBy? block member = none) ∧
      t' = (t.descendants block).foldl (dropOutside block) t := by
  unfold releaseBelow
  dsimp only
  split
  case h_1 cause hheld =>
    refine iff_of_false (by simp) fun hfree => ?_
    rw [List.findSome?_eq_none_iff.mpr hfree.1] at hheld
    exact absurd hheld (by simp)
  case h_2 hheld =>
    rw [Except.ok.injEq, and_iff_right (List.findSome?_eq_none_iff.mp hheld), eq_comm]

/-- What holds as instructions lose their labels holds when what is below a block is released. -/
theorem releaseBelow_induction {motive : Tree → Prop} {block : NodeId}
    (h : t.releaseBelow block = .ok t') (start : motive t)
    (unbind : ∀ t member, motive t → motive (t.unbindLabels member)) : motive t' := by
  obtain ⟨-, rfl⟩ := releaseBelow_eq_ok_iff.mp h
  refine List.foldlRecOn _ _ start fun released hreleased member _ => ?_
  rcases released.dropOutside_cases block member with hsame | hunbound
  · rwa [hsame]
  · rw [hunbound]
    exact unbind released member hreleased

theorem steps_releaseBelow {block : NodeId} (h : t.releaseBelow block = .ok t') : Steps t t' :=
  releaseBelow_induction h .refl fun _ member hsteps => hsteps.trans (steps_unbindLabels member)

/-- A node that is held can be cut off if it is a label without an owner, an instruction, whose labels
go with it, or a block that is not linked and can be released from what is below it. -/
theorem remove_eq_ok_iff {node : NodeId} :
    t.remove node = .ok t' ↔ node ≠ root ∧ (t.parent? node).isSome ∧
      (t.content? node = some (.label none) ∧ t' = t.detach node ∨
        (∃ operation, t.content? node = some (.instruction operation)) ∧
          t' = (t.unbindLabels node).detach node ∨
        ∃ kind released, t.blockKind? node = some kind ∧ kind.isLinked = false ∧
          t.releaseBelow node = .ok released ∧ t' = released.detach node) := by
  unfold Tree.remove
  rw [guard_eq_ok, guard_eq_ok, Tree.content, blockKind?]
  simp only [beq_iff_eq, Option.isNone_iff_eq_none, Option.isSome_iff_ne_none, ne_eq]
  refine and_congr_right fun _ => and_congr_right fun _ => ?_
  cases t.content? node with
  | none => simp
  | some content =>
    cases content with
    | label owner => cases owner <;> simp [pure_eq_ok, eq_comm (a := t')]
    | instruction operation => simp [pure_eq_ok, eq_comm (a := t')]
    | block kind children =>
      rw [ok_bind, guard_eq_ok]
      simp [map_eq_ok, eq_comm (a := t')]

theorem steps_remove {node : NodeId} (h : t.remove node = .ok t') : Steps t t' := by
  obtain ⟨-, -, ⟨-, rfl⟩ | ⟨-, rfl⟩ | ⟨kind, released, -, -, hreleased, rfl⟩⟩ := remove_eq_ok_iff.mp h
  · exact .single (.detach node)
  · exact (steps_unbindLabels node).tail (.detach node)
  · exact (steps_releaseBelow hreleased).tail (.detach node)

theorem ungroup_eq_ok_iff {block : NodeId} :
    t.ungroup block = .ok t' ↔
      block ≠ root ∧ ∃ kind parent, t.blockKind? block = some kind ∧ kind.isLinked = false ∧
        t.parent? block = some parent ∧ t' = t.splice parent block := by
  unfold ungroup
  rw [guard_eq_ok]
  simp only [bind_eq_ok, blockKind_eq_ok_iff, guard_eq_ok]
  constructor
  · rintro ⟨hroot, kind, hkind, hlinked, h⟩
    split at h
    · exact absurd h throw_ne_ok
    · next parent hparent =>
      exact ⟨by simpa using hroot, kind, parent, hkind, by simpa using hlinked, hparent,
        (pure_eq_ok.mp h).symm⟩
  · rintro ⟨hroot, kind, parent, hkind, hlinked, hparent, rfl⟩
    exact ⟨by simpa using hroot, kind, hkind, by simpa using hlinked, by rw [hparent]; rfl⟩

theorem steps_ungroup {block : NodeId} (h : t.ungroup block = .ok t') : Steps t t' := by
  obtain ⟨_, kind, parent, hkind, _, hparent, rfl⟩ := ungroup_eq_ok_iff.mp h
  exact .single (.splice hparent (by rw [hkind]; rfl))

/-! ## Wrapping -/

/-- What wrapping a run does: the run is found among the children of one block, and either it is
all of them and the block takes the part of a new one, or a new block encloses it. -/
inductive Wraps (t : Tree) (start stop : NodeId) (kind : BlockKind) :
    NodeId → Bool → Tree → Prop
  | reused {first last parent : NodeId} {run : List NodeId} {parentKind : BlockKind}
      (hends : t.runEnds start stop = .ok (first, last))
      (hparent : t.parent? first = some parent)
      (hsplit : splitRun? first last (t.children parent) = some ([], run, []))
      (hkind : t.blockKind? parent = some parentKind)
      (hvariant : parentKind.sameVariant kind = true) :
      Wraps t start stop kind parent false t
  | enclosed {first last parent : NodeId} {before run after : List NodeId}
      (hends : t.runEnds start stop = .ok (first, last))
      (hparent : t.parent? first = some parent)
      (hsplit : splitRun? first last (t.children parent) = some (before, run, after))
      (hother : before = [] → after = [] → ∀ parentKind, t.blockKind? parent = some parentKind →
        parentKind.sameVariant kind = false)
      (hlinks : kind.isLinked = false) :
      Wraps t start stop kind ⟨t.size⟩ true (t.enclose parent before run after kind).2

theorem wraps_of_wrap {start stop : NodeId} {kind : BlockKind} {block : NodeId} {isNew : Bool}
    (h : t.wrap start stop kind = .ok (block, isNew, t')) : Wraps t start stop kind block isNew t' := by
  unfold wrap at h
  obtain ⟨_, h⟩ := guard_eq_ok.mp h
  obtain ⟨hlinks, h⟩ := guard_eq_ok.mp h
  obtain ⟨_, _, h⟩ := bind_eq_ok.mp h
  obtain ⟨_, _, h⟩ := bind_eq_ok.mp h
  obtain ⟨⟨first, last⟩, hends, h⟩ := bind_eq_ok.mp h
  dsimp only at h
  split at h
  · exact absurd h throw_ne_ok
  · next parent hparent =>
    split at h
    · exact absurd h throw_ne_ok
    · next before run after hsplit =>
      split at h
      · next hwhole =>
        simp only [pure_eq_ok, Prod.mk.injEq] at h
        obtain ⟨rfl, rfl, rfl⟩ := h
        simp only [Bool.and_eq_true, List.isEmpty_iff, Option.any_eq_true] at hwhole
        obtain ⟨⟨rfl, rfl⟩, parentKind, hkind, hvariant⟩ := hwhole
        exact .reused hends hparent hsplit hkind hvariant
      · next hwhole =>
        simp only [pure_eq_ok, Prod.mk.injEq] at h
        obtain ⟨rfl, rfl, rfl⟩ := h
        refine .enclosed hends hparent hsplit (fun hbefore hafter parentKind hkind => ?_)
          (by simpa using hlinks)
        simpa [hbefore, hafter, hkind] using hwhole

theorem steps_wraps {start stop : NodeId} {kind : BlockKind} {block : NodeId} {isNew : Bool}
    (h : Wraps t start stop kind block isNew t') : Steps t t' := by
  cases h with
  | reused => exact .refl
  | enclosed _ _ hsplit _ hlinks =>
    obtain ⟨hchildren, hfirst, _⟩ := splitRun?_eq_some hsplit
    refine .single (.enclose hchildren (fun hnil => ?_) hlinks)
    rw [hnil] at hfirst
    exact absurd hfirst (by simp)

theorem wraps_of_group {start stop : NodeId} {kind : BlockKind} {block : NodeId}
    (h : t.group start stop kind = .ok (block, t')) :
    ∃ isNew, Wraps t start stop kind block isNew t' := by
  obtain ⟨⟨wrapped, isNew, changed⟩, hwrap, h⟩ := bind_eq_ok.mp h
  obtain ⟨rfl, rfl⟩ := Prod.mk.inj (pure_eq_ok.mp h)
  exact ⟨isNew, wraps_of_wrap hwrap⟩

theorem steps_group {start stop : NodeId} {kind : BlockKind} {block : NodeId}
    (h : t.group start stop kind = .ok (block, t')) : Steps t t' := by
  obtain ⟨isNew, hwraps⟩ := wraps_of_group h
  exact steps_wraps hwraps

/-! ## Aiming -/

theorem placeLabel_eq_ok_iff {anchor label : NodeId} :
    t.placeLabel anchor = .ok (label, t') ↔
      ∃ parent, t.parent? anchor = some parent ∧ label = ⟨t.size⟩ ∧
        t' = (t.push (.label none)).2.attach parent ⟨t.size⟩
          (MethodIL.insertBefore anchor ⟨t.size⟩) := by
  unfold placeLabel
  split
  case h_1 hparent => simp [hparent]
  case h_2 parent hparent =>
    simp only [hparent, Except.ok.injEq, Prod.mk.injEq, Option.some.injEq, exists_eq_left']
    constructor
    · rintro ⟨rfl, rfl⟩
      exact ⟨rfl, rfl⟩
    · rintro ⟨rfl, rfl⟩
      exact ⟨rfl, rfl⟩

/-- Placing a label takes no node from its block. -/
theorem parent?_placeLabel {anchor label : NodeId} (h : t.placeLabel anchor = .ok (label, t')) (x : NodeId) :
    t'.parent? x = if x = ⟨t.size⟩ then t.parent? anchor else t.parent? x := by
  obtain ⟨parent, hparent, -, rfl⟩ := placeLabel_eq_ok_iff.mp h
  rw [parent?_attach (by simp), parent?_push, hparent]

theorem placeLabels_nil_eq_ok_iff {labels : List NodeId} :
    placeLabels [] t = .ok (labels, t') ↔ labels = [] ∧ t' = t := by
  rw [placeLabels, Except.ok.injEq, Prod.mk.injEq, eq_comm, eq_comm (a := t)]

/-- The labels are placed one after the other. -/
theorem placeLabels_cons_eq_ok_iff {anchor : NodeId} {anchors labels : List NodeId} :
    placeLabels (anchor :: anchors) t = .ok (labels, t') ↔ ∃ label placed others,
      t.placeLabel anchor = .ok (label, placed) ∧ placeLabels anchors placed = .ok (others, t') ∧
        labels = label :: others := by
  simp only [placeLabels, bind_eq_ok, pure_eq_ok, Prod.exists, Prod.mk.injEq]
  constructor
  · rintro ⟨label, placed, hplaced, others, done, hdone, rfl, rfl⟩
    exact ⟨label, placed, others, hplaced, hdone, rfl⟩
  · rintro ⟨label, placed, others, hplaced, hdone, rfl⟩
    exact ⟨label, placed, hplaced, others, t', hdone, rfl, rfl⟩

/-- All labels are placed if every anchor is held. -/
theorem exists_placeLabels {anchors : List NodeId}
    (hanchors : ∀ anchor ∈ anchors, (t.parent? anchor).isSome) :
    ∃ labels placed, placeLabels anchors t = .ok (labels, placed) := by
  induction anchors generalizing t with
  | nil => exact ⟨[], t, rfl⟩
  | cons anchor anchors ih =>
    obtain ⟨hanchor, hanchors⟩ := List.forall_mem_cons.mp hanchors
    obtain ⟨parent, hparent⟩ := Option.isSome_iff_exists.mp hanchor
    have hplaced := placeLabel_eq_ok_iff.mpr ⟨parent, hparent, rfl, rfl⟩
    obtain ⟨labels, done, hdone⟩ := ih fun other hother => by
      rw [parent?_placeLabel hplaced]
      split
      · exact hanchor
      · exact hanchors other hother
    exact ⟨_, done, placeLabels_cons_eq_ok_iff.mpr ⟨_, _, _, hplaced, hdone, rfl⟩⟩

/-- A new label is held by no block and holds nothing, so it can be placed in front of any child. -/
theorem WellFormed.insertBefore_newLabel (wf : t.WellFormed) {anchor parent : NodeId}
    (hparent : t.parent? anchor = some parent) :
    (t.push (.label none)).2.insertBefore anchor ⟨t.size⟩ = .ok ((t.push (.label none)).2.attach parent
      ⟨t.size⟩ (MethodIL.insertBefore anchor ⟨t.size⟩)) := by
  have wfPush : (t.push (.label none)).2.WellFormed := wf.push rfl
  obtain ⟨kind, hkind⟩ := exists_kind_of_mem_children ((wf.parent_iff anchor parent).mp hparent)
  have hne : (⟨t.size⟩ : NodeId) ≠ parent := fun heq => by
    have := (wf.exists_of_parent hparent).2
    rw [← heq] at this
    exact Nat.lt_irrefl _ this
  have hkind' : (t.push (.label none)).2.blockKind? parent = some kind := by
    rw [← hkind]
    exact blockKind?_of_payload? (by rw [payload?_push, if_neg (Ne.symm hne)])
  rw [Tree.insertBefore, parent?_push, hparent]
  refine place_eq_ok_iff.mpr ⟨hkind' ▸ rfl, by simp, wf.size_ne_root, ?_, hne, fun hbelow => ?_, rfl⟩
  · rw [parent?_push, wf.parent?_size]
  · refine wfPush.children_ne_nil hbelow ?_
    rw [children_push, if_pos rfl]
    rfl

/-- A new label is attached like any other node. -/
theorem WellFormed.steps_placeLabel (wf : t.WellFormed) {anchor label : NodeId}
    (h : t.placeLabel anchor = .ok (label, t')) : Steps t t' := by
  obtain ⟨parent, hparent, _, rfl⟩ := placeLabel_eq_ok_iff.mp h
  exact .head (.push rfl (by simp) (by simp)) (steps_insertBefore (wf.insertBefore_newLabel hparent))

theorem WellFormed.steps_placeLabels (wf : t.WellFormed) {anchors labels : List NodeId}
    (h : placeLabels anchors t = .ok (labels, t')) : Steps t t' := by
  induction anchors generalizing t t' labels with
  | nil =>
    obtain ⟨-, rfl⟩ := placeLabels_nil_eq_ok_iff.mp h
    exact .refl
  | cons anchor anchors ih =>
    obtain ⟨label, placed, others, hplaced, hdone, -⟩ := placeLabels_cons_eq_ok_iff.mp h
    have hfirst := wf.steps_placeLabel hplaced
    exact hfirst.trans (ih (wf.steps hfirst) hdone)

theorem steps_setOwners (labels : List NodeId) (owner : Option NodeId) :
    Steps t (labels.foldl (fun t label => t.setOwner label owner) t) :=
  steps_foldl fun _ label _ => .single (.owner label owner)

theorem steps_aim {id : NodeId} {operation : Operation NodeId}
    (hsuits : acceptsOperand operation = true) : Steps t (t.aim id operation) :=
  ((steps_unbindLabels id).tail (.operation fun _ _ _ => hsuits)).trans (steps_setOwners _ _)

theorem WellFormed.aimed (wf : t.WellFormed) (id : NodeId) (operation : Operation NodeId) :
    (t.aim id operation).WellFormed :=
  ((wf.steps (steps_unbindLabels id)).setOperation id operation).steps (steps_setOwners _ _)

theorem setBranchTarget_eq_ok_iff {id target label : NodeId} :
    t.setBranchTarget id target = .ok (label, t') ↔
      ∃ operation placed, t.operation? id = some operation ∧ operation.opcode.isBranch = true ∧
        t.placeLabel target = .ok (label, placed) ∧
          t' = placed.aim id { operation with operand := .branch label } := by
  unfold setBranchTarget
  split
  case h_1 operation hoperation =>
    split
    case isTrue hbranch =>
      rw [bind_eq_ok]
      constructor
      · rintro ⟨⟨label', placed⟩, hplaced, h⟩
        simp only [pure_eq_ok, Prod.mk.injEq] at h
        obtain ⟨rfl, rfl⟩ := h
        exact ⟨operation, placed, hoperation, hbranch, hplaced, rfl⟩
      · rintro ⟨operation', placed, hoperation', _, hplaced, rfl⟩
        obtain rfl := Option.some.inj (hoperation.symm.trans hoperation')
        exact ⟨(label, placed), hplaced, rfl⟩
    case isFalse hbranch => simp [hoperation, hbranch]
  case h_2 hoperation => simp [hoperation]

theorem setSwitchTargets_eq_ok_iff {id : NodeId} {targets labels : List NodeId} :
    t.setSwitchTargets id targets = .ok (labels, t') ↔
      ∃ operation placed, t.operation? id = some operation ∧ operation.opcode.isSwitch = true ∧
        (∀ target ∈ targets, (t.parent? target).isSome) ∧
        Tree.placeLabels targets t = .ok (labels, placed) ∧
          t' = placed.aim id { operation with operand := .switch labels } := by
  unfold setSwitchTargets
  split
  case h_1 operation hoperation =>
    split
    case isTrue hswitch =>
      split
      case h_1 orphan horphan =>
        constructor
        · intro h
          exact absurd h (by simp)
        · rintro ⟨_, _, _, _, hall, _⟩
          have hnone := List.find?_some horphan
          have := hall orphan (List.mem_of_find?_eq_some horphan)
          simp_all
      case h_2 hnone =>
        rw [bind_eq_ok]
        have hall : ∀ target ∈ targets, (t.parent? target).isSome := by
          simpa [Option.isSome_iff_ne_none] using List.find?_eq_none.mp hnone
        constructor
        · rintro ⟨⟨labels', placed⟩, hplaced, h⟩
          simp only [pure_eq_ok, Prod.mk.injEq] at h
          obtain ⟨rfl, rfl⟩ := h
          exact ⟨operation, placed, hoperation, hswitch, hall, hplaced, rfl⟩
        · rintro ⟨operation', placed, hoperation', _, _, hplaced, rfl⟩
          obtain rfl := Option.some.inj (hoperation.symm.trans hoperation')
          exact ⟨(labels, placed), hplaced, rfl⟩
    case isFalse hswitch => simp [hoperation, hswitch]
  case h_2 hoperation => simp [hoperation]

theorem WellFormed.steps_setBranchTarget (wf : t.WellFormed) {id target label : NodeId}
    (h : t.setBranchTarget id target = .ok (label, t')) : Steps t t' := by
  obtain ⟨operation, placed, _, hbranch, hplaced, rfl⟩ := setBranchTarget_eq_ok_iff.mp h
  refine (wf.steps_placeLabel hplaced).trans (steps_aim ?_)
  rw [Opcode.isBranch] at hbranch
  simp only [acceptsOperand, Operand.fits, hbranch, Bool.true_or]

theorem WellFormed.steps_setSwitchTargets (wf : t.WellFormed) {id : NodeId}
    {targets labels : List NodeId} (h : t.setSwitchTargets id targets = .ok (labels, t')) :
    Steps t t' := by
  obtain ⟨operation, placed, _, hswitch, _, hplaced, rfl⟩ := setSwitchTargets_eq_ok_iff.mp h
  refine (wf.steps_placeLabels hplaced).trans (steps_aim ?_)
  rw [Opcode.isSwitch] at hswitch
  simp only [acceptsOperand, Operand.fits, hswitch, Bool.true_or]

end Tree

/-! ## Edits -/

namespace Edit

/-- What holds of a tree and of every change of it holds of the tree behind an edit. -/
theorem settle_of {P : Tree → Prop} {t : Tree} {outcome : Except Fault (Reply × Tree)} (hrefused : P t)
    (h : ∀ reply changed, outcome = .ok (reply, changed) → P changed) : P (settle t outcome).2 := by
  unfold settle
  split
  · exact h _ _ rfl
  · exact hrefused

theorem settle_silently_of {P : Tree → Prop} {t : Tree} {outcome : Except EditFault Tree}
    (hrefused : P t) (h : ∀ changed, outcome = .ok changed → P changed) :
    P (settle t (silently outcome)).2 := by
  refine settle_of hrefused fun reply changed heq => ?_
  unfold silently at heq
  split at heq
  · simp only [Except.ok.injEq, Prod.mk.injEq] at heq
    exact h changed (by rw [heq.2])
  · exact absurd heq (by simp)

theorem settle_answering_of {P : Tree → Prop} {t : Tree} {outcome : Except EditFault (NodeId × Tree)}
    (hrefused : P t) (h : ∀ id changed, outcome = .ok (id, changed) → P changed) :
    P (settle t (answering outcome)).2 := by
  refine settle_of hrefused fun reply changed heq => ?_
  unfold answering at heq
  split at heq
  · simp only [Except.ok.injEq, Prod.mk.injEq] at heq
    exact h _ changed (by rw [heq.2])
  · exact absurd heq (by simp)

/-- An edit takes steps, whether it is carried out or refused. -/
theorem steps_run {t : Tree} (wf : t.WellFormed) (edit : Edit) : t.Steps (edit.run t).2 := by
  cases edit with
  | newInstruction operation => exact Tree.steps_newInstruction operation
  | newBlock kind => exact settle_answering_of .refl fun id changed h => Tree.steps_newBlock h
  | newLabel =>
    refine settle_answering_of .refl fun id changed h => ?_
    have hpush : t.Step (t.push (.label none)).2 := .push rfl (by simp) (by simp)
    rw [Tree.newLabel, Except.ok.injEq] at h
    rw [h] at hpush
    exact .single hpush
  | append parent node => exact settle_silently_of .refl fun changed h => Tree.steps_append h
  | prepend parent node => exact settle_silently_of .refl fun changed h => Tree.steps_prepend h
  | insertBefore anchor node => exact settle_silently_of .refl fun changed h => Tree.steps_insertBefore h
  | insertAfter anchor node => exact settle_silently_of .refl fun changed h => Tree.steps_insertAfter h
  | remove node => exact settle_silently_of .refl fun changed h => Tree.steps_remove h
  | ungroup block => exact settle_silently_of .refl fun changed h => Tree.steps_ungroup h
  | group start stop kind => exact settle_answering_of .refl fun id changed h => Tree.steps_group h
  | setOpcode node opcode =>
    refine settle_of .refl fun reply changed h => ?_
    obtain ⟨t', h, hchanged⟩ := map_eq_ok.mp h
    rw [← (Prod.mk.inj hchanged).2]
    exact Tree.steps_setOpcode h
  | setOperand node operand =>
    refine settle_of .refl fun reply changed h => ?_
    obtain ⟨t', h, hchanged⟩ := map_eq_ok.mp h
    rw [← (Prod.mk.inj hchanged).2]
    exact Tree.steps_setOperand h
  | setCatchType handler token => exact settle_silently_of .refl fun changed h => Tree.steps_setCatchType h
  | linkHandler region handler => exact settle_silently_of .refl fun changed h => Tree.steps_linkHandler h
  | linkFilter filterBlock handler => exact settle_silently_of .refl fun changed h => Tree.steps_linkFilter h
  | unlinkHandler handler => exact settle_silently_of .refl fun changed h => Tree.steps_unlinkHandler h
  | setBranchTarget node target =>
    exact settle_answering_of .refl fun id changed h => wf.steps_setBranchTarget h
  | setSwitchTargets node targets =>
    refine settle_of .refl fun reply changed h => ?_
    split at h
    · next labels done heq =>
      rw [← (Prod.mk.inj (Except.ok.inj h)).2]
      exact wf.steps_setSwitchTargets heq
    · exact absurd h (by simp)
  | setHeader header => exact .single (.header header)

end Edit

end MethodIL
