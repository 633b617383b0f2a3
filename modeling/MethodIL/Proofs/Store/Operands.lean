import Mathlib
import MethodIL.Proofs.Store.Placing
set_option autoImplicit false

/-!
# Labels and regions of stored nodes

Labels are checked when they are bound, and the second side of a link between regions is rewritten after
the first.  New labels are bound to no instruction, and the regions of a handler are blocks, so none of
this is refused once nodes have been rewritten.
-/

namespace MethodIL

open Outcome

namespace Tree

variable {t t' : Tree}

/-! ## Labels and operands -/

/-- A label that no instruction refers to is bound. -/
theorem bindLabel_run (owner label : NodeId) : Work.bindLabel owner label t.stored =
    match t.checkUnbound label with
    | .error cause => (.error (.edit cause), t.stored)
    | .ok () => (.ok (), (t.setOwner label (some owner)).stored) := by
  rw [Work.bindLabel, Work.bind_ask, stored_checkUnbound]
  cases hunbound : t.checkUnbound label with
  | error => rfl
  | ok =>
    have hlabel : label.index < t.size :=
      index_lt_of_content? (checkUnbound_eq_ok_iff.mp hunbound)
    rw [stored_setOwner]
    exact Work.recast_run ((stored_has label).mpr hlabel)

/-- Labels are bound up to the first that is refused. -/
theorem bindLabels_run (owner : NodeId) (labels : List NodeId) (t : Tree) :
    labels.forM (Work.bindLabel owner) t.stored =
      ((bindLabels owner labels t).1.mapError .edit, (bindLabels owner labels t).2.stored) := by
  induction labels generalizing t with
  | nil => rfl
  | cons label labels ih =>
    have hfirst := bindLabel_run (t := t) owner label
    rw [bindLabels]
    cases hunbound : t.checkUnbound label with
    | error =>
      rw [hunbound] at hfirst
      exact Work.bind_run_of_error hfirst
    | ok =>
      rw [hunbound] at hfirst
      exact (Work.bind_run_of_ok hfirst).trans (ih _)

/-- An instruction that is there takes another operation. -/
theorem setOperation_run {id : NodeId} {operation : Operation NodeId} (h : t.operation id = .ok operation)
    (new : Operation NodeId) :
    Work.recast id (Content.setOperation new) t.stored = (.ok (), (t.setOperation id new).stored) := by
  have hid := index_lt_of_operation? (operation_eq_ok_iff.mp h)
  rw [Work.recast_run ((stored_has id).mpr hid), stored_setOperation]

theorem setOpcode_run (id : NodeId) (opcode : Opcode) : Work.setOpcode id opcode t.stored =
    t.settled (((), ·) <$> t.setOpcode id opcode) := by
  rw [Work.setOpcode, Work.bind_ask, stored_operation, setOpcode]
  cases hoperation : t.operation id with
  | error => rfl
  | ok operation =>
    dsimp only
    split
    case isTrue => exact setOperation_run hoperation _
    case isFalse => rfl

theorem setOperand_run (id : NodeId) (operand : Operand NodeId) : Work.setOperand id operand t.stored =
    t.settled (((), ·) <$> t.setOperand id operand) := by
  rw [Work.setOperand, Work.bind_ask, stored_operation, setOperand]
  cases hoperation : t.operation id with
  | error => rfl
  | ok operation =>
    dsimp only
    split
    case isTrue => exact setOperation_run hoperation _
    case isFalse => rfl

namespace WellFormed

variable (wf : t.WellFormed)

include wf

/-! ## New nodes and new operands -/

theorem newBlock_run (kind : BlockKind) :
    Work.newBlock kind t.stored = t.settled ((t.newBlock kind).mapError .edit) := by
  rw [Work.newBlock, Work.bind_denied, newBlock]
  split
  case isTrue => rfl
  case isFalse =>
    refine (Work.bind_denied (fun _ => kind.isLinked) _ _ _).trans ?_
    split
    case isTrue => rfl
    case isFalse => exact congrArg (Prod.mk _) (wf.stored_push rfl).symm

theorem newLabel_run : Work.newLabel t.stored = (.ok t.newLabel.1, t.newLabel.2.stored) :=
  congrArg (Prod.mk _) (wf.stored_push rfl).symm

theorem newInstruction_run (operation : Operation NodeId) :
    Work.newInstruction operation t.stored =
      ((t.newInstruction operation).1, (t.newInstruction operation).2.stored) := by
  unfold Work.newInstruction newInstruction
  split
  case isTrue => rfl
  case isFalse =>
    have hasked := Work.forM_ask_run (s := t.stored) (fun label s => s.checkUnbound label)
      fun label (_ : label ∈ operation.operand.targets) => stored_checkUnbound label
    dsimp only
    cases hchecks : operation.operand.targets.forM t.checkUnbound with
    | error =>
      rw [hchecks] at hasked
      exact Work.bind_run_of_error hasked
    | ok =>
      rw [hchecks] at hasked
      have hbound := bindLabels_run ⟨t.size⟩ operation.operand.targets (t.push (.instruction operation)).2
      rw [wf.stored_push rfl] at hbound
      refine (Work.bind_run_of_ok hasked).trans ((Work.bind_run_of_ok (Work.push_run _)).trans ?_)
      dsimp only [push_fst]
      rw [show t.stored.size = t.size from rfl]
      cases hlabels : bindLabels ⟨t.size⟩ operation.operand.targets (t.push (.instruction operation)).2 with
      | mk outcome bound =>
        rw [hlabels] at hbound
        cases outcome with
        | error => exact Work.bind_run_of_error hbound
        | ok => exact Work.bind_run_of_ok hbound

/-! ## Branch targets -/

theorem placeLabel_run (anchor : NodeId) :
    Work.placeLabel anchor t.stored = t.settled ((t.placeLabel anchor).mapError .edit) := by
  rw [Work.placeLabel, Work.bind_ask, stored_parent?, placeLabel]
  cases hparent : t.parent? anchor with
  | none => rfl
  | some parent =>
    refine (Work.bind_run_of_ok wf.newLabel_run).trans ?_
    have wfPush : (t.push (.label none)).2.WellFormed := wf.push rfl
    have hinsert := wfPush.insertBefore_run anchor ⟨t.size⟩
    rw [wf.insertBefore_newLabel hparent] at hinsert
    exact Work.bind_run_of_ok hinsert

/-- All labels are placed if every anchor is held. -/
theorem placeLabels_run {anchors : List NodeId} (hanchors : ∀ anchor ∈ anchors, (t.parent? anchor).isSome) :
    ∃ labels placed, placeLabels anchors t = .ok (labels, placed) ∧
      Work.placeLabels anchors t.stored = (.ok labels, placed.stored) := by
  induction anchors generalizing t with
  | nil => exact ⟨[], t, rfl, rfl⟩
  | cons anchor anchors ih =>
    obtain ⟨hanchor, hanchors⟩ := List.forall_mem_cons.mp hanchors
    obtain ⟨parent, hparent⟩ := Option.isSome_iff_exists.mp hanchor
    obtain ⟨⟨label, placed⟩, hplaced⟩ : ∃ answer, t.placeLabel anchor = .ok answer := by
      rw [placeLabel, hparent]
      exact ⟨_, rfl⟩
    have hrun := wf.placeLabel_run anchor
    rw [hplaced] at hrun
    obtain ⟨labels, done, hdone, hwork⟩ := ih (wf.steps (wf.steps_placeLabel hplaced)) fun other hother => by
      rw [parent?_placeLabel hplaced]
      split
      · exact hanchor
      · exact hanchors other hother
    refine ⟨label :: labels, done, ?_, ?_⟩
    · rw [placeLabels, hplaced]
      exact bind_eq_ok.mpr ⟨_, rfl, bind_eq_ok.mpr ⟨_, hdone, rfl⟩⟩
    · rw [Work.placeLabels, Work.bind_run_of_ok hrun, Work.bind_run_of_ok hwork]
      rfl

/-- The labels of an operand are new, so an instruction that loses its labels is given them. -/
theorem aim_run (htargets : t.TargetsLabeled) {id : NodeId} {old : Operation NodeId}
    (hold : t.operation? id = some old) {operand : Operand NodeId}
    (hfresh : ∀ label ∈ operand.targets, t.isLabel label = true ∧ t.labelOwner? label = none)
    (hnodup : operand.targets.Nodup) :
    Work.aim id operand t.stored = (.ok (), (t.aim id { old with operand }).stored) := by
  have hoperation : (t.unbindLabels id).operation? id = some (withoutLabels old) := by
    rw [operation?_unbindLabels, if_pos rfl, hold]
    rfl
  have hopcode : ({ withoutLabels old with operand } : Operation NodeId) = { old with operand } := by
    unfold withoutLabels
    split <;> rfl
  rw [Work.aim, Work.bind_run_of_ok (wf.unbindLabels_run htargets hold), Work.bind_ask, stored_operation,
    operation_eq_ok_iff.mpr hoperation]
  dsimp only
  rw [hopcode, Work.bind_run_of_ok (Work.recast_run ((stored_has id).mpr (index_lt_of_operation? hoperation))),
    ← stored_setOperation, bindLabels_run]
  rw [bindLabels_of_unbound id hnodup fun label hmem => ?_]
  · rfl
  · obtain ⟨hlabel, howner⟩ := hfresh label hmem
    rw [content?_eq_of_isLabel (by rw [isLabel_setOperation, isLabel_unbindLabels, hlabel]),
      labelOwner?_setOperation, labelOwner?_unbindLabels, howner, ite_self]

/-- An instruction is aimed at labels that have just been placed. -/
theorem aim_placed_run {before : Tree} (htargets : before.TargetsLabeled) {id : NodeId}
    {old : Operation NodeId} (hold : before.operation? id = some old) (hstages : Stages before t)
    {labels : List NodeId} {count : Nat} (hlabels : labels = (List.range' before.size count).map NodeId.mk)
    (hpayload : ∀ x, t.payload? x = if x ∈ labels then some (.label none) else before.payload? x)
    (operand : Operand NodeId) (hoperand : operand.targets = labels) :
    Work.aim id operand t.stored = (.ok (), (t.aim id { old with operand }).stored) := by
  obtain ⟨hkept, hfresh, hnodup⟩ := fresh_of_placed hold hlabels hpayload
  have htargets' : t.TargetsLabeled := by
    clear hpayload hkept hfresh wf
    induction hstages with
    | refl => exact htargets
    | tail _ hstage ih => exact ih.stage hstage
  exact wf.aim_run htargets' hkept (hoperand ▸ hfresh) (hoperand ▸ hnodup)

theorem setBranchTarget_run (htargets : t.TargetsLabeled) (id target : NodeId) :
    Work.setBranchTarget id target t.stored = t.settled ((t.setBranchTarget id target).mapError .edit) := by
  rw [Work.setBranchTarget, Work.bind_look, stored_operation?, setBranchTarget]
  cases hold : t.operation? id with
  | none => rfl
  | some old =>
    cases hbranch : old.opcode.isBranch with
    | false =>
      simp only [Option.any_some, hbranch]
      rfl
    | true =>
      refine (Work.bind_denied (fun _ => !(some old).any fun operation => operation.opcode.isBranch)
        _ _ _).trans ?_
      simp only [Option.any_some, hbranch]
      have hrun := wf.placeLabel_run target
      cases hplaced : t.placeLabel target with
      | error =>
        rw [hplaced] at hrun
        exact Work.bind_run_of_error hrun
      | ok answer =>
        rw [hplaced] at hrun
        obtain ⟨label, placed⟩ := answer
        have hpayload := payload?_placeLabel hplaced
        obtain ⟨-, -, hlabel, -⟩ := placeLabel_eq_ok_iff.mp hplaced
        have hlabels : [label] = (List.range' t.size 1).map NodeId.mk := by rw [hlabel]; rfl
        have haim := (wf.steps (wf.steps_placeLabel hplaced)).aim_placed_run htargets hold
          (.single (.creates hpayload (Or.inl rfl))) hlabels
          (fun x => by simp only [hpayload, hlabel, List.mem_singleton]) (.branch label) rfl
        exact (Work.bind_run_of_ok hrun).trans (Work.bind_run_of_ok haim)

theorem setSwitchTargets_run (htargets : t.TargetsLabeled) (id : NodeId) (targets : List NodeId) :
    Work.setSwitchTargets id targets t.stored =
      t.settled ((t.setSwitchTargets id targets).mapError .edit) := by
  rw [Work.setSwitchTargets, Work.bind_look, stored_operation?, setSwitchTargets]
  cases hold : t.operation? id with
  | none => rfl
  | some old =>
    cases hswitch : old.opcode.isSwitch with
    | false =>
      simp only [Option.any_some, hswitch]
      rfl
    | true =>
      refine (Work.bind_denied (fun _ => !(some old).any fun operation => operation.opcode.isSwitch)
        _ _ _).trans ?_
      simp only [Option.any_some, hswitch]
      cases horphan : targets.find? fun target => (t.parent? target).isNone with
      | some orphan =>
        refine (Work.bind_look _ _).trans ?_
        simp only [stored_parent?, horphan]
        rfl
      | none =>
        have hheld : ∀ target ∈ targets, (t.parent? target).isSome := fun target hmem => by
          simpa [Option.isSome_iff_ne_none] using List.find?_eq_none.mp horphan target hmem
        obtain ⟨labels, placed, hplaced, hrun⟩ := wf.placeLabels_run hheld
        obtain ⟨hlabels, hpayload⟩ := labels_of_placeLabels hplaced
        have haim := (wf.steps (wf.steps_placeLabels hplaced)).aim_placed_run htargets hold
          (stages_placeLabels hplaced) hlabels hpayload (.switch labels) rfl
        refine (Work.bind_look _ _).trans ?_
        simp only [stored_parent?, horphan, hplaced]
        exact (Work.bind_run_of_ok hrun).trans (Work.bind_run_of_ok haim)

end WellFormed

/-! ## Protected regions -/

theorem mapKind_run {id : NodeId} {kind : BlockKind} (hkind : t.blockKind? id = some kind)
    (f : BlockKind → BlockKind) :
    Work.recast id (Content.mapKind f) t.stored = (.ok (), (t.mapKind id f).stored) := by
  rw [stored_mapKind]
  exact Work.recast_run ((stored_has id).mpr (index_lt_of_blockKind? hkind))

theorem rekind_run {id : NodeId} {kind : BlockKind} (hkind : t.blockKind? id = some kind)
    (f : BlockKind → BlockKind) : Work.rekind id f t.stored = (.ok (), (t.mapKind id f).stored) := by
  rw [Work.rekind, Work.bind_ask, stored_blockKind, blockKind_eq_ok_iff.mpr hkind]
  exact mapKind_run hkind f

/-- Only what the kind of the block is changed to counts. -/
theorem mapKind_congr {id : NodeId} {kind : BlockKind} (hkind : t.blockKind? id = some kind)
    {f g : BlockKind → BlockKind} (h : f kind = g kind) : t.mapKind id f = t.mapKind id g := by
  have hcontent := blockKind?_eq_some_iff.mp hkind
  rw [content?, node?] at hcontent
  unfold mapKind modify
  congr 1
  refine Array.ext_getElem? fun i => ?_
  rw [Array.getElem?_modify, Array.getElem?_modify]
  split
  next hi =>
    rw [hi] at hcontent
    obtain ⟨node, hnode, hblock⟩ := Option.map_eq_some_iff.mp hcontent
    rw [hnode, Option.map_some, Option.map_some, hblock]
    dsimp only
    rw [h]
  next => rfl

theorem setCatchType_run (handler : NodeId) (token : Token) : Work.setCatchType handler token t.stored =
    t.settled (silent (t.setCatchType handler token)) := by
  rw [Work.setCatchType, Work.bind_ask, stored_blockKind, setCatchType]
  cases hkind : t.blockKind handler with
  | error => rfl
  | ok kind =>
    cases kind with
    | handler sort region filterBlock catchType =>
      cases sort with
      | catchClause => exact mapKind_run (blockKind_eq_ok_iff.mp hkind) _
      | _ => rfl
    | _ => rfl

theorem linkHandler_run (region handler : NodeId) : Work.linkHandler region handler t.stored =
    t.settled (silent (t.linkHandler region handler)) := by
  rw [Work.linkHandler, Work.bind_look, stored_blockKind?, linkHandler]
  cases hregion : t.blockKind? region with
  | none => rfl
  | some kind =>
    cases kind with
    | tryBlock handlers =>
      refine (Work.bind_denied (fun _ => !(some (BlockKind.tryBlock handlers)).any (·.isTry)) _ _ _).trans ?_
      refine (Work.bind_ask _ _).trans ?_
      rw [stored_blockKind]
      cases hkind : t.blockKind handler with
      | error => rfl
      | ok kind =>
        cases kind with
        | handler sort protectedRegion filterBlock catchType =>
          cases protectedRegion with
          | some => rfl
          | none =>
            have hhandler := blockKind_eq_ok_iff.mp hkind
            refine (Work.bind_run_of_ok (mapKind_run hhandler _)).trans ?_
            have hregion' : (t.mapKind handler fun _ => .handler sort (some region) filterBlock catchType).blockKind?
                region = some (.tryBlock handlers) := by
              rw [blockKind?_mapKind, if_neg (ne_of_blockKind? hregion hhandler (by simp)), hregion]
            exact (rekind_run hregion' _).trans (congrArg (fun t' => (Except.ok (), stored t'))
              (mapKind_congr hregion' rfl))
        | _ => rfl
    | _ => rfl

theorem linkFilter_run (filterBlock handler : NodeId) : Work.linkFilter filterBlock handler t.stored =
    t.settled (silent (t.linkFilter filterBlock handler)) := by
  rw [Work.linkFilter, Work.bind_look, stored_blockKind?, linkFilter]
  cases hhandler : t.blockKind? handler with
  | none => rfl
  | some kind =>
    cases kind with
    | handler sort region held catchType =>
      cases sort with
      | filterClause =>
        cases region with
        | none => rfl
        | some region =>
          cases held with
          | some => rfl
          | none =>
            refine (Work.bind_ask _ _).trans ?_
            rw [stored_blockKind]
            cases hkind : t.blockKind filterBlock with
            | error => rfl
            | ok kind =>
              cases kind with
              | filter scope decides =>
                cases scope with
                | some => rfl
                | none =>
                  cases decides with
                  | some => rfl
                  | none =>
                    have hfilter := blockKind_eq_ok_iff.mp hkind
                    refine (Work.bind_run_of_ok (mapKind_run hfilter _)).trans ?_
                    have hhandler' : (t.mapKind filterBlock fun _ => .filter (some region)
                        (some handler)).blockKind? handler =
                          some (.handler .filterClause (some region) none catchType) := by
                      rw [blockKind?_mapKind, if_neg (ne_of_blockKind? hhandler hfilter (by simp)), hhandler]
                    exact (rekind_run hhandler' _).trans (congrArg (fun t' => (Except.ok (), stored t'))
                      (mapKind_congr hhandler' rfl))
              | _ => rfl
      | _ => rfl
    | _ => rfl

@[simp] theorem isSome_blockKind?_mapKind (id : NodeId) (f : BlockKind → BlockKind) (x : NodeId) :
    ((t.mapKind id f).blockKind? x).isSome = (t.blockKind? x).isSome := by
  rw [blockKind?_mapKind]
  split
  · rw [Option.isSome_map]
  · rfl

theorem rekinds_run {block? : Option NodeId} (f : NodeId → BlockKind → BlockKind)
    (h : ∀ block ∈ block?, (t.blockKind? block).isSome) :
    (block?.forM fun block => Work.rekind block (f block)) t.stored =
      (.ok (), (block?.elim t fun block => t.mapKind block (f block)).stored) := by
  cases block? with
  | none => rfl
  | some block =>
    obtain ⟨kind, hkind⟩ := Option.isSome_iff_exists.mp (h block rfl)
    exact rekind_run hkind (f block)

/-- The region and the filter block of a handler are blocks, so all links of the handler are undone. -/
theorem unlinkHandler_run (hlinked : t.RegionsLinked) (handler : NodeId) :
    Work.unlinkHandler handler t.stored = t.settled (silent (t.unlinkHandler handler)) := by
  rw [Work.unlinkHandler, Work.bind_ask, stored_blockKind, unlinkHandler]
  cases hkind : t.blockKind handler with
  | error => rfl
  | ok kind =>
    cases kind with
    | handler sort region filterBlock catchType =>
      have hhandler := blockKind_eq_ok_iff.mp hkind
      refine (Work.bind_run_of_ok (mapKind_run hhandler _)).trans ?_
      have hregion : ∀ block ∈ region, (t.blockKind? block).isSome := fun block hmem => by
        obtain ⟨handlers, hkind, -⟩ := hlinked.exists_region
          (protectedBy?_eq_some_iff.mpr ⟨_, _, _, Option.mem_def.mp hmem ▸ hhandler⟩)
        rw [hkind]
        rfl
      have hfilter : ∀ block ∈ filterBlock, (t.blockKind? block).isSome := fun block hmem => by
        obtain ⟨scope, hkind⟩ := hlinked.exists_filterBlock
          (filterOf?_eq_some_iff.mpr ⟨_, _, _, Option.mem_def.mp hmem ▸ hhandler⟩)
        rw [hkind]
        rfl
      refine (Work.bind_run_of_ok (rekinds_run _ fun block hmem => ?_)).trans
        (rekinds_run _ fun block hmem => ?_)
      · rw [isSome_blockKind?_mapKind]
        exact hregion block hmem
      · cases region with
        | none => simpa using hfilter block hmem
        | some region => simpa using hfilter block hmem
    | _ => rfl

end Tree

end MethodIL
