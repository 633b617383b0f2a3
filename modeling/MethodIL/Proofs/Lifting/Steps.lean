import Mathlib
import MethodIL.Proofs.Tree.Changes
import MethodIL.Tree.OfBody
set_option autoImplicit false

/-!
# The steps of lifting

What each step of lifting has done when it succeeds: the tree of the bare code, the regions that a
clause wraps and links, and the labels that a branch is aimed at.
-/

namespace MethodIL

open Outcome

namespace Tree

variable {t t' : Tree}

/-! ## The bare code -/

theorem instructionNode_injective : Function.Injective instructionNode := by
  intro a b h
  simpa [instructionNode] using h

theorem instructionNode_ne_root (index : Nat) : instructionNode index ≠ root := by
  simp [instructionNode, root]

section OfCode

variable (header : Header) (code : List Instruction)

@[simp] theorem size_ofCode : (ofCode header code).size = code.length + 1 := by
  simp [ofCode, size]

theorem node?_ofCode_instruction (index : Nat) :
    (ofCode header code).node? (instructionNode index) =
      code[index]?.map fun i : Instruction =>
        ⟨some root, .instruction ⟨i.opcode, i.operand.withoutTargets⟩⟩ := by
  simp [ofCode, node?, instructionNode]

theorem node?_ofCode_root :
    (ofCode header code).node? root =
      some ⟨none, .block .body ((List.range code.length).map instructionNode)⟩ := by
  simp [ofCode, node?, root]

/-- Every node but the root stands for an instruction. -/
theorem eq_root_or_instructionNode (id : NodeId) :
    id = root ∨ ∃ index, id = instructionNode index := by
  obtain ⟨index⟩ := id
  cases index with
  | zero => exact Or.inl rfl
  | succ index => exact Or.inr ⟨index, rfl⟩

theorem children_ofCode (id : NodeId) :
    (ofCode header code).children id =
      if id = root then (List.range code.length).map instructionNode else [] := by
  rw [children_eq, content?]
  rcases eq_root_or_instructionNode id with rfl | ⟨index, rfl⟩
  · rw [node?_ofCode_root, if_pos rfl]
    rfl
  · rw [node?_ofCode_instruction, if_neg (instructionNode_ne_root index)]
    cases code[index]? <;> rfl

theorem parent?_ofCode (id : NodeId) :
    (ofCode header code).parent? id =
      if id ∈ (List.range code.length).map instructionNode then some root else none := by
  rw [parent?]
  rcases eq_root_or_instructionNode id with rfl | ⟨index, rfl⟩
  · rw [node?_ofCode_root, if_neg (by simp [instructionNode, root])]
    rfl
  · rw [node?_ofCode_instruction]
    simp only [List.mem_map_of_injective instructionNode_injective, List.mem_range]
    by_cases h : index < code.length
    · rw [if_pos h, List.getElem?_eq_getElem h]
      rfl
    · rw [if_neg h, List.getElem?_eq_none (Nat.le_of_not_lt h)]
      rfl

/-- No block holds the node of the next instruction. -/
theorem parent?_ofCode_length :
    (ofCode header code).parent? (instructionNode code.length) = none := by
  rw [parent?_ofCode, if_neg]
  simp [List.mem_map_of_injective instructionNode_injective]

theorem wellFormed_ofCode : (ofCode header code).WellFormed := by
  refine ⟨?_, ?_, ?_, ?_, fun id => id.index, ?_⟩
  · rw [blockKind?, content?, node?_ofCode_root]
    rfl
  · rw [parent?, node?_ofCode_root]
    rfl
  · intro id p
    rw [parent?_ofCode, children_ofCode]
    by_cases hp : p = root
    · by_cases hid : id ∈ (List.range code.length).map instructionNode <;> simp [hp, hid]
    · by_cases hid : id ∈ (List.range code.length).map instructionNode <;>
        simp [hp, hid, Ne.symm hp]
  · intro p
    rw [children_ofCode]
    split
    · exact List.nodup_range.map instructionNode_injective
    · exact List.nodup_nil
  · intro id p h
    rw [parent?_ofCode] at h
    split at h
    case isTrue hid =>
      obtain ⟨index, _, rfl⟩ := List.mem_map.mp hid
      obtain rfl := Option.some.inj h
      simp [root, instructionNode]
    case isFalse => exact absurd h (by simp)

end OfCode

/-- Changing the last item of a list. -/
theorem modify_concat {α : Type} {items : List α} {n : Nat} (h : n = items.length) (last : α)
    (f : α → α) : (items ++ [last]).modify n f = items ++ [f last] := by
  subst h
  induction items with
  | nil => rfl
  | cons a items ih => simpa using ih

/-- The last instruction is created apart and attached behind the others. -/
theorem ofCode_concat (header : Header) (code : List Instruction) (i : Instruction) :
    ofCode header (code ++ [i]) =
      ((ofCode header code).push (.instruction ⟨i.opcode, i.operand.withoutTargets⟩)).2.attach root
        (instructionNode code.length) fun children => children ++ [instructionNode code.length] := by
  unfold attach setParent mapChildren modify push
  refine congrArg (Tree.mk header) (Array.toList_inj.mp ?_)
  simp [ofCode, List.range_succ, instructionNode, root, modify_concat]

/-! ## Clauses -/

theorem wraps_of_wrapSpan {clause : Nat} {span : Nat × Nat} {kind : BlockKind} {block : NodeId}
    {isNew : Bool} (h : t.wrapSpan clause span kind = .ok (block, isNew, t')) :
    Wraps t (instructionNode span.1) (instructionNode span.2) kind block isNew t' := by
  unfold wrapSpan at h
  split at h
  · next wrapped heq =>
    rw [Except.ok.injEq] at h
    rw [h] at heq
    exact wraps_of_wrap heq
  · exact absurd h (by simp)

/-- How the handler of a clause is wrapped: alone, or together with its filter, in which case the
range of both is a block in the meantime. -/
inductive WrapsHandler (map : CodeMap) (clause : Clause) (handlerSpan : Nat × Nat) (t : Tree) :
    NodeId → Option NodeId → Tree → Prop
  | alone {handler : NodeId} {isNew : Bool} {t' : Tree}
      (hkind : clause.kind ≠ .filterClause)
      (hwrap : Wraps t (instructionNode handlerSpan.1) (instructionNode handlerSpan.2)
        (.newHandler clause.kind) handler isNew t') :
      WrapsHandler map clause handlerSpan t handler none t'
  | filtered {start : UInt32} {both filter : Nat × Nat} {scope filterBlock handler : NodeId}
      {isNewScope isNewFilter isNewHandler : Bool} {t₁ t₂ t₃ t' : Tree}
      (hkind : clause.kind = .filterClause)
      (hstart : clause.filterOffset = some start)
      (hlt : start.toNat < clause.handlerOffset.toNat)
      (hboth : map.span start.toNat
        (clause.handlerOffset.toNat - start.toNat + clause.handlerLength.toNat) = .ok both)
      (hfilter : map.span start.toNat (clause.handlerOffset.toNat - start.toNat) = .ok filter)
      (hwrapScope : Wraps t (instructionNode both.1) (instructionNode both.2) .plain scope
        isNewScope t₁)
      (hwrapFilter : Wraps t₁ (instructionNode filter.1) (instructionNode filter.2) .newFilter
        filterBlock isNewFilter t₂)
      (hwrapHandler : Wraps t₂ (instructionNode handlerSpan.1) (instructionNode handlerSpan.2)
        (.newHandler .filterClause) handler isNewHandler t₃)
      (hungroup : if isNewScope then t₃.ungroup scope = .ok t' else t' = t₃) :
      WrapsHandler map clause handlerSpan t handler (some filterBlock) t'

theorem orFault_eq_ok {α : Type} {outcome : Except EditFault α} {a : α} :
    orFault outcome = .ok a ↔ outcome = .ok a := mapError_eq_ok

theorem orMalformed_eq_ok {α : Type} {outcome : Except FormatFault α} {a : α} :
    orMalformed outcome = .ok a ↔ outcome = .ok a := mapError_eq_ok

section WrapHandler

variable {map : CodeMap} {index : Nat} {clause : Clause} {handlerSpan : Nat × Nat}
  {wrapped : NodeId × Option NodeId × Tree}

theorem wrapHandler_alone_eq_ok_iff (hkind : clause.kind ≠ .filterClause) :
    wrapHandler map index clause handlerSpan t = .ok wrapped ↔
      ∃ handler isNew t', t.wrapSpan index handlerSpan (.newHandler clause.kind) =
        .ok (handler, isNew, t') ∧ (handler, none, t') = wrapped := by
  rw [wrapHandler, if_pos hkind]
  simp only [bind_eq_ok, Prod.exists, pure_eq_ok]

/-- A new block around a filter and its handler is dissolved in the end. -/
theorem dissolveScope_eq_ok_iff {α : Type} {isNew : Bool} {scope : NodeId} {f : Tree → α} {a : α} :
    (if isNew = true then do let t ← orFault (t.ungroup scope); pure (f t)
      else do let t ← pure t; pure (f t)) = .ok a ↔
    ∃ t', (if isNew = true then t.ungroup scope = .ok t' else t' = t) ∧ f t' = a := by
  cases isNew with
  | true => simp only [if_true, bind_eq_ok, orFault_eq_ok, pure_eq_ok]
  | false => simp [pure_eq_ok]

/-- A filter lies in front of its handler and apart from the protected range.  The range of both is
wrapped first, and the block for both is dissolved again if it is new. -/
theorem wrapHandler_filtered_eq_ok_iff (hkind : clause.kind = .filterClause) :
    wrapHandler map index clause handlerSpan t = .ok wrapped ↔
      ∃ start, clause.filterOffset = some start ∧ start.toNat < clause.handlerOffset.toNat ∧
        rangesOverlap (clause.tryOffset.toNat, clause.tryLength.toNat)
          (start.toNat, clause.handlerOffset.toNat - start.toNat) = false ∧
        clause.handlerOffset.toNat - start.toNat + clause.handlerLength.toNat < UInt32.size ∧
        ∃ both, map.span start.toNat
          (clause.handlerOffset.toNat - start.toNat + clause.handlerLength.toNat) = .ok both ∧
        ∃ filter, map.span start.toNat (clause.handlerOffset.toNat - start.toNat) = .ok filter ∧
        ∃ scope isNewScope t₁, t.wrapSpan index both .plain = .ok (scope, isNewScope, t₁) ∧
        ∃ block isNewFilter t₂, t₁.wrapSpan index filter .newFilter = .ok (block, isNewFilter, t₂) ∧
        ∃ handler isNewHandler t₃, t₂.wrapSpan index handlerSpan (.newHandler .filterClause) =
          .ok (handler, isNewHandler, t₃) ∧
        ∃ t', (if isNewScope = true then t₃.ungroup scope = .ok t' else t' = t₃) ∧
          (handler, some block, t') = wrapped := by
  rw [wrapHandler, if_neg (not_not.mpr hkind)]
  cases clause.filterOffset with
  | none => simp [throw_ne_ok]
  | some start =>
    simp only [guard_eq_ok, bind_eq_ok, orMalformed_eq_ok, Nat.not_le, Bool.not_eq_true,
      Option.some.injEq, exists_eq_left', Prod.exists,
      dissolveScope_eq_ok_iff (f := fun t => (_, some _, t))]

theorem wrapsHandler_of_wrapHandler {handler : NodeId} {filterBlock : Option NodeId}
    (h : wrapHandler map index clause handlerSpan t = .ok (handler, filterBlock, t')) :
    WrapsHandler map clause handlerSpan t handler filterBlock t' := by
  by_cases hkind : clause.kind = .filterClause
  · obtain ⟨start, hstart, hlt, -, -, both, hboth, filter, hfilter, scope, isNewScope, t₁, hscope,
      block, isNewFilter, t₂, hfilterWrap, wrapped, isNewHandler, t₃, hhandlerWrap, done, hdone, heq⟩ :=
      (wrapHandler_filtered_eq_ok_iff hkind).mp h
    simp only [Prod.mk.injEq] at heq
    obtain ⟨rfl, rfl, rfl⟩ := heq
    exact .filtered hkind hstart hlt hboth hfilter (wraps_of_wrapSpan hscope)
      (wraps_of_wrapSpan hfilterWrap) (wraps_of_wrapSpan hhandlerWrap) hdone
  · obtain ⟨block, isNew, done, hwrap, heq⟩ := (wrapHandler_alone_eq_ok_iff hkind).mp h
    simp only [Prod.mk.injEq] at heq
    obtain ⟨rfl, rfl, rfl⟩ := heq
    exact .alone hkind (wraps_of_wrapSpan hwrap)

end WrapHandler

/-- How the regions of a clause are linked once they are blocks. -/
structure LinksClause (clause : Clause) (region handler : NodeId) (filterBlock : Option NodeId)
    (t t' : Tree) : Prop where
  linked : ∃ t₁ t₂, t.linkHandler region handler = .ok t₁ ∧
    (match filterBlock with
      | some filterBlock => t₁.linkFilter filterBlock handler = .ok t₂
      | none => t₂ = t₁) ∧
    (match clause.kind, clause.catchType with
      | .catchClause, some token => t₂.setCatchType handler token = .ok t'
      | _, _ => t' = t₂)

/-- What adding a clause does: the regions are wrapped one after the other and linked. -/
inductive AddsClause (map : CodeMap) (clause : Clause) (t : Tree) : Tree → Prop
  | intro {trySpan handlerSpan : Nat × Nat} {region handler : NodeId} {isNew : Bool}
      {filterBlock : Option NodeId} {t₁ t₂ t' : Tree}
      (htry : map.span clause.tryOffset.toNat clause.tryLength.toNat = .ok trySpan)
      (hhandler : map.span clause.handlerOffset.toNat clause.handlerLength.toNat =
        .ok handlerSpan)
      (hwrapTry : Wraps t (instructionNode trySpan.1) (instructionNode trySpan.2) .newTry region
        isNew t₁)
      (hwrapHandler : WrapsHandler map clause handlerSpan t₁ handler filterBlock t₂)
      (hopen : ∀ block ∈ handler :: filterBlock.toList, t₂.isOpenRegion block = true)
      (hlink : LinksClause clause region handler filterBlock t₂ t') :
      AddsClause map clause t t'

/-- The end of adding a clause: a catch clause with a type gives it to its handler. -/
theorem catchType_eq_ok_iff {clause : Clause} {handler : NodeId} : (do
      if clause.kind ≠ HandlerKind.catchClause then return t
      match clause.catchType with
      | some token => orFault (t.setCatchType handler token)
      | none => return t) = .ok t' ↔
    match clause.kind, clause.catchType with
      | .catchClause, some token => t.setCatchType handler token = .ok t'
      | _, _ => t' = t := by
  cases hkind : clause.kind with
  | catchClause =>
    rw [if_neg (not_not.mpr rfl)]
    cases htype : clause.catchType with
    | none => exact pure_eq_ok.trans eq_comm
    | some token => exact orFault_eq_ok
  | _ =>
    rw [if_pos (by simp)]
    exact pure_eq_ok.trans eq_comm

/-- Adding a clause checks that its ranges are apart, wraps them, checks that the blocks of the handler
and the filter are still open, and links the regions. -/
theorem addClause_eq_ok_iff {map : CodeMap} {index : Nat} {clause : Clause} :
    addClause map t index clause = .ok t' ↔
      rangesOverlap (clause.tryOffset.toNat, clause.tryLength.toNat)
          (clause.handlerOffset.toNat, clause.handlerLength.toNat) = false ∧
        ∃ trySpan, map.span clause.tryOffset.toNat clause.tryLength.toNat = .ok trySpan ∧
        ∃ handlerSpan, map.span clause.handlerOffset.toNat clause.handlerLength.toNat =
          .ok handlerSpan ∧
        ∃ region isNew t₁, t.wrapSpan index trySpan .newTry = .ok (region, isNew, t₁) ∧
        ∃ handler filterBlock t₂,
          wrapHandler map index clause handlerSpan t₁ = .ok (handler, filterBlock, t₂) ∧
          (∀ block ∈ handler :: filterBlock.toList, t₂.isOpenRegion block = true) ∧
          LinksClause clause region handler filterBlock t₂ t' := by
  unfold addClause
  simp only [guard_eq_ok, bind_eq_ok, orMalformed_eq_ok, Bool.not_eq_true, Prod.exists]
  refine and_congr_right fun _ => exists₂_congr fun _ _ => and_congr_right fun _ =>
    exists₂_congr fun _ _ => and_congr_right fun _ => exists₃_congr fun region _ _ =>
    and_congr_right fun _ => exists₃_congr fun handler filterBlock t₂ => and_congr_right fun _ => ?_
  have hopen : (∀ block ∈ handler :: filterBlock.toList, t₂.isOpenRegion block = true) ↔
      (handler :: filterBlock.toList).find? (fun block => !t₂.isOpenRegion block) = none := by
    simp [List.find?_eq_none]
  rw [hopen]
  cases (handler :: filterBlock.toList).find? fun block => !t₂.isOpenRegion block with
  | some block => simp [throw_ne_ok]
  | none =>
    rw [and_iff_right rfl]
    constructor
    · intro h
      obtain ⟨t₃, hlinkHandler, h⟩ := bind_eq_ok.mp h
      refine ⟨t₃, ?_⟩
      cases filterBlock with
      | some filterBlock =>
        obtain ⟨t₄, hlinkFilter, h⟩ := bind_eq_ok.mp h
        exact ⟨t₄, orFault_eq_ok.mp hlinkHandler, orFault_eq_ok.mp hlinkFilter,
          catchType_eq_ok_iff.mp h⟩
      | none => exact ⟨t₃, orFault_eq_ok.mp hlinkHandler, rfl, catchType_eq_ok_iff.mp h⟩
    · rintro ⟨t₃, t₄, hlinkHandler, hlinkFilter, hcatch⟩
      refine bind_eq_ok.mpr ⟨t₃, orFault_eq_ok.mpr hlinkHandler, ?_⟩
      cases filterBlock with
      | some filterBlock =>
        exact bind_eq_ok.mpr ⟨t₄, orFault_eq_ok.mpr hlinkFilter, catchType_eq_ok_iff.mpr hcatch⟩
      | none =>
        obtain rfl := hlinkFilter
        exact catchType_eq_ok_iff.mpr hcatch

theorem addsClause_of_addClause {map : CodeMap} {index : Nat} {clause : Clause}
    (h : addClause map t index clause = .ok t') : AddsClause map clause t t' := by
  obtain ⟨-, trySpan, htry, handlerSpan, hhandler, region, isNew, t₁, hwrapTry, handler, filterBlock,
    t₂, hwrapHandler, hopen, hlink⟩ := addClause_eq_ok_iff.mp h
  exact .intro htry hhandler (wraps_of_wrapSpan hwrapTry) (wrapsHandler_of_wrapHandler hwrapHandler)
    hopen hlink

/-- Adding clauses adds the first and then the others. -/
theorem addClauses_cons_eq_ok {map : CodeMap} {index : Nat} {clause : Clause}
    {clauses : List Clause} (h : addClauses map index (clause :: clauses) t = .ok t') :
    ∃ t₁, addClause map t index clause = .ok t₁ ∧
      addClauses map (index + 1) clauses t₁ = .ok t' := by
  unfold addClauses at h
  obtain ⟨_, h⟩ := guard_eq_ok.mp h
  exact bind_eq_ok.mp h

/-! ## Branches -/

/-- What aiming an instruction does: a branch gets one label and a switch as many as it has
offsets, each in front of the node that the offset leads to. -/
inductive Aims (map : CodeMap) (t : Tree) (index start : Nat) (i : Instruction) : Tree → Prop
  | branch {relative : Int32} {target : Nat} {label : NodeId} {t' : Tree}
      (hoperand : i.operand = .branch relative)
      (htarget : map.branchTarget (start + i.size.toNat) relative = .ok target)
      (hset : t.setBranchTarget (instructionNode index) (t.labelAnchor (instructionNode index)
        (instructionNode target) i.opcode.isLeave) = .ok (label, t')) :
      Aims map t index start i t'
  | switch {relatives : List Int32} {targets : List Nat} {labels : List NodeId} {t' : Tree}
      (hoperand : i.operand = .switch relatives)
      (htargets : relatives.mapM (map.branchTarget (start + i.size.toNat)) = .ok targets)
      (hset : t.setSwitchTargets (instructionNode index) (targets.map fun target =>
        t.labelAnchor (instructionNode index) (instructionNode target) false) = .ok (labels, t')) :
      Aims map t index start i t'
  | plain (hoperand : i.operand.targets = []) (hother : ∀ relatives, i.operand ≠ .switch relatives) :
      Aims map t index start i t

/-- An offset is aimed at the label in front of which the instruction that it leads to stands. -/
theorem anchor_eq_ok_iff {map : CodeMap} {index place : Nat} {isLeave : Bool} {relative : Int32}
    {anchor : NodeId} : (do
      let target ← orMalformed (map.branchTarget place relative)
      return t.labelAnchor (instructionNode index) (instructionNode target) isLeave) = .ok anchor ↔
    ∃ target, map.branchTarget place relative = .ok target ∧
      t.labelAnchor (instructionNode index) (instructionNode target) isLeave = anchor := by
  simp only [bind_eq_ok, orMalformed_eq_ok, pure_eq_ok]

theorem aimInstruction_eq_ok_iff {map : CodeMap} {index start : Nat} {i : Instruction} :
    aimInstruction map t index start i = .ok t' ↔ Aims map t index start i t' := by
  unfold aimInstruction
  dsimp only
  constructor
  · intro h
    split at h
    case h_1 relative hoperand =>
      obtain ⟨anchor, hanchor, h⟩ := bind_eq_ok.mp h
      obtain ⟨target, htarget, rfl⟩ := anchor_eq_ok_iff.mp hanchor
      obtain ⟨⟨label, done⟩, hset, hdone⟩ := bind_eq_ok.mp h
      obtain rfl := pure_eq_ok.mp hdone
      exact .branch hoperand htarget (orFault_eq_ok.mp hset)
    case h_2 relatives hoperand =>
      obtain ⟨anchors, hanchors, h⟩ := bind_eq_ok.mp h
      obtain ⟨targets, htargets, rfl⟩ :=
        (mapM_eq_ok_iff_map fun _ _ => anchor_eq_ok_iff).mp hanchors
      obtain ⟨⟨labels, done⟩, hset, hdone⟩ := bind_eq_ok.mp h
      obtain rfl := pure_eq_ok.mp hdone
      exact .switch hoperand htargets (orFault_eq_ok.mp hset)
    case h_3 hbranch hswitch =>
      obtain rfl := pure_eq_ok.mp h
      refine .plain ?_ hswitch
      cases hoperand : i.operand with
      | branch relative => exact absurd hoperand (hbranch relative)
      | switch relatives => exact absurd hoperand (hswitch relatives)
      | _ => rfl
  · intro h
    cases h with
    | branch hoperand htarget hset =>
      rw [hoperand]
      exact bind_eq_ok.mpr ⟨_, anchor_eq_ok_iff.mpr ⟨_, htarget, rfl⟩,
        bind_eq_ok.mpr ⟨_, orFault_eq_ok.mpr hset, rfl⟩⟩
    | switch hoperand htargets hset =>
      rw [hoperand]
      exact bind_eq_ok.mpr ⟨_, (mapM_eq_ok_iff_map fun _ _ => anchor_eq_ok_iff).mpr ⟨_, htargets, rfl⟩,
        bind_eq_ok.mpr ⟨_, orFault_eq_ok.mpr hset, rfl⟩⟩
    | plain hplain hother =>
      cases hoperand : i.operand with
      | branch relative =>
        rw [hoperand] at hplain
        exact absurd hplain (by simp [Operand.targets])
      | switch relatives => exact absurd hoperand (hother relatives)
      | _ => rfl

/-- Aiming instructions aims the first and then the others. -/
theorem aimInstructions_cons_eq_ok {map : CodeMap} {index start : Nat} {i : Instruction}
    {code : List (Nat × Instruction)}
    (h : aimInstructions map index ((start, i) :: code) t = .ok t') :
    ∃ t₁, Aims map t index start i t₁ ∧ aimInstructions map (index + 1) code t₁ = .ok t' := by
  obtain ⟨t₁, haim, h⟩ := bind_eq_ok.mp h
  exact ⟨t₁, aimInstruction_eq_ok_iff.mp haim, h⟩

/-! ## The whole body -/

/-- A tree is lifted from a body in three steps: the bare code, the clauses, the branches. -/
theorem ofBody_eq_ok_iff {body : Body} :
    ofBody body = .ok t' ↔
      ∃ map t, CodeMap.ofCode body.instructions = .ok map ∧
        addClauses map 0 body.clauses (ofCode body.header body.instructions) = .ok t ∧
          aimInstructions map 0 (map.starts.zip body.instructions) t = .ok t' := by
  unfold ofBody
  simp only [bind_eq_ok, exists_and_left]

/-- A relation that every part of lifting is in, from the tree before it to the tree after it. -/
structure LiftingParts (R : Tree → Tree → Prop) : Prop where
  refl : ∀ t, R t t
  trans : ∀ {t₁ t₂ t₃ : Tree}, R t₁ t₂ → R t₂ t₃ → R t₁ t₃
  wraps : ∀ {t t' : Tree} {start stop : NodeId} {kind : BlockKind} {block : NodeId} {isNew : Bool},
    Wraps t start stop kind block isNew t' → kind ≠ .body → kind.isLinked = false → R t t'
  ungroup : ∀ {t t' : Tree} {block : NodeId}, t.ungroup block = .ok t' → R t t'
  linkHandler : ∀ {t t' : Tree} {region handler : NodeId}, t.linkHandler region handler = .ok t' → R t t'
  linkFilter : ∀ {t t' : Tree} {filterBlock handler : NodeId},
    t.linkFilter filterBlock handler = .ok t' → R t t'
  setCatchType : ∀ {t t' : Tree} {handler : NodeId} {token : Token},
    t.setCatchType handler token = .ok t' → R t t'
  setBranchTarget : ∀ {t t' : Tree} {id target label : NodeId},
    t.setBranchTarget id target = .ok (label, t') → R t t'
  setSwitchTargets : ∀ {t t' : Tree} {id : NodeId} {targets labels : List NodeId},
    t.setSwitchTargets id targets = .ok (labels, t') → R t t'

namespace LiftingParts

variable {R : Tree → Tree → Prop} (parts : LiftingParts R)

include parts

theorem wrapsHandler {map : CodeMap} {clause : Clause} {handlerSpan : Nat × Nat} {handler : NodeId}
    {filterBlock : Option NodeId} (h : WrapsHandler map clause handlerSpan t handler filterBlock t') :
    R t t' := by
  cases h with
  | alone _ hwrap => exact parts.wraps hwrap nofun rfl
  | @filtered _ _ _ _ _ _ isNewScope _ _ _ _ _ _ _ _ _ _ _ hscope hfilter hhandler hungroup =>
    have hwrapped := parts.trans (parts.trans (parts.wraps hscope nofun rfl)
      (parts.wraps hfilter nofun rfl)) (parts.wraps hhandler nofun rfl)
    cases isNewScope with
    | true => exact parts.trans hwrapped (parts.ungroup hungroup)
    | false =>
      obtain rfl := hungroup
      exact hwrapped

theorem linksClause {clause : Clause} {region handler : NodeId} {filterBlock : Option NodeId}
    (h : LinksClause clause region handler filterBlock t t') : R t t' := by
  obtain ⟨t₁, t₂, hhandler, hfilter, hcatch⟩ := h.linked
  have hlinked : R t t₂ := by
    refine parts.trans (parts.linkHandler hhandler) ?_
    cases filterBlock with
    | none =>
      rw [hfilter]
      exact parts.refl t₁
    | some filterBlock => exact parts.linkFilter hfilter
  split at hcatch
  · exact parts.trans hlinked (parts.setCatchType hcatch)
  · rwa [hcatch]

theorem addsClause {map : CodeMap} {clause : Clause} (h : AddsClause map clause t t') : R t t' := by
  cases h with
  | intro _ _ hwrapTry hwrapHandler _ hlink =>
    exact parts.trans (parts.trans (parts.wraps hwrapTry nofun rfl)
      (parts.wrapsHandler hwrapHandler)) (parts.linksClause hlink)

theorem addClauses {map : CodeMap} {index : Nat} {clauses : List Clause}
    (h : addClauses map index clauses t = .ok t') : R t t' := by
  induction clauses generalizing t index with
  | nil =>
    rw [← pure_eq_ok.mp h]
    exact parts.refl t
  | cons clause clauses ih =>
    obtain ⟨t₁, hclause, h⟩ := addClauses_cons_eq_ok h
    exact parts.trans (parts.addsClause (addsClause_of_addClause hclause)) (ih h)

theorem aims {map : CodeMap} {index start : Nat} {i : Instruction} (h : Aims map t index start i t') :
    R t t' := by
  cases h with
  | branch _ _ hset => exact parts.setBranchTarget hset
  | switch _ _ hset => exact parts.setSwitchTargets hset
  | plain => exact parts.refl t

theorem aimInstructions {map : CodeMap} {index : Nat} {code : List (Nat × Instruction)}
    (h : aimInstructions map index code t = .ok t') : R t t' := by
  induction code generalizing t index with
  | nil =>
    rw [← pure_eq_ok.mp h]
    exact parts.refl t
  | cons first code ih =>
    obtain ⟨start, i⟩ := first
    obtain ⟨t₁, haims, h⟩ := aimInstructions_cons_eq_ok h
    exact parts.trans (parts.aims haims) (ih h)

/-- A relation that the parts of lifting are in leads from the bare code to the lifted tree. -/
theorem ofBody {body : Body} (h : ofBody body = .ok t) :
    R (ofCode body.header body.instructions) t := by
  obtain ⟨map, t₁, _, hclauses, haims⟩ := ofBody_eq_ok_iff.mp h
  exact parts.trans (parts.addClauses hclauses) (parts.aimInstructions haims)

end LiftingParts

/-- The parts of lifting take steps from well-formed trees. -/
theorem steps_parts : LiftingParts fun t t' => t.WellFormed → Steps t t' where
  refl _ _ := .refl
  trans h h' wf := (h wf).trans (h' (wf.steps (h wf)))
  wraps h _ _ _ := steps_wraps h
  ungroup h _ := steps_ungroup h
  linkHandler h _ := steps_linkHandler h
  linkFilter h _ := steps_linkFilter h
  setCatchType h _ := steps_setCatchType h
  setBranchTarget h wf := wf.steps_setBranchTarget h
  setSwitchTargets h wf := wf.steps_setSwitchTargets h

/-- Lifting takes steps from the bare code. -/
theorem steps_of_ofBody {body : Body} (h : ofBody body = .ok t) :
    Steps (ofCode body.header body.instructions) t :=
  steps_parts.ofBody h (wellFormed_ofCode body.header body.instructions)

end Tree

end MethodIL
