import Mathlib
import MethodIL.Proofs.Lowering.Obstacles
set_option autoImplicit false

/-!
# Lowering with all its checks

Lowering looks up starts, targets and positions that it knows to be there, adds up offsets that it knows
to be small, and takes for granted that every instruction has the size that was laid out for it.  Here
each of these steps is checked, and a check that fails breaks off.  None does: with its checks, lowering
gives what it gives without.
-/

namespace MethodIL

/-- What lowering takes for granted. -/
inductive Breach where
  | unknownNode (node : NodeId)
  /-- a table or list is looked up behind its end -/
  | outOfRange (index size : Nat)
  /-- an offset does not fit 32 bits -/
  | overflow (offset : Nat)
  | underflow (start stop : Nat)
  /-- a block does not stand in the post-order -/
  | noPosition (block : NodeId)
  | noOperandSize (opcode : Opcode)
  | noForm (opcode : Opcode)
  /-- an instruction that is no branch refers to a label -/
  | strayLabel (opcode : Opcode)
  | sizeDiffers (opcode : Opcode) (encoded laidOut : Nat)
  /-- the passes of relaxation do not come to an end -/
  | unfinished

/-- Why checked lowering stops: a fault that it tells, or something taken for granted that fails. -/
inductive Stop where
  | fault (fault : Fault)
  | breach (breach : Breach)

/-- A step of lowering with its checks. -/
abbrev Checked (α : Type) : Type := Except Stop α

namespace Checked

/-! ## The checks -/

/-- A value that is known to be there. -/
def expect {α : Type} (breach : Breach) : Option α → Checked α
  | some value => .ok value
  | none => .error (.breach breach)

/-- A condition that is known to hold. -/
def ensure (condition : Bool) (breach : Breach) : Checked Unit :=
  if condition then .ok () else .error (.breach breach)

/-- The entry of a table. -/
def fetch {α : Type} (table : Array α) (index : Nat) : Checked α :=
  expect (.outOfRange index table.size) table[index]?

/-- A step that may tell a fault. -/
def telling {α : Type} (x : Except Fault α) : Checked α := x.mapError .fault

/-- A step that may tell a fault of the layout. -/
def layout {α : Type} (x : Except LayoutFault α) : Checked α := telling (x.mapError .layout)

/-! ## Places and pieces -/

/-- For nodes in flat order: the number of instructions in front of each. -/
def placesOf (t : Tree) : List NodeId → Nat → Array (Option Nat) → Checked (Array (Option Nat))
  | [], _, places => .ok places
  | id :: ids, count, places => do
    ensure (t.node? id).isSome (.unknownNode id)
    ensure (id.index < places.size) (.outOfRange id.index places.size)
    placesOf t ids (if t.isInstruction id then count + 1 else count)
      (places.setIfInBounds id.index (some count))

/-- For every node of the body: the number of instructions in front of it. -/
def places (t : Tree) : Checked (Array (Option Nat)) :=
  placesOf t (t.preOrder Tree.root) 0 (Array.replicate t.size none)

/-- The target of a branch. -/
def target (slot : Slot) : Checked Nat := fetch slot.targets.toArray 0

/-- The piece that a slot becomes. -/
def piece (slot : Slot) : Checked Layout.Piece :=
  let opcode := slot.operation.opcode
  if opcode.isBranch then Layout.Piece.branch <$> target slot
  else match slot.operation.operand with
    | .switch _ => layout slot.piece
    | _ => do
      let size ← expect (.noOperandSize opcode) opcode.operandType.size?
      return .fixed (opcode.size + size)

/-! ## Relaxation -/

/-- The starts of pieces of the given sizes from a position on, and the end of the last. -/
def startsFrom (position : Nat) : List Nat → Checked (List Nat)
  | [] => .ok [position]
  | size :: sizes =>
    if position + size < UInt32.size then
      List.cons position <$> startsFrom (position + size) sizes
    else layout (.error .codeBeyondLimit)

/-- The starts after sizes have changed from a place on. -/
def recompute (sizes : List Nat) (place : Nat) (starts : Array Nat) : Checked (Array Nat) := do
  let position ← fetch starts place
  let rest ← startsFrom position (sizes.drop place)
  return (starts.toList.take place ++ rest).toArray

/-- The distance from the end of a piece to the start of another. -/
def distance (starts : Array Nat) (source target : Nat) : Checked Int := do
  let start ← fetch starts target
  let stop ← fetch starts (source + 1)
  return (start : Int) - stop

/-- The branch at a place does not reach its target in the short form that it has. -/
def tooFar? (sizes : List Nat) (starts : Array Nat) (index : Nat) (piece : Layout.Piece)
    (isLong : Bool) : Checked (Option Layout.Widening) :=
  match piece, isLong with
  | .branch target, false => do
    let far ← distance starts index target
    if Layout.reaches far then return none
    let offset ← fetch starts index
    ensure (index < sizes.length) (.outOfRange index sizes.length)
    return some ⟨index, offset, far⟩
  | _, _ => .ok none

/-- The branches that a pass makes long. -/
def pass (pieces : List Layout.Piece) (forms : Layout.Forms) (starts : Array Nat) :
    Checked (List Layout.Widening) :=
  List.filterMap id <$> (pieces.zip forms).zipIdx.mapM fun ((piece, isLong), index) =>
    tooFar? (Layout.sizes pieces forms) starts index piece isLong

/-- Passes until one finds nothing to do. -/
def relaxFrom (pieces : List Layout.Piece) :
    Nat → Layout.Forms → Array Nat → Checked Layout.Relaxed
  | 0, forms, starts => do
    let found ← pass pieces forms starts
    ensure found.isEmpty .unfinished
    return ⟨forms, starts, 1, []⟩
  | limit + 1, forms, starts => do
    match ← pass pieces forms starts with
    | [] => return ⟨forms, starts, 1, []⟩
    | first :: others =>
      let wider := Layout.widen pieces forms starts
      let anew ← recompute (Layout.sizes pieces wider) first.index starts
      let rest ← relaxFrom pieces limit wider anew
      return { rest with passes := rest.passes + 1, widenings := first :: others ++ rest.widenings }

/-- Relax the branches among pieces. -/
def relax (pieces : List Layout.Piece) : Checked Layout.Relaxed := do
  let short : Layout.Forms := pieces.map fun _ => false
  let starts ← startsFrom 0 (Layout.sizes pieces short)
  relaxFrom pieces pieces.length short starts.toArray

/-! ## Instructions -/

/-- The offset from the end of a slot to another. -/
def relative (starts : Array Nat) (index target : Nat) : Checked Int32 := do
  let distance ← distance starts index target
  if Int32.minValue.toInt ≤ distance && distance ≤ Int32.maxValue.toInt then return .ofInt distance
  else layout (.error .distanceBeyondLimit)

/-- The operation that a slot becomes. -/
def operation (starts : Array Nat) (index : Nat) (slot : Slot) (isLong : Bool) :
    Checked (Operation Int32) :=
  let opcode := slot.operation.opcode
  if opcode.isBranch then do
    let form ← expect (.noForm opcode) (if isLong then opcode.longForm? else opcode.shortForm?)
    return ⟨form, .branch (← relative starts index (← target slot))⟩
  else match slot.operation.operand with
    | .branch _ => .error (.breach (.strayLabel opcode))
    | .switch _ => do return ⟨opcode, .switch (← slot.targets.mapM (relative starts index))⟩
    | operand => .ok ⟨opcode, operand.withoutTargets⟩

/-- The instruction that a slot becomes. -/
def instruction (sizes : List Nat) (starts : Array Nat) (index : Nat) (slot : Slot) (isLong : Bool) :
    Checked Instruction := do
  let operation ← operation starts index slot isLong
  let i ← telling (Instruction.ofOperation operation)
  let laidOut ← fetch sizes.toArray index
  ensure (i.size.toNat = laidOut) (.sizeDiffers i.opcode i.size.toNat laidOut)
  return i

/-- The instructions of the code, given the pieces that were laid out. -/
def instructions (p : Plan) (pieces : List Layout.Piece) : Checked (List Instruction) :=
  (p.slots.zip p.relaxed.forms).zipIdx.mapM fun ((slot, isLong), index) =>
    instruction (Layout.sizes pieces p.relaxed.forms) p.starts index slot isLong

/-! ## Clauses -/

/-- The offset and length of a region. -/
def extent (p : Plan) (t : Tree) (region : NodeId) : Checked (Nat × Nat) :=
  match t.coverage? p.places region with
  | none => layout (.error (.outsideTree region))
  | some (first, last) =>
    if first < last then do
      let start ← fetch p.starts first
      let stop ← fetch p.starts last
      ensure (start ≤ stop) (.underflow start stop)
      return (start, stop - start)
    else layout (.error (.emptyRegion region))

/-- The protection that a node stands for, unless it protects nothing. -/
def protection? (t : Tree) (order : List NodeId) (region : NodeId) :
    Checked (Option Plan.Protection) :=
  match t.blockKind? region with
  | some (.tryBlock (first :: others)) => do
    let own ← expect (.noPosition region) (order.idxOf? region)
    let parts ← layout (Plan.handlerPositions t order region (first :: others))
    return some ⟨region, first :: others, parts.foldl max own⟩
  | _ => .ok none

/-- The protected regions of the body in the order of their clauses. -/
def protections (t : Tree) : Checked (List Plan.Protection) := do
  let order := t.postOrder Tree.root
  let found ← (t.preOrder Tree.root).mapM (protection? t order)
  return (found.filterMap id).mergeSort fun a b => a.completed ≤ b.completed

/-- The clause of one handler, given the extent of the region it protects. -/
def clause (p : Plan) (t : Tree) (region : Nat × Nat) (handler : NodeId) : Checked Clause :=
  match t.blockKind? handler with
  | some (.handler kind _ filterBlock catchType) => do
    let own ← extent p t handler
    let filterOffset ←
      match kind, filterBlock with
      | .filterClause, some filterBlock => do
        let (start, length) ← extent p t filterBlock
        ensure (start + length < UInt32.size) (.overflow (start + length))
        if start + length ≠ own.1 then
          layout (.error (.filterApart filterBlock (start + length) own.1))
        else pure (some (UInt32.ofNat start))
      | .filterClause, none => layout (.error (.filterMissing handler))
      | _, _ => pure none
    return { flags := kind.flags
             tryOffset := .ofNat region.1, tryLength := .ofNat region.2
             handlerOffset := .ofNat own.1, handlerLength := .ofNat own.2
             filterOffset
             catchType := if kind = .catchClause then catchType else none }
  | _ => layout (.error (.foreignHandler handler handler))

/-- The clauses of a protected region. -/
def clausesOf (p : Plan) (t : Tree) (protection : Plan.Protection) : Checked (List Clause) := do
  let region ← extent p t protection.region
  protection.handlers.mapM (clause p t region)

/-- The exception table. -/
def clauses (p : Plan) (t : Tree) : Checked (List Clause) := do
  let parts ← (← protections t).mapM (clausesOf p t)
  return parts.flatten

/-! ## The body -/

/-- The body of a tree. -/
def toBody (t : Tree) : Checked Body := do
  let places ← places t
  let slots ← layout (t.slots places)
  let pieces ← slots.mapM piece
  let relaxed ← relax pieces
  let instructions ← instructions ⟨places, slots, relaxed⟩ pieces
  let clauses ← clauses ⟨places, slots, relaxed⟩ t
  let _ ← fetch relaxed.starts instructions.length
  return { header := t.header, instructions, clauses }

/-! ## Checks that pass -/

open Outcome

@[simp] theorem expect_some {α : Type} {breach : Breach} {value : α} :
    expect breach (some value) = .ok value := rfl

theorem ensure_of {condition : Bool} {breach : Breach} (h : condition = true) :
    ensure condition breach = .ok () := by
  rw [ensure, if_pos h]

theorem fetch_eq {table : Array Nat} {index : Nat} (h : index < table.size) :
    fetch table index = .ok (table.getD index 0) := by
  rw [fetch, Array.getElem?_eq_getElem h, expect_some, Array.getD_eq_getD_getElem?,
    Array.getElem?_eq_getElem h, Option.getD_some]

/-! ## Places and pieces -/

theorem placesOf_eq {t : Tree} {ids : List NodeId} (hids : ∀ id ∈ ids, id.index < t.size)
    (count : Nat) {places : Array (Option Nat)} (hsize : places.size = t.size) :
    placesOf t ids count places = .ok (t.placesOf ids count places) := by
  induction ids generalizing count places with
  | nil => rfl
  | cons id ids ih =>
    obtain ⟨hid, hids⟩ := List.forall_mem_cons.mp hids
    have hnode : (t.node? id).isSome = true := by
      rw [Tree.node?, Array.getElem?_eq_getElem hid, Option.isSome_some]
    rw [placesOf, ensure_of hnode, ok_bind, ensure_of (by simpa [hsize] using hid), ok_bind,
      ih hids _ (by rw [Array.size_setIfInBounds, hsize]), Tree.placesOf]

/-- Every node of the body exists, so its place is written in range. -/
theorem places_eq {t : Tree} (wf : t.WellFormed) : places t = .ok t.places :=
  placesOf_eq (fun _ => wf.exists_of_mem_body) 0 Array.size_replicate

theorem target_eq {t : Tree} {places : Array (Option Nat)} {count : Nat} {slot : Slot}
    (hslot : t.slotOf places count slot.operation = .ok slot)
    (hbranch : slot.operation.opcode.isBranch = true) :
    target slot = .ok (slot.targets.headD 0) := by
  rw [target, Tree.branch_targets_of_slotOf hslot hbranch]
  rfl

/-- A slot whose operand suits its opcode has its target, or an operand of known size. -/
theorem piece_eq {t : Tree} {places : Array (Option Nat)} {count : Nat} {slot : Slot}
    {own : Layout.Piece} (hslot : t.slotOf places count slot.operation = .ok slot)
    (hfits : slot.operation.operand.fits slot.operation.opcode.operandType = true)
    (hpiece : slot.piece = .ok own) : piece slot = .ok own := by
  rw [piece]
  cases hbranch : slot.operation.opcode.isBranch with
  | true =>
    rw [Slot.piece, if_pos hbranch] at hpiece
    rw [if_pos rfl, target_eq hslot hbranch]
    exact congrArg Except.ok (Except.ok.inj hpiece)
  | false =>
    rw [if_neg Bool.false_ne_true]
    split
    case h_1 => rw [hpiece]; rfl
    case h_2 hother =>
      -- only a switch has an operand without a fixed size
      have hfixed : slot.operation.opcode.operandType ≠ .switch := fun htype => by
        obtain ⟨labels, hlabels⟩ :=
          (Operation.isSwitch_iff hfits).mp (by simp [Opcode.isSwitch, htype])
        exact hother labels hlabels
      obtain ⟨size, hsize⟩ : ∃ size, slot.operation.opcode.operandType.size? = some size := by
        cases htype : slot.operation.opcode.operandType with
        | switch => exact absurd htype hfixed
        | _ => exact ⟨_, rfl⟩
      rw [Slot.piece, if_neg (by simp [hbranch]), hsize] at hpiece
      rw [hsize, expect_some, ok_bind]
      split at hpiece
      case h_1 labels hlabels => exact absurd hlabels (hother labels)
      case h_2 => exact congrArg Except.ok (Except.ok.inj hpiece)

/-! ## Relaxation -/

/-- Starts in code of less than four gigabytes do not overflow. -/
theorem startsFrom_eq {position : Nat} {sizes : List Nat} (h : position + sizes.sum < UInt32.size) :
    startsFrom position sizes = .ok (Layout.startsFrom position sizes) := by
  induction sizes generalizing position with
  | nil => rfl
  | cons size sizes ih =>
    rw [List.sum_cons, ← Nat.add_assoc] at h
    rw [startsFrom, if_pos (by omega), ih h, Layout.startsFrom]
    rfl

section Pass

open Layout (Piece Forms)

variable {pieces : List Piece} {forms : Forms}

theorem size_starts (hlen : forms.length = pieces.length) :
    (Layout.starts pieces forms).size = pieces.length + 1 := by
  rw [Layout.starts, List.size_toArray, Layout.length_startsFrom, Layout.length_sizes hlen]

theorem distance_eq (hlen : forms.length = pieces.length) {source target : Nat}
    (hsource : source < pieces.length) (htarget : target < pieces.length) :
    distance (Layout.starts pieces forms) source target =
      .ok (Layout.distance (Layout.starts pieces forms) source target) := by
  have hsize := size_starts hlen
  rw [distance, fetch_eq (by omega), ok_bind, fetch_eq (by omega), ok_bind]
  rfl

/-- A pass finds its places in the tables. -/
theorem pass_eq (hrange : Layout.InRange pieces) (hlen : forms.length = pieces.length) :
    pass pieces forms (Layout.starts pieces forms) =
      .ok (Layout.pass pieces forms (Layout.starts pieces forms)) := by
  have hstep : ∀ item ∈ (pieces.zip forms).zipIdx,
      tooFar? (Layout.sizes pieces forms) (Layout.starts pieces forms) item.2 item.1.1 item.1.2 =
        .ok (Layout.tooFar? (Layout.starts pieces forms) item.2 item.1.1 item.1.2) := by
    rintro ⟨⟨piece, isLong⟩, index⟩ hitem
    rw [List.mem_zipIdx_iff_getElem?, List.getElem?_zip_eq_some] at hitem
    have hindex := (List.getElem?_eq_some_iff.mp hitem.1).1
    cases piece with
    | fixed size => rfl
    | branch target =>
      cases isLong with
      | true => rfl
      | false =>
        have htarget := hrange index target hitem.1
        have hsize := size_starts hlen
        simp only [tooFar?, Layout.tooFar?, distance_eq hlen hindex htarget, ok_bind, Bool.false_or]
        cases Layout.reaches (Layout.distance (Layout.starts pieces forms) index target) with
        | true => rfl
        | false =>
          rw [fetch_eq (by omega)]
          simp only [Bool.false_eq_true, if_false, ok_bind]
          rw [ensure_of (by simpa [Layout.length_sizes hlen] using hindex)]
          rfl
  rw [pass, mapM_eq_ok_map hstep, Layout.pass]
  refine congrArg Except.ok ?_
  rw [List.filterMap_map]
  rfl

/-- The layout after a pass does not overflow. -/
theorem recompute_eq (hlen : forms.length = pieces.length)
    (hlimit : ∀ other : Forms, other.length = pieces.length →
      (Layout.sizes pieces other).sum < UInt32.size)
    {first : Layout.Widening} {others : List Layout.Widening}
    (hpass : Layout.pass pieces forms (Layout.starts pieces forms) = first :: others) :
    recompute (Layout.sizes pieces (Layout.widen pieces forms (Layout.starts pieces forms)))
        first.index (Layout.starts pieces forms) =
      .ok (Layout.starts pieces (Layout.widen pieces forms (Layout.starts pieces forms))) := by
  obtain ⟨index, piece, isLong, hpiece, -, hfar⟩ :=
    Layout.mem_pass_iff.mp (hpass ▸ List.mem_cons_self : first ∈ _)
  have hindex : first.index < pieces.length :=
    Layout.index_of_tooFar? hfar ▸ (List.getElem?_eq_some_iff.mp hpiece).1
  have hplace : first.index ≤ (Layout.sizes pieces forms).length := by
    rw [Layout.length_sizes hlen]
    exact Nat.le_of_lt hindex
  -- what stands in front of the first long branch keeps its size
  have hsame := Layout.sizes_take_first hlen hpass
  have hstart : (Layout.starts pieces forms).getD first.index 0 =
      ((Layout.sizes pieces (Layout.widen pieces forms (Layout.starts pieces forms))).take
        first.index).sum := by
    rw [Layout.getD_starts _ _ hplace, Layout.offset, hsame]
  have hwhole := hlimit _ (Layout.length_widen (Layout.starts pieces forms) hlen)
  rw [← List.sum_take_add_sum_drop _ first.index, ← hstart] at hwhole
  have hsize := size_starts hlen
  rw [recompute, fetch_eq (by omega), ok_bind, startsFrom_eq hwhole, ok_bind]
  exact congrArg Except.ok (Layout.recompute_eq hplace hsame)

/-- Relaxation comes to an end and finds everything in its tables. -/
theorem relax_eq (hrange : Layout.InRange pieces)
    (hlimit : ∀ other : Forms, other.length = pieces.length →
      (Layout.sizes pieces other).sum < UInt32.size) :
    relax pieces = .ok (Layout.relax pieces) := by
  have hpasses := Layout.relax_induction pieces
    (motive := fun forms relaxed => ∀ limit, Layout.shortCount pieces forms ≤ limit →
      relaxFrom pieces limit forms (Layout.starts pieces forms) = .ok relaxed) ?_ ?_
  · have hlen : (Layout.shortest pieces).length = pieces.length := Layout.length_shortest
    have hstart : startsFrom 0 (Layout.sizes pieces (Layout.shortest pieces)) =
        .ok (Layout.startsFrom 0 (Layout.sizes pieces (Layout.shortest pieces))) :=
      startsFrom_eq (by rw [Nat.zero_add]; exact hlimit _ hlen)
    rw [relax, ← Layout.shortest, hstart, ok_bind]
    exact hpasses pieces.length (Layout.shortCount_le_length _)
  · intro forms hlen hnil limit _
    cases limit with
    | zero => rw [relaxFrom, pass_eq hrange hlen, hnil]; rfl
    | succ limit => rw [relaxFrom, pass_eq hrange hlen, hnil]; rfl
  · intro forms first others rest hlen hpass ih limit hcount
    have hturned := Layout.length_pass_add_shortCount pieces forms (Layout.starts pieces forms)
    rw [hpass, List.length_cons] at hturned
    cases limit with
    | zero => omega
    | succ limit =>
      rw [relaxFrom, pass_eq hrange hlen, hpass, ok_bind]
      dsimp only
      rw [recompute_eq hlen hlimit hpass, ok_bind, ih limit (by omega)]
      rfl

end Pass

/-- A plan has the start of every slot and the end of the last. -/
theorem size_starts_of_plan {t : Tree} {p : Plan} (hplan : Plan.ofTree t = .ok p) :
    p.starts.size = p.slots.length + 1 := by
  obtain ⟨-, -, pieces, hpieces, hrelaxed, -⟩ := Plan.ofTree_eq_ok_iff.mp hplan
  rw [Plan.starts, hrelaxed, Layout.relax_starts, size_starts Layout.length_relax_forms,
    mapM_length hpieces]

/-! ## Instructions -/

section Instructions

variable {p : Plan} {t : Tree} {places : Array (Option Nat)} {index : Nat} {slot : Slot}
  (hsize : p.starts.size = p.slots.length + 1) (hindex : index < p.slots.length)
  (hslot : t.slotOf places p.slots.length slot.operation = .ok slot)
  (hfits : slot.operation.operand.fits slot.operation.opcode.operandType = true)

include hsize hindex

theorem relative_eq {target : Nat} (htarget : target < p.slots.length) {offset : Int32}
    (h : p.relative index target = .ok offset) : relative p.starts index target = .ok offset := by
  rw [relative, distance, fetch_eq (by omega), ok_bind, fetch_eq (by omega), ok_bind]
  rw [Plan.relative, Layout.distance] at h
  dsimp only [pure, Except.pure, bind, Except.bind] at h ⊢
  split at h
  case isTrue hrange => rw [if_pos hrange]; exact congrArg Except.ok (Except.ok.inj h)
  case isFalse => exact absurd h (by simp)

include hslot hfits

/-- A branch has its form and its target, and nothing else has a label. -/
theorem operation_eq {isLong : Bool} {own : Operation Int32}
    (h : p.operation index slot isLong = .ok own) :
    operation p.starts index slot isLong = .ok own := by
  rw [Plan.operation] at h
  rw [operation]
  cases hbranch : slot.operation.opcode.isBranch with
  | true =>
    obtain ⟨form, hform, -⟩ := Plan.form_of_isBranch hbranch isLong
    simp only [hbranch, if_true, hform, Option.getD_some, expect_some, ok_bind,
      target_eq hslot hbranch] at h ⊢
    obtain ⟨offset, hoffset, h⟩ := bind_eq_ok.mp h
    have htarget : slot.targets.headD 0 < p.slots.length := by
      refine Tree.target_lt_of_slotOf hslot ?_
      rw [Tree.branch_targets_of_slotOf hslot hbranch]
      exact List.mem_singleton_self _
    rw [relative_eq hsize hindex htarget hoffset, ok_bind]
    exact congrArg Except.ok (pure_eq_ok.mp h)
  | false =>
    simp only [hbranch, Bool.false_eq_true, if_false] at h ⊢
    cases hoperand : slot.operation.operand with
    | branch label =>
      have hjump := (Operation.isBranch_iff hfits).mpr ⟨label, hoperand⟩
      rw [hbranch] at hjump
      exact absurd hjump (by simp)
    | switch labels =>
      rw [hoperand] at h
      obtain ⟨offsets, hoffsets, h⟩ := bind_eq_ok.mp h
      have hchecked : slot.targets.mapM (relative p.starts index) = .ok offsets := by
        refine mapM_eq_ok.mpr (forall₂_imp_of_mem (mapM_eq_ok.mp hoffsets) ?_)
        intro target htarget offset _ hoffset
        exact relative_eq hsize hindex (Tree.target_lt_of_slotOf hslot htarget) hoffset
      dsimp only
      rw [hchecked]
      exact congrArg Except.ok (Except.ok.inj h)
    | none | immediate value | token name =>
      rw [hoperand] at h
      exact congrArg Except.ok (Except.ok.inj h)

/-- Every instruction takes the bytes that were laid out for it. -/
theorem instruction_eq {isLong : Bool} {i : Instruction} {own : Layout.Piece} {sizes : List Nat}
    (hpiece : slot.piece = .ok own) (hown : sizes[index]? = some (own.size isLong))
    (h : p.instruction index slot isLong = .ok i) :
    instruction sizes p.starts index slot isLong = .ok i := by
  have hsame := Plan.size_of_instruction hslot hpiece h
  rw [Plan.instruction] at h
  split at h
  case h_2 => exact absurd h (by simp)
  case h_1 operation hoperation =>
    rw [instruction, operation_eq hsize hindex hslot hfits hoperation, ok_bind, h]
    have hlaid : fetch sizes.toArray index = .ok (own.size isLong) := by
      rw [fetch, List.getElem?_toArray, hown, expect_some]
    have htold : telling (Except.ok i) = .ok i := rfl
    rw [htold, ok_bind, hlaid, ok_bind, ensure_of (by simpa using hsame), ok_bind]
    rfl

end Instructions

theorem instructions_eq {t : Tree} {p : Plan} (hsuit : t.OperandsSuit) (hplan : Plan.ofTree t = .ok p)
    {pieces : List Layout.Piece} (hpieces : p.slots.mapM Slot.piece = .ok pieces)
    {code : List Instruction} (hcode : p.instructions = .ok code) :
    instructions p pieces = .ok code := by
  obtain ⟨-, hslots, -⟩ := Plan.ofTree_eq_ok_iff.mp hplan
  obtain ⟨-, hlength, hmade⟩ := Tree.slots_spec hslots
  rw [← hlength] at hmade
  refine mapM_eq_ok.mpr (forall₂_imp_of_mem (mapM_eq_ok.mp hcode) ?_)
  rintro ⟨⟨slot, isLong⟩, index⟩ hitem i - hi
  rw [List.mem_zipIdx_iff_getElem?, List.getElem?_zip_eq_some] at hitem
  have hslot := List.mem_of_getElem? hitem.1
  obtain ⟨own, hown, hpiece⟩ := mapM_getElem? hpieces hitem.1
  exact instruction_eq (size_starts_of_plan hplan) (List.getElem?_eq_some_iff.mp hitem.1).1
    (hmade slot hslot) (hsuit.fits hslots hslot) hpiece (Layout.getElem?_sizes hown hitem.2) hi

/-! ## Clauses -/

@[simp] theorem layout_ok {α : Type} (a : α) : layout (.ok a) = .ok a := rfl

theorem layout_bind {α β : Type} (x : Except LayoutFault α) (f : α → Except LayoutFault β) :
    layout (x >>= f) = layout x >>= fun a => layout (f a) := by
  cases x <;> rfl

theorem layout_mapM {α β : Type} (f : α → Except LayoutFault β) (items : List α) :
    layout (items.mapM f) = items.mapM fun a => layout (f a) := by
  induction items with
  | nil => rfl
  | cons a items ih =>
    rw [List.mapM_cons, List.mapM_cons, layout_bind]
    congr 1
    funext b
    rw [layout_bind, ih]
    rfl

section Clauses

variable {p : Plan} {t : Tree} (hplan : Plan.ofTree t = .ok p) (wf : t.WellFormed)

include hplan wf

/-- The bounds of a region stand in the table of starts, in order. -/
theorem extent_eq (region : NodeId) : extent p t region = layout (p.extent t region) := by
  obtain ⟨hplaces, hslots, -⟩ := Plan.ofTree_eq_ok_iff.mp hplan
  rw [extent, Plan.extent]
  cases hcoverage : t.coverage? p.places region with
  | none => rfl
  | some bounds =>
    obtain ⟨first, last⟩ := bounds
    dsimp only
    split
    case isFalse => rfl
    case isTrue hlt =>
      rw [hplaces] at hcoverage
      have hle : last ≤ p.slots.length := by
        rw [(Tree.slots_spec hslots).2.1]
        exact wf.covers_le_length hcoverage
      have hmono := Plan.starts_mono hplan (Nat.le_of_lt hlt) hle
      have hsize := size_starts_of_plan hplan
      rw [fetch_eq (by omega), ok_bind, fetch_eq (by omega), ok_bind,
        ensure_of (by simpa using hmono), ok_bind]
      rfl

/-- No offset that a clause is made of overflows. -/
theorem clause_eq (hlimit : ∀ place, p.starts.getD place 0 < UInt32.size) (region : Nat × Nat)
    (handler : NodeId) : clause p t region handler = layout (p.clause t region handler) := by
  simp only [clause, Plan.clause, extent_eq hplan wf]
  cases hkind : t.blockKind? handler with
  | none => rfl
  | some block =>
    cases block with
    | handler kind owner filterBlock catchType =>
      cases p.extent t handler with
      | error cause => rfl
      | ok own =>
        cases kind with
        | filterClause =>
          cases filterBlock with
          | none => rfl
          | some filterBlock =>
            simp only [layout_ok, ok_bind]
            cases hfilter : p.extent t filterBlock with
            | error cause => rfl
            | ok filter =>
              have hbound : filter.1 + filter.2 < UInt32.size := by
                obtain ⟨first, last, hcovers, hlt, rfl⟩ := Plan.extent_eq_ok_iff.mp hfilter
                have hfirst := hlimit first
                have hlast := hlimit last
                dsimp only
                omega
              simp only [layout_ok, ok_bind]
              rw [ensure_of (by simpa using hbound), ok_bind]
              split
              case isTrue => rfl
              case isFalse => rfl
        | _ => rfl
    | _ => rfl

theorem clausesOf_eq (hlimit : ∀ place, p.starts.getD place 0 < UInt32.size)
    (protection : Plan.Protection) : clausesOf p t protection = layout (p.clausesOf t protection) := by
  rw [clausesOf, Plan.clausesOf, layout_bind, extent_eq hplan wf]
  congr 1
  funext region
  rw [layout_mapM]
  congr 1
  funext handler
  exact clause_eq hplan wf hlimit region handler

omit hplan in
/-- Every block of the body stands in the post-order. -/
theorem protections_eq : protections t = layout (Plan.protections t) := by
  have hstep : ∀ region ∈ t.preOrder Tree.root, protection? t (t.postOrder Tree.root) region =
      layout (Plan.protection? t (t.postOrder Tree.root) region) := by
    intro region hregion
    rw [protection?, Plan.protection?]
    cases t.blockKind? region with
    | none => rfl
    | some kind =>
      cases kind with
      | tryBlock handlers =>
        cases handlers with
        | nil => rfl
        | cons first others =>
          obtain ⟨own, hown⟩ := Option.isSome_iff_exists.mp
            (List.isSome_idxOf?.mpr ((wf.postOrder_perm Tree.root).mem_iff.mpr hregion))
          simp only [hown, expect_some, ok_bind, Option.getD_some, layout_bind]
          rfl
      | _ => rfl
  rw [protections, Plan.protections, layout_bind, layout_mapM, mapM_congr hstep]
  rfl

theorem clauses_eq (hlimit : ∀ place, p.starts.getD place 0 < UInt32.size) :
    clauses p t = layout (p.clauses t) := by
  rw [clauses, Plan.clauses, layout_bind, protections_eq wf]
  congr 1
  funext found
  rw [layout_bind, layout_mapM, mapM_congr fun protection _ =>
    clausesOf_eq hplan wf hlimit protection]
  rfl

end Clauses

/-! ## The body -/

/-- None of the checks fails. -/
theorem toBody_eq {t : Tree} (h : t.Reachable) (hsize : t.longSize < 2 ^ 31) :
    toBody t = telling t.toBody := by
  have wf := h.wellFormed
  rw [toBody, places_eq wf, ok_bind]
  cases hslots : t.slots t.places with
  | error cause =>
    have hplan : Plan.ofTree t = .error cause := bind_eq_error.mpr (Or.inl hslots)
    rw [Tree.toBody, hplan]
    rfl
  | ok slots =>
    obtain ⟨p, hplan, hnear⟩ := Tree.exists_plan hslots hsize
    obtain ⟨code, hcode⟩ := Tree.exists_instructions h.operandsSuit hsize hplan hnear
    obtain ⟨hplaces, hown, pieces, hpieces, hrelaxed, -⟩ := Plan.ofTree_eq_ok_iff.mp hplan
    obtain rfl := Except.ok.inj (hslots.symm.trans hown)
    obtain ⟨-, hlength, hmade⟩ := Tree.slots_spec hslots
    rw [← hlength] at hmade
    have hcheckedPieces : p.slots.mapM piece = .ok pieces :=
      mapM_eq_ok.mpr (forall₂_imp_of_mem (mapM_eq_ok.mp hpieces) fun slot hslot _ _ hpiece =>
        piece_eq (hmade slot hslot) (h.operandsSuit.fits hslots hslot) hpiece)
    have hlimit : ∀ forms : Layout.Forms, forms.length = pieces.length →
        (Layout.sizes pieces forms).sum < UInt32.size := by
      intro forms _
      obtain ⟨_, hpieces', hle⟩ := Tree.exists_pieces hslots (by simp only [UInt32.size]; omega)
      obtain rfl := Except.ok.inj (hpieces.symm.trans hpieces')
      have hsum := Tree.sum_sizes_le_longSize (hle forms)
      simp only [UInt32.size]
      omega
    have hplanned : (⟨t.places, p.slots, p.relaxed⟩ : Plan) = p := by rw [← hplaces]
    have hbody : t.toBody = p.body t := by rw [Tree.toBody, hplan]; rfl
    rw [layout_ok, ok_bind, hcheckedPieces, ok_bind,
      relax_eq (Tree.inRange_pieces hmade hpieces) hlimit, ok_bind, ← hrelaxed, hplanned,
      instructions_eq h.operandsSuit hplan hpieces hcode, ok_bind, clauses_eq hplan wf fun place =>
        Nat.lt_trans (hnear place) (by simp [UInt32.size]), hbody, Plan.body, hcode, ok_bind]
    cases p.clauses t with
    | error cause => rfl
    | ok table =>
      have hend := size_starts_of_plan hplan
      have hcount : code.length = p.slots.length := by
        rw [mapM_length hcode, List.length_zipIdx, List.length_zip, hrelaxed,
          Layout.length_relax_forms, mapM_length hpieces, Nat.min_self]
      rw [Plan.starts] at hend
      rw [layout_ok, ok_bind, fetch_eq (by omega)]
      rfl

end Checked

end MethodIL
