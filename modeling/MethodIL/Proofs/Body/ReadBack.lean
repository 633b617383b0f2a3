import Mathlib
import MethodIL.Body.Image
import MethodIL.Proofs.Instruction.Decoding
set_option autoImplicit false

/-!
# Reading back the image of a body

Writing chooses among the forms of headers, sections and rows by sizes and values, and reading finds
out from the bytes which form it was.  Whatever the choice, the body is read back, but for what the
image has no place for: the locals, the stack size of a tiny body, the flags of clauses that mean
nothing, and the fields of clauses that their kinds do not have.
-/

namespace MethodIL

open Outcome

variable {before after : List UInt8}

/-! ## What comes back -/

/-- A clause as it is read back: with the flags that mean something, and with the field that its kind
has. -/
def Clause.readBack (c : Clause) : Clause :=
  { c with
    flags := c.flags &&& knownFlags
    filterOffset := if c.kind = .filterClause then some (c.filterOffset.getD 0) else none
    catchType := if c.kind = .catchClause then some (c.catchType.getD .null) else none }

namespace Body

/-- A body as it is read back: without locals, and with the stack size that its header stands for. -/
def readBack (b : Body) : Body :=
  { b with
    header := { b.header with
      maxStack := if b.isTiny then tinyMaxStack else b.header.maxStack
      locals := [] }
    clauses := b.clauses.map Clause.readBack }

end Body

/-! ## Clauses -/

/-- The flags that mean nothing do not matter for the kind. -/
theorem HandlerKind.ofFlags_known (flags : UInt16) :
    ofFlags (flags &&& Clause.knownFlags) = ofFlags flags := by
  have hknown : ∀ bit : UInt16, Clause.knownFlags &&& bit = bit →
      flags &&& Clause.knownFlags &&& bit = flags &&& bit := fun bit hbit => by
    rw [UInt16.and_assoc, hbit]
  simp only [ofFlags, hknown 1 rfl, hknown 2 rfl, hknown 4 rfl]

namespace Clause

/-- The encoded fields of a clause make up what is read back. -/
theorem ofFields_eq_readBack (c : Clause) :
    ofFields (c.flags &&& knownFlags) c.tryOffset c.tryLength c.handlerOffset c.handlerLength
      c.classOrFilter = c.readBack := by
  have hkind : HandlerKind.ofFlags (c.flags &&& knownFlags) = c.kind :=
    HandlerKind.ofFlags_known c.flags
  simp only [ofFields, readBack, hkind, classOrFilter]
  cases c.kind with
  | catchClause => cases c.catchType <;> rfl
  | filterClause => rfl
  | finallyClause => rfl
  | faultClause => rfl

open Reader

theorem reads_fatRow (c : Clause) : readFatRow.Reads before c.fatRow after c.readBack := by
  have hflags : c.flags.toUInt32.toUInt16 = c.flags := UInt16.toUInt16_toUInt32 c.flags
  rw [← ofFields_eq_readBack, fatRow]
  simp only [List.append_assoc]
  refine (Reads.read c.flags.toUInt32).bind ((Reads.read c.tryOffset).bind
    ((Reads.read c.tryLength).bind ((Reads.read c.handlerOffset).bind
      ((Reads.read c.handlerLength).bind ?_))))
  rw [hflags]
  exact Reads.read_map c.classOrFilter _

theorem toUInt32_toUInt16 {value : UInt32} (h : value ≤ 0xFFFF) : value.toUInt16.toUInt32 = value := by
  rw [← UInt32.toNat_inj, UInt16.toNat_toUInt32, UInt32.toNat_toUInt16]
  exact Nat.mod_eq_of_lt (Nat.lt_succ_of_le (UInt32.le_iff_toNat_le.mp h))

theorem toUInt32_toUInt8 {value : UInt32} (h : value ≤ 0xFF) : value.toUInt8.toUInt32 = value := by
  rw [← UInt32.toNat_inj, UInt8.toNat_toUInt32, UInt32.toNat_toUInt8]
  exact Nat.mod_eq_of_lt (Nat.lt_succ_of_le (UInt32.le_iff_toNat_le.mp h))

/-- A short row holds all of a clause that fits it. -/
theorem reads_smallRow {c : Clause} (h : c.fitsSmall = true) :
    readSmallRow.Reads before c.smallRow after c.readBack := by
  simp only [fitsSmall, Bool.and_eq_true, decide_eq_true_eq] at h
  obtain ⟨⟨⟨htryOffset, htryLength⟩, hhandlerOffset⟩, hhandlerLength⟩ := h
  rw [← ofFields_eq_readBack, smallRow]
  simp only [List.append_assoc]
  refine (Reads.read c.flags).bind ((Reads.read c.tryOffset.toUInt16).bind
    ((Reads.read c.tryLength.toUInt8).bind ((Reads.read c.handlerOffset.toUInt16).bind
      ((Reads.read c.handlerLength.toUInt8).bind ?_))))
  rw [toUInt32_toUInt16 htryOffset, toUInt32_toUInt8 htryLength, toUInt32_toUInt16 hhandlerOffset,
    toUInt32_toUInt8 hhandlerLength]
  exact Reads.read_map c.classOrFilter _

/-- Rows one behind the other are read back if each of them is. -/
theorem reads_rows {row : Reader Clause} {bytes : Clause → List UInt8} {clauses : List Clause}
    (h : ∀ c ∈ clauses, ∀ before after, row.Reads before (bytes c) after c.readBack) :
    (readRows row clauses.length).Reads before (clauses.flatMap bytes) after
      (clauses.map readBack) := by
  induction clauses generalizing before with
  | nil => exact Reads.pure []
  | cons c clauses ih =>
    obtain ⟨hrow, hrows⟩ := List.forall_mem_cons.mp h
    rw [List.flatMap_cons]
    exact (hrow _ _).bind ((ih hrows).bind_nil (Reads.pure (c.readBack :: clauses.map readBack)))

theorem length_smallRows (clauses : List Clause) :
    (clauses.flatMap smallRow).length = clauses.length * smallRowSize := by
  have hrow : ∀ c : Clause, c.smallRow.length = smallRowSize := fun c => by
    simp only [smallRow, List.length_append, FixedWidth.length_toBytes]
    rfl
  simp only [List.length_flatMap, hrow, List.map_const', List.sum_replicate, smul_eq_mul]

theorem length_fatRows (clauses : List Clause) :
    (clauses.flatMap fatRow).length = clauses.length * fatRowSize := by
  have hrow : ∀ c : Clause, c.fatRow.length = fatRowSize := fun c => by
    simp only [fatRow, List.length_append, FixedWidth.length_toBytes]
    rfl
  simp only [List.length_flatMap, hrow, List.map_const', List.sum_replicate, smul_eq_mul]

end Clause

/-! ## Sections -/

namespace Body

open Reader

/-- The header of a short section is read back. -/
theorem reads_sectionHeader_small {size : Nat} (h : size ≤ 0xFF) :
    readSectionHeader.Reads before ([0x01] ++ LittleEndian.ofNat 1 size ++ LittleEndian.ofNat 2 0) after
      ⟨true, false, false, size⟩ := by
  have hsize : (UInt8.ofNat size).toNat = size := UInt8.toNat_ofNat_of_lt' (Nat.lt_succ_of_le h)
  rw [List.append_assoc]
  refine (Reads.byte 0x01).bind ?_
  dsimp only
  rw [if_neg (by decide)]
  refine (Reads.byte (UInt8.ofNat size)).bind ?_
  refine (Reads.advance [0, 0]).bind_nil ?_
  rw [hsize, pure_bind]
  exact Reads.pure _

/-- The header of a fat section is read back; three bytes tell its size. -/
theorem reads_sectionHeader_fat {size : Nat} (h : size ≤ 0xFFFFFF) :
    readSectionHeader.Reads before ([0x41] ++ LittleEndian.ofNat 3 size) after
      ⟨true, true, false, size⟩ := by
  have hlow : (UInt16.ofNat size).toNat = size % 0x10000 := UInt16.toNat_ofNat'
  have hhigh : (UInt8.ofNat (size / 0x10000)).toNat = size / 0x10000 :=
    UInt8.toNat_ofNat_of_lt' (by simp only [UInt8.size]; omega)
  have hbytes : LittleEndian.ofNat 3 size =
      FixedWidth.toBytes (UInt16.ofNat size) ++ [UInt8.ofNat (size / 0x10000)] := by
    have hlowest : UInt8.ofNat (size % 0x10000) = UInt8.ofNat size := by
      rw [← UInt8.toNat_inj, UInt8.toNat_ofNat', UInt8.toNat_ofNat']
      omega
    have hmiddle : UInt8.ofNat (size % 0x10000 / 256) = UInt8.ofNat (size / 256) := by
      rw [← UInt8.toNat_inj, UInt8.toNat_ofNat', UInt8.toNat_ofNat']
      omega
    show [_, _, UInt8.ofNat (size / 256 / 256)] =
      [UInt8.ofNat (UInt16.ofNat size).toNat, UInt8.ofNat ((UInt16.ofNat size).toNat / 256), _]
    rw [hlow, hlowest, hmiddle, Nat.div_div_eq_div_mul]
  have hsum : size % 0x10000 + 0x10000 * (size / 0x10000) = size := Nat.mod_add_div ..
  rw [hbytes]
  refine (Reads.byte 0x41).bind ?_
  dsimp only
  rw [if_pos (by decide)]
  refine (Reads.read (UInt16.ofNat size)).bind ((Reads.byte (UInt8.ofNat (size / 0x10000))).bind_nil ?_)
  rw [hlow, hhigh, hsum, pure_bind]
  exact Reads.pure _

/-- The rows that a section of each form holds. -/
def readTable (isFat : Bool) (room : Nat) : Reader (List Clause) :=
  if isFat then Clause.readRows Clause.readFatRow (room / Clause.fatRowSize)
  else Clause.readRows Clause.readSmallRow (room / Clause.smallRowSize)

/-- A section is read back, whichever its form. -/
theorem reads_section {header rows : List UInt8} {isFat : Bool} {clauses : List Clause}
    (hheader : ∀ before after, readSectionHeader.Reads before header after
      ⟨true, isFat, false, header.length + rows.length⟩)
    (hsize : header.length = Clause.sectionHeaderSize)
    (hrows : ∀ before after, (readTable isFat rows.length).Reads before rows after clauses) :
    readSection.Reads before (padding before.length ++ (header ++ rows)) after (clauses, false) := by
  have hpadding : (padding before.length).length = (4 - before.length % 4) % 4 :=
    List.length_replicate ..
  have hroom : header.length + rows.length - Clause.sectionHeaderSize = rows.length := by omega
  refine (Reads.align (by decide) hpadding).bind (Reads.get ?_)
  rw [Cursor.position_between]
  refine (hheader _ _).bind ?_
  dsimp only
  rw [hroom, if_neg (by omega)]
  refine Reads.get ?_
  rw [Cursor.data_between]
  have hinside : ¬ (before ++ padding before.length ++ header ++ (rows ++ after)).length <
      (before ++ padding before.length).length + (header.length + rows.length) := by
    simp only [List.length_append]
    omega
  have hend : (do
      seek ((before ++ padding before.length).length + (header.length + rows.length))
      pure (clauses, false) : Reader (List Clause × Bool)).Reads
        (before ++ padding before.length ++ header ++ rows) [] after (clauses, false) := by
    refine (Reads.seek ?_).bind_nil (Reads.pure _)
    simp only [List.length_append, List.length_nil]
    omega
  rw [if_neg hinside, if_neg (by decide)]
  cases isFat with
  | true => exact (hrows _ _).bind_nil hend
  | false => exact (hrows _ _).bind_nil hend

/-- The exception table is read back. -/
theorem reads_table {clauses : List Clause} {table : List UInt8} (h : sectionBytes clauses = .ok table) :
    readSection.Reads before (padding before.length ++ table) after
      (clauses.map Clause.readBack, false) := by
  unfold sectionBytes at h
  dsimp only at h
  split at h
  case isTrue hsmall =>
    rw [Bool.and_eq_true, decide_eq_true_eq, List.all_eq_true] at hsmall
    rw [← Except.ok.inj h]
    have hrows : ∀ before after, (readTable false (clauses.flatMap Clause.smallRow).length).Reads before
        (clauses.flatMap Clause.smallRow) after (clauses.map Clause.readBack) := by
      intro before after
      rw [readTable, if_neg (by decide), Clause.length_smallRows, Nat.mul_div_cancel _ (by decide)]
      exact Clause.reads_rows fun c hc _ _ => Clause.reads_smallRow (hsmall.2 c hc)
    refine reads_section (fun before after => ?_) rfl hrows
    rw [Clause.length_smallRows]
    exact reads_sectionHeader_small hsmall.1
  case isFalse =>
    split at h
    case isTrue => exact absurd h (by simp)
    case isFalse hfat =>
      rw [← Except.ok.inj h]
      have hrows : ∀ before after, (readTable true (clauses.flatMap Clause.fatRow).length).Reads before
          (clauses.flatMap Clause.fatRow) after (clauses.map Clause.readBack) := by
        intro before after
        rw [readTable, if_pos rfl, Clause.length_fatRows, Nat.mul_div_cancel _ (by decide)]
        exact Clause.reads_rows fun c _ _ _ => Clause.reads_fatRow c
      refine reads_section (fun before after => ?_) rfl hrows
      rw [Clause.length_fatRows]
      exact reads_sectionHeader_fat (Nat.not_lt.mp hfat)

/-- A table can be written as long as three bytes tell the size of its fat form. -/
theorem exists_sectionBytes_iff {clauses : List Clause} :
    (∃ table, sectionBytes clauses = .ok table) ↔
      Clause.sectionHeaderSize + clauses.length * Clause.fatRowSize ≤ 0xFFFFFF := by
  unfold sectionBytes
  dsimp only
  split
  case isTrue hsmall =>
    rw [Bool.and_eq_true, decide_eq_true_eq] at hsmall
    have hsize := hsmall.1
    simp only [Clause.sectionHeaderSize, Clause.smallRowSize, Clause.fatRowSize] at hsize ⊢
    exact iff_of_true ⟨_, rfl⟩ (by omega)
  case isFalse =>
    split
    case isTrue hlarge => exact iff_of_false (by simp) (Nat.not_le.mpr hlarge)
    case isFalse hfits => exact iff_of_true ⟨_, rfl⟩ (Nat.not_lt.mp hfits)

/-! ## Bodies -/

/-- The forms that the image of a body takes. -/
inductive HasImage (b : Body) : List UInt8 → Prop
  | tiny {code : List UInt8} (hcode : Instruction.encodeAll b.instructions = .ok code)
      (htiny : b.isTiny = true) : HasImage b (UInt8.ofNat (4 * code.length + 2) :: code)
  | fat {code : List UInt8} (hcode : Instruction.encodeAll b.instructions = .ok code)
      (htiny : b.isTiny = false) (hsize : code.length < UInt32.size) (hclauses : b.clauses = []) :
      HasImage b (b.fatHeader (.ofNat code.length) ++ code)
  | guarded {code table : List UInt8} (hcode : Instruction.encodeAll b.instructions = .ok code)
      (htiny : b.isTiny = false) (hsize : code.length < UInt32.size) (hclauses : b.clauses ≠ [])
      (htable : sectionBytes b.clauses = .ok table) :
      HasImage b (b.fatHeader (.ofNat code.length) ++ code ++
        padding (b.fatHeader (.ofNat code.length) ++ code).length ++ table)

theorem toBytes_eq_ok_iff {b : Body} {bytes : List UInt8} :
    b.toBytes = .ok bytes ↔ b.HasImage bytes := by
  constructor
  · intro h
    obtain ⟨code, hcode, h⟩ := bind_eq_ok.mp h
    split at h
    case isTrue htiny =>
      rw [← pure_eq_ok.mp h]
      exact .tiny hcode htiny
    case isFalse hfat =>
      obtain ⟨hsize, h⟩ := guard_eq_ok.mp h
      rw [Bool.not_eq_true] at hfat
      rw [Nat.not_le] at hsize
      dsimp only at h
      split at h
      case isTrue hclauses =>
        rw [← pure_eq_ok.mp h]
        exact .fat hcode hfat hsize (List.isEmpty_iff.mp hclauses)
      case isFalse hclauses =>
        obtain ⟨table, htable, h⟩ := bind_eq_ok.mp h
        rw [← pure_eq_ok.mp h]
        exact .guarded hcode hfat hsize (fun hnil => hclauses (List.isEmpty_iff.mpr hnil)) htable
  · intro h
    refine bind_eq_ok.mpr ?_
    cases h with
    | tiny hcode htiny => exact ⟨_, hcode, by rw [if_pos htiny]; rfl⟩
    | fat hcode hfat hsize hclauses =>
      refine ⟨_, hcode, ?_⟩
      rw [if_neg (by rw [hfat]; decide), if_neg (Nat.not_le.mpr hsize)]
      dsimp only
      rw [if_pos (List.isEmpty_iff.mpr hclauses)]
      rfl
    | guarded hcode hfat hsize hclauses htable =>
      refine ⟨_, hcode, ?_⟩
      rw [if_neg (by rw [hfat]; decide), if_neg (Nat.not_le.mpr hsize)]
      dsimp only
      rw [if_neg (fun hempty => hclauses (List.isEmpty_iff.mp hempty)), htable]
      rfl

theorem isTiny_iff {b : Body} : b.isTiny = true ↔ b.codeSize ≤ tinyCodeLimit ∧
    b.header.maxStack ≤ tinyMaxStack ∧ b.header.localsToken = .null ∧ b.clauses = [] ∧
      b.header.initLocals = false := by
  have hnull : ∀ token : Token, token.isNull = true ↔ token = .null := by
    intro token
    rw [Token.isNull, beq_iff_eq, Token.null, Token.mk.injEq]
  simp only [isTiny, Bool.and_eq_true, decide_eq_true_eq, hnull, List.isEmpty_iff,
    Bool.not_eq_true', and_assoc]

/-- The header of a tiny body tells its form and the size of its code. -/
theorem tinyHeader_fields {size : Nat} (h : size ≤ tinyCodeLimit) :
    (UInt8.ofNat (4 * size + 2) &&& 3 == 2) = true ∧
      (UInt8.ofNat (4 * size + 2) >>> 2).toNat = size := by
  have hall : ∀ size < 64, (UInt8.ofNat (4 * size + 2) &&& 3 == 2) = true ∧
      (UInt8.ofNat (4 * size + 2) >>> 2).toNat = size := by decide
  exact hall size (Nat.lt_succ_of_le h)

theorem reads_tiny {b : Body} {code : List UInt8}
    (hcode : Instruction.encodeAll b.instructions = .ok code) (htiny : b.isTiny = true) :
    read.Reads [] (UInt8.ofNat (4 * code.length + 2) :: code) after b.readBack := by
  obtain ⟨hsize, -, htoken, hclauses, hlocals⟩ := isTiny_iff.mp htiny
  rw [codeSize, ← Instruction.length_of_encodeAll hcode] at hsize
  obtain ⟨hform, hlength⟩ := tinyHeader_fields hsize
  have hbody : b.readBack = ⟨⟨tinyMaxStack, false, .null, []⟩, b.instructions, []⟩ := by
    simp only [readBack, if_pos htiny, htoken, hclauses, hlocals, List.map_nil]
  unfold read
  refine Reads.get ?_
  rw [if_neg (by simp)]
  refine (Reads.peek _).nil_bind ?_
  rw [if_pos hform, hbody]
  rw [← List.singleton_append]
  refine (Reads.advance [_]).bind ?_
  rw [hlength]
  exact (Reads.take code).bind_nil
    ((Reads.lift (Instruction.decodeAll_of_encodeAll hcode)).nil_bind (Reads.pure _))

/-- The flags of a fat header: three words of header, and what the body has. -/
def headerFlags (b : Body) : UInt16 :=
  0x3003 ||| (if b.clauses.isEmpty then 0 else Header.moreSections)
    ||| (if b.header.initLocals then Header.initLocalsFlag else 0)

theorem fatHeader_eq (b : Body) (size : UInt32) :
    b.fatHeader size = FixedWidth.toBytes b.headerFlags ++ (FixedWidth.toBytes b.header.maxStack ++
      (FixedWidth.toBytes size ++ FixedWidth.toBytes b.header.localsToken.value)) := by
  rw [fatHeader]
  simp only [List.append_assoc]
  rfl

/-- The fields of the flags of a fat header are apart. -/
theorem headerFlags_fields (b : Body) :
    (b.headerFlags >>> 12).toNat * 4 = Header.fatSize ∧
      (b.headerFlags &&& Header.moreSections != 0) = !b.clauses.isEmpty ∧
      (b.headerFlags &&& Header.initLocalsFlag != 0) = b.header.initLocals ∧
      ∃ first second, FixedWidth.toBytes b.headerFlags = [first, second] ∧
        (first &&& 3 == 2) = false ∧ (first &&& 3 == 3) = true := by
  unfold headerFlags
  cases b.clauses.isEmpty <;> cases b.header.initLocals <;>
    exact ⟨rfl, rfl, rfl, _, _, rfl, rfl, rfl⟩

/-- Behind a fat header the body is read back if its sections are. -/
theorem reads_readFat {b : Body} {code sections : List UInt8}
    (hcode : Instruction.encodeAll b.instructions = .ok code) (hfat : b.isTiny = false)
    (hsize : code.length < UInt32.size)
    (hsections : ∀ limit, 0 < limit →
      (if !b.clauses.isEmpty then readSections limit else pure []).Reads
        (b.fatHeader (.ofNat code.length) ++ code) sections after (b.clauses.map Clause.readBack)) :
    readFat.Reads [] (b.fatHeader (.ofNat code.length) ++ code ++ sections) after b.readBack := by
  obtain ⟨hheader, hmore, hlocals, -⟩ := b.headerFlags_fields
  have hword : (UInt32.ofNat code.length).toNat = code.length := UInt32.toNat_ofNat_of_lt' hsize
  have hbody : b.readBack = ⟨⟨b.header.maxStack, b.header.initLocals, b.header.localsToken, []⟩,
      b.instructions, b.clauses.map Clause.readBack⟩ := by
    simp only [readBack, hfat, Bool.false_eq_true, if_false]
  rw [fatHeader_eq, hbody]
  simp only [fatHeader_eq, List.append_assoc] at hsections ⊢
  refine (Reads.read b.headerFlags).bind ?_
  dsimp only
  rw [hheader, if_neg (by decide)]
  refine (Reads.read b.header.maxStack).bind ((Reads.read (UInt32.ofNat code.length)).bind
    ((Reads.read b.header.localsToken.value).bind (Reads.nil_bind (Reads.seek ?_) ?_)))
  · simp only [List.length_append, FixedWidth.length_toBytes]
    rfl
  rw [hword]
  refine (Reads.take code).bind
    ((Reads.lift (Instruction.decodeAll_of_encodeAll hcode)).nil_bind ?_)
  simp only [hmore, hlocals, List.nil_append, List.append_assoc]
  cases hempty : b.clauses.isEmpty with
  | true =>
    rw [hempty] at hsections
    exact (hsections 1 Nat.one_pos).bind_nil (Reads.pure _)
  | false =>
    rw [hempty] at hsections
    refine Reads.get ((hsections _ ?_).bind_nil (Reads.pure _))
    rw [Cursor.data_between, List.append_assoc, List.length_append, FixedWidth.length_toBytes]
    exact Nat.add_pos_left Nat.two_pos _

/-- A body with a fat header is read back if its sections are. -/
theorem reads_fat {b : Body} {code sections : List UInt8}
    (hcode : Instruction.encodeAll b.instructions = .ok code) (hfat : b.isTiny = false)
    (hsize : code.length < UInt32.size)
    (hsections : ∀ limit, 0 < limit →
      (if !b.clauses.isEmpty then readSections limit else pure []).Reads
        (b.fatHeader (.ofNat code.length) ++ code) sections after (b.clauses.map Clause.readBack)) :
    read.Reads [] (b.fatHeader (.ofNat code.length) ++ code ++ sections) after b.readBack := by
  have hread := reads_readFat hcode hfat hsize hsections
  obtain ⟨-, -, -, first, second, hbytes, htiny, hform⟩ := b.headerFlags_fields
  rw [fatHeader_eq, hbytes] at hread ⊢
  unfold read
  refine Reads.get ?_
  rw [if_neg (by simp)]
  refine (Reads.peek _).nil_bind ?_
  rw [htiny, if_neg (by decide), hform, if_pos rfl]
  exact hread

/-- Every image of a body is read back. -/
theorem HasImage.reads {b : Body} {bytes : List UInt8} (h : b.HasImage bytes) :
    read.Reads [] bytes after b.readBack := by
  cases h with
  | tiny hcode htiny => exact reads_tiny hcode htiny
  | fat hcode hfat hsize hclauses =>
    rw [← List.append_nil (b.fatHeader _ ++ _)]
    refine reads_fat hcode hfat hsize fun limit _ => ?_
    rw [hclauses]
    exact Reads.pure []
  | guarded hcode hfat hsize hclauses htable =>
    rw [List.append_assoc]
    refine reads_fat hcode hfat hsize fun limit hlimit => ?_
    obtain ⟨limit, rfl⟩ := Nat.exists_eq_succ_of_ne_zero (Nat.ne_of_gt hlimit)
    rw [if_pos (by simpa using hclauses)]
    exact (reads_table htable).bind_nil (Reads.pure _)

/-- A body can be written if its code can, and its clauses fit one section. -/
theorem exists_toBytes_iff {b : Body} (hsize : b.codeSize < UInt32.size) :
    (∃ bytes, b.toBytes = .ok bytes) ↔
      (∃ code, Instruction.encodeAll b.instructions = .ok code) ∧
        Clause.sectionHeaderSize + b.clauses.length * Clause.fatRowSize ≤ 0xFFFFFF := by
  have hnone : b.clauses = [] →
      Clause.sectionHeaderSize + b.clauses.length * Clause.fatRowSize ≤ 0xFFFFFF := by
    intro hclauses
    rw [hclauses]
    decide
  constructor
  · rintro ⟨bytes, hbytes⟩
    cases toBytes_eq_ok_iff.mp hbytes with
    | tiny hcode htiny => exact ⟨⟨_, hcode⟩, hnone (isTiny_iff.mp htiny).2.2.2.1⟩
    | fat hcode _ _ hclauses => exact ⟨⟨_, hcode⟩, hnone hclauses⟩
    | guarded hcode _ _ _ htable => exact ⟨⟨_, hcode⟩, exists_sectionBytes_iff.mp ⟨_, htable⟩⟩
  · rintro ⟨⟨code, hcode⟩, hfits⟩
    rw [codeSize, ← Instruction.length_of_encodeAll hcode] at hsize
    obtain ⟨table, htable⟩ := exists_sectionBytes_iff.mpr hfits
    by_cases hclauses : b.clauses = []
    · cases htiny : b.isTiny with
      | true => exact ⟨_, toBytes_eq_ok_iff.mpr (.tiny hcode htiny)⟩
      | false => exact ⟨_, toBytes_eq_ok_iff.mpr (.fat hcode htiny hsize hclauses)⟩
    · have hfat : b.isTiny = false := by
        rw [← Bool.not_eq_true, isTiny_iff]
        exact fun htiny => hclauses htiny.2.2.2.1
      exact ⟨_, toBytes_eq_ok_iff.mpr (.guarded hcode hfat hsize hclauses htable)⟩

/-- What is written as a body is read back as the body, but for what its image has no place for.  With
less than four gigabytes of code, a body cannot be written exactly if its code cannot, or if its clauses
need a section whose size three bytes cannot tell. -/
theorem toBytes_reads_back (b : Body) :
    (∀ bytes, b.toBytes = .ok bytes → ofBytes bytes = .ok b.readBack) ∧
      (b.codeSize < UInt32.size → ((∃ fault, b.toBytes = .error fault) ↔
        (∃ fault, Instruction.encodeAll b.instructions = .error fault) ∨
          0xFFFFFF < Clause.sectionHeaderSize + b.clauses.length * Clause.fatRowSize)) := by
  refine ⟨fun bytes hbytes => ?_, fun hsize => ?_⟩
  · have hread : read.Reads [] bytes [] b.readBack := (toBytes_eq_ok_iff.mp hbytes).reads
    rw [← runOn_of_reads hread, List.append_nil]
    rfl
  · rw [exists_error_iff, exists_error_iff, exists_toBytes_iff hsize, not_and_or, Nat.not_le]

/-- Two clauses with more flags than mean anything: a catch without its type but with the start of a
filter, and a filter without its start but with a type. -/
def sparseClauses : Body where
  header := ⟨3, true, .null, []⟩
  instructions := Instruction.assemble [(0x00, .none), (0x2A, .none)]
  clauses := [⟨0xFFF8, 0, 1, 1, 1, some 1, none⟩, ⟨0x0109, 0, 1, 1, 1, none, some ⟨5⟩⟩]

/-- `sparseClauses` is written and is read back with what its clauses mean. -/
theorem sparseClauses_read_back :
    sparseClauses.codeSize < UInt32.size ∧ (¬ ∃ fault, sparseClauses.toBytes = .error fault) ∧
      (∃ bytes, sparseClauses.toBytes = .ok bytes ∧ ofBytes bytes = .ok sparseClauses.readBack) ∧
      sparseClauses.readBack.clauses =
        [⟨0, 0, 1, 1, 1, none, some .null⟩, ⟨1, 0, 1, 1, 1, some 0, none⟩] := by
  have hrun : sparseClauses.codeSize < UInt32.size ∧
      (Instruction.encodeAll sparseClauses.instructions).toOption.isSome ∧
      sparseClauses.readBack.clauses =
        [⟨0, 0, 1, 1, 1, none, some .null⟩, ⟨1, 0, 1, 1, 1, some 0, none⟩] := by
    decide +kernel
  obtain ⟨hsize, hcode, hclauses⟩ := hrun
  obtain ⟨code, hcode⟩ := Option.isSome_iff_exists.mp hcode
  rw [toOption_eq_some_iff] at hcode
  obtain ⟨hreads, hfails⟩ := toBytes_reads_back sparseClauses
  have hwritten : ¬ ∃ fault, sparseClauses.toBytes = .error fault := by
    rw [hfails hsize, hcode]
    simp [sparseClauses, Clause.sectionHeaderSize, Clause.fatRowSize]
  obtain ⟨bytes, hbytes⟩ := not_not.mp (exists_error_iff.not.mp hwritten)
  exact ⟨hsize, hwritten, ⟨bytes, hbytes, hreads bytes hbytes⟩, hclauses⟩

end Body

end MethodIL
