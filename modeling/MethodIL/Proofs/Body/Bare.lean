import Mathlib
import MethodIL.Proofs.Body.Sections
import MethodIL.Proofs.Bytes.Bare
import MethodIL.Proofs.Instruction.Streams
set_option autoImplicit false

/-!
# Bodies read from bare positions

A body is read again with every slice, sum and difference of offsets checked.  No check fails: with them
each reader does what it does without.
-/

namespace MethodIL

open Reader (fault_ne_answer)

namespace BareReader

variable (word : Nat)

/-! ## Instructions -/

/-- Read `count` branch offsets. -/
def offsets : Nat → BareReader (List Int32)
  | 0 => return []
  | count + 1 => do
    let offset ← read word Int32
    let others ← offsets count
    return offset :: others

/-- Read an operand of the given type. -/
def operand : OperandType → BareReader (Operand Int32)
  | .none => return .none
  | .int8 => return .immediate (.int8 (← read word Int8))
  | .uint8 => return .immediate (.uint8 (← read word UInt8))
  | .uint16 => return .immediate (.uint16 (← read word UInt16))
  | .int32 => return .immediate (.int32 (← read word Int32))
  | .int64 => return .immediate (.int64 (← read word Int64))
  | .float32 => return .immediate (.float32 (← read word UInt32))
  | .float64 => return .immediate (.float64 (← read word UInt64))
  | .token => return .token ⟨← read word UInt32⟩
  | .shortBranch => return .branch (← read word Int8).toInt32
  | .branch => return .branch (← read word Int32)
  | .switch => do
    let count ← read word UInt32
    if (← get).remaining / 4 < count.toNat then throw .outOfBounds
    return .switch (← offsets word count.toNat)

/-- Read an opcode of one or two bytes. -/
def opcode : BareReader Opcode := do
  let first ← read word UInt8
  if first == 0xFE then Opcode.ofBytes 0xFE (← read word UInt8)
  else Opcode.ofBytes 0 first

/-- Read one instruction. -/
def instruction : BareReader Instruction := do
  let start := (← get).position
  let opcode ← opcode word
  let operand ← operand word opcode.operandType
  let size ← compute (difference (← get).position start)
  if UInt32.size ≤ size then throw (.malformed (.oversizedInstruction start))
  return { opcode, operand, size := .ofNat size }

/-- Read instructions to the end of the bytes, but no more than `limit`. -/
def instructionsUpTo : Nat → BareReader (List Instruction)
  | 0 => return []
  | limit + 1 => do
    if (← get).hasMore then
      let i ← instruction word
      let others ← instructionsUpTo limit
      return i :: others
    else return []

/-- Read a code stream from bytes of its own. -/
def code (data : List UInt8) : BareReader (List Instruction) := fun m =>
  (instructionsUpTo word data.length ⟨data, 0⟩).map fun answer => (answer.1, m)

/-! ## Sections -/

/-- Read a row of a short section. -/
def smallRow : BareReader Clause := do
  let flags ← read word UInt16
  let tryOffset ← read word UInt16
  let tryLength ← read word UInt8
  let handlerOffset ← read word UInt16
  let handlerLength ← read word UInt8
  let classOrFilter ← read word UInt32
  return .ofFields (flags &&& Clause.knownFlags) tryOffset.toUInt32 tryLength.toUInt32
    handlerOffset.toUInt32 handlerLength.toUInt32 classOrFilter

/-- Read a row of a fat section. -/
def fatRow : BareReader Clause := do
  let flags ← read word UInt32
  let tryOffset ← read word UInt32
  let tryLength ← read word UInt32
  let handlerOffset ← read word UInt32
  let handlerLength ← read word UInt32
  let classOrFilter ← read word UInt32
  return .ofFields (flags.toUInt16 &&& Clause.knownFlags) tryOffset tryLength handlerOffset handlerLength
    classOrFilter

/-- Read `count` rows. -/
def rows (row : BareReader Clause) : Nat → BareReader (List Clause)
  | 0 => return []
  | count + 1 => do
    let clause ← row
    let clauses ← rows row count
    return clause :: clauses

/-- Read the header of a section. -/
def sectionHeader : BareReader Body.SectionHeader := do
  let flags ← read word UInt8
  let isFat := flags &&& 0x40 != 0
  let size ←
    if isFat then do
      let low ← read word UInt16
      let high ← read word UInt8
      pure (low.toNat + 0x10000 * high.toNat)
    else do
      let size ← read word UInt8
      advance word 2
      pure size.toNat
  return { isTable := flags &&& 0x01 != 0, isFat, hasMore := flags &&& 0x80 != 0, size }

/-- Read the rows of a section that is an exception table. -/
def clauses (header : Body.SectionHeader) : BareReader (List Clause) :=
  if !header.isTable then pure []
  else do
    let room ← compute (difference header.size Clause.sectionHeaderSize)
    if header.isFat then rows (fatRow word) (room / Clause.fatRowSize)
    else rows (smallRow word) (room / Clause.smallRowSize)

/-- Read one section. -/
def dataSection : BareReader (List Clause × Bool) := do
  align word 4
  let start := (← get).position
  let header ← sectionHeader word
  if header.size < Clause.sectionHeaderSize then
    throw (.malformed (.shortSection start header.size))
  let stop ← compute (sum word start header.size)
  if (← get).data.length < stop then throw .outOfBounds
  let clauses ← clauses word header
  seek stop
  return (clauses, header.hasMore)

/-- Read sections until one says that none follows, but no more than `limit`. -/
def dataSections : Nat → BareReader (List Clause)
  | 0 => return []
  | limit + 1 => do
    let (clauses, more) ← dataSection word
    if more then return clauses ++ (← dataSections limit) else return clauses

/-! ## Bodies -/

/-- Read a body with a tiny header. -/
def tiny (first : UInt8) : BareReader Body := do
  advance word 1
  let bytes ← take word (first >>> 2).toNat
  let instructions ← code word bytes
  let header : Header := { maxStack := Body.tinyMaxStack, initLocals := false, localsToken := .null,
                           locals := [] }
  return { header, instructions, clauses := [] }

/-- Read a body with a fat header. -/
def fat : BareReader Body := do
  let flags ← read word UInt16
  let headerSize := (flags >>> 12).toNat * 4
  if headerSize < Header.fatSize then throw (.malformed (.shortHeader headerSize))
  let maxStack ← read word UInt16
  let codeSize ← read word UInt32
  let localsToken : Token := ⟨← read word UInt32⟩
  seek headerSize
  let bytes ← take word codeSize.toNat
  let instructions ← code word bytes
  let clauses ←
    if flags &&& Header.moreSections != 0 then dataSections word (← get).data.length else pure []
  let header : Header := { maxStack, initLocals := flags &&& Header.initLocalsFlag != 0,
                           localsToken, locals := [] }
  return { header, instructions, clauses }

/-- Read a body. -/
def body : BareReader Body := do
  if (← get).data.isEmpty then throw (.malformed .emptyData)
  let first ← peek
  if first &&& 3 == 2 then tiny word first
  else if first &&& 3 == 3 then fat word
  else throw (.malformed (.unknownHeader first))

/-! ## Nothing breaks off -/

variable {word : Nat}

theorem safe_offsets (count : Nat) : Safe word (offsets word count) (Instruction.readOffsets count) := by
  induction count with
  | zero => exact .pure []
  | succ count ih => exact Safe.read.bind fun _ => ih.bind fun _ => .pure _

theorem safe_operand (type : OperandType) :
    Safe word (operand word type) (Instruction.readOperand type) := by
  cases type with
  | none => exact .pure _
  | switch =>
    refine Safe.read.bind fun count => .get fun c => ?_
    rw [Cursor.remaining_mark]
    exact .guard ((safe_offsets _).bind fun _ => .pure _)
  | _ => exact Safe.read.bind fun _ => .pure _

theorem safe_opcode : Safe word (opcode word) Instruction.readOpcode :=
  Safe.read.bind fun _ => .ite (Safe.read.bind fun _ => .lift _) (.lift _)

theorem safe_instruction : Safe word (instruction word) Instruction.decode where
  moves := Instruction.moves_decode.sameData
  agrees c hfits := by
    refine .get ((safe_opcode.agrees c hfits).bind fun op d hop => ?_)
    refine ((safe_operand _).agrees d (safe_opcode.fits hop hfits)).bind fun operand e hoperand => .get ?_
    -- the cursor has moved on since the start
    have hopcode := Instruction.moves_opcode.of_run hop
    have hmoved := (Instruction.moves_operand _).of_run hoperand
    exact .compute (Agrees.difference_eq (hopcode.trans hmoved).position) (.guard fun _ => .pure _)

theorem safe_instructionsUpTo (limit : Nat) :
    Safe word (instructionsUpTo word limit) (Instruction.decodeUpTo limit) := by
  induction limit with
  | zero => exact .pure []
  | succ limit ih =>
    refine .get fun c => ?_
    rw [Cursor.hasMore_mark]
    exact .ite (safe_instruction.bind fun _ => ih.bind fun _ => .pure _) (.pure [])

theorem agrees_code {c : Cursor} {data : List UInt8} (hfits : (Cursor.start data).Fits word) :
    (code word data).Agrees (liftM (Instruction.decodeAll data)) c := by
  have hloop := (safe_instructionsUpTo data.length).agrees (.start data) hfits
  have hcode : code word data c.mark = .ok (Instruction.decodeAll data, c.mark) := by
    rw [code]
    exact congrArg (Except.map fun answer => (answer.1, c.mark)) hloop
  refine .of_run hcode ?_
  cases Instruction.decodeAll data <;> rfl

theorem length_le_of_take {n : Nat} {c d : Cursor} {bytes : List UInt8}
    (h : Reader.take n c = (.ok bytes, d)) : bytes.length ≤ c.data.length := by
  unfold Reader.take Reader.move at h
  split at h
  case h_1 front e htake =>
    obtain ⟨hbytes, -⟩ := Prod.mk.inj h
    rw [← Except.ok.inj hbytes, (Cursor.take?_eq_some_iff.mp htake).2.1, List.length_take]
    have hremaining := c.remaining_eq
    rw [Cursor.remaining] at hremaining
    omega
  case h_2 => exact absurd h fault_ne_answer

/-- The bytes of the code are some of the bytes, so their offsets fit as well. -/
theorem safe_code {α : Type} (size : Nat) {next : List Instruction → BareReader α}
    {next' : List Instruction → Reader α} (h : ∀ code, Safe word (next code) (next' code)) :
    Safe word (take word size >>= fun bytes => code word bytes >>= next)
      (Reader.take size >>= fun bytes => liftM (Instruction.decodeAll bytes) >>= next') where
  moves := (Reader.Consumes.take size).moves.sameData.bind fun bytes =>
    (Reader.Moves.lift _).bind fun code => (h code).moves
  agrees c hfits := by
    refine (Agrees.take hfits size).bind fun bytes d htake => ?_
    have hcode : (Cursor.start bytes).Fits word :=
      Nat.le_trans (Nat.add_le_add_right (length_le_of_take htake) _) hfits
    exact (agrees_code hcode).bind fun code e hdecode =>
      (h code).agrees e ((Safe.lift _).fits hdecode ((Safe.take size).fits htake hfits))

theorem safe_smallRow : Safe word (smallRow word) Clause.readSmallRow :=
  Safe.read.bind fun _ => Safe.read.bind fun _ => Safe.read.bind fun _ => Safe.read.bind fun _ =>
    Safe.read.bind fun _ => Safe.read.bind fun _ => .pure _

theorem safe_fatRow : Safe word (fatRow word) Clause.readFatRow :=
  Safe.read.bind fun _ => Safe.read.bind fun _ => Safe.read.bind fun _ => Safe.read.bind fun _ =>
    Safe.read.bind fun _ => Safe.read.bind fun _ => .pure _

theorem safe_rows {row : BareReader Clause} {row' : Reader Clause} (h : Safe word row row') (count : Nat) :
    Safe word (rows row count) (Clause.readRows row' count) := by
  induction count with
  | zero => exact .pure []
  | succ count ih => exact h.bind fun _ => ih.bind fun _ => .pure _

theorem safe_sectionHeader : Safe word (sectionHeader word) Body.readSectionHeader := by
  refine Safe.read.bind fun flags => .ite ?_ ?_
  · exact Safe.read.bind fun low => Safe.read.bind fun high => .pure _
  · exact Safe.read.bind fun size => (Safe.advance 2).bind fun _ => .pure _

theorem safe_clauses {header : Body.SectionHeader} (hsize : Clause.sectionHeaderSize ≤ header.size) :
    Safe word (clauses word header) (Body.readClauses header) := by
  refine .ite (.pure []) (.compute (Agrees.difference_eq hsize) (.ite ?_ ?_))
  · exact safe_rows safe_fatRow _
  · exact safe_rows safe_smallRow _

theorem safe_dataSection : Safe word (dataSection word) Body.readSection where
  moves := Body.moves_section.sameData
  agrees c hfits := by
    refine ((Safe.align 4).agrees c hfits).bind fun _ start halign => .get ?_
    have hstart := (Safe.align 4).fits halign hfits
    refine (safe_sectionHeader.agrees start hstart).bind fun header d hheader => .guard fun hsize => ?_
    have hd := safe_sectionHeader.fits hheader hstart
    have hlarge := Body.size_lt_of_sectionHeader hheader
    have hinside := start.position_le
    have hsum : start.position + header.size < word := by
      rw [Cursor.Fits] at hstart
      omega
    have hrest : Agrees (clauses word header >>= fun clauses => do
          seek (start.position + header.size)
          return (clauses, header.hasMore))
        (Body.readClauses header >>= fun clauses => do
          Reader.seek (start.position + header.size)
          return (clauses, header.hasMore)) d :=
      ((safe_clauses (Nat.le_of_not_lt hsize)).agrees d hd).bind fun clauses e _ =>
        (Agrees.seek _).bind fun _ _ _ => .pure _
    rw [Body.readClauses_bind] at hrest
    exact .compute (Agrees.sum_eq hsum) (.get (.guard fun _ => hrest))

theorem safe_dataSections (limit : Nat) :
    Safe word (dataSections word limit) (Body.readSections limit) := by
  induction limit with
  | zero => exact .pure []
  | succ limit ih =>
    exact safe_dataSection.bind fun _ => .ite (ih.bind fun _ => .pure _) (.pure _)

theorem safe_tiny (first : UInt8) : Safe word (tiny word first) (Body.readTiny first) :=
  (Safe.advance 1).bind fun _ => safe_code _ fun _ => .pure _

theorem safe_fat : Safe word (fat word) Body.readFat := by
  refine Safe.read.bind fun flags => .guard (Safe.read.bind fun maxStack => Safe.read.bind fun codeSize =>
    Safe.read.bind fun token => (Safe.seek _).bind fun _ => safe_code _ fun code => ?_)
  exact .ite (.get fun c => (safe_dataSections _).bind fun _ => .pure _)
    ((Safe.pure []).bind fun _ => .pure _)

theorem safe_body : Safe word (body word) Body.read := by
  refine .get fun c => .guard (Safe.peek.bind fun first => ?_)
  exact .ite (safe_tiny first) (.ite safe_fat (.throw _))

end BareReader

end MethodIL
