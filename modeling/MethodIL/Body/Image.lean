import MethodIL.Body.Basic
import MethodIL.Instruction.Codec
set_option autoImplicit false

/-!
# The image of a method body

A body is stored as a header, its code, and data sections that begin at multiples of four.  The low
two bits of the first byte tell a tiny header from a fat one.  A section has a short or a fat form
too: the form decides how its size is written and which rows its exception table has.

Writing picks the tiny header wherever it can, and the short section where every clause fits.
Reading stops behind the last section, so bytes that follow do not matter.
-/

namespace MethodIL

/-! ## Constants of the format -/

/-- Bits of the header flags. -/
def Header.moreSections : UInt16 := 0x8

/-- Bits of the header flags. -/
def Header.initLocalsFlag : UInt16 := 0x10

/-- The number of bytes of a fat header. -/
def Header.fatSize : Nat := 12

/-- The number of bytes of a section header. -/
def Clause.sectionHeaderSize : Nat := 4

/-- The number of bytes of a row in a short section. -/
def Clause.smallRowSize : Nat := 12

/-- The number of bytes of a row in a fat section. -/
def Clause.fatRowSize : Nat := 24

/-- The clause flags that mean something. -/
def Clause.knownFlags : UInt16 := 7

/-! ## Writing -/

/-- A row of a short section. -/
def Clause.smallRow (c : Clause) : List UInt8 :=
  FixedWidth.toBytes c.flags
    ++ FixedWidth.toBytes c.tryOffset.toUInt16 ++ FixedWidth.toBytes c.tryLength.toUInt8
    ++ FixedWidth.toBytes c.handlerOffset.toUInt16 ++ FixedWidth.toBytes c.handlerLength.toUInt8
    ++ FixedWidth.toBytes c.classOrFilter

/-- A row of a fat section. -/
def Clause.fatRow (c : Clause) : List UInt8 :=
  FixedWidth.toBytes c.flags.toUInt32
    ++ FixedWidth.toBytes c.tryOffset ++ FixedWidth.toBytes c.tryLength
    ++ FixedWidth.toBytes c.handlerOffset ++ FixedWidth.toBytes c.handlerLength
    ++ FixedWidth.toBytes c.classOrFilter

namespace Body

/-- The exception table as one section. -/
def sectionBytes (clauses : List Clause) : Except Fault (List UInt8) :=
  let smallSize := Clause.sectionHeaderSize + clauses.length * Clause.smallRowSize
  let fatSize := Clause.sectionHeaderSize + clauses.length * Clause.fatRowSize
  if smallSize ≤ 0xFF && clauses.all Clause.fitsSmall then
    .ok ([0x01] ++ LittleEndian.ofNat 1 smallSize ++ LittleEndian.ofNat 2 0
      ++ clauses.flatMap Clause.smallRow)
  else if 0xFFFFFF < fatSize then .error (.malformed (.tooManyClauses clauses.length))
  else .ok ([0x41] ++ LittleEndian.ofNat 3 fatSize ++ clauses.flatMap Clause.fatRow)

/-- Zeros up to the next multiple of four. -/
def padding (size : Nat) : List UInt8 :=
  List.replicate ((4 - size % 4) % 4) 0

/-- A fat header for code of the given size. -/
def fatHeader (b : Body) (codeSize : UInt32) : List UInt8 :=
  let flags : UInt16 := 0x3003
    ||| (if b.clauses.isEmpty then 0 else Header.moreSections)
    ||| (if b.header.initLocals then Header.initLocalsFlag else 0)
  FixedWidth.toBytes flags ++ FixedWidth.toBytes b.header.maxStack
    ++ FixedWidth.toBytes codeSize ++ FixedWidth.toBytes b.header.localsToken.value

/-- The image of a body. -/
def toBytes (b : Body) : Except Fault (List UInt8) := do
  let code ← Instruction.encodeAll b.instructions
  if b.isTiny then return UInt8.ofNat (4 * code.length + 2) :: code
  if UInt32.size ≤ code.length then throw (.malformed (.oversizedCode code.length))
  let front := b.fatHeader (.ofNat code.length) ++ code
  if b.clauses.isEmpty then return front
  let table ← sectionBytes b.clauses
  return front ++ padding front.length ++ table

end Body

/-! ## Reading -/

/-- Read a row of a short section. -/
def Clause.readSmallRow : Reader Clause := do
  let flags ← Reader.read UInt16
  let tryOffset ← Reader.read UInt16
  let tryLength ← Reader.read UInt8
  let handlerOffset ← Reader.read UInt16
  let handlerLength ← Reader.read UInt8
  let classOrFilter ← Reader.read UInt32
  return .ofFields (flags &&& knownFlags) tryOffset.toUInt32 tryLength.toUInt32
    handlerOffset.toUInt32 handlerLength.toUInt32 classOrFilter

/-- Read a row of a fat section; the high half of its flags is ignored. -/
def Clause.readFatRow : Reader Clause := do
  let flags ← Reader.read UInt32
  let tryOffset ← Reader.read UInt32
  let tryLength ← Reader.read UInt32
  let handlerOffset ← Reader.read UInt32
  let handlerLength ← Reader.read UInt32
  let classOrFilter ← Reader.read UInt32
  return .ofFields (flags.toUInt16 &&& knownFlags) tryOffset tryLength handlerOffset handlerLength
    classOrFilter

/-- Read `count` rows. -/
def Clause.readRows (row : Reader Clause) : Nat → Reader (List Clause)
  | 0 => return []
  | count + 1 => do
    let clause ← row
    let clauses ← readRows row count
    return clause :: clauses

namespace Body

/-- What the header of a section says. -/
structure SectionHeader where
  isTable : Bool
  isFat : Bool
  hasMore : Bool
  size : Nat

/-- Read the header of a section. -/
def readSectionHeader : Reader SectionHeader := do
  let flags ← Reader.read UInt8
  let isFat := flags &&& 0x40 != 0
  let size ←
    if isFat then do
      let low ← Reader.read UInt16
      let high ← Reader.read UInt8
      pure (low.toNat + 0x10000 * high.toNat)
    else do
      let size ← Reader.read UInt8
      Reader.advance 2
      pure size.toNat
  return { isTable := flags &&& 0x01 != 0, isFat, hasMore := flags &&& 0x80 != 0, size }

/-- Read one section: its clauses, and whether another one follows.  A section that is not an
exception table is skipped. -/
def readSection : Reader (List Clause × Bool) := do
  Reader.align 4
  let start := (← get).position
  let header ← readSectionHeader
  if header.size < Clause.sectionHeaderSize then
    throw (.malformed (.shortSection start header.size))
  if (← get).data.length < start + header.size then throw .outOfBounds
  let room := header.size - Clause.sectionHeaderSize
  let clauses ←
    if !header.isTable then pure []
    else if header.isFat then Clause.readRows Clause.readFatRow (room / Clause.fatRowSize)
    else Clause.readRows Clause.readSmallRow (room / Clause.smallRowSize)
  Reader.seek (start + header.size)
  return (clauses, header.hasMore)

/-- Read sections until one says that none follows, but no more than `limit`. -/
def readSections : Nat → Reader (List Clause)
  | 0 => return []
  | limit + 1 => do
    let (clauses, more) ← readSection
    if more then return clauses ++ (← readSections limit) else return clauses

/-- Read a body with a tiny header. -/
def readTiny (first : UInt8) : Reader Body := do
  Reader.advance 1
  let code ← Reader.take (first >>> 2).toNat
  let instructions ← Instruction.decodeAll code
  let header : Header := { maxStack := tinyMaxStack, initLocals := false, localsToken := .null,
                           locals := [] }
  return { header, instructions, clauses := [] }

/-- Read a body with a fat header.  Every section takes four bytes at least, so there are no more
sections than bytes. -/
def readFat : Reader Body := do
  let flags ← Reader.read UInt16
  let headerSize := (flags >>> 12).toNat * 4
  if headerSize < Header.fatSize then throw (.malformed (.shortHeader headerSize))
  let maxStack ← Reader.read UInt16
  let codeSize ← Reader.read UInt32
  let localsToken : Token := ⟨← Reader.read UInt32⟩
  Reader.seek headerSize
  let code ← Reader.take codeSize.toNat
  let instructions ← Instruction.decodeAll code
  let clauses ←
    if flags &&& Header.moreSections != 0 then readSections (← get).data.length else pure []
  let header : Header := { maxStack, initLocals := flags &&& Header.initLocalsFlag != 0,
                           localsToken, locals := [] }
  return { header, instructions, clauses }

/-- Read a body. -/
def read : Reader Body := do
  if (← get).data.isEmpty then throw (.malformed .emptyData)
  let first ← Reader.peek
  if first &&& 3 == 2 then readTiny first
  else if first &&& 3 == 3 then readFat
  else throw (.malformed (.unknownHeader first))

/-- The body of an image. -/
def ofBytes (data : List UInt8) : Except Fault Body :=
  read.runOn data

end Body

end MethodIL
