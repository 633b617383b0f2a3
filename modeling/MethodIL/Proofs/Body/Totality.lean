import Mathlib
import MethodIL.Proofs.Body.Bare
set_option autoImplicit false

/-!
# Bodies of untrusted bytes

Reading a body needs no bound on its loops: the chain of sections and the code stream end by themselves,
for every sequence of bytes.  What is read is decided by the bytes up to its end, so bytes that follow do
not matter, and an image that begins with another one holds the same body.
-/

namespace MethodIL

open Reader

namespace Clause

theorem stable_smallRow : readSmallRow.Stable :=
  Stable.read.bind fun _ => Stable.read.bind fun _ => Stable.read.bind fun _ => Stable.read.bind fun _ =>
    Stable.read.bind fun _ => Stable.read.bind fun _ => Stable.pure _

theorem stable_fatRow : readFatRow.Stable :=
  Stable.read.bind fun _ => Stable.read.bind fun _ => Stable.read.bind fun _ => Stable.read.bind fun _ =>
    Stable.read.bind fun _ => Stable.read.bind fun _ => Stable.pure _

theorem stable_rows {row : Reader Clause} (h : row.Stable) (count : Nat) : (readRows row count).Stable := by
  induction count with
  | zero => exact Stable.pure []
  | succ count ih => exact h.bind fun _ => ih.bind fun _ => Stable.pure _

end Clause

namespace Body

/-! ## The same answer with more bytes -/

theorem stable_sectionHeader : readSectionHeader.Stable := by
  refine Stable.read.bind fun flags => Stable.ite (fun _ => ?_) fun _ => ?_
  · exact Stable.read.bind fun low => Stable.read.bind fun high => Stable.pure _
  · exact Stable.read.bind fun size => (Stable.advance 2).bind fun _ => Stable.pure _

theorem stable_section : readSection.Stable := by
  refine (Stable.align 4).bind fun _ => Stable.get (fun c => ?_) fun _ _ _ _ _ => rfl
  refine stable_sectionHeader.bind fun header => Stable.guard fun _ => ?_
  refine Stable.get_guard (fun c more hinside => ?_) ?_
  · rw [Cursor.data_extend, List.length_append]
    omega
  · refine Stable.ite (fun _ => ?_) fun _ => Stable.ite (fun _ => ?_) fun _ => ?_
    · exact (Stable.pure _).bind fun _ => (Stable.seek _).bind fun _ => Stable.pure _
    · exact (Clause.stable_rows Clause.stable_fatRow _).bind fun _ =>
        (Stable.seek _).bind fun _ => Stable.pure _
    · exact (Clause.stable_rows Clause.stable_smallRow _).bind fun _ =>
        (Stable.seek _).bind fun _ => Stable.pure _

theorem stable_readAllSections : readAllSections.Stable := by
  intro c clauses d h more
  have hloop := repeats_readAllSections c
  rw [h] at hloop
  exact (repeats_readAllSections _).unique (hloop.extend stable_section more)

/-! ## Reading without bounds -/

/-- Read a body with a fat header, with a loop for its sections. -/
def readFatWith (sections : Reader (List Clause)) : Reader Body := do
  let flags ← Reader.read UInt16
  let headerSize := (flags >>> 12).toNat * 4
  if headerSize < Header.fatSize then throw (.malformed (.shortHeader headerSize))
  let maxStack ← Reader.read UInt16
  let codeSize ← Reader.read UInt32
  let localsToken : Token := ⟨← Reader.read UInt32⟩
  Reader.seek headerSize
  let code ← Reader.take codeSize.toNat
  let instructions ← Instruction.decodeAll code
  let clauses ← if flags &&& Header.moreSections != 0 then sections else pure []
  let header : Header := { maxStack, initLocals := flags &&& Header.initLocalsFlag != 0,
                           localsToken, locals := [] }
  return { header, instructions, clauses }

/-- Read a body, with a loop for its sections. -/
def readWith (sections : Reader (List Clause)) : Reader Body := do
  if (← get).data.isEmpty then throw (.malformed .emptyData)
  let first ← Reader.peek
  if first &&& 3 == 2 then readTiny first
  else if first &&& 3 == 3 then readFatWith sections
  else throw (.malformed (.unknownHeader first))

theorem readFat_eq : readFat = readFatWith readAllSections := by
  funext c
  refine bind_run_congr fun flags c₁ _ => ?_
  dsimp only
  split
  case isTrue => rw [throw_bind_run, throw_bind_run]
  case isFalse hsize =>
    refine bind_run_congr fun maxStack c₂ _ => bind_run_congr fun codeSize c₃ _ =>
      bind_run_congr fun token c₄ _ => bind_run_congr fun _ c₅ hseek => bind_run_congr fun code c₆ htake =>
        bind_run_congr fun instructions c₇ hdecode => ?_
    -- the header has been passed, so there are fewer bytes left than there are bytes
    have hheader : c₅.position = (flags >>> 12).toNat * 4 := position_of_seek hseek
    have hcode := (Consumes.take _).moves.of_run htake
    have hstream := (Moves.lift _ : Moves Cursor.Forward _).of_run hdecode
    have hpassed : Header.fatSize ≤ c₇.position := by
      have hcode' := hcode.position
      have hstream' := hstream.position
      omega
    have hbound : readSections c₇.data.length c₇ = readAllSections c₇ := by
      apply readSections_eq
      have hinside := c₇.position_le
      rw [Cursor.remaining_eq]
      rw [Header.fatSize] at hpassed
      omega
    split
    case isTrue =>
      rw [get_run]
      exact bind_run_of_eq hbound
    case isFalse => rfl

theorem read_eq : read = readWith readAllSections := by
  rw [read, readWith, readFat_eq]

theorem stable_readFatWith {sections : Reader (List Clause)} (h : sections.Stable) :
    (readFatWith sections).Stable := by
  refine Stable.read.bind fun flags => Stable.guard fun _ => Stable.read.bind fun maxStack =>
    Stable.read.bind fun codeSize => Stable.read.bind fun token => (Stable.seek _).bind fun _ =>
      (Stable.take _).bind fun code => (Stable.lift _).bind fun instructions => ?_
  exact Stable.ite (fun _ => h.bind fun _ => Stable.pure _)
    fun _ => (Stable.pure []).bind fun _ => Stable.pure _

theorem stable_readTiny (first : UInt8) : (readTiny first).Stable :=
  (Stable.advance 1).bind fun _ => (Stable.take _).bind fun _ => (Stable.lift _).bind fun _ =>
    Stable.pure _

theorem stable_read : read.Stable := by
  rw [read_eq]
  refine Stable.get_guard (fun c more hdata => ?_) (Stable.peek.bind fun first => ?_)
  · rw [List.isEmpty_iff] at hdata ⊢
    exact fun hnil => hdata (List.append_eq_nil_iff.mp hnil).1
  · exact Stable.ite (fun _ => stable_readTiny first) fun _ =>
      Stable.ite (fun _ => stable_readFatWith stable_readAllSections) fun _ => Stable.throw _

/-! ## All images -/

/-- What reading a body comes to, whatever the bytes are. -/
structure ReadingFits (sections : Reader (List Clause)) : Prop where
  read_eq : read = readWith sections
  sections_end : ∀ c, Repeats readSection c (sections c)
  code_ends : ∀ code, ∃ d,
    Repeats Instruction.decodeNext (.start code) (Instruction.decodeAll code, d)
  code_moves : ∀ c i d, Instruction.decode c = (.ok i, d) → c.Forward d ∧ c.position < d.position
  sections_read : ∀ c, SectionRead c (readSection c)
  sections_move : ∀ c answer d, readSection c = (.ok answer, d) →
    c.Forward d ∧ c.position + Clause.sectionHeaderSize ≤ d.position
  /-- every slice that is taken and every offset that is computed is in order -/
  inside : ∀ data, (read (.start data)).2.data = data ∧
    ∀ word, data.length + 0x1000000 ≤ word →
      BareReader.body word ⟨data, 0⟩ = .ok (ofBytes data, (read (.start data)).2.mark)
  ignores : ∀ data b, ofBytes data = .ok b → ∀ more, ofBytes (data ++ more) = .ok b
  prefixes : ∀ data b, ofBytes data = .ok b →
    ∀ front b', front <+: data → ofBytes front = .ok b' → b' = b

/-- Reading a body ends for all bytes, with loops that have no bound of their own.  It stays inside the
bytes: an instruction takes a byte at least, a section takes its header at least and ends inside the bytes,
and its rows are read from the section.  With a check of every slice and of every sum and difference of
offsets it is the same, on a machine whose words can tell the offsets into the bytes.  A body that is read
does not depend on the bytes behind it, so whatever can be read from a part of the bytes is the body that
can be read from all of them. -/
theorem reading_fits : ReadingFits readAllSections where
  read_eq := Body.read_eq
  sections_end := repeats_readAllSections
  code_ends := Instruction.repeats_decodeAll
  code_moves c i d h := ⟨Instruction.moves_decode.of_run h, Instruction.position_lt_of_decode h⟩
  sections_read := sectionRead
  sections_move c answer d h := ⟨moves_section.of_run h, position_of_readSection h⟩
  inside data := by
    have hsafe : ∀ word, BareReader.Safe word (BareReader.body word) read :=
      fun _ => BareReader.safe_body
    exact ⟨(hsafe 0).moves (.start data), fun word hfits => (hsafe word).agrees (.start data) hfits⟩
  ignores data b h more := stable_read.runOn_append h more
  prefixes data b h front b' hfront hread := by
    obtain ⟨more, rfl⟩ := hfront
    have hlonger := stable_read.runOn_append hread more
    exact Except.ok.inj (hlonger.symm.trans h)

/-- A fat header, four instructions, a section that is no exception table, and one that is. -/
def twoSections : List UInt8 :=
  [0x0B, 0x30, 8, 0, 4, 0, 0, 0, 0, 0, 0, 0] ++ [0, 0, 0xDC, 0x2A] ++ [0x80, 8, 0, 0, 1, 2, 3, 4] ++
    [0x01, 16, 0, 0, 2, 0, 0, 0, 1, 1, 0, 2, 0, 0, 0, 0]

example : ((ofBytes twoSections).toOption.any fun b =>
    b.instructions.length == 4 && b.clauses.length == 1 &&
      (ofBytes (twoSections ++ [0xFF])).toOption == some b &&
      (ofBytes twoSections.dropLast).toOption.isNone) = true := by
  decide +kernel

end Body

end MethodIL
