import Mathlib
import MethodIL.Proofs.Body.ReadBack
import MethodIL.Proofs.Bytes.Progress
set_option autoImplicit false

/-!
# Data sections of untrusted bytes

A section tells its own size, and whether another section follows.  Whatever the bytes say, a section that
is read takes its header of four bytes at least and ends inside the bytes, and its rows are read from what
it says is its own.  All other sections are refused, so a chain of sections ends by itself.
-/

namespace MethodIL

open Reader

namespace Clause

theorem consumes_smallRow : readSmallRow.Consumes smallRowSize :=
  Consumes.read.bind fun _ => Consumes.read.bind fun _ => Consumes.read.bind fun _ =>
    Consumes.read.bind fun _ => Consumes.read.bind fun _ => Consumes.read.map _

theorem consumes_fatRow : readFatRow.Consumes fatRowSize :=
  Consumes.read.bind fun _ => Consumes.read.bind fun _ => Consumes.read.bind fun _ =>
    Consumes.read.bind fun _ => Consumes.read.bind fun _ => Consumes.read.map _

theorem consumes_rows {row : Reader Clause} {size : Nat} (h : row.Consumes size) (count : Nat) :
    (readRows row count).Consumes (count * size) := by
  induction count with
  | zero =>
    rw [Nat.zero_mul]
    exact Consumes.pure []
  | succ count ih =>
    rw [Nat.succ_mul, Nat.add_comm (count * size)]
    exact h.bind fun clause => ih.map _

end Clause

namespace Body

/-! ## The header of a section -/

theorem consumes_sectionHeader : readSectionHeader.Consumes Clause.sectionHeaderSize := by
  show readSectionHeader.Consumes (FixedWidth.width UInt8 + 3)
  refine Consumes.read.bind fun flags => ?_
  dsimp only
  refine Consumes.ite ?_ ?_
  · show Consumes _ (FixedWidth.width UInt16 + (FixedWidth.width UInt8 + 0))
    exact Consumes.read.bind fun low => Consumes.read.bind fun high => Consumes.pure _
  · show Consumes _ (FixedWidth.width UInt8 + (2 + 0))
    exact Consumes.read.bind fun size => (Consumes.advance 2).bind fun _ => Consumes.pure _

/-- Three bytes tell the size of a section at most. -/
theorem size_lt_of_sectionHeader {c d : Cursor} {header : SectionHeader}
    (h : readSectionHeader c = (.ok header, d)) : header.size < 0x1000000 := by
  obtain ⟨flags, e, -, h⟩ := bind_run_eq_ok.mp h
  dsimp only at h
  split at h
  case isTrue =>
    obtain ⟨low, e', -, h⟩ := bind_run_eq_ok.mp h
    obtain ⟨high, e'', -, h⟩ := bind_run_eq_ok.mp h
    obtain ⟨hheader, -⟩ := Prod.mk.inj h
    rw [← Except.ok.inj hheader]
    have hlow := low.toNat_lt
    have hhigh := high.toNat_lt
    dsimp only
    omega
  case isFalse =>
    obtain ⟨size, e', -, h⟩ := bind_run_eq_ok.mp h
    obtain ⟨_, e'', -, h⟩ := bind_run_eq_ok.mp h
    obtain ⟨hheader, -⟩ := Prod.mk.inj h
    rw [← Except.ok.inj hheader]
    exact Nat.lt_trans size.toNat_lt (by decide)

/-- The rows of a section that is an exception table. -/
def readClauses (header : SectionHeader) : Reader (List Clause) :=
  if !header.isTable then pure []
  else readTable header.isFat (header.size - Clause.sectionHeaderSize)

theorem readClauses_bind {α : Type} (header : SectionHeader) (next : List Clause → Reader α) :
    readClauses header >>= next =
      if !header.isTable then pure [] >>= next
      else if header.isFat then
        Clause.readRows Clause.readFatRow
          ((header.size - Clause.sectionHeaderSize) / Clause.fatRowSize) >>= next
      else
        Clause.readRows Clause.readSmallRow
          ((header.size - Clause.sectionHeaderSize) / Clause.smallRowSize) >>= next := by
  unfold readClauses readTable
  split
  · rfl
  · split <;> rfl

/-- The rows take no more bytes than the section has for them. -/
theorem consumes_clauses (header : SectionHeader) :
    ∃ n ≤ header.size - Clause.sectionHeaderSize, (readClauses header).Consumes n := by
  unfold readClauses readTable
  split
  · exact ⟨0, Nat.zero_le _, Consumes.pure []⟩
  · split
    · exact ⟨_, Nat.div_mul_le_self .., Clause.consumes_rows Clause.consumes_fatRow _⟩
    · exact ⟨_, Nat.div_mul_le_self .., Clause.consumes_rows Clause.consumes_smallRow _⟩

/-! ## A section -/

/-- A section starts at the next multiple of four. -/
structure StartsAt (c start : Cursor) : Prop where
  data : start.data = c.data
  behind : c.position ≤ start.position
  near : start.position < c.position + 4
  aligned : start.position % 4 = 0

theorem startsAt_of_align? {c start : Cursor} (h : c.align? 4 = some start) : StartsAt c start := by
  rw [Cursor.align?, if_neg (by decide)] at h
  obtain ⟨⟨bytes, d⟩, htake, rfl⟩ := Option.map_eq_some_iff.mp h
  obtain ⟨-, -, hdata, hposition⟩ := Cursor.take?_eq_some_iff.mp htake
  constructor
  case data => exact hdata
  all_goals
    dsimp only
    omega

/-- What reading a section comes to.  It is refused for the lack of bytes in front of its header, in its
header or behind it, or for a size that its header alone exceeds; otherwise it is read, and none of its
rows is refused. -/
inductive SectionRead (c : Cursor) : Except Fault (List Clause × Bool) × Cursor → Prop
  | unaligned (h : c.align? 4 = none) : SectionRead c (.error .outOfBounds, c)
  | headless {start d : Cursor} (hstart : StartsAt c start)
    (hshort : start.remaining < Clause.sectionHeaderSize) (hmoved : start.Forward d) :
    SectionRead c (.error .outOfBounds, d)
  | short {start d : Cursor} {header : SectionHeader} (hstart : StartsAt c start)
    (hheader : readSectionHeader start = (.ok header, d)) (hmoved : start.Forward d)
    (hsize : header.size < Clause.sectionHeaderSize) :
    SectionRead c (.error (.malformed (.shortSection start.position header.size)), d)
  | cutOff {start d : Cursor} {header : SectionHeader} (hstart : StartsAt c start)
    (hheader : readSectionHeader start = (.ok header, d)) (hmoved : start.Forward d)
    (hsize : Clause.sectionHeaderSize ≤ header.size)
    (hend : c.data.length < start.position + header.size) :
    SectionRead c (.error .outOfBounds, d)
  | complete {start d e f : Cursor} {header : SectionHeader} {clauses : List Clause}
    (hstart : StartsAt c start) (hheader : readSectionHeader start = (.ok header, d))
    (hbehind : d.position = start.position + Clause.sectionHeaderSize)
    (hsize : Clause.sectionHeaderSize ≤ header.size) (hlarge : header.size < 0x1000000)
    (hinside : start.position + header.size ≤ c.data.length)
    (hclauses : readClauses header d = (.ok clauses, e)) (hmoved : d.Forward e)
    (hown : e.position ≤ start.position + header.size)
    (hdata : f.data = c.data) (hend : f.position = start.position + header.size) :
    SectionRead c (.ok (clauses, header.hasMore), f)

/-- What is read of a section behind its header. -/
def readRest (start : Nat) (header : SectionHeader) : Reader (List Clause × Bool) := do
  if header.size < Clause.sectionHeaderSize then
    throw (.malformed (.shortSection start header.size))
  if (← get).data.length < start + header.size then throw .outOfBounds
  let clauses ←
    if !header.isTable then pure []
    else if header.isFat then
      Clause.readRows Clause.readFatRow ((header.size - Clause.sectionHeaderSize) / Clause.fatRowSize)
    else
      Clause.readRows Clause.readSmallRow
        ((header.size - Clause.sectionHeaderSize) / Clause.smallRowSize)
  seek (start + header.size)
  return (clauses, header.hasMore)

theorem readRest_of_short {start : Nat} {header : SectionHeader} (d : Cursor)
    (h : header.size < Clause.sectionHeaderSize) :
    readRest start header d = (.error (.malformed (.shortSection start header.size)), d) := by
  rw [readRest, if_pos h]
  rfl

theorem readRest_of_cutOff {start : Nat} {header : SectionHeader} {d : Cursor}
    (hsize : Clause.sectionHeaderSize ≤ header.size) (hend : d.data.length < start + header.size) :
    readRest start header d = (.error .outOfBounds, d) := by
  rw [readRest, if_neg (Nat.not_lt.mpr hsize)]
  dsimp only
  rw [get_run, if_pos hend]
  rfl

theorem readRest_of_inside {start : Nat} {header : SectionHeader} {d : Cursor}
    (hsize : Clause.sectionHeaderSize ≤ header.size) (hinside : start + header.size ≤ d.data.length) :
    readRest start header d = (do
      let clauses ← readClauses header
      seek (start + header.size)
      return (clauses, header.hasMore) : Reader (List Clause × Bool)) d := by
  rw [readRest, if_neg (Nat.not_lt.mpr hsize)]
  dsimp only
  rw [get_run, if_neg (Nat.not_lt.mpr hinside), readClauses_bind]

theorem readSection_of_align? {c start : Cursor} (h : c.align? 4 = some start) :
    readSection c = (readSectionHeader >>= readRest start.position) start := by
  have hrun : align 4 c = (.ok (), start) := by rw [align, move, h, Option.map_some]
  exact bind_run_of_ok hrun

/-- With room for the section, all of it is read. -/
theorem readRest_of_room {start : Nat} {header : SectionHeader} {d : Cursor}
    (hsize : Clause.sectionHeaderSize ≤ header.size) (hinside : start + header.size ≤ d.data.length)
    (hposition : d.position = start + Clause.sectionHeaderSize) :
    ∃ clauses e f, readClauses header d = (.ok clauses, e) ∧ d.Forward e ∧
      e.position ≤ start + header.size ∧ readRest start header d = (.ok (clauses, header.hasMore), f) ∧
        f.data = d.data ∧ f.position = start + header.size := by
  obtain ⟨n, hn, hconsumes⟩ := consumes_clauses header
  obtain ⟨clauses, e, hclauses, hdata, hmoved⟩ := hconsumes.answers d (by
    rw [Cursor.remaining_eq]
    omega)
  -- the section ends inside the bytes, so the cursor can go there
  have hle : start + header.size ≤ e.data.length := hdata ▸ hinside
  refine ⟨clauses, e, ⟨e.data, start + header.size, _, rfl, hle⟩, hclauses, ⟨hdata, by omega⟩, by omega,
    ?_, hdata, rfl⟩
  rw [readRest_of_inside hsize hinside, bind_run_of_ok hclauses]
  have hseek : seek (start + header.size) e = (.ok (), ⟨e.data, start + header.size, _, rfl, hle⟩) := by
    rw [seek, move, Cursor.seek?, dif_pos hle, Option.map_some]
  exact bind_run_of_ok hseek

theorem sectionRead (c : Cursor) : SectionRead c (readSection c) := by
  cases halign : c.align? 4 with
  | none =>
    have hrun : align 4 c = (.error .outOfBounds, c) := by rw [align, move, halign, Option.map_none]
    rw [readSection, bind_run_of_error hrun]
    exact .unaligned halign
  | some start =>
    have hstart := startsAt_of_align? halign
    rw [readSection_of_align? halign]
    cases Nat.lt_or_ge start.remaining Clause.sectionHeaderSize with
    | inl hshort =>
      obtain ⟨d, hheader, hmoved⟩ := consumes_sectionHeader.fails start hshort
      rw [bind_run_of_error hheader]
      exact .headless hstart hshort hmoved
    | inr hlong =>
      obtain ⟨header, d, hheader, hdata, hposition⟩ := consumes_sectionHeader.answers start hlong
      have hmoved : start.Forward d := ⟨hdata, by omega⟩
      rw [bind_run_of_ok hheader]
      cases Nat.lt_or_ge header.size Clause.sectionHeaderSize with
      | inl hsize =>
        rw [readRest_of_short d hsize]
        exact .short hstart hheader hmoved hsize
      | inr hsize =>
        cases Nat.lt_or_ge d.data.length (start.position + header.size) with
        | inl hend =>
          rw [readRest_of_cutOff hsize hend]
          exact .cutOff hstart hheader hmoved hsize (hdata.trans hstart.data ▸ hend)
        | inr hinside =>
          obtain ⟨clauses, e, f, hclauses, hforward, hown, hrest, hdata', hend⟩ :=
            readRest_of_room hsize hinside hposition
          rw [hrest]
          have hsame : d.data = c.data := hdata.trans hstart.data
          exact .complete hstart hheader hposition hsize (size_lt_of_sectionHeader hheader)
            (hsame ▸ hinside) hclauses hforward hown (hdata'.trans hsame) hend

theorem moves_section : readSection.Moves Cursor.Forward := by
  intro c
  have hread := sectionRead c
  generalize readSection c = result at hread
  cases hread with
  | unaligned => exact .refl c
  | headless hstart _ hmoved => exact Cursor.Forward.trans ⟨hstart.data, hstart.behind⟩ hmoved
  | short hstart _ hmoved => exact Cursor.Forward.trans ⟨hstart.data, hstart.behind⟩ hmoved
  | cutOff hstart _ hmoved => exact Cursor.Forward.trans ⟨hstart.data, hstart.behind⟩ hmoved
  | complete hstart _ _ _ _ _ _ _ _ hdata hend =>
    have hbehind := hstart.behind
    exact ⟨hdata, by dsimp only; omega⟩

/-- A section takes its header at least. -/
theorem position_of_readSection {c d : Cursor} {answer : List Clause × Bool}
    (h : readSection c = (.ok answer, d)) : c.position + Clause.sectionHeaderSize ≤ d.position := by
  have hread := sectionRead c
  rw [h] at hread
  cases hread with
  | complete hstart _ _ hsize _ _ _ _ _ _ hend =>
    have hbehind := hstart.behind
    omega

/-! ## All sections -/

theorem readSections_succ (limit : Nat) :
    readSections (limit + 1) = roundThen readSection (readSections limit) := rfl

theorem repeats_readSections {limit : Nat} {c : Cursor} (h : c.remaining < limit) :
    Repeats readSection c (readSections limit c) := by
  induction limit generalizing c with
  | zero => exact absurd h (Nat.not_lt_zero _)
  | succ limit ih =>
    rw [readSections_succ]
    refine .of_round fun items d hstep => ih ?_
    have hmoved := position_of_readSection hstep
    have hforward := moves_section c
    rw [hstep] at hforward
    have hdata : d.data = c.data := hforward.data
    have hinside := d.position_le
    rw [Cursor.remaining_eq] at h ⊢
    rw [hdata] at hinside ⊢
    rw [Clause.sectionHeaderSize] at hmoved
    omega

/-- Read sections until one says that none follows. -/
def readAllSections : Reader (List Clause) := do readSections ((← get).data.length + 1)

theorem repeats_readAllSections (c : Cursor) : Repeats readSection c (readAllSections c) := by
  refine repeats_readSections (Nat.lt_succ_of_le ?_)
  rw [Cursor.remaining_eq]
  exact Nat.sub_le ..

/-- A bound that the bytes cannot reach changes nothing. -/
theorem readSections_eq {limit : Nat} {c : Cursor} (h : c.remaining < limit) :
    readSections limit c = readAllSections c :=
  (repeats_readSections h).unique (repeats_readAllSections c)

end Body

end MethodIL
