import Mathlib
import MethodIL.Proofs.Journal
import MethodIL.Proofs.Lowering.Correspondence
import MethodIL.Proofs.Stack.Exact
import MethodIL.Proofs.Tree.RegionLinks
set_option autoImplicit false

/-!
# The measured stack size bounds the emitted code

Whatever the machine of the emitted body reaches, the machine of the tree visits at the node of the
same place, at least as high.  So the heights that the analysis of the tree records are bounds for
every run of the emitted code.
-/

namespace MethodIL

open Outcome

namespace Tree

variable {t : Tree} {r : Resolver}

/-! ## Passing labels and blocks -/

/-- From a visited node of the body control comes to the first instruction at or behind it, at least
as high. -/
theorem Visits.pass (wf : t.WellFormed) {before rest : List NodeId} {x n : NodeId} {height : Int}
    (horder : t.preOrder root = before ++ x :: rest) (hvisit : t.Visits r x height)
    (hfirst : (x :: rest).find? t.isInstruction = some n) :
    ∃ higher, t.Visits r n higher ∧ height ≤ higher := by
  induction rest generalizing x before height with
  | nil =>
    cases hx : t.isInstruction x with
    | true =>
      rw [List.find?_cons_of_pos hx, Option.some.injEq] at hfirst
      exact ⟨height, hfirst ▸ hvisit, le_refl height⟩
    | false =>
      rw [List.find?_cons_of_neg (by simp [hx])] at hfirst
      exact absurd hfirst (by simp)
  | cons y rest ih =>
    cases hx : t.isInstruction x with
    | true =>
      rw [List.find?_cons_of_pos hx, Option.some.injEq] at hfirst
      exact ⟨height, hfirst ▸ hvisit, le_refl height⟩
    | false =>
      rw [List.find?_cons_of_neg (by simp [hx])] at hfirst
      have hnext : t.nextInOrder? x = some y := wf.nextInOrder?_eq_head? wf.root_parent horder
      have horder' : t.preOrder root = (before ++ [x]) ++ y :: rest := by simpa using horder
      have hexists : (t.content? x).isSome := by
        rw [isSome_content?_iff]
        exact wf.exists_of_mem_body (by rw [horder]; simp)
      obtain ⟨content, hcontent⟩ := Option.isSome_iff_exists.mp hexists
      cases content with
      | instruction operation =>
        rw [isInstruction, operation?, hcontent] at hx
        exact absurd hx (by simp)
      | label owner =>
        have hlabel : t.isLabel x = true := isLabel_iff.mpr ⟨owner, hcontent⟩
        have hsucc : t.successor? x = some y := by
          rw [WellFormed.successor?_eq_nextInOrder? (children_eq_nil_of_isLabel hlabel), hnext]
        exact ih horder' (.moves hvisit (.label hlabel hsucc)) hfirst
      | block kind children =>
        have hkind : t.blockKind? x = some kind := by rw [blockKind?, hcontent]
        obtain ⟨higher, hhigher, hle⟩ :=
          ih horder' (.moves hvisit (.block hkind hnext)) hfirst
        exact ⟨higher, hhigher, le_trans (kind.le_entryHeight height) hle⟩

/-- From a visited node control comes to the instruction at its place. -/
theorem Visits.at_place (wf : t.WellFormed) {x n : NodeId} {k : Nat} {height : Int}
    (hvisit : t.Visits r x height) (hplace : place? t.places x = some k)
    (hn : t.instructions[k]? = some n) : ∃ higher, t.Visits r n higher ∧ height ≤ higher := by
  obtain ⟨before, rest, horder, rfl⟩ := wf.exists_of_place? hplace
  rw [wf.getElem?_instructions horder] at hn
  exact hvisit.pass wf horder hn

/-- From a visited block control enters the instruction at its place with what the block receives. -/
theorem Visits.enter_block (wf : t.WellFormed) {block n : NodeId} {kind : BlockKind} {k : Nat}
    {height : Int} (hvisit : t.Visits r block height) (hkind : t.blockKind? block = some kind)
    (hplace : place? t.places block = some k) (hn : t.instructions[k]? = some n) :
    ∃ higher, t.Visits r n higher ∧ kind.entryHeight height ≤ higher := by
  obtain ⟨before, rest, horder, rfl⟩ := wf.exists_of_place? hplace
  have hother := isInstruction_of_blockKind? hkind
  rw [wf.getElem?_instructions horder, List.find?_cons_of_neg (by simp [hother])] at hn
  cases rest with
  | nil => exact absurd hn (by simp)
  | cons y rest =>
    have hnext : t.nextInOrder? block = some y := wf.nextInOrder?_eq_head? wf.root_parent horder
    have horder' : t.preOrder root = (before ++ [block]) ++ y :: rest := by simpa using horder
    exact Visits.pass wf horder' (.moves hvisit (.block hkind hnext)) hn

/-- From an instruction control falls through to the instruction at the next place. -/
theorem Visits.fall_through (wf : t.WellFormed) {id n : NodeId} {k : Nat} {height exit : Int}
    {operation : Operation NodeId} (hvisit : t.Visits r id height)
    (hid : t.instructions[k]? = some id) (hop : t.operation? id = some operation)
    (hflow : operation.opcode.flow.endsBlock = false) (hexits : t.Exits r id height exit)
    (hn : t.instructions[k + 1]? = some n) : ∃ higher, t.Visits r n higher ∧ exit ≤ higher := by
  obtain ⟨before, rest, horder, hinstruction, rfl⟩ := wf.exists_of_getElem?_instructions hid
  have horder' : t.preOrder root = (before ++ [id]) ++ rest := by simpa using horder
  have hcount : (before ++ [id]).countP t.isInstruction = before.countP t.isInstruction + 1 := by
    rw [List.countP_append, List.countP_cons_of_pos hinstruction]
    rfl
  rw [← hcount, wf.getElem?_instructions horder'] at hn
  cases rest with
  | nil => exact absurd hn (by simp)
  | cons y rest =>
    have hnext : t.successor? id = some y := by
      rw [WellFormed.successor?_eq_nextInOrder? (children_eq_nil_of_isInstruction hinstruction)]
      exact wf.nextInOrder?_eq_head? wf.root_parent horder
    exact Visits.pass wf horder' (.moves hvisit (.next hop hflow hexits hnext)) hn

/-- Control starts at the first instruction of the body. -/
theorem Visits.first_instruction (wf : t.WellFormed) {n : NodeId}
    (hn : t.instructions[0]? = some n) : ∃ higher, t.Visits r n higher ∧ 0 ≤ higher := by
  have horder : t.preOrder root = [] ++ root :: (t.children root).flatMap t.preOrder :=
    wf.preOrder_eq root
  have horder' : t.preOrder root = [root] ++ (t.children root).flatMap t.preOrder := horder
  have hcount : [root].countP t.isInstruction = 0 := by simp [wf.isInstruction_root]
  rw [← hcount, wf.getElem?_instructions horder'] at hn
  cases hchildren : t.children root with
  | nil =>
    rw [hchildren] at hn
    exact absurd hn (by simp)
  | cons first others =>
    have hfirst : t.firstChild? root = some first := by rw [firstChild?, hchildren]; rfl
    rw [hchildren, List.flatMap_cons, wf.preOrder_eq first] at hn horder'
    exact Visits.pass wf horder' (.start hfirst) hn

end Tree

namespace Tree.Lowers

variable {t : Tree} {p : Plan} {b : Body} {r : Resolver} (h : t.Lowers p b)

include h

/-! ## The simulation -/

/-- What an emitted instruction leaves behind, its node leaves behind. -/
theorem exits_of_exits {k : Nat} {id : NodeId} {height exit : Int}
    (hid : t.instructions[k]? = some id) : b.Exits r k height exit ↔ t.Exits r id height exit := by
  constructor
  · rintro ⟨hi, hleave, heffect, hexit⟩
    obtain ⟨id', operation, slot, isLong, hid', hop, -, rfl, -, hemits, -⟩ := h.node_at hi
    obtain rfl := Option.some.inj (hid.symm.trans hid')
    obtain ⟨hflow, hsame⟩ := alike_of_emits hemits
    exact ⟨hop, by rwa [Opcode.isLeave, ← hflow], by rw [← hsame, heffect], hexit⟩
  · rintro ⟨hop, hleave, heffect, hexit⟩
    have hk := (List.getElem?_eq_some_iff.mp hid).1
    rw [← h.length_slots, ← h.length_instructions] at hk
    have hi : b.instructions[k]? = some b.instructions[k] := List.getElem?_eq_getElem hk
    obtain ⟨id', operation, slot, isLong, hid', hop', -, rfl, -, hemits, -⟩ := h.node_at hi
    obtain rfl := Option.some.inj (hid.symm.trans hid')
    obtain rfl := Option.some.inj (hop.symm.trans hop')
    obtain ⟨hflow, hsame⟩ := alike_of_emits hemits
    exact ⟨hi, by rwa [Opcode.isLeave, hflow], by rw [hsame, heffect], hexit⟩

/-- An offset of an emitted instruction lands on the place of a label of its node. -/
theorem exists_label_of_lands {k target : Nat} {i : Instruction} {id : NodeId}
    {operation : Operation NodeId} {offset : Int32} (hi : b.instructions[k]? = some i)
    (hid : t.instructions[k]? = some id) (hop : t.operation? id = some operation)
    (hoffset : offset ∈ i.operand.targets) (hlands : b.Lands k offset target) :
    (operation.opcode.isBranch || operation.opcode.isSwitch) = true ∧
      ∃ label ∈ t.labelsOf id, place? t.places label = some target := by
  have hlabels := h.lands_labels hi hid hop
  split at hlabels
  case isTrue hflow =>
    obtain ⟨label, hlabel, -, target', hplace, hlands'⟩ := exists_of_mem_right hlabels hoffset
    obtain rfl := hlands.unique h.sized.size_pos hlands'
    refine ⟨hflow, label, ?_, hplace⟩
    rw [Tree.labelsOf, hop]
    exact hlabel
  case isFalse =>
    rw [hlabels] at hoffset
    exact absurd hoffset List.not_mem_nil

/-- An instruction in the protected range of an emitted clause stands for a node in the region. -/
theorem mem_region_of_inTry (wf : t.WellFormed) {k : Nat} {id region handler : NodeId}
    {extent : Nat × Nat} {clause : Clause} {kind : HandlerKind} {filterBlock : Option NodeId}
    (hid : t.instructions[k]? = some id) (hextent : p.extent t region = .ok extent)
    (hclause : p.GivesClause t extent handler clause kind filterBlock) (hin : b.InTry clause k) :
    id = region ∨ t.isBelow region id = true := by
  obtain ⟨first, last, hcoverage, hlt, hlast, hfirst, hend, hlimit⟩ := h.exists_covered wf hextent
  obtain ⟨hoffset, hlength⟩ := hclause.tryRange
  have hk := (List.getElem?_eq_some_iff.mp hid).1
  rw [← h.length_slots, ← h.length_instructions] at hk
  obtain ⟨hlow, hhigh⟩ := hin
  rw [hoffset, UInt32.toNat_ofNat_of_lt' (by omega)] at hlow hhigh
  rw [hlength, UInt32.toNat_ofNat_of_lt' (by omega), hend, h.start_lt_iff (by omega) hlast] at hhigh
  rw [hfirst, ← Nat.not_lt, h.start_lt_iff (by omega) (by omega), Nat.not_lt] at hlow
  have hmem := (wf.mem_preOrder_iff_covered hcoverage hid).mpr ⟨hlow, hhigh⟩
  simpa [Tree.isBelow] using wf.mem_preOrder_iff.mp hmem

/-- The start of an emitted range is the place of the block that it is the extent of. -/
theorem place?_of_start (wf : t.WellFormed) {block : NodeId} {extent : Nat × Nat} {target : Nat}
    (hextent : p.extent t block = .ok extent) (htarget : target < b.instructions.length)
    (hstart : b.start target = (UInt32.ofNat extent.1).toNat) :
    place? t.places block = some target := by
  obtain ⟨first, last, hcoverage, hlt, hlast, hfirst, hend, hlimit⟩ := h.exists_covered wf hextent
  rw [UInt32.toNat_ofNat_of_lt' (by omega), hfirst] at hstart
  have hsame : target = first := Body.start_injective h.sized.size_pos
    (Nat.le_of_lt htarget) (by omega) hstart
  unfold coverage? at hcoverage
  obtain ⟨place, hplace, hpair⟩ := Option.map_eq_some_iff.mp hcoverage
  rw [hplace, hsame, (Prod.mk.inj hpair).1]

/-- Whatever the emitted code reaches, the machine of the tree visits at the node of the same place,
at least as high. -/
theorem visits_of_reaches (wf : t.WellFormed) (hfilters : t.FiltersLinked) {k : Nat} {height : Int}
    (hreaches : b.Reaches r k height) :
    ∃ id higher, t.instructions[k]? = some id ∧ t.Visits r id higher ∧ height ≤ higher := by
  have hnode : ∀ {k : Nat}, k < b.instructions.length → ∃ id, t.instructions[k]? = some id := by
    intro k hk
    rw [h.length_instructions, h.length_slots] at hk
    exact ⟨_, List.getElem?_eq_getElem hk⟩
  induction hreaches with
  | start hcode =>
    obtain ⟨id, hid⟩ := hnode hcode
    obtain ⟨higher, hvisit, hle⟩ := Tree.Visits.first_instruction wf hid
    exact ⟨id, higher, hid, hvisit, hle⟩
  | next _ hi hflow hexits hnext ih =>
    obtain ⟨id, higher, hid, hvisit, hle⟩ := ih
    obtain ⟨n, hn⟩ := hnode hnext
    obtain ⟨id', operation, slot, isLong, hid', hop, -, rfl, -, hemits, -⟩ := h.node_at hi
    obtain rfl := Option.some.inj (hid.symm.trans hid')
    rw [(alike_of_emits hemits).1] at hflow
    obtain ⟨exit', hexits', hle'⟩ := ((h.exits_of_exits hid).mp hexits).raise hle
    obtain ⟨higher', hvisit', hle''⟩ := hvisit.fall_through wf hid hop hflow hexits' hn
    exact ⟨n, higher', hn, hvisit', le_trans hle' hle''⟩
  | target _ hi hoffset hlands hexits ih =>
    obtain ⟨id, higher, hid, hvisit, hle⟩ := ih
    obtain ⟨n, hn⟩ := hnode hlands.1
    obtain ⟨id', operation, slot, isLong, hid', hop, -, rfl, -, hemits, -⟩ := h.node_at hi
    obtain rfl := Option.some.inj (hid.symm.trans hid')
    obtain ⟨hflow, label, hlabel, hplace⟩ := h.exists_label_of_lands hi hid hop hoffset hlands
    obtain ⟨exit', hexits', hle'⟩ := ((h.exits_of_exits hid).mp hexits).raise hle
    obtain ⟨higher', hvisit', hle''⟩ :=
      (Tree.Visits.moves hvisit (.target hop hflow hexits' hlabel)).at_place wf hplace hn
    exact ⟨n, higher', hn, hvisit', le_trans hle' hle''⟩
  | leave _ hi hleave hoffset hlands ih =>
    obtain ⟨id, higher, hid, hvisit, hle⟩ := ih
    obtain ⟨n, hn⟩ := hnode hlands.1
    obtain ⟨id', operation, slot, isLong, hid', hop, -, rfl, -, hemits, -⟩ := h.node_at hi
    obtain rfl := Option.some.inj (hid.symm.trans hid')
    obtain ⟨-, label, hlabel, hplace⟩ := h.exists_label_of_lands hi hid hop hoffset hlands
    rw [Opcode.isLeave, (alike_of_emits hemits).1] at hleave
    obtain ⟨higher', hvisit', hle'⟩ :=
      (Tree.Visits.moves hvisit (.leave hop hleave hlabel)).at_place wf hplace hn
    exact ⟨n, higher', hn, hvisit', hle'⟩
  | handler _ hclause hin htarget hstart ih =>
    obtain ⟨id, higher, hid, hvisit, hle⟩ := ih
    obtain ⟨n, hn⟩ := hnode htarget
    obtain ⟨region, handlers, handler, extent, kind, filterBlock, -, hregion, hhandler, hextent,
      hgives⟩ := h.exists_of_mem_clauses hclause
    have hinside := h.mem_region_of_inTry wf hid hextent hgives hin
    obtain ⟨owner, catchType, hkind, -⟩ := hgives.isHandler
    obtain ⟨own, hown, hoffset, -, -⟩ := hgives.ranges
    rw [hoffset] at hstart
    obtain ⟨higher', hvisit', hle'⟩ := (Tree.Visits.handler hregion hvisit hinside hhandler).enter_block
      wf hkind (h.place?_of_start wf hown htarget hstart) hn
    refine ⟨n, higher', hn, hvisit', le_trans (le_of_eq ?_) hle'⟩
    rw [Clause.kind, hgives.flags, HandlerKind.ofFlags_flags]
    rfl
  | filter _ hclause hin hfilterOffset htarget hstart ih =>
    obtain ⟨id, higher, hid, hvisit, hle⟩ := ih
    obtain ⟨n, hn⟩ := hnode htarget
    obtain ⟨region, handlers, handler, extent, kind, filterBlock, -, hregion, hhandler, hextent,
      hgives⟩ := h.exists_of_mem_clauses hclause
    have hinside := h.mem_region_of_inTry wf hid hextent hgives hin
    obtain ⟨owner, catchType, hkind, -⟩ := hgives.isHandler
    obtain ⟨own, hown, -, -, hfilter⟩ := hgives.ranges
    split at hfilter
    case isFalse =>
      rw [hfilterOffset] at hfilter
      exact absurd hfilter (by simp)
    case isTrue =>
      obtain ⟨block, filter, rfl, hfilterExtent, -, hoffset⟩ := hfilter
      rw [hfilterOffset, Option.some.injEq] at hoffset
      rw [hoffset] at hstart
      obtain ⟨protectedRegion, decides, hblock⟩ := hfilters _ _ _ _ _ hkind
      obtain ⟨higher', hvisit', hle'⟩ :=
        (Tree.Visits.filter hregion hvisit hinside hhandler hkind).enter_block wf hblock
          (h.place?_of_start wf hfilterExtent htarget hstart) hn
      exact ⟨n, higher', hn, hvisit', hle'⟩

end Tree.Lowers

/-! ## Bounds -/

namespace StackHeights

variable {t : Tree} {p : Plan} {b : Body} {r : Resolver}

/-- Visits of an analysed tree show no more than the measured stack size, and their instructions
leave a height behind. -/
theorem visits_bounded (ht : t.Reachable) {heights : StackHeights}
    (hheights : ofTree t r = .ok heights) {id : NodeId} {height : Int}
    {operation : Operation NodeId} (hop : t.operation? id = some operation)
    (hvisit : t.Visits r id height) :
    (∃ entry, heights.heightAt id = some entry ∧ height ≤ entry) ∧ height ≤ heights.maxStack.toNat ∧
      (operation.opcode.isLeave = false →
        ∃ exit, t.Exits r id height exit ∧ exit ≤ heights.maxStack.toNat) := by
  have wf := ht.wellFormed
  have hinstruction : t.isInstruction id = true := by rw [Tree.isInstruction, hop]; rfl
  obtain ⟨s, hconsistent, hfound, -, hheight, hhighest⟩ := exists_final wf hheights
  have hgreatest := hconsistent.isGreatest_highest hfound
  rw [← hhighest] at hgreatest
  obtain ⟨entry, hentry, hle⟩ := hconsistent.exists_entry hfound hinstruction hvisit
  refine ⟨⟨entry, by rw [hheight, hentry], hle⟩, ?_, fun hleave => ?_⟩
  · exact hgreatest.2 (Or.inr (Or.inl ⟨id, hinstruction, hvisit⟩))
  · obtain ⟨exit, hexit⟩ := hconsistent.measured id entry operation hentry hop hleave
    obtain ⟨exit', hexit'⟩ := hexit.exists_at height
    exact ⟨exit', hexit', hgreatest.2 (Or.inr (Or.inr ⟨id, height, hvisit, hexit'⟩))⟩

/-- What the code of a tree reaches shows no more than the measured stack size of the tree, whatever
the header says, and is entered no higher than is recorded for its node. -/
theorem reaches_bounded (ht : t.Reachable) {heights : StackHeights}
    (hheights : ofTree t r = .ok heights) {header : Header}
    (hlowers : ({ t with header } : Tree).Lowers p b) {k : Nat} {height : Int}
    (hreaches : b.Reaches r k height) :
    (∃ id entry, t.instructions[k]? = some id ∧ heights.heightAt id = some entry ∧
      height ≤ entry) ∧ height ≤ heights.maxStack.toNat ∧
      ∀ i, b.instructions[k]? = some i → i.opcode.isLeave = false →
        ∃ exit, b.Exits r k height exit ∧ exit ≤ heights.maxStack.toNat := by
  have ht' : ({ t with header } : Tree).Reachable := .edited ht (.setHeader header)
  obtain ⟨id, higher, hid, hvisit, hle⟩ :=
    hlowers.visits_of_reaches ht'.wellFormed ht'.filtersLinked hreaches
  obtain ⟨i, hi⟩ : ∃ i, b.instructions[k]? = some i := ⟨_, List.getElem?_eq_getElem hreaches.index_lt⟩
  obtain ⟨id', operation, slot, isLong, hid', hop, -, rfl, -, hemits, -⟩ := hlowers.node_at hi
  obtain rfl := Option.some.inj (hid.symm.trans hid')
  obtain ⟨⟨entry, hentry, hle'⟩, hmax, hexit⟩ := visits_bounded ht hheights hop hvisit.of_header
  have hnode : t.instructions[k]? = some id := by rw [← t.instructions_header header, hid]
  refine ⟨⟨id, entry, hnode, hentry, le_trans hle hle'⟩, le_trans hle hmax,
    fun i' hi' hleave => ?_⟩
  obtain rfl := Option.some.inj (hi.symm.trans hi')
  rw [Opcode.isLeave, (Tree.Lowers.alike_of_emits hemits).1] at hleave
  obtain ⟨exit, hexit, hexitLe⟩ := hexit hleave
  obtain ⟨exit', hexit'⟩ := hexit.exists_at height
  obtain ⟨exit'', hexit'', hraised⟩ := hexit'.raise hle
  obtain rfl := hexit''.unique hexit
  exact ⟨exit', (hlowers.exits_of_exits hid).mpr (Tree.exits_header.mpr hexit'), le_trans hraised hexitLe⟩

/-- The declared stack size is at least the measured one. -/
theorem le_maxStack_apply (heights : StackHeights) (t : Tree) (keepLarger : Bool) :
    heights.maxStack ≤ (heights.apply t keepLarger).header.maxStack := by
  unfold apply
  dsimp only
  split
  case isTrue h =>
    rw [Bool.and_eq_true, decide_eq_true_eq] at h
    exact h.2
  case isFalse => exact UInt16.le_refl _

end StackHeights

/-- A pass that only edits: what it makes of a reachable tree is reachable. -/
def Pass.OnlyEdits (pass : Pass) : Prop :=
  ∀ t journal t' journal', t.Reachable → (pass t).run journal = (.ok t', journal') → t'.Reachable

/-- The measured stack size bounds the emitted code.  Whatever the machine of the code reaches is
entered no higher than the analysis has recorded for the node at the same place, and neither it nor
what it leaves behind exceeds the measured stack size.  So no run of a revised body whose stack was
measured exceeds the stack size that the body declares. -/
theorem measured_stack_bounds_code :
    (∀ t r heights b, t.Reachable → StackHeights.ofTree t r = .ok heights → t.toBody = .ok b →
      ∀ k height, b.Reaches r k height →
        (∃ id entry, t.instructions[k]? = some id ∧ heights.heightAt id = some entry ∧
          height ≤ entry) ∧ height ≤ heights.maxStack.toNat ∧
        ∀ i, b.instructions[k]? = some i → i.opcode.isLeave = false →
          ∃ exit, b.Exits r k height exit ∧ exit ≤ heights.maxStack.toNat) ∧
    ∀ (body : Body) r policy pass journal b, policy.recomputeMaxStack = true → pass.OnlyEdits →
      (body.revise r policy pass).outcome journal = .ok b →
      ∀ k height, b.Reaches r k height → height ≤ b.header.maxStack.toNat ∧
        ∀ i, b.instructions[k]? = some i → i.opcode.isLeave = false →
          ∃ exit, b.Exits r k height exit ∧ exit ≤ b.header.maxStack.toNat := by
  refine ⟨?_, ?_⟩
  · intro t r heights b ht hheights hbody k height hreaches
    obtain ⟨p, hlowers⟩ := Tree.toBody_eq_ok_iff.mp hbody
    have hlowers' : ({ t with header := t.header } : Tree).Lowers p b := hlowers
    exact StackHeights.reaches_bounded ht hheights hlowers' hreaches
  · intro body r policy pass journal b hpolicy hpass hrevise k height hreaches
    obtain ⟨t, journal₁, hlift, hrevise⟩ := Journaled.outcome_bind_eq_ok.mp hrevise
    obtain ⟨t', journal₂, hrun, hrevise⟩ := Journaled.outcome_bind_eq_ok.mp hrevise
    have ht : t.Reachable :=
      .lifted (Tree.outcome_ofBodyJournaled (by rw [Journaled.outcome, hlift]))
    have ht' := hpass t journal₁ t' journal₂ ht hrun
    rw [if_pos hpolicy] at hrevise
    obtain ⟨heights, journal₃, hheights, hrevise⟩ := Journaled.outcome_bind_eq_ok.mp hrevise
    have hmeasured := StackHeights.outcome_ofTreeJournaled (by rw [Journaled.outcome, hheights])
    obtain ⟨p, hlowers⟩ :=
      Tree.toBody_eq_ok_iff.mp (Tree.outcome_toBodyJournaled hrevise)
    have hdeclared : heights.maxStack.toNat ≤ b.header.maxStack.toNat := by
      rw [hlowers.header]
      exact UInt16.le_iff_toNat_le.mp (heights.le_maxStack_apply t' policy.preserveLarger)
    obtain ⟨-, hle, hexit⟩ := StackHeights.reaches_bounded ht' hmeasured hlowers hreaches
    refine ⟨by omega, fun i hi hleave => ?_⟩
    obtain ⟨exit, hexit, hexitLe⟩ := hexit i hi hleave
    exact ⟨exit, hexit, by omega⟩

/-- The code of `guardedPop` comes out as it went in, and both the measured stack size and that of the
revised body bound the height with which its handler is entered. -/
theorem guardedPop_handler_bounded :
    let r := (SignatureTable.new false).resolver
    let pass : Pass := fun t => pure t
    ∃ t heights b b', Tree.ofBody StackHeights.guardedPop = .ok t ∧
      StackHeights.ofTree t r = .ok heights ∧ t.toBody = .ok b ∧
        (StackHeights.guardedPop.revise r .strict pass).outcome [] = .ok b' ∧ b.Reaches r 3 1 ∧
          b'.Reaches r 3 1 ∧ 1 ≤ (heights.maxStack.toNat : Int) ∧
            1 ≤ (b'.header.maxStack.toNat : Int) := by
  intro r pass
  let clause : Clause := .ofFields 0 0 4 4 3 0x01000001
  have hrun : ((Tree.ofBody StackHeights.guardedPop).toOption.any fun t =>
      (StackHeights.ofTree t r).toOption.any fun heights => t.toBody.toOption.any fun b =>
        ((StackHeights.guardedPop.revise r .strict pass).outcome []).toOption.any fun b' =>
          decide (∀ c ∈ [b, b'], 3 < c.instructions.length ∧ clause ∈ c.clauses ∧
            c.start 0 < 4 ∧ c.start 3 = 4)) = true := by
    decide +kernel
  simp only [Option.any_eq_true, toOption_eq_some_iff, decide_eq_true_eq] at hrun
  obtain ⟨t, ht, heights, hheights, b, hb, b', hb', hcode⟩ := hrun
  have hreaches : ∀ c ∈ [b, b'], c.Reaches r 3 1 := by
    intro c hc
    obtain ⟨hlength, hclause, hfirst, hthird⟩ := hcode c hc
    have hheight : (1 : Int) = if clause.kind.receivesException then 1 else 0 := by decide
    rw [hheight]
    exact .handler (.start (by omega)) hclause ⟨Nat.zero_le _, hfirst⟩ hlength hthird
  have hreaches₁ := hreaches b (by simp)
  have hreaches₂ := hreaches b' (by simp)
  have hpass : pass.OnlyEdits := by
    intro t journal t' journal' ht hrun
    obtain rfl := Except.ok.inj (Prod.mk.inj hrun).1
    exact ht
  exact ⟨t, heights, b, b', ht, hheights, hb, hb', hreaches₁, hreaches₂,
    (measured_stack_bounds_code.1 t r heights b (.lifted ht) hheights hb 3 1 hreaches₁).2.1,
    (measured_stack_bounds_code.2 StackHeights.guardedPop r .strict pass [] b' rfl hpass hb' 3 1
      hreaches₂).1⟩

end MethodIL
