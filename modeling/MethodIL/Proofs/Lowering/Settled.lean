import Mathlib
import MethodIL.Proofs.Lowering.ClauseOrder
set_option autoImplicit false

/-!
# Lowering what has been lowered

A lowered body is settled: its branches have the least forms that reach, its clauses have nothing that
lowering would leave out.  Settled bodies that agree are the same but for the order of their clauses, so
lifting and lowering a lowered body once more changes nothing else.  The order stays as well if the
clauses stand in the order in which their regions are completed; it need not, since the regions are
nested as the order of the clauses has it wherever their ranges coincide.
-/

namespace MethodIL

open Outcome

/-- Operands with the same targets are the same. -/
theorem Operand.Matches.eq {ρ : Type} {a b : Operand ρ} (h : a.Matches Eq b) : a = b := by
  cases h with
  | none | immediate | token => rfl
  | branch h => rw [h]
  | switch h =>
    rw [List.forall₂_eq_eq_eq] at h
    rw [h]

namespace Body

/-- Lowering has nothing to change in a body: the recorded sizes are right, the forms are the least
valid ones, and the clauses are plain and stay within the code. -/
structure Settled (y : Body) : Prop where
  sized : y.Sized
  valid : y.ValidForms y.forms
  least : ∀ choice, y.ValidForms choice → ∀ index, y.forms index = true → choice index = true
  clauses : ∀ c ∈ y.clauses, c.Plain ∧ ∀ r ∈ c.ranges, r.2 ≤ y.codeSize

namespace Settled

variable {y z : Body} (hy : y.Settled) (hz : z.Settled) (h : y.Agrees z)

include hy hz h

/-! ## Instructions -/

/-- Settled bodies that agree have the same forms, since each choice is the least one for both. -/
theorem forms_eq : z.forms = y.forms := by
  have hiff := h.validForms_iff hy.sized hz.sized
  funext k
  rw [Bool.eq_iff_iff]
  exact ⟨hz.least _ ((hiff _).mpr hy.valid) k, hy.least _ ((hiff _).mp hz.valid) k⟩

theorem start_eq : z.start = y.start := by
  funext k
  rw [start, start, ← hz.sized.sizesAs_forms, hy.forms_eq hz h, h.sizesAs_eq hy.sized hz.sized,
    hy.sized.sizesAs_forms]

theorem codeSize_eq : z.codeSize = y.codeSize := by
  rw [Body.codeSize_eq, Body.codeSize_eq, hy.start_eq hz h, h.length]

theorem instructions_eq : z.instructions = y.instructions := by
  have hstart := hy.start_eq hz h
  refine List.ext_getElem h.length fun k hk hk' => ?_
  have hi := List.getElem?_eq_getElem hk'
  have hj := List.getElem?_eq_getElem hk
  obtain ⟨hsame, hmatches⟩ := h.instructions k _ _ hi hj
  have hform := congrFun (hy.forms_eq hz h) k
  rw [forms, forms, hi, hj, Option.any_some, Option.any_some] at hform
  have hopcode := hsame.eq_of_form hform.symm
  have hoperand : y.instructions[k].operand = z.instructions[k].operand := by
    refine Operand.Matches.eq (hmatches.imp ?_)
    rintro a b ⟨target, ⟨-, hown⟩, -, hother⟩
    rw [hstart] at hother
    exact Int32.toInt_inj.mp (by omega)
  have hoperation : y.instructions[k].toOperation = z.instructions[k].toOperation := by
    rw [Operation.mk.injEq]
    exact ⟨hopcode, hoperand⟩
  have hsize := hy.sized _ (List.getElem_mem hk')
  rw [hoperation, hz.sized _ (List.getElem_mem hk)] at hsize
  rw [Instruction.mk.injEq]
  exact ⟨hoperation.symm, Except.ok.inj hsize⟩

/-! ## Clauses -/

/-- Clauses of settled bodies that say the same are the same. -/
theorem clause_eq {c d : Clause} (hc : c ∈ y.clauses) (hd : d ∈ z.clauses)
    (hsame : y.SameClause z c d) : d = c := by
  obtain ⟨hplain, hranges⟩ := hy.clauses c hc
  obtain ⟨hplain', -⟩ := hz.clauses d hd
  have hrange : ∀ {start stop start' stop' : Nat}, stop ≤ y.codeSize → (∃ first last,
      y.Spans start (min stop y.codeSize) first last ∧ z.Spans start' stop' first last) →
        start' = start ∧ stop' = stop := by
    rintro start stop start' stop' hle ⟨first, last, ⟨-, -, hfirst, hlast⟩, -, -, hfirst', hlast'⟩
    rw [hy.start_eq hz h] at hfirst' hlast'
    rw [Nat.min_eq_left hle] at hlast
    exact ⟨hfirst'.symm.trans hfirst, hlast'.symm.trans hlast⟩
  obtain ⟨htry, htryEnd⟩ := hrange (hranges c.tryRange List.mem_cons_self) hsame.tryRange
  obtain ⟨hhandler, hhandlerEnd⟩ :=
    hrange (hranges c.handlerRange (List.mem_cons_of_mem _ List.mem_cons_self)) hsame.handlerRange
  have hkind := hsame.kind
  have hcatch : d.catchType = c.catchType := by
    by_cases hcase : c.kind = .catchClause
    · exact hsame.catchType hcase
    · rw [hplain.catchType hcase, hplain'.catchType (hkind ▸ hcase)]
  have hfilter : d.filterOffset = c.filterOffset := by
    by_cases hcase : c.kind = .filterClause
    · obtain ⟨place, start, start', -, hstart, hown, hstart', hown'⟩ := hsame.filterStart hcase
      rw [hy.start_eq hz h, hown] at hown'
      rw [hstart, hstart', UInt32.toNat_inj.mp hown']
    · rw [hplain.filterOffset hcase, hplain'.filterOffset (hkind ▸ hcase)]
  have hflags : d.flags = c.flags := by rw [hplain.flags, hplain'.flags, hkind]
  cases c
  cases d
  simp only [Clause.mk.injEq]
  simp only [Clause.tryRange, Clause.handlerRange] at htry htryEnd hhandler hhandlerEnd
  refine ⟨hflags, UInt32.toNat_inj.mp htry, UInt32.toNat_inj.mp (by omega),
    UInt32.toNat_inj.mp hhandler, UInt32.toNat_inj.mp (by omega), hfilter, hcatch⟩

theorem clauses_perm : z.clauses.Perm y.clauses := by
  obtain ⟨clauses, hperm, hsame⟩ := h.clauses
  obtain ⟨hlength, hsame⟩ := List.forall₂_iff_get.mp hsame
  obtain rfl : clauses = y.clauses := List.ext_get hlength.symm fun k hk hk' =>
    hy.clause_eq hz h (List.get_mem _ _) (hperm.mem_iff.mp (List.get_mem _ _)) (hsame k hk' hk)
  exact hperm.symm

/-- Clauses that come out in the order of the table are the same. -/
theorem clauses_eq {order : List Nat} (hreorders : y.Reorders z order)
    (hsorted : order.Pairwise (· < ·)) : z.clauses = y.clauses := by
  obtain ⟨hperm, hsame⟩ := hreorders
  rw [hperm.eq_of_pairwise' hsorted List.pairwise_lt_range] at hsame
  obtain ⟨hlength, hsame⟩ := List.forall₂_iff_get.mp hsame
  rw [List.length_range] at hlength
  refine List.ext_get hlength.symm fun k hk hk' => ?_
  obtain ⟨original, horiginal, hsame⟩ := hsame k (by rwa [List.length_range]) hk
  rw [List.get_eq_getElem, List.getElem_range] at horiginal
  obtain ⟨_, rfl⟩ := List.getElem?_eq_some_iff.mp horiginal
  exact hy.clause_eq hz h (List.getElem_mem _) (List.get_mem _ _) hsame

end Settled

/-- The clauses stand in the order in which they end: a clause in front of another ends, with all clauses
that have its protected range, in front of the end of the other. -/
def EndsInOrder (y : Body) : Prop :=
  y.clauses.Pairwise fun c d =>
    ∀ e ∈ y.clauses, y.clip e.tryRange = y.clip c.tryRange → y.reach e < y.reach d

end Body

namespace Tree

/-! ## Lowered bodies -/

variable {t : Tree} {x y z : Body} {p p' : Plan}

/-- A lowered body is settled. -/
theorem Lowers.settled (h : t.Lowers p y) (wf : t.WellFormed) : y.Settled := by
  refine ⟨h.sized, h.validForms, fun choice hvalid index => h.forms_least hvalid, fun c hc => ?_⟩
  obtain ⟨regions, -, htells⟩ := h.exists_tells wf
  obtain ⟨_, _, -, htells, hplain⟩ := exists_of_mem_right htells hc
  refine ⟨hplain, fun r hr => ?_⟩
  obtain ⟨block, first, last, -, -, hle, -, hend⟩ := htells.exists_of_mem_ranges hr
  rw [← hend, Body.codeSize_eq]
  exact y.start_mono hle

namespace Presents

variable (h : t.Presents y) (hy : y.Settled) (hlowers : t.Lowers p z)

include h hy hlowers

/-- Lifted and lowered again, a settled body is the same but for the order of its clauses. -/
theorem settles : z.header = y.header ∧ z.instructions = y.instructions ∧
    z.clauses.Perm y.clauses := by
  have hagrees := h.agrees_lowered hlowers
  have hz := hlowers.settled h.wellFormed
  exact ⟨hagrees.header, hy.instructions_eq hz hagrees, hy.clauses_perm hz hagrees⟩

/-- If the regions of its clauses are completed in the order of the clauses, it is the same. -/
theorem settles_in_order : ∃ regions, List.Forall₂ (t.HoldsIn y) y.clauses regions ∧
    ((regions.Pairwise fun a b => a = b ∨ t.completion a < t.completion b) → z = y) := by
  obtain ⟨handlers, hcarries⟩ := h.carries
  obtain ⟨order, regions, hreorders, hholds, hpairs⟩ := hcarries.exists_order hlowers
  refine ⟨regions, hholds, fun hcompleted => ?_⟩
  have hagrees := h.agrees_lowered hlowers
  have hz := hlowers.settled h.wellFormed
  have hsorted : order.Pairwise (· < ·) := by
    refine hpairs.imp fun {i j} ⟨a, b, ha, hb, hab⟩ => Nat.lt_of_not_le fun hle => ?_
    obtain ⟨hi, rfl⟩ := List.getElem?_eq_some_iff.mp ha
    obtain ⟨hj, rfl⟩ := List.getElem?_eq_some_iff.mp hb
    rcases hab with ⟨-, hlt⟩ | hlt
    · exact absurd hlt (Nat.not_lt_of_le hle)
    · rcases Nat.lt_or_eq_of_le hle with hji | rfl
      · rcases List.pairwise_iff_getElem.mp hcompleted j i hj hi hji with heq | hlt'
        · rw [heq] at hlt
          exact Nat.lt_irrefl _ hlt
        · exact Nat.lt_asymm hlt hlt'
      · exact Nat.lt_irrefl _ hlt
  have hheader := hagrees.header
  have hinstructions := hy.instructions_eq hz hagrees
  have hclauses := hy.clauses_eq hz hagrees hreorders hsorted
  cases y
  cases z
  rw [Body.mk.injEq]
  exact ⟨hheader, hinstructions, hclauses⟩

end Presents

/-- The regions of clauses that end in order are completed in order. -/
theorem Carries.completed_in_order {handlers regions : List NodeId}
    (h : t.Carries y y.clauses handlers) (hholds : List.Forall₂ (t.HoldsIn y) y.clauses regions)
    (hends : y.EndsInOrder) :
    regions.Pairwise fun a b => a = b ∨ t.completion a < t.completion b := by
  obtain ⟨hlength, hholds⟩ := List.forall₂_iff_get.mp hholds
  rw [List.pairwise_iff_getElem]
  intro i j hi hj hij
  have hreach := List.pairwise_iff_getElem.mp hends i j (hlength ▸ hi) (hlength ▸ hj) hij
  exact Or.inr (h.completion_lt (hholds i _ hi) (hholds j _ hj) (List.getElem_mem _) hreach)

end Tree

/-! ## The main result -/

/-- Lifting and lowering a lowered body once more changes nothing but the order of its clauses.  The
clauses keep their order, too, if the regions that they are lifted to are completed in that order, in
particular if the clauses end in that order. -/
theorem ofBody_toBody_settles (x y : Body) (t t' : Tree) (hsize : x.codeSize < 2 ^ 29)
    (h : Tree.ofBody x = .ok t) (hy : t.toBody = .ok y) (h' : Tree.ofBody y = .ok t') :
    ∃ (z : Body) (regions : List NodeId), t'.toBody = .ok z ∧
      z.header = y.header ∧ z.instructions = y.instructions ∧ z.clauses.Perm y.clauses ∧
        List.Forall₂ (fun clause region => ∃ handler ∈ t'.handlersOf region,
          t'.TellsHandler (fun block range => t'.Fills y block (y.clip range)) region handler clause)
          y.clauses regions ∧
        ((regions.Pairwise fun a b => a = b ∨ t'.completion a < t'.completion b) → z = y) ∧
        (y.EndsInOrder → z = y) := by
  obtain ⟨p, hlowers⟩ := Tree.toBody_eq_ok_iff.mp hy
  have hpresents := Tree.presents_of_ofBody h
  have hpresents' := Tree.presents_of_ofBody h'
  have hsettled := hlowers.settled hpresents.wellFormed
  -- both bodies take the same bytes if all branches are long
  have hlong := (hpresents.agrees_lowered hlowers).longSize_eq hpresents.sized hsettled.sized
  have hle := hpresents.sized.longSize_le
  obtain ⟨p', z, hlowers'⟩ := hpresents'.exists_lowers (by omega)
  obtain ⟨hheader, hinstructions, hclauses⟩ := hpresents'.settles hsettled hlowers'
  obtain ⟨regions, hholds, hsame⟩ := hpresents'.settles_in_order hsettled hlowers'
  obtain ⟨handlers, hcarries⟩ := hpresents'.carries
  refine ⟨z, regions, Tree.toBody_eq_ok_iff.mpr ⟨p', hlowers'⟩, hheader, hinstructions, hclauses,
    hholds.imp fun clause region => ?_, hsame,
    fun hends => hsame (hcarries.completed_in_order hholds hends)⟩
  exact hpresents'.tells_of_holdsIn (Tree.Reachable.lifted h').filtersLinked

/-- An instruction with a finally handler, and the handler itself guarded by a catch handler in front of
both. -/
def guardedHandler : Body where
  header := default
  instructions := Instruction.assemble [(0x00, .none), (0x00, .none), (0x00, .none)]
  clauses := [Clause.ofFields 0 2 1 0 1 1, Clause.ofFields 2 1 1 2 1 0]

theorem codeSize_guardedHandler : guardedHandler.codeSize < 2 ^ 29 := by
  have hbytes : guardedHandler.codeSize = 3 := by decide +kernel
  omega

theorem exists_guardedHandler : ∃ t y t' z, Tree.ofBody guardedHandler = .ok t ∧ t.toBody = .ok y ∧
    Tree.ofBody y = .ok t' ∧ t'.toBody = .ok z ∧ y.clauses = guardedHandler.clauses.reverse ∧
      z.clauses = guardedHandler.clauses := by
  have hrun : ((Tree.ofBody guardedHandler).toOption.any fun t => t.toBody.toOption.any fun y =>
      (Tree.ofBody y).toOption.any fun t' => t'.toBody.toOption.any fun z =>
        decide (y.clauses = guardedHandler.clauses.reverse ∧ z.clauses = guardedHandler.clauses)) =
          true := by
    cbv
  simp only [Option.any_eq_true, toOption_eq_some_iff, decide_eq_true_eq] at hrun
  obtain ⟨t, ht, y, hy, t', ht', z, hz, hclauses⟩ := hrun
  exact ⟨t, y, t', z, ht, hy, ht', hz, hclauses⟩

/-- What `guardedHandler` is lowered to has the same clauses when it is lifted and lowered again. -/
theorem guardedHandler_settles : ∃ t y t' z, Tree.ofBody guardedHandler = .ok t ∧ t.toBody = .ok y ∧
    Tree.ofBody y = .ok t' ∧ t'.toBody = .ok z ∧ z.instructions = y.instructions ∧
      z.clauses.Perm y.clauses := by
  obtain ⟨t, y, t', -, ht, hy, ht', -⟩ := exists_guardedHandler
  obtain ⟨z, -, hz, -, hinstructions, hclauses, -⟩ :=
    ofBody_toBody_settles guardedHandler y t t' codeSize_guardedHandler ht hy ht'
  exact ⟨t, y, t', z, ht, hy, ht', hz, hinstructions, hclauses⟩

/-- The clauses of `guardedHandler` change places whenever it is lifted and lowered: the handler that is
itself guarded lies inside the protected region if that region is wrapped first, and around it if not. -/
theorem guardedHandler_alternates : guardedHandler.codeSize < 2 ^ 29 ∧
    ∃ t y t' z, Tree.ofBody guardedHandler = .ok t ∧ t.toBody = .ok y ∧ Tree.ofBody y = .ok t' ∧
      t'.toBody = .ok z ∧ y.clauses = guardedHandler.clauses.reverse ∧
        z.clauses = guardedHandler.clauses ∧ z ≠ y := by
  obtain ⟨t, y, t', z, ht, hy, ht', hz, hclauses, hclauses'⟩ := exists_guardedHandler
  refine ⟨codeSize_guardedHandler, t, y, t', z, ht, hy, ht', hz, hclauses, hclauses', fun heq => ?_⟩
  rw [heq, hclauses] at hclauses'
  exact absurd hclauses' (by decide +kernel)

/-- Two instructions with the same finally handler, which has a finally handler of its own. -/
def sharedHandler : Body where
  header := default
  instructions := Instruction.assemble [(0x00, .none), (0x00, .none), (0xDC, .none), (0xDC, .none)]
  clauses := [Clause.ofFields 2 0 1 2 1 0, Clause.ofFields 2 2 1 3 1 0, Clause.ofFields 2 1 1 2 1 0]

/-- `sharedHandler` can be lifted, but not what it is lowered to: there the clauses that share the handler
stand together, and a handler serves one clause. -/
theorem sharedHandler_lifts_once : ∃ t y handler, Tree.ofBody sharedHandler = .ok t ∧
    t.toBody = .ok y ∧ Tree.ofBody y = .error (.malformed (.regionInUse 1 handler)) := by
  have hrun : ((Tree.ofBody sharedHandler).toOption.any fun t => t.toBody.toOption.any fun y =>
      match Tree.ofBody y with
      | .error (.malformed (.regionInUse 1 _)) => true
      | _ => false) = true := by
    cbv
  simp only [Option.any_eq_true, toOption_eq_some_iff] at hrun
  obtain ⟨t, ht, y, hy, hrun⟩ := hrun
  split at hrun
  case h_1 handler hfault => exact ⟨t, y, handler, ht, hy, hfault⟩
  case h_2 => exact absurd hrun (by simp)

end MethodIL
