import Mathlib
import MethodIL.Fault
set_option autoImplicit false

/-!
# Outcomes taken apart

A computation that may stop with a fault is taken apart into its steps: what a sequence, a change of
the fault or a traversal answers says what each of its steps has answered.
-/

namespace MethodIL

namespace Outcome

variable {ε ε' α β : Type}

theorem bind_eq_ok {x : Except ε α} {f : α → Except ε β} {b : β} :
    (x >>= f) = .ok b ↔ ∃ a, x = .ok a ∧ f a = .ok b := by
  cases x with
  | error e => simp [bind, Except.bind]
  | ok a => simp [bind, Except.bind]

theorem map_eq_ok {x : Except ε α} {f : α → β} {b : β} :
    f <$> x = .ok b ↔ ∃ a, x = .ok a ∧ f a = b := by
  cases x <;> simp [Functor.map, Except.map]

theorem pure_eq_ok {a b : α} : (pure a : Except ε α) = .ok b ↔ a = b := by
  simp [pure, Except.pure]

theorem throw_ne_ok {e : ε} {b : α} : (throw e : Except ε α) ≠ .ok b := by
  simp [throw, throwThe, MonadExceptOf.throw]

@[simp] theorem ok_bind {a : α} {f : α → Except ε β} : ((Except.ok a : Except ε α) >>= f) = f a := rfl

@[simp] theorem error_bind {e : ε} {f : α → Except ε β} :
    ((Except.error e : Except ε α) >>= f) = .error e := rfl

@[simp] theorem throw_bind {e : ε} {f : α → Except ε β} :
    ((throw e : Except ε α) >>= f) = .error e := rfl

/-- A check in front of a computation has passed. -/
theorem guard_eq_ok {c : Prop} [Decidable c] {e : ε} {f : PUnit → Except ε β} {b : β} :
    (if c then (throw e : Except ε PUnit) >>= f else f ⟨⟩) = .ok b ↔ ¬ c ∧ f ⟨⟩ = .ok b := by
  split
  · next hc => simp [hc, throw, throwThe, MonadExceptOf.throw, bind, Except.bind]
  · next hc => simp [hc]

/-- A check in front of a computation has failed, or the computation has. -/
theorem guard_eq_error {c : Prop} [Decidable c] {e e' : ε} {f : PUnit → Except ε β} :
    (if c then (throw e : Except ε PUnit) >>= f else f ⟨⟩) = .error e' ↔
      c ∧ e = e' ∨ ¬ c ∧ f ⟨⟩ = .error e' := by
  split
  · next hc => simp [hc, throw, throwThe, MonadExceptOf.throw, bind, Except.bind]
  · next hc => simp [hc]

/-- A sequence fails where its first computation does or, behind that, where its second does. -/
theorem bind_eq_error {x : Except ε α} {f : α → Except ε β} {e : ε} :
    (x >>= f) = .error e ↔ x = .error e ∨ ∃ a, x = .ok a ∧ f a = .error e := by
  cases x with
  | error e => simp [bind, Except.bind]
  | ok a => simp [bind, Except.bind]

theorem map_eq_error {x : Except ε α} {f : α → β} {e : ε} : f <$> x = .error e ↔ x = .error e := by
  cases x <;> simp [Functor.map, Except.map]

theorem pure_ne_error {a : α} {e : ε} : (pure a : Except ε α) ≠ .error e := by
  simp [pure, Except.pure]

theorem throw_eq_error {e e' : ε} : (throw e : Except ε α) = .error e' ↔ e = e' := by
  simp [throw, throwThe, MonadExceptOf.throw]

/-- A computation fails unless it succeeds. -/
theorem exists_error_iff {x : Except ε α} : (∃ e, x = .error e) ↔ ¬ ∃ a, x = .ok a := by
  cases x <;> simp

theorem mapError_eq_ok {x : Except ε α} {f : ε → ε'} {a : α} :
    x.mapError f = .ok a ↔ x = .ok a := by
  cases x <;> simp [Except.mapError]

theorem mapError_eq_error {x : Except ε α} {f : ε → ε'} {e : ε'} :
    x.mapError f = .error e ↔ ∃ e', x = .error e' ∧ f e' = e := by
  cases x <;> simp [Except.mapError]

theorem toOption_eq_some_iff {x : Except ε α} {a : α} : x.toOption = some a ↔ x = .ok a := by
  cases x <;> simp [Except.toOption]

/-- A traversal succeeds with the answers of its steps, in order. -/
theorem mapM_eq_ok {f : α → Except ε β} {items : List α} {answers : List β} :
    items.mapM f = .ok answers ↔ List.Forall₂ (fun a b => f a = .ok b) items answers := by
  induction items generalizing answers with
  | nil => simp [pure, Except.pure, eq_comm]
  | cons a items ih =>
    rw [List.mapM_cons, List.forall₂_cons_left_iff, bind_eq_ok]
    constructor
    · rintro ⟨b, hb, hrest⟩
      obtain ⟨bs, hbs, hanswer⟩ := bind_eq_ok.mp hrest
      exact ⟨b, bs, hb, ih.mp hbs, (pure_eq_ok.mp hanswer).symm⟩
    · rintro ⟨b, bs, hb, hbs, rfl⟩
      exact ⟨b, hb, bind_eq_ok.mpr ⟨bs, ih.mpr hbs, rfl⟩⟩

/-- What a successful traversal answers at a place is the answer of its step there. -/
theorem mapM_getElem? {f : α → Except ε β} {items : List α} {answers : List β}
    (h : items.mapM f = .ok answers) {i : Nat} {a : α} (ha : items[i]? = some a) :
    ∃ b, answers[i]? = some b ∧ f a = .ok b := by
  have hall := mapM_eq_ok.mp h
  have hi : i < answers.length := by
    rw [← hall.length_eq]
    exact (List.getElem?_eq_some_iff.mp ha).1
  obtain ⟨hi', rfl⟩ := List.getElem?_eq_some_iff.mp ha
  exact ⟨answers[i], List.getElem?_eq_getElem hi, List.forall₂_iff_get.mp hall |>.2 i hi' hi⟩

theorem mapM_length {f : α → Except ε β} {items : List α} {answers : List β}
    (h : items.mapM f = .ok answers) : answers.length = items.length :=
  (mapM_eq_ok.mp h).length_eq.symm

/-- An item of a successful traversal is the answer for one of the items traversed. -/
theorem exists_of_mem_mapM {f : α → Except ε β} {items : List α}
    {answers : List β} (h : items.mapM f = .ok answers) {b : β} (hb : b ∈ answers) :
    ∃ a ∈ items, f a = .ok b := by
  obtain ⟨k, hk⟩ := List.getElem?_of_mem hb
  have hlt := (List.getElem?_eq_some_iff.mp hk).1
  rw [mapM_length h] at hlt
  obtain ⟨b', hb', hf⟩ := mapM_getElem? h (List.getElem?_eq_getElem hlt)
  rw [hk, Option.some.injEq] at hb'
  exact ⟨items[k], List.getElem_mem hlt, hb' ▸ hf⟩

/-- A traversal whose steps all succeed succeeds. -/
theorem exists_mapM_eq_ok {f : α → Except ε β} {items : List α}
    (h : ∀ a ∈ items, ∃ b, f a = .ok b) : ∃ answers, items.mapM f = .ok answers := by
  induction items with
  | nil => exact ⟨[], rfl⟩
  | cons a items ih =>
    obtain ⟨b, hb⟩ := h a List.mem_cons_self
    obtain ⟨bs, hbs⟩ := ih fun x hx => h x (List.mem_cons_of_mem a hx)
    exact ⟨b :: bs, by rw [List.mapM_cons, hb, hbs]; rfl⟩

/-- A traversal whose steps are known to succeed. -/
theorem mapM_eq_ok_map {f : α → Except ε β} {g : α → β} {items : List α}
    (h : ∀ a ∈ items, f a = .ok (g a)) : items.mapM f = .ok (items.map g) := by
  rw [mapM_eq_ok, List.forall₂_map_right_iff, List.forall₂_same]
  exact h

/-- If every step answers what another one does, changed by a function, the traversal answers a list of
such answers. -/
theorem mapM_eq_ok_iff_map {γ : Type} {f : α → Except ε β} {f' : α → Except ε' γ} {g : γ → β}
    (h : ∀ a b, f a = .ok b ↔ ∃ c, f' a = .ok c ∧ g c = b) {items : List α} {answers : List β} :
    items.mapM f = .ok answers ↔ ∃ found, items.mapM f' = .ok found ∧ found.map g = answers := by
  simp only [mapM_eq_ok, h]
  constructor
  · intro hanswers
    induction hanswers with
    | nil => exact ⟨[], .nil, rfl⟩
    | cons hfirst _ ih =>
      obtain ⟨c, hc, rfl⟩ := hfirst
      obtain ⟨found, hfound, rfl⟩ := ih
      exact ⟨c :: found, .cons hc hfound, rfl⟩
  · rintro ⟨found, hfound, rfl⟩
    exact List.forall₂_map_right_iff.mpr (hfound.imp fun _ c hc => ⟨c, hc, rfl⟩)

/-- Traversals with the same steps are the same. -/
theorem mapM_congr {f g : α → Except ε β} {items : List α} (h : ∀ a ∈ items, f a = g a) :
    items.mapM f = items.mapM g := by
  induction items with
  | nil => rfl
  | cons a items ih =>
    obtain ⟨ha, hitems⟩ := List.forall_mem_cons.mp h
    rw [List.mapM_cons, List.mapM_cons, ha, ih hitems]

/-- A traversal that fails does so at one of the items. -/
theorem exists_of_mapM_eq_error {f : α → Except ε β} {items : List α} {e : ε}
    (h : items.mapM f = .error e) : ∃ a ∈ items, f a = .error e := by
  induction items with
  | nil => exact absurd h pure_ne_error
  | cons a items ih =>
    rw [List.mapM_cons, bind_eq_error] at h
    rcases h with ha | ⟨b, -, hrest⟩
    · exact ⟨a, List.mem_cons_self, ha⟩
    · rcases bind_eq_error.mp hrest with hitems | ⟨bs, -, hpure⟩
      · obtain ⟨x, hx, hfail⟩ := ih hitems
        exact ⟨x, List.mem_cons_of_mem a hx, hfail⟩
      · exact absurd hpure pure_ne_error

/-- What is paired with an item has a partner. -/
theorem exists_of_mem_right {R : α → β → Prop} {as : List α} {bs : List β}
    (h : List.Forall₂ R as bs) {b : β} (hb : b ∈ bs) : ∃ a ∈ as, R a b := by
  induction h with
  | nil => exact absurd hb List.not_mem_nil
  | cons hab _ ih =>
    rcases List.mem_cons.mp hb with rfl | hb
    · exact ⟨_, List.mem_cons_self, hab⟩
    · obtain ⟨a, ha, hR⟩ := ih hb
      exact ⟨a, List.mem_cons_of_mem _ ha, hR⟩

/-- What is paired with the item at a place stands at the same place. -/
theorem exists_getElem?_right {R : α → β → Prop} {as : List α} {bs : List β}
    (h : List.Forall₂ R as bs) {k : Nat} {b : β} (hb : bs[k]? = some b) :
    ∃ a, as[k]? = some a ∧ R a b := by
  obtain ⟨hk, rfl⟩ := List.getElem?_eq_some_iff.mp hb
  have hk' : k < as.length := by rwa [h.length_eq]
  exact ⟨as[k], List.getElem?_eq_getElem hk', (List.forall₂_iff_get.mp h).2 k hk' hk⟩

/-- What is known of the items of two lists may be used on their pairs. -/
theorem forall₂_imp_of_mem {R S : α → β → Prop} {as : List α} {bs : List β}
    (h : List.Forall₂ R as bs) (himp : ∀ a ∈ as, ∀ b ∈ bs, R a b → S a b) : List.Forall₂ S as bs := by
  induction h with
  | nil => exact .nil
  | cons hab _ ih =>
    refine .cons (himp _ List.mem_cons_self _ List.mem_cons_self hab) (ih fun a ha b hb => ?_)
    exact himp a (List.mem_cons_of_mem _ ha) b (List.mem_cons_of_mem _ hb)

/-- Pairings with a common list in the middle. -/
theorem forall₂_compose {γ : Type} {R : α → β → Prop} {S : β → γ → Prop} {as : List α}
    {bs : List β} {cs : List γ} (hR : List.Forall₂ R as bs) (hS : List.Forall₂ S bs cs) :
    List.Forall₂ (fun a c => ∃ b, R a b ∧ S b c) as cs := by
  induction hR generalizing cs with
  | nil =>
    cases hS
    exact .nil
  | cons hab _ ih =>
    cases hS with
    | cons hbc hrest => exact .cons ⟨_, hab, hbc⟩ (ih hrest)

end Outcome

end MethodIL
