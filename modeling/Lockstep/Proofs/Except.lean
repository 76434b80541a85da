set_option autoImplicit false

/-! # Computations that succeed

A computation in parts that succeeds has succeeded in each of them. -/

namespace Lockstep

variable {ε α β : Type}

theorem ok_of_bind {x : Except ε α} {f : α → Except ε β} {b : β} (h : x >>= f = .ok b) :
    ∃ a, x = .ok a ∧ f a = .ok b := by
  cases x with
  | error e => cases h
  | ok a => exact ⟨a, rfl, h⟩

theorem ok_of_map {x : Except ε α} {f : α → β} {b : β} (h : x.map f = .ok b) :
    ∃ a, x = .ok a ∧ f a = b := by
  cases x with
  | error e => cases h
  | ok a =>
      injection h with h
      exact ⟨a, rfl, h⟩

theorem error_of_map {x : Except ε α} {f : α → β} {e : ε} (h : x.map f = .error e) : x = .error e := by
  cases x with
  | error e' =>
      injection h with h
      rw [h]
  | ok a => cases h

theorem ok_inj {a b : α} (h : (pure a : Except ε α) = .ok b) : a = b := by
  injection h

theorem ok_of_guard {c : Prop} [Decidable c] {e : ε} {x : Unit → Except ε α} {a : α}
    (h : (if c then throw e >>= x else x ()) = .ok a) : ¬ c ∧ x () = .ok a := by
  by_cases hc : c
  · rw [if_pos hc] at h
    cases h
  · rw [if_neg hc] at h
    exact ⟨hc, h⟩

/-- The same computation for each element of a list, if it succeeds for all of them. -/
theorem mapM_eq_ok (xs : List α) {g : α → Except ε β} {f : α → β} (h : ∀ a ∈ xs, g a = .ok (f a)) :
    xs.mapM g = .ok (xs.map f) := by
  induction xs with
  | nil => rfl
  | cons a xs ih =>
      rw [List.mapM_cons, h a List.mem_cons_self, ih fun a ha => h a (List.mem_cons_of_mem _ ha)]
      rfl

/-- If it fails for one of them, the first failure is that of the whole. -/
theorem mapM_eq_error (xs : List α) {g : α → Except ε β} (h : ∃ a ∈ xs, ∃ e, g a = .error e) :
    ∃ a ∈ xs, ∃ e, g a = .error e ∧ xs.mapM g = .error e := by
  induction xs with
  | nil =>
      obtain ⟨a, ha, -⟩ := h
      cases ha
  | cons a xs ih =>
      rw [List.mapM_cons]
      cases ha : g a with
      | error e => exact ⟨a, List.mem_cons_self, e, ha, rfl⟩
      | ok b =>
          obtain ⟨a', ha', e', he'⟩ := h
          have hmem : a' ∈ xs := by
            rcases List.mem_cons.1 ha' with rfl | hmem
            · rw [ha] at he'
              cases he'
            · exact hmem
          obtain ⟨c, hc, e, he, herror⟩ := ih ⟨a', hmem, e', he'⟩
          refine ⟨c, List.mem_cons_of_mem _ hc, e, he, ?_⟩
          rw [herror]
          rfl

/-- What a computation returns, if it succeeds, has a property. -/
def Yields (P : α → Prop) (x : Except ε α) : Prop := ∀ a, x = .ok a → P a

namespace Yields

variable {P : α → Prop} {Q : β → Prop} {x : Except ε α} {f : α → Except ε β}

theorem ok {a : α} (h : P a) : Yields P (.ok a : Except ε α) := fun _ ha => ok_inj ha ▸ h

theorem error (e : ε) : Yields P (.error e : Except ε α) := fun _ h => nomatch h

theorem bind (hx : Yields P x) (hf : ∀ a, P a → Yields Q (f a)) : Yields Q (x >>= f) := by
  intro b h
  obtain ⟨a, ha, hb⟩ := ok_of_bind h
  exact hf a (hx a ha) b hb

/-- Where nothing is known of the first part. -/
theorem after (hf : ∀ a, Yields Q (f a)) : Yields Q (x >>= f) := by
  intro b h
  obtain ⟨a, -, hb⟩ := ok_of_bind h
  exact hf a b hb

theorem map {g : α → β} (h : ∀ a, Q (g a)) : Yields Q (x.map g) := by
  intro b hb
  obtain ⟨a, -, rfl⟩ := ok_of_map hb
  exact h a

theorem ite {c : Prop} [Decidable c] {x y : Except ε α} (hx : c → Yields P x)
    (hy : ¬ c → Yields P y) : Yields P (if c then x else y) := by
  split
  · next hc => exact hx hc
  · next hc => exact hy hc

/-- The same computation for each element of a list. -/
theorem mapM {g : α → Except ε β} {xs : List α} (h : ∀ a ∈ xs, Yields Q (g a)) :
    Yields (fun bs => ∀ b ∈ bs, Q b) (xs.mapM g) := by
  induction xs with
  | nil => exact .ok fun b hb => nomatch hb
  | cons a xs ih =>
      rw [List.mapM_cons]
      refine .bind (h a List.mem_cons_self) fun b hb => ?_
      refine .bind (ih fun a ha => h a (List.mem_cons_of_mem _ ha)) fun bs hbs => .ok fun b' hb' => ?_
      rcases List.mem_cons.1 hb' with rfl | hb'
      · exact hb
      · exact hbs b' hb'

/-- A computation that is given up on a condition. -/
theorem guard {c : Prop} [Decidable c] {e : ε} {x : Unit → Except ε α}
    (hx : Yields P (x ())) : Yields P (if c then throw e >>= x else x ()) :=
  .ite (fun _ _ h => nomatch h) fun _ => hx

end Yields

instance decidableExistsOk {x : Except ε α} {P : α → Prop} [DecidablePred P] :
    Decidable (∃ a, x = .ok a ∧ P a) :=
  match x with
  | .error _ => isFalse fun ⟨_, h, _⟩ => nomatch h
  | .ok a => decidable_of_iff (P a) ⟨fun h => ⟨a, rfl, h⟩, fun ⟨_, rfl, h⟩ => h⟩

instance decidableIsOk {x : Except ε α} : Decidable (∃ a, x = .ok a) :=
  match x with
  | .error _ => isFalse fun ⟨_, h⟩ => nomatch h
  | .ok a => isTrue ⟨a, rfl⟩

instance decidableExistsSome {x : Option α} {P : α → Prop} [DecidablePred P] :
    Decidable (∃ a, x = some a ∧ P a) :=
  match x with
  | none => isFalse fun ⟨_, h, _⟩ => nomatch h
  | some a => decidable_of_iff (P a) ⟨fun h => ⟨a, rfl, h⟩, fun ⟨_, rfl, h⟩ => h⟩

end Lockstep
