set_option autoImplicit false

/-! # Computations taken apart

A computation made of two succeeds if both do, and fails where the first of them does. What a
computation does when it succeeds, or how it fails, is proved by taking it apart with these lemmas.
-/

namespace RubyJs

variable {ε σ α β : Type}
variable {x : Except ε α}

theorem bind_eq_ok {f : α → Except ε β} {b : β} (h : (x >>= f) = .ok b) :
    ∃ a, x = .ok a ∧ f a = .ok b := by
  cases x with
  | error e => exact absurd h (by simp [bind, Except.bind])
  | ok a => exact ⟨a, rfl, h⟩

theorem bind_eq_error {f : α → Except ε β} {e : ε} (h : (x >>= f) = .error e) :
    x = .error e ∨ ∃ a, x = .ok a ∧ f a = .error e := by
  cases x with
  | error e' => exact Or.inl (congrArg Except.error (Except.error.inj h))
  | ok a => exact Or.inr ⟨a, rfl, h⟩

theorem bind_ne_error {f : α → Except ε β} {e : ε} (hx : x ≠ .error e) (hf : ∀ a, f a ≠ .error e) :
    (x >>= f) ≠ .error e := by
  intro h
  rcases bind_eq_error h with h | ⟨a, -, h⟩
  · exact hx h
  · exact hf a h

theorem pure_ne_error (a : α) (e : ε) : (pure a : Except ε α) ≠ .error e := by
  intro h
  cases h

theorem map_eq_ok {f : α → β} {b : β} (h : x.map f = .ok b) : ∃ a, x = .ok a ∧ f a = b := by
  cases x with
  | error e => cases h
  | ok a => exact ⟨a, rfl, Except.ok.inj h⟩

/-- What a computation gives can be checked by running it. -/
theorem exists_ok_of_any {p : α → Prop} [DecidablePred p]
    (h : x.toOption.any (fun a => decide (p a)) = true) : ∃ a, x = .ok a ∧ p a := by
  cases x with
  | error e => exact absurd h Bool.false_ne_true
  | ok a => exact ⟨a, rfl, of_decide_eq_true h⟩

/-- With a state, the second part begins where the first one ends. -/
theorem run_bind_eq_ok {x : StateT σ (Except ε) α} {f : α → StateT σ (Except ε) β} {s t : σ} {b : β}
    (h : (x >>= f) s = .ok (b, t)) : ∃ a u, x s = .ok (a, u) ∧ f a u = .ok (b, t) := by
  obtain ⟨⟨a, u⟩, hx, hf⟩ := bind_eq_ok h
  exact ⟨a, u, hx, hf⟩

theorem run_bind_of_ok {x : StateT σ (Except ε) α} {f : α → StateT σ (Except ε) β} {s u : σ} {a : α}
    (h : x s = .ok (a, u)) : (x >>= f) s = f a u := by
  show (x s >>= fun r => f r.1 r.2) = f a u
  rw [h]
  rfl

theorem run_ok_inj {a b : α} {s t : σ}
    (h : (.ok (a, s) : Except ε (α × σ)) = .ok (b, t)) : a = b ∧ s = t :=
  Prod.mk.inj (Except.ok.inj h)

end RubyJs
