/-!
# Computations that may throw

When a sequence of two of them succeeds or throws.
-/

namespace Except

variable {ε α β : Type}

variable {x : Except ε α}

/-- What comes before a successful `do` block's last step succeeded too. -/
theorem bind_ok {f : α → Except ε β} {b : β} : (x >>= f) = .ok b ↔ ∃ a, x = .ok a ∧ f a = .ok b := by
  cases x with
  | error e => exact ⟨(nomatch ·), fun ⟨a, ha, _⟩ => nomatch ha⟩
  | ok a =>
    constructor
    · exact fun h => ⟨a, rfl, h⟩
    · rintro ⟨a', ha, h⟩
      cases ha
      exact h

theorem bind_error {f : α → Except ε β} {e : ε} :
    (x >>= f) = .error e ↔ x = .error e ∨ ∃ a, x = .ok a ∧ f a = .error e := by
  cases x with
  | error e' =>
    constructor
    · exact fun h => .inl (by cases h; rfl)
    · rintro (h | ⟨a, ha, _⟩)
      · cases h
        rfl
      · cases ha
  | ok a =>
    constructor
    · exact fun h => .inr ⟨a, rfl, h⟩
    · rintro (h | ⟨a', ha, h⟩)
      · cases h
      · cases ha
        exact h

theorem mapError_ok {ε' : Type} {f : ε → ε'} {a : α} : x.mapError f = .ok a ↔ x = .ok a := by
  cases x with
  | error e => exact ⟨(nomatch ·), (nomatch ·)⟩
  | ok a' =>
    constructor
    · exact fun h => congrArg _ (Except.ok.inj h)
    · exact fun h => congrArg _ (Except.ok.inj h)

theorem guard_ok {p : Prop} [Decidable p] {x y : Except ε β} {b : β} (hy : ∀ b, y ≠ .ok b) :
    (if p then y else x) = .ok b ↔ ¬ p ∧ x = .ok b := by
  by_cases hp : p
  · rw [if_pos hp]
    exact ⟨fun h => absurd h (hy b), fun h => absurd hp h.1⟩
  · rw [if_neg hp]
    exact ⟨fun h => ⟨hp, h⟩, fun h => h.2⟩

/-- What comes before the last step of a computation with a state succeeded too. -/
theorem run_bind_ok {σ : Type} {x : StateT σ (Except ε) α} {f : α → StateT σ (Except ε) β} {s s' : σ} {b : β} :
    (x >>= f).run s = .ok (b, s') ↔ ∃ a s₁, x.run s = .ok (a, s₁) ∧ (f a).run s₁ = .ok (b, s') := by
  rw [StateT.run_bind, bind_ok, Prod.exists]

theorem run_pure_ok {σ : Type} {s s' : σ} {a b : α} :
    (pure a : StateT σ (Except ε) α).run s = .ok (b, s') ↔ a = b ∧ s = s' := by
  rw [StateT.run_pure]
  constructor
  · intro h
    cases h
    exact ⟨rfl, rfl⟩
  · rintro ⟨rfl, rfl⟩
    rfl

end Except
