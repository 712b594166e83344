/-!
# Computations that can fail

When a computation that is put together of steps succeeds, and with what: read off its steps, once
for computations that only fail or succeed and once for those that carry a state along.
-/

namespace JackCompiler

namespace Fallible

variable {ε ε' σ α β : Type}

/-! ## Without a state -/

/-- Two steps succeed when the first does, and the second with its value. -/
theorem bind_eq_ok {x : Except ε α} {f : α → Except ε β} {b : β} :
    x >>= f = .ok b ↔ ∃ a, x = .ok a ∧ f a = .ok b := by
  rcases x with e | a <;> simp [bind, Except.bind]

/-- A value is the only value of the computation that gives it. -/
theorem pure_eq_ok {a b : α} : (pure a : Except ε α) = .ok b ↔ b = a := by
  simp only [pure, Except.pure, Except.ok.injEq]
  exact eq_comm

/-! ## With a state -/

variable {s s' : σ}

/-- Two steps succeed when the first does, and the second from where it stopped. -/
theorem run_bind_eq_ok {x : EStateM ε σ α} {f : α → EStateM ε σ β} {b : β} :
    (x >>= f) s = .ok b s' ↔ ∃ a s₁, x s = .ok a s₁ ∧ f a s₁ = .ok b s' := by
  change EStateM.bind x f s = .ok b s' ↔ _
  unfold EStateM.bind
  cases x s with
  | error e s₁ => simp
  | ok a s₁ =>
    constructor
    · intro h
      exact ⟨a, s₁, rfl, h⟩
    · rintro ⟨a', s₂, hx, h⟩
      cases hx
      exact h

/-- A value leaves the state as it is. -/
theorem run_pure_eq_ok {a b : α} :
    (pure a : EStateM ε σ α) s = .ok b s' ↔ b = a ∧ s' = s := by
  change EStateM.pure a s = .ok b s' ↔ _
  simp [EStateM.pure, eq_comm]

/-- A step that needs no state leaves it as it is. -/
theorem run_ofExcept_eq_ok {x : Except ε α} {a : α} :
    (ofExcept x : EStateM ε σ α) s = .ok a s' ↔ x = .ok a ∧ s' = s := by
  cases x with
  | error e =>
    change EStateM.Result.error e s = .ok a s' ↔ _
    simp
  | ok b =>
    change EStateM.pure b s = .ok a s' ↔ _
    simp [EStateM.pure, eq_comm]

/-- Other words for the errors make no difference to a success. -/
theorem run_adaptExcept_eq_ok {f : ε → ε'} {x : EStateM ε σ α} {a : α} :
    x.adaptExcept f s = .ok a s' ↔ x s = .ok a s' := by
  unfold EStateM.adaptExcept
  cases x s <;> simp

/-- An error in other words is an error. -/
theorem run_adaptExcept_eq_error {f : ε → ε'} {x : EStateM ε σ α} {e : ε'} :
    x.adaptExcept f s = .error e s' ↔ ∃ e₁, x s = .error e₁ s' ∧ e = f e₁ := by
  unfold EStateM.adaptExcept
  cases x s with
  | ok a s₁ => simp
  | error e₁ s₁ =>
    constructor
    · rintro ⟨⟩
      exact ⟨e₁, rfl, rfl⟩
    · rintro ⟨e₂, ⟨⟩, rfl⟩
      rfl

end Fallible

end JackCompiler
