import Mathlib.Tactic.Basic

/-!
# Fallible computations

How a sequence of steps that may fail ends: with a result exactly when every step has one, and with an error exactly when one of its
steps does.
-/

namespace Fallible

universe u v

variable {ε : Type u} {α β : Type v} {x : Except ε α} {err : ε} {b : β}

/-- A step and the rest succeed when the step does and the rest does on its result. -/
theorem bind_eq_ok {f : α → Except ε β} : (x >>= f) = .ok b ↔ ∃ a, x = .ok a ∧ f a = .ok b := by
  cases x with
  | error err => simp [bind, Except.bind]
  | ok a => simp [bind, Except.bind]

/-- A step and the rest fail when the step does, or the rest does on its result. -/
theorem bind_eq_error {f : α → Except ε β} :
    (x >>= f) = .error err ↔ x = .error err ∨ ∃ a, x = .ok a ∧ f a = .error err := by
  cases x with
  | error err' => simp [bind, Except.bind]
  | ok a => simp [bind, Except.bind]

/-- A function of a result has a value where there is a result. -/
theorem map_eq_ok {f : α → β} : x.map f = .ok b ↔ ∃ a, x = .ok a ∧ f a = b := by
  cases x with
  | error err => simp [Except.map]
  | ok a => simp [Except.map]

theorem map_eq_error {f : α → β} : x.map f = .error err ↔ x = .error err := by
  cases x with
  | error err' => simp [Except.map]
  | ok a => simp [Except.map]

/-- A check that throws, and what comes after it. -/
theorem guard_eq_ok {γ : Type v} {c : Prop} [Decidable c] {f : γ → Except ε β} {y : Except ε β} :
    (if c then (throw err : Except ε γ) >>= f else y) = .ok b ↔ ¬ c ∧ y = .ok b := by
  by_cases hc : c
  · simp [hc, throw, throwThe, MonadExceptOf.throw, bind, Except.bind]
  · simp [hc]

/-- A check fails with its error, or what follows does. -/
theorem guard_eq_error {γ : Type v} {c : Prop} [Decidable c] {f : γ → Except ε β} {y : Except ε β} {err' : ε} :
    (if c then (throw err : Except ε γ) >>= f else y) = .error err' ↔ (c ∧ err = err') ∨ (¬ c ∧ y = .error err') := by
  by_cases hc : c
  · simp [hc, throw, throwThe, MonadExceptOf.throw, bind, Except.bind]
  · simp [hc]

end Fallible
