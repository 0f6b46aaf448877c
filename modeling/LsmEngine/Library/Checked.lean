import Mathlib.Data.List.Basic
import Mathlib.Algebra.Ring.Nat

/-!
# Computations that a machine may refuse

A step of a program over slices and 64-bit words returns a result, returns an error that the program reports, or comes to a fault:
an index outside a slice, a difference below zero, a sum that does not fit a word, a buffer larger than it may be, a loop that does
not end. The operations say when they are faults; a program is safe when none of its runs comes to one, which is to say that it is
the `lift` of a computation that only returns results and errors.
-/

inductive Fault where
  | outOfBounds
  | underflow
  | wrapped
  | oversized
  | endless
  deriving DecidableEq, Repr

inductive Checked (ε α : Type) where
  | ok (a : α)
  | error (err : ε)
  | fault (f : Fault)
  deriving DecidableEq, Repr

namespace Checked

variable {ε α β : Type}

/-- What comes after a step is made only after a result. -/
protected def bind (x : Checked ε α) (f : α → Checked ε β) : Checked ε β :=
  match x with
  | .ok a => f a
  | .error err => .error err
  | .fault flt => .fault flt

instance : Monad (Checked ε) where
  pure := .ok
  bind := Checked.bind

/-- A computation without faults. -/
def lift : Except ε α → Checked ε α
  | .ok a => .ok a
  | .error err => .error err

/-! ## The operations -/

/-- `a + b` on words. -/
def add (a b : Nat) : Checked ε Nat := if a + b < 2 ^ 64 then .ok (a + b) else .fault .wrapped

/-- `a * b` on words. -/
def mul (a b : Nat) : Checked ε Nat := if a * b < 2 ^ 64 then .ok (a * b) else .fault .wrapped

/-- `a - b` on words. -/
def sub (a b : Nat) : Checked ε Nat := if b ≤ a then .ok (a - b) else .fault .underflow

/-- `xs[i]`. -/
def index (xs : List α) (i : Nat) : Checked ε α :=
  match xs[i]? with
  | some x => .ok x
  | none => .fault .outOfBounds

/-- `xs[i..j]`. -/
def slice (xs : List α) (i j : Nat) : Checked ε (List α) :=
  if i ≤ j ∧ j ≤ xs.length then .ok ((xs.drop i).take (j - i)) else .fault .outOfBounds

/-- A buffer of `n` elements where at most `limit` are allowed. -/
def alloc (limit n : Nat) : Checked ε Unit := if n ≤ limit then .ok () else .fault .oversized

/-- `xs.to_vec()`. -/
def toVec (limit : Nat) (xs : List α) : Checked ε (List α) := do
  alloc limit xs.length
  pure xs

/-- `xs.push(x)`. -/
def push (limit : Nat) (xs : List α) (x : α) : Checked ε (List α) := do
  alloc limit (xs.length + 1)
  pure (xs ++ [x])

/-! ## When they are no faults -/

@[simp] theorem ok_bind (a : α) (f : α → Checked ε β) : ((Checked.ok a : Checked ε α) >>= f) = f a := rfl

@[simp] theorem error_bind (err : ε) (f : α → Checked ε β) : ((Checked.error err : Checked ε α) >>= f) = .error err := rfl

@[simp] theorem lift_ok (a : α) : lift (.ok a : Except ε α) = .ok a := rfl

@[simp] theorem lift_error (err : ε) : lift (.error err : Except ε α) = .error err := rfl

/-- A sum that fits a word. -/
theorem add_eq {a b : Nat} (h : a + b < 2 ^ 64) : (add a b : Checked ε Nat) = .ok (a + b) := if_pos h

/-- A product that fits a word. -/
theorem mul_eq {a b : Nat} (h : a * b < 2 ^ 64) : (mul a b : Checked ε Nat) = .ok (a * b) := if_pos h

/-- A difference that is not below zero. -/
theorem sub_eq {a b : Nat} (h : b ≤ a) : (sub a b : Checked ε Nat) = .ok (a - b) := if_pos h

/-- An element inside a slice. -/
theorem index_eq {xs : List α} {i : Nat} (h : i < xs.length) (d : α) : (index xs i : Checked ε α) = .ok (xs.getD i d) := by
  rw [index, List.getD_eq_getElem?_getD, List.getElem?_eq_getElem h]
  rfl

/-- A slice inside a slice. -/
theorem slice_eq {xs : List α} {i j : Nat} (hij : i ≤ j) (hj : j ≤ xs.length) :
    (slice xs i j : Checked ε (List α)) = .ok ((xs.drop i).take (j - i)) := if_pos ⟨hij, hj⟩

/-- A slice by its length. -/
theorem slice_add_eq {xs : List α} {i n : Nat} (h : i + n ≤ xs.length) :
    (slice xs i (i + n) : Checked ε (List α)) = .ok ((xs.drop i).take n) := by
  rw [slice_eq (Nat.le_add_right i n) h, Nat.add_sub_cancel_left]

/-- A buffer that is not too large. -/
theorem alloc_eq {limit n : Nat} (h : n ≤ limit) : (alloc limit n : Checked ε Unit) = .ok () := if_pos h

/-- A copy that is not too large. -/
theorem toVec_eq {limit : Nat} {xs : List α} (h : xs.length ≤ limit) : (toVec limit xs : Checked ε (List α)) = .ok xs := by
  rw [toVec, alloc_eq h]
  rfl

/-- A list that does not get too large. -/
theorem push_eq {limit : Nat} {xs : List α} {x : α} (h : xs.length + 1 ≤ limit) :
    (push limit xs x : Checked ε (List α)) = .ok (xs ++ [x]) := by
  rw [push, alloc_eq h]
  rfl

/-- A step without faults, and a rest without faults after each of its results. -/
theorem lift_bind {x : Except ε α} {f : α → Checked ε β} {g : α → Except ε β} (h : ∀ a, x = .ok a → f a = lift (g a)) :
    (lift x >>= f) = lift (x >>= g) := by
  cases x with
  | error err => rfl
  | ok a => exact h a rfl

/-- A computation without faults and a function of its result. -/
theorem lift_map (x : Except ε α) (f : α → β) : (lift x >>= fun a => pure (f a)) = lift (x.map f) := by
  cases x <;> rfl

/-- A lifted computation has the results of the computation. -/
theorem lift_eq_ok {x : Except ε α} {a : α} : lift x = .ok a ↔ x = .ok a := by
  cases x <;> simp

/-! ## Which errors are reported -/

/-- Every error that the computation reports is one of `P`. -/
def ErrorsIn (P : ε → Prop) (x : Checked ε α) : Prop := ∀ err, x = .error err → P err

section

variable {P : ε → Prop}

/-- The errors of a step and of what comes after it. -/
theorem ErrorsIn.bind {x : Checked ε α} {f : α → Checked ε β} (hx : ErrorsIn P x) (hf : ∀ a, ErrorsIn P (f a)) :
    ErrorsIn P (x >>= f) := by
  intro err h
  cases x with
  | ok a => exact hf a err h
  | error err' => exact hx err (congrArg Checked.error (Checked.error.inj h))
  | fault flt => exact absurd h (by simp [Bind.bind, Checked.bind])

/-- A result is no error. -/
theorem errorsIn_ok (a : α) : ErrorsIn P (.ok a) := fun _ h => absurd h (by simp)

/-- A fault is no error. -/
theorem errorsIn_fault (flt : Fault) : ErrorsIn P (.fault flt : Checked ε α) := fun _ h => absurd h (by simp)

/-- An error that may be returned. -/
theorem errorsIn_error {err : ε} (h : P err) : ErrorsIn P (.error err : Checked ε α) :=
  fun _ h' => Checked.error.inj h' ▸ h

/-- The errors of both branches. -/
theorem ErrorsIn.ite {c : Prop} [Decidable c] {x y : Checked ε α} (hx : ErrorsIn P x) (hy : ErrorsIn P y) :
    ErrorsIn P (if c then x else y) := by
  split
  · exact hx
  · exact hy

/-- The operations return no errors. -/
theorem errorsIn_add (a b : Nat) : ErrorsIn P (add a b) := ErrorsIn.ite (errorsIn_ok _) (errorsIn_fault _)

theorem errorsIn_mul (a b : Nat) : ErrorsIn P (mul a b) := ErrorsIn.ite (errorsIn_ok _) (errorsIn_fault _)

theorem errorsIn_sub (a b : Nat) : ErrorsIn P (sub a b) := ErrorsIn.ite (errorsIn_ok _) (errorsIn_fault _)

theorem errorsIn_slice (xs : List α) (i j : Nat) : ErrorsIn P (slice xs i j) := ErrorsIn.ite (errorsIn_ok _) (errorsIn_fault _)

theorem errorsIn_alloc (limit n : Nat) : ErrorsIn P (alloc limit n) := ErrorsIn.ite (errorsIn_ok _) (errorsIn_fault _)

theorem errorsIn_index (xs : List α) (i : Nat) : ErrorsIn P (index xs i) := by
  unfold index
  split
  · exact errorsIn_ok _
  · exact errorsIn_fault _

theorem errorsIn_toVec (limit : Nat) (xs : List α) : ErrorsIn P (toVec limit xs) :=
  (errorsIn_alloc _ _).bind fun _ => errorsIn_ok _

theorem errorsIn_push (limit : Nat) (xs : List α) (x : α) : ErrorsIn P (push limit xs x) :=
  (errorsIn_alloc _ _).bind fun _ => errorsIn_ok _

end

end Checked
