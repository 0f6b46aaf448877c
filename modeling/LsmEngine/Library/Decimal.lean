import Mathlib.Data.List.Basic
import Mathlib.Algebra.Ring.Nat

/-!
# Decimal numbers of a least width

Core formats a number by `Nat.toDigits 10` and reads digits back by `Nat.ofDigitChars 10`. A string of digits is zeros before
the number it stands for; so among the strings that stand for a number exactly one has a given width, or the least width above
it.
-/

namespace Decimal

def AllDigits (ds : List Char) : Prop := ∀ c ∈ ds, c.isDigit = true

/-- What a string of digits stands for. -/
def value (ds : List Char) : Nat := Nat.ofDigitChars 10 ds 0

/-- A number with zeros before it up to `w` digits. -/
def padded (w n : Nat) : List Char := List.replicate (w - (Nat.toDigits 10 n).length) '0' ++ Nat.toDigits 10 n

/-- The digits of a number are digits. -/
theorem allDigits_toDigits (n : Nat) : AllDigits (Nat.toDigits 10 n) :=
  fun _ hc => Nat.isDigit_of_mem_toDigits (by decide) (by decide) hc

theorem allDigits_padded (w n : Nat) : AllDigits (padded w n) := by
  intro c hc
  rcases List.mem_append.1 hc with hc | hc
  · rw [List.eq_of_mem_replicate hc]
    rfl
  · exact allDigits_toDigits n c hc

/-- The zeros do not change the number. -/
@[simp] theorem value_padded (w n : Nat) : value (padded w n) = n := by
  rw [value, padded, Nat.ofDigitChars_append, Nat.ofDigitChars_replicate_zero, Nat.mul_zero, Nat.ofDigitChars_ten_toDigits]

/-- A number has a digit. -/
theorem padded_ne_nil (w n : Nat) : padded w n ≠ [] := by
  intro h
  exact Nat.toDigits_ne_nil (List.append_eq_nil_iff.1 h).2

/-- A number of at most `k` digits is not longer than its least width or `k`. -/
theorem length_padded_le {w n k : Nat} (hk : 0 < k) (h : n < 10 ^ k) : (padded w n).length ≤ max w k := by
  have hdigits : (Nat.toDigits 10 n).length ≤ k := (Nat.length_toDigits_le_iff (by decide) hk).2 h
  rw [padded, List.length_append, List.length_replicate]
  omega

/-- The digit of a digit character. -/
theorem digitChar_of_isDigit {c : Char} (hc : c.isDigit = true) :
    c.toNat - '0'.toNat < 10 ∧ (c.toNat - '0'.toNat).digitChar = c := by
  have h : 48 ≤ c.toNat ∧ c.toNat ≤ 57 := by simpa [Char.isDigit, UInt32.le_iff_toNat_le] using hc
  have h0 : '0'.toNat = 48 := rfl
  refine ⟨by omega, Char.toNat_inj.1 ?_⟩
  rw [Nat.toNat_digitChar_of_lt_ten (by omega)]
  omega

/-- Reading digits after a number that is not zero appends them to it. -/
theorem toDigits_append {ds : List Char} (hd : AllDigits ds) {n : Nat} (hn : 0 < n) :
    Nat.toDigits 10 n ++ ds = Nat.toDigits 10 (Nat.ofDigitChars 10 ds n) := by
  induction ds generalizing n with
  | nil => simp
  | cons c cs ih =>
    obtain ⟨hlt, hc⟩ := digitChar_of_isDigit (hd c (by simp))
    have hstep : Nat.toDigits 10 n ++ [c] = Nat.toDigits 10 (10 * n + (c.toNat - '0'.toNat)) := by
      rw [← Nat.toDigits_append_toDigits (by decide) hn hlt, Nat.toDigits_of_lt_base hlt, hc]
    calc Nat.toDigits 10 n ++ c :: cs = (Nat.toDigits 10 n ++ [c]) ++ cs := by simp
      _ = Nat.toDigits 10 (10 * n + (c.toNat - '0'.toNat)) ++ cs := by rw [hstep]
      _ = Nat.toDigits 10 (Nat.ofDigitChars 10 (c :: cs) n) := by
        rw [ih (fun x hx => hd x (List.mem_cons_of_mem c hx)) (by omega), Nat.ofDigitChars_cons]

/-- A string of digits is zeros before the number it stands for. -/
theorem exists_zeros {ds : List Char} (hd : AllDigits ds) (hne : ds ≠ []) :
    ∃ j, ds = List.replicate j '0' ++ Nat.toDigits 10 (value ds) := by
  induction ds with
  | nil => exact absurd rfl hne
  | cons c cs ih =>
    have hcs : AllDigits cs := fun x hx => hd x (List.mem_cons_of_mem c hx)
    obtain ⟨hlt, hc⟩ := digitChar_of_isDigit (hd c (by simp))
    have hval : value (c :: cs) = Nat.ofDigitChars 10 cs (c.toNat - '0'.toNat) := by
      rw [value, Nat.ofDigitChars_cons, Nat.mul_zero, Nat.zero_add]
    rcases Nat.eq_zero_or_pos (c.toNat - '0'.toNat) with h0 | hpos
    · -- A leading zero counts for nothing, unless it is the whole string.
      rw [h0] at hc
      have hc0 : c = '0' := hc.symm
      rw [hval, h0]
      rcases eq_or_ne cs [] with rfl | hcne
      · exact ⟨0, by simp [hc0]⟩
      · obtain ⟨j, hj⟩ := ih hcs hcne
        refine ⟨j + 1, ?_⟩
        rw [List.replicate_succ, List.cons_append, hc0]
        exact congrArg _ hj
    · refine ⟨0, ?_⟩
      rw [hval, ← toDigits_append hcs hpos, Nat.toDigits_of_lt_base hlt, hc]
      rfl

/-- A number of more than one digit does not start with a zero. -/
theorem head_toDigits_ne_zero {n : Nat} (h : 1 < (Nat.toDigits 10 n).length) : (Nat.toDigits 10 n).head? ≠ some '0' := by
  intro h0
  obtain ⟨cs, hcs⟩ := List.head?_eq_some_iff.1 h0
  have hd : AllDigits cs := fun x hx => allDigits_toDigits n x (by rw [hcs]; exact List.mem_cons_of_mem _ hx)
  have hne : cs ≠ [] := by
    rintro rfl
    simp [hcs] at h
  have hv : value cs = n := by
    have hn : value (Nat.toDigits 10 n) = n := Nat.ofDigitChars_ten_toDigits
    rwa [hcs, value, Nat.ofDigitChars_cons] at hn
  -- What is left is as long as the number itself, which is one digit longer.
  obtain ⟨j, hj⟩ := exists_zeros hd hne
  have hl := congrArg List.length hj
  rw [hv, hcs, List.length_append, List.length_cons] at hl
  omega

/-- The strings of digits that the format writes. -/
theorem eq_padded_iff {w : Nat} (hw : 0 < w) {ds : List Char} (hd : AllDigits ds) (hne : ds ≠ []) :
    ds = padded w (value ds) ↔ ds.length = w ∨ (w < ds.length ∧ ds.head? ≠ some '0') := by
  constructor
  · intro h
    have hl := congrArg List.length h
    rw [padded, List.length_append, List.length_replicate] at hl
    rcases Nat.lt_or_ge w (Nat.toDigits 10 (value ds)).length with hlt | hge
    · right
      rw [padded, Nat.sub_eq_zero_of_le (Nat.le_of_lt hlt), List.replicate_zero, List.nil_append] at h
      refine ⟨by omega, ?_⟩
      rw [h]
      exact head_toDigits_ne_zero (by omega)
    · left
      omega
  · intro h
    obtain ⟨j, hj⟩ := exists_zeros hd hne
    have hl := congrArg List.length hj
    rw [List.length_append, List.length_replicate] at hl
    have hj0 : j = w - (Nat.toDigits 10 (value ds)).length := by
      rcases h with h | ⟨hlt, hhead⟩
      · omega
      · rcases j with - | j
        · omega
        · rw [hj] at hhead
          exact absurd rfl hhead
    rw [padded, ← hj0]
    exact hj

end Decimal
