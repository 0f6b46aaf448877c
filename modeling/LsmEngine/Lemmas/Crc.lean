import LsmEngine.Ctx
import Mathlib.Data.Nat.Bitwise

/-!
# CRC-32 notices a changed byte

Every step of the checksum is injective on the 32-bit states, so two inputs that part in one byte and agree after it never come
to the same state again.
-/

namespace LsmEngine

/-- What the engine relies on of the checksum: byte strings of the same length that differ in exactly one byte have different
checksums. -/
def DetectsByte (crc : Bytes → UInt32) : Prop :=
  ∀ (bs : Bytes) (i : Nat) (b : UInt8), i < bs.length → bs[i]? ≠ some b → crc (bs.set i b) ≠ crc bs

namespace Crc

/-- A step of the checksum stays in 32 bits. -/
theorem crcBit_lt {c : Nat} (h : c < 2 ^ 32) : crcBit c < 2 ^ 32 := by
  unfold crcBit
  split
  · exact Nat.xor_lt_two_pow (by omega) (by decide)
  · omega

/-- The top bit of the next state is the bit that was shifted out. -/
theorem crcBit_testBit {c : Nat} (h : c < 2 ^ 32) : (crcBit c).testBit 31 = decide (c % 2 = 1) := by
  have hhalf : (c / 2).testBit 31 = false := Nat.testBit_lt_two_pow (by omega)
  unfold crcBit
  split
  · rename_i hodd
    rw [Nat.testBit_xor, hhalf, hodd]
    decide
  · rename_i heven
    rw [hhalf]
    simp [heven]

theorem crcBit_inj {c c' : Nat} (h : c < 2 ^ 32) (h' : c' < 2 ^ 32) (heq : crcBit c = crcBit c') : c = c' := by
  have hbit : decide (c % 2 = 1) = decide (c' % 2 = 1) := by rw [← crcBit_testBit h, ← crcBit_testBit h', heq]
  have hpar : c % 2 = 1 ↔ c' % 2 = 1 := decide_eq_decide.1 hbit
  have hhalf : c / 2 = c' / 2 := by
    unfold crcBit at heq
    by_cases hodd : c % 2 = 1
    · rw [if_pos hodd, if_pos (hpar.1 hodd)] at heq
      exact Nat.xor_left_injective heq
    · rw [if_neg hodd, if_neg (fun hc => hodd (hpar.2 hc))] at heq
      exact heq
  omega

/-- The state after one more byte. -/
def crcByte (c : Nat) (b : UInt8) : Nat := crcBit^[8] (c ^^^ b.toNat)

/-- A byte changes the low bits only. -/
theorem xor_byte_lt {c : Nat} (h : c < 2 ^ 32) (b : UInt8) : c ^^^ b.toNat < 2 ^ 32 :=
  Nat.xor_lt_two_pow h (b.toNat_lt.trans (by decide))

/-- Any number of steps stay in 32 bits. -/
theorem iterate_lt {c : Nat} (n : Nat) (h : c < 2 ^ 32) : crcBit^[n] c < 2 ^ 32 := by
  induction n generalizing c with
  | zero => exact h
  | succ n ih => exact ih (crcBit_lt h)

/-- Any number of steps can be undone. -/
theorem iterate_inj {c c' : Nat} (n : Nat) (h : c < 2 ^ 32) (h' : c' < 2 ^ 32) (heq : crcBit^[n] c = crcBit^[n] c') : c = c' := by
  induction n generalizing c c' with
  | zero => exact heq
  | succ n ih => exact crcBit_inj h h' (ih (crcBit_lt h) (crcBit_lt h') heq)

/-- A byte leaves the checksum in 32 bits. -/
theorem crcByte_lt {c : Nat} (h : c < 2 ^ 32) (b : UInt8) : crcByte c b < 2 ^ 32 := iterate_lt 8 (xor_byte_lt h b)

theorem fold_lt {c : Nat} (h : c < 2 ^ 32) (bs : Bytes) : bs.foldl crcByte c < 2 ^ 32 := by
  induction bs generalizing c with
  | nil => exact h
  | cons b bs ih => exact ih (crcByte_lt h b)

/-- The bytes after a difference keep it. -/
theorem fold_inj {c c' : Nat} (h : c < 2 ^ 32) (h' : c' < 2 ^ 32) (bs : Bytes) (heq : bs.foldl crcByte c = bs.foldl crcByte c') :
    c = c' := by
  induction bs generalizing c c' with
  | nil => exact heq
  | cons b bs ih =>
    have := iterate_inj 8 (xor_byte_lt h b) (xor_byte_lt h' b) (ih (crcByte_lt h b) (crcByte_lt h' b) heq)
    exact Nat.xor_left_injective this

/-- The checksum of bytes as a fold over them. -/
theorem crc32_eq (bs : Bytes) : crc32 bs = UInt32.ofNat (bs.foldl crcByte 0xFFFFFFFF ^^^ 0xFFFFFFFF) := by
  have hstep : (fun (c : Nat) (b : UInt8) => crcBit (crcBit (crcBit (crcBit (crcBit (crcBit (crcBit (crcBit (c ^^^ b.toNat)))))))))
      = crcByte := by
    funext c b
    simp only [crcByte, Function.iterate_succ_apply', Function.iterate_zero_apply]
  rw [crc32, hstep]

end Crc

open Crc

/-- The checksum tells bytes apart that differ in one place. -/
theorem crc32_detectsByte : DetectsByte crc32 := by
  intro bs i b hi hne heq
  rw [crc32_eq, crc32_eq] at heq
  have hlt : ∀ cs : Bytes, cs.foldl crcByte 0xFFFFFFFF ^^^ 0xFFFFFFFF < 2 ^ 32 :=
    fun cs => Nat.xor_lt_two_pow (fold_lt (by decide) cs) (by decide)
  have hnat := congrArg UInt32.toNat heq
  rw [UInt32.toNat_ofNat_of_lt' (hlt _), UInt32.toNat_ofNat_of_lt' (hlt _)] at hnat
  have hfold := Nat.xor_left_injective hnat
  have hsplit : bs = bs.take i ++ bs[i] :: bs.drop (i + 1) := by simp
  rw [List.set_eq_take_append_cons_drop, if_pos hi] at hfold
  conv_rhs at hfold => rw [hsplit]
  rw [List.foldl_append, List.foldl_append, List.foldl_cons, List.foldl_cons] at hfold
  have hc := fold_lt (c := 0xFFFFFFFF) (by decide) (bs.take i)
  have hx := fold_inj (crcByte_lt hc b) (crcByte_lt hc bs[i]) _ hfold
  have hx' := Nat.xor_right_injective (iterate_inj 8 (xor_byte_lt hc b) (xor_byte_lt hc bs[i]) hx)
  apply hne
  rw [List.getElem?_eq_getElem hi, UInt8.toNat_inj.1 hx']

end LsmEngine
