import Mathlib.Order.Basic
import Mathlib.Order.Defs.LinearOrder
import Mathlib.Data.List.Lex
import Mathlib.Tactic.Ring

/-!
# Bytes, errors and little-endian integers

The error type of `error.rs` and the little-endian readers and writers of `utils/mod.rs`. A buffer is a list of bytes. The
writers take the value as a natural number and keep its low bytes, as the casts `as u16` and `as u32` of their callers do.
-/

namespace LsmEngine

abbrev Bytes := List UInt8
abbrev Key := Bytes
abbrev Value := Bytes

/-- Bytes are ordered by value; byte strings are then ordered as slices are, lexicographically. -/
instance byteOrder : LinearOrder UInt8 where
  le_refl := UInt8.le_refl
  le_trans := fun _ _ _ => UInt8.le_trans
  le_antisymm := fun _ _ => UInt8.le_antisymm
  le_total := UInt8.le_total
  lt_iff_le_not_ge := by
    intro a b
    simp only [UInt8.lt_iff_toNat_lt, UInt8.le_iff_toNat_le]
    omega
  toDecidableLE := inferInstance
  toDecidableLT := inferInstance
  toDecidableEq := inferInstance

/-- `LsmError`. An I/O error carries nothing the engine looks at. -/
inductive LsmError where
  | io
  | corruption (msg : String)
  | keyTooLarge (len max : Nat)
  | valueTooLarge (len max : Nat)
  | invalidOp (msg : String)
  deriving DecidableEq, Repr

/-- The text of an error, as `thiserror` derives it. -/
def LsmError.toString : LsmError → String
  | .io => "I/O error"
  | .corruption msg => "corrupted data: " ++ msg
  | .keyTooLarge len max => s!"key length {len} exceeds maximum {max}"
  | .valueTooLarge len max => s!"value length {len} exceeds maximum {max}"
  | .invalidOp msg => "invalid operation: " ++ msg

/-! ## Little-endian integers -/

/-- The `w` low bytes of a number, lowest first. -/
def leBytes : Nat → Nat → Bytes
  | 0, _ => []
  | w + 1, n => UInt8.ofNat (n % 256) :: leBytes w (n / 256)

/-- The number a little-endian byte string stands for. -/
def ofLeBytes : Bytes → Nat
  | [] => 0
  | b :: bs => b.toNat + 256 * ofLeBytes bs

def putU16 (buf : Bytes) (v : Nat) : Bytes := buf ++ leBytes 2 v

def putU32 (buf : Bytes) (v : Nat) : Bytes := buf ++ leBytes 4 v

def putU64 (buf : Bytes) (v : Nat) : Bytes := buf ++ leBytes 8 v

/-- `read_exact`: the `size` bytes at `offset`, or corruption when they run past the end. -/
def readExact (bytes : Bytes) (offset size : Nat) : Except LsmError Bytes :=
  if offset + size > bytes.length then
    .error (.corruption s!"read of {size} bytes at offset {offset} exceeds buffer length {bytes.length}")
  else .ok ((bytes.drop offset).take size)

def readU16 (bytes : Bytes) (offset : Nat) : Except LsmError Nat := (readExact bytes offset 2).map ofLeBytes

def readU32 (bytes : Bytes) (offset : Nat) : Except LsmError Nat := (readExact bytes offset 4).map ofLeBytes

def readU64 (bytes : Bytes) (offset : Nat) : Except LsmError Nat := (readExact bytes offset 8).map ofLeBytes

@[simp] theorem leBytes_length (w n : Nat) : (leBytes w n).length = w := by
  induction w generalizing n with
  | zero => rfl
  | succ w ih => simp [leBytes, ih]

/-- Reading back a little-endian number gives its low bytes. -/
theorem ofLeBytes_leBytes (w n : Nat) : ofLeBytes (leBytes w n) = n % 256 ^ w := by
  induction w generalizing n with
  | zero => simp [leBytes, ofLeBytes, Nat.mod_one]
  | succ w ih =>
    have hb : (UInt8.ofNat (n % 256)).toNat = n % 256 := by
      simp [UInt8.toNat_ofNat']
    rw [leBytes, ofLeBytes, ih, hb, Nat.pow_succ', Nat.mod_mul]

/-- A number that fits its width is read back as it was written. -/
theorem ofLeBytes_leBytes_of_lt {w n : Nat} (h : n < 256 ^ w) : ofLeBytes (leBytes w n) = n := by
  rw [ofLeBytes_leBytes, Nat.mod_eq_of_lt h]

/-- A read inside the buffer succeeds. -/
theorem readExact_of_le {bytes : Bytes} {offset size : Nat} (h : offset + size ≤ bytes.length) :
    readExact bytes offset size = .ok ((bytes.drop offset).take size) := by
  unfold readExact
  rw [if_neg (by omega)]

end LsmEngine
