import LsmEngine.Library.Fallible
import LsmEngine.Library.Segment
import LsmEngine.Utils

/-!
# What the readers of integers read

A read succeeds exactly when the bytes are there, and a number is read exactly when its little-endian bytes stand at the offset.
-/

namespace LsmEngine

open Fallible Segment

/-- A number of so many bytes is below the power of 256. -/
theorem ofLeBytes_lt (bs : Bytes) : ofLeBytes bs < 256 ^ bs.length := by
  induction bs with
  | nil => simp [ofLeBytes]
  | cons b bs ih =>
    have hb := b.toNat_lt
    rw [ofLeBytes, List.length_cons, Nat.pow_succ]
    omega

/-- The little-endian bytes of a number are the only ones of their length that read as it. -/
theorem leBytes_ofLeBytes (bs : Bytes) : leBytes bs.length (ofLeBytes bs) = bs := by
  induction bs with
  | nil => rfl
  | cons b bs ih =>
    have hb := b.toNat_lt
    have h1 : (b.toNat + 256 * ofLeBytes bs) % 256 = b.toNat := by omega
    have h2 : (b.toNat + 256 * ofLeBytes bs) / 256 = ofLeBytes bs := by omega
    rw [ofLeBytes, List.length_cons, leBytes, h1, h2, ih, UInt8.ofNat_toNat]

/-- A read succeeds exactly with the bytes that stand there. -/
theorem readExact_ok_iff {bytes f : Bytes} {o n : Nat} : readExact bytes o n = .ok f ↔ f.length = n ∧ At bytes o f := by
  constructor
  · intro h
    unfold readExact at h
    split at h
    · simp at h
    · rename_i hle
      rw [← Except.ok.inj h]
      refine ⟨?_, at_slice (by omega)⟩
      rw [List.length_take, List.length_drop]
      omega
  · rintro ⟨rfl, hat⟩
    rw [readExact_of_le hat.le, hat.slice]

/-- A read that fails reports corruption. -/
theorem readExact_error {bytes : Bytes} {o n : Nat} {err : LsmError} (h : readExact bytes o n = .error err) :
    ∃ msg, err = .corruption msg := by
  unfold readExact at h
  split at h
  · exact ⟨_, (Except.error.inj h).symm⟩
  · simp at h

/-- What stands after the bytes that are read does not matter. -/
theorem readExact_append_left {bs rest : Bytes} {offset size : Nat} (h : offset + size ≤ bs.length) :
    readExact (bs ++ rest) offset size = readExact bs offset size := by
  rw [readExact_of_le h, readExact_of_le (by rw [List.length_append]; omega), List.drop_append_of_le_length (by omega),
    List.take_append_of_le_length (by rw [List.length_drop]; omega)]

/-- The readers of integers, by their width. -/
theorem readLe_ok_iff {bytes : Bytes} {o w v : Nat} :
    (readExact bytes o w).map ofLeBytes = .ok v ↔ v < 256 ^ w ∧ At bytes o (leBytes w v) := by
  constructor
  · intro h
    obtain ⟨f, hr, rfl⟩ := map_eq_ok.1 h
    obtain ⟨rfl, hat⟩ := readExact_ok_iff.1 hr
    exact ⟨ofLeBytes_lt f, by rwa [leBytes_ofLeBytes]⟩
  · rintro ⟨hv, hat⟩
    rw [readExact_ok_iff.2 ⟨leBytes_length w v, hat⟩]
    simp only [Except.map, ofLeBytes_leBytes_of_lt hv]

theorem readLe_error {bytes : Bytes} {o w : Nat} {err : LsmError} (h : (readExact bytes o w).map ofLeBytes = .error err) :
    ∃ msg, err = .corruption msg :=
  readExact_error (map_eq_error.1 h)

/-- Two bytes read as the number whose bytes stand there. -/
theorem readU16_ok_iff {bytes : Bytes} {o v : Nat} : readU16 bytes o = .ok v ↔ v < 256 ^ 2 ∧ At bytes o (leBytes 2 v) :=
  readLe_ok_iff

/-- Four bytes read as the number whose bytes stand there. -/
theorem readU32_ok_iff {bytes : Bytes} {o v : Nat} : readU32 bytes o = .ok v ↔ v < 256 ^ 4 ∧ At bytes o (leBytes 4 v) :=
  readLe_ok_iff

/-- Eight bytes read as the number whose bytes stand there. -/
theorem readU64_ok_iff {bytes : Bytes} {o v : Nat} : readU64 bytes o = .ok v ↔ v < 256 ^ 8 ∧ At bytes o (leBytes 8 v) :=
  readLe_ok_iff

end LsmEngine
