import LsmEngine.Lemmas.Bytes
import LsmEngine.Wal

/-!
# What a scan of a log reads back

A log is the frames of the entries appended to it, and after a crash any initial part of them. `scan_encodeAll_append` reads
the entries back through a torn tail, and `take_encodeAll` says that every cut of a log is such a log.
-/

namespace LsmEngine

open Segment

namespace WalAux

/-- An op byte is decoded to its op. -/
theorem fromByte_toByte (op : WalOp) : WalOp.fromByte op.toByte = .ok op := by
  cases op <;> rfl

/-- The fields of a frame, each at its offset. -/
theorem frame_at (Γ : Ctx) (e : WalEntry) (rest : Bytes) :
    At (e.frame Γ ++ rest) 0 (leBytes 4 (Γ.crc (entryBody e.op e.key e.value)).toNat) ∧
      At (e.frame Γ ++ rest) opByteOffset [e.op.toByte] ∧
      At (e.frame Γ ++ rest) keyLenOffset (leBytes 2 e.key.length) ∧
      At (e.frame Γ ++ rest) valLenOffset (leBytes 4 e.value.length) ∧
      At (e.frame Γ ++ rest) headerLen e.key ∧
      At (e.frame Γ ++ rest) (headerLen + e.key.length) e.value := by
  have hframe : At (e.frame Γ ++ rest) 0 (leBytes 4 (Γ.crc (entryBody e.op e.key e.value)).toNat ++ ([e.op.toByte] ++
      (leBytes 2 e.key.length ++ (leBytes 4 e.value.length ++ (e.key ++ e.value))))) :=
    ⟨[], rest, by simp [WalEntry.frame, entryBody, List.append_assoc], rfl⟩
  have hop := hframe.right
  have hkeyLen := hop.right
  have hvalLen := hkeyLen.right
  have hkey := hvalLen.right
  exact ⟨hframe.left, hop.left, hkeyLen.left, hvalLen.left, hkey.left, hkey.right⟩

/-- The op byte of a frame. -/
theorem frame_getD_op (Γ : Ctx) (e : WalEntry) (rest : Bytes) :
    (e.frame Γ ++ rest).getD opByteOffset 0 = e.op.toByte := by
  obtain ⟨-, hop, -⟩ := frame_at Γ e rest
  exact hop.getD 0

/-- The checksum of a frame. -/
theorem frame_crc (Γ : Ctx) (e : WalEntry) (rest : Bytes) :
    readU32 (e.frame Γ ++ rest) 0 = .ok (Γ.crc (entryBody e.op e.key e.value)).toNat := by
  obtain ⟨hcrc, -⟩ := frame_at Γ e rest
  exact readU32_ok_iff.2 ⟨(Γ.crc (entryBody e.op e.key e.value)).toNat_lt, hcrc⟩

/-- The key length of a frame. -/
theorem frame_keyLen (Γ : Ctx) {e : WalEntry} (h : e.key.length ≤ maxKeyLen) (rest : Bytes) :
    readU16 (e.frame Γ ++ rest) keyLenOffset = .ok e.key.length := by
  obtain ⟨-, -, hkeyLen, -⟩ := frame_at Γ e rest
  simp only [maxKeyLen] at h
  exact readU16_ok_iff.2 ⟨by omega, hkeyLen⟩

/-- The value length of a frame. -/
theorem frame_valLen (Γ : Ctx) {e : WalEntry} (h : e.value.length ≤ maxValueLen) (rest : Bytes) :
    readU32 (e.frame Γ ++ rest) valLenOffset = .ok e.value.length := by
  obtain ⟨-, -, -, hvalLen, -⟩ := frame_at Γ e rest
  simp only [maxValueLen] at h
  exact readU32_ok_iff.2 ⟨by omega, hvalLen⟩

/-- What the checksum of a frame covers. -/
theorem frame_body (Γ : Ctx) (e : WalEntry) (rest : Bytes) :
    ((e.frame Γ ++ rest).take (headerLen + e.key.length + e.value.length)).drop crcLen =
      entryBody e.op e.key e.value := by
  rw [← WalEntry.frame_length Γ e, List.take_left']
  · simp [WalEntry.frame, crcLen]
  · rfl

/-- The key of a frame. -/
theorem frame_key (Γ : Ctx) (e : WalEntry) (rest : Bytes) :
    ((e.frame Γ ++ rest).drop headerLen).take e.key.length = e.key := by
  obtain ⟨-, -, -, -, hkey, -⟩ := frame_at Γ e rest
  exact hkey.slice

/-- The value of a frame. -/
theorem frame_value (Γ : Ctx) (e : WalEntry) (rest : Bytes) :
    ((e.frame Γ ++ rest).drop (headerLen + e.key.length)).take e.value.length = e.value := by
  obtain ⟨-, -, -, -, -, hvalue⟩ := frame_at Γ e rest
  exact hvalue.slice

end WalAux

open WalAux

/-- `decode_entry` reads back the entry whose frame the bytes start with. -/
theorem decodeEntry_frame (Γ : Ctx) {e : WalEntry} (h : e.Valid) (rest : Bytes) :
    decodeEntry Γ (e.frame Γ ++ rest) = .ok e := by
  have hlen : (e.frame Γ ++ rest).length = headerLen + e.key.length + e.value.length + rest.length := by
    rw [List.length_append, WalEntry.frame_length]
  unfold decodeEntry
  rw [if_neg (by omega), frame_getD_op, fromByte_toByte]
  simp only [bind, Except.bind, pure, Except.pure]
  rw [frame_keyLen Γ h.1, frame_valLen Γ h.2.1]
  simp only []
  rw [if_neg (by omega), frame_crc, frame_body]
  simp only [ne_eq, not_true_eq_false, if_false]
  rw [frame_key, frame_value]

/-- A frame in front of other bytes is the first entry of the scan. -/
theorem scanFrom_frame (Γ : Ctx) {e : WalEntry} (h : e.Valid) (fuel offset : Nat) (rest : Bytes) :
    scanFrom Γ (fuel + 1) offset (e.frame Γ ++ rest) =
      (scanFrom Γ fuel (offset + (e.frame Γ).length) rest).map (e :: ·) := by
  have hlen : (e.frame Γ ++ rest).length = headerLen + e.key.length + e.value.length + rest.length := by
    rw [List.length_append, WalEntry.frame_length]
  have htake : (e.frame Γ ++ rest).take (headerLen + e.key.length + e.value.length) = e.frame Γ ++ [] := by
    rw [← WalEntry.frame_length Γ e, List.take_left, List.append_nil]
  have hdrop : (e.frame Γ ++ rest).drop (headerLen + e.key.length + e.value.length) = rest := by
    rw [← WalEntry.frame_length Γ e, List.drop_left]
  rw [scanFrom, if_neg (by omega), frame_keyLen Γ h.1, frame_valLen Γ h.2.1]
  simp only [bind, Except.bind]
  rw [if_neg (by omega), htake, decodeEntry_frame Γ h, hdrop, WalEntry.frame_length]
  simp only [Except.map]

/-- A torn tail reads as no entry. -/
theorem scanFrom_torn (Γ : Ctx) {tail : Bytes} (h : Torn Γ tail) (fuel offset : Nat) :
    scanFrom Γ fuel offset tail = .ok [] := by
  cases fuel with
  | zero => rfl
  | succ fuel =>
    obtain ⟨e, he, ⟨rest, hr⟩, hne⟩ := h
    have hlt : tail.length < (e.frame Γ).length := by
      have hl := congrArg List.length hr
      rw [List.length_append] at hl
      rcases rest with _ | ⟨b, rest⟩
      · exact absurd (by simpa using hr) hne
      · rw [List.length_cons] at hl
        omega
    unfold scanFrom
    split_ifs with hs
    · rfl
    · -- the header is all there: it declares the whole frame, which the tail does not hold
      have hread : ∀ o n, o + n ≤ headerLen → readExact tail o n = readExact (e.frame Γ ++ []) o n := by
        intro o n hon
        rw [List.append_nil, ← hr, readExact_append_left (by omega)]
      have hk : readU16 tail keyLenOffset = .ok e.key.length := by
        rw [← frame_keyLen Γ he.1 [], readU16, readU16, hread _ _ (by decide)]
      have hv : readU32 tail valLenOffset = .ok e.value.length := by
        rw [← frame_valLen Γ he.2.1 [], readU32, readU32, hread _ _ (by decide)]
      rw [hk, hv]
      simp only [bind, Except.bind]
      rw [WalEntry.frame_length] at hlt
      rw [if_pos (by omega)]

/-- A scan with enough fuel reads back the entries before a torn tail. -/
theorem scanFrom_encodeAll_append (Γ : Ctx) {es : List WalEntry} (h : ∀ e ∈ es, e.Valid) {tail : Bytes}
    (ht : Torn Γ tail) (fuel offset : Nat) (hf : (encodeAll Γ es).length < fuel) :
    scanFrom Γ fuel offset (encodeAll Γ es ++ tail) = .ok es := by
  induction es generalizing fuel offset with
  | nil => exact scanFrom_torn Γ ht fuel offset
  | cons e es ih =>
    cases fuel with
    | zero => omega
    | succ fuel =>
      have hpos := WalEntry.frame_length_pos Γ e
      rw [encodeAll_cons, List.length_append] at hf
      rw [encodeAll_cons, List.append_assoc, scanFrom_frame Γ (h e List.mem_cons_self),
        ih (fun x hx => h x (List.mem_cons_of_mem _ hx)) fuel _ (by omega)]
      rfl

/-- The entries of a log are read back, whatever torn tail follows them. -/
theorem scan_encodeAll_append (Γ : Ctx) {es : List WalEntry} (h : ∀ e ∈ es, e.Valid) {tail : Bytes} (ht : Torn Γ tail) :
    scan Γ (encodeAll Γ es ++ tail) = .ok es := by
  apply scanFrom_encodeAll_append Γ h ht
  rw [List.length_append]
  omega

/-- A log of frames is scanned to its entries. -/
theorem scan_encodeAll (Γ : Ctx) {es : List WalEntry} (h : ∀ e ∈ es, e.Valid) : scan Γ (encodeAll Γ es) = .ok es := by
  have := scan_encodeAll_append Γ h (torn_nil Γ)
  rwa [List.append_nil] at this

/-- Every cut of a log is the frames of its first entries and a torn tail; no entry whose frame lies before the cut is
missing. -/
theorem take_encodeAll (Γ : Ctx) {es : List WalEntry} (h : ∀ e ∈ es, e.Valid) (n : Nat) :
    ∃ j ≤ es.length, ∃ tail, Torn Γ tail ∧ (encodeAll Γ es).take n = encodeAll Γ (es.take j) ++ tail ∧
      ∀ i ≤ es.length, (encodeAll Γ (es.take i)).length ≤ n → i ≤ j := by
  induction es generalizing n with
  | nil => exact ⟨0, Nat.le_refl _, [], torn_nil Γ, by simp, fun i hi _ => by simpa using hi⟩
  | cons e es ih =>
    by_cases hn : (e.frame Γ).length ≤ n
    · obtain ⟨j, hj, tail, ht, heq, hmax⟩ := ih (fun x hx => h x (List.mem_cons_of_mem _ hx)) (n - (e.frame Γ).length)
      refine ⟨j + 1, by simpa using hj, tail, ht, ?_, ?_⟩
      · rw [encodeAll_cons, List.take_append, List.take_of_length_le hn, heq, List.take_succ_cons, encodeAll_cons,
          List.append_assoc]
      · intro i hi hle
        cases i with
        | zero => omega
        | succ i =>
          rw [List.take_succ_cons, encodeAll_cons, List.length_append] at hle
          have := hmax i (by simpa using hi) (by omega)
          omega
    · refine ⟨0, Nat.zero_le _, (e.frame Γ).take n, ⟨e, h e List.mem_cons_self, List.take_prefix _ _, ?_⟩, ?_, ?_⟩
      · intro heq
        have := congrArg List.length heq
        rw [List.length_take] at this
        omega
      · rw [encodeAll_cons, List.take_append_of_le_length (by omega)]
        rfl
      · intro i hi hle
        cases i with
        | zero => omega
        | succ i =>
          rw [List.take_succ_cons, encodeAll_cons, List.length_append] at hle
          omega

end LsmEngine
