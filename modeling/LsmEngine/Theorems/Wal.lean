import LsmEngine.Lemmas.Crc
import LsmEngine.Lemmas.Wal
import LsmEngine.MemTable

/-!
# The log reads back what was appended

The round trip of the log codec under any cut, and what a damaged byte in a frame does.
-/

namespace LsmEngine

variable {Γ : Ctx}

/-! ## Appends -/

/-- The calls that returned `Ok`. -/
def accepted (Γ : Ctx) (calls : List WalEntry) : List WalEntry := calls.filter (fun e => (walAppend Γ [] e).2.isOk)

/-- A read does not see a change elsewhere. -/
theorem readExact_set {bs : Bytes} {i : Nat} {b : UInt8} {offset size : Nat} (h : i < offset ∨ offset + size ≤ i) :
    readExact (bs.set i b) offset size = readExact bs offset size := by
  have htake : ((bs.set i b).drop offset).take size = (bs.drop offset).take size := by
    rw [List.drop_set]
    rcases h with h | h
    · rw [if_pos h]
    · rw [if_neg (by omega), List.take_set, List.set_eq_of_length_le]
      simp only [List.length_take]
      omega
  rw [readExact, readExact, List.length_set, htake]

/-- Bytes of one length are known from their number. -/
theorem ofLeBytes_inj {bs cs : Bytes} (hl : bs.length = cs.length) (h : ofLeBytes bs = ofLeBytes cs) : bs = cs := by
  induction bs generalizing cs with
  | nil =>
    rw [List.length_nil, eq_comm, List.length_eq_zero_iff] at hl
    exact hl.symm
  | cons b bs ih =>
    cases cs with
    | nil => simp at hl
    | cons c cs =>
      simp only [ofLeBytes] at h
      have hb := b.toNat_lt
      have hc := c.toNat_lt
      have heq : b = c := UInt8.toNat_inj.1 (by omega)
      rw [heq, ih (by simpa using hl) (by omega)]

/-- A frame that is all there and fails to decode ends the scan with an error. -/
theorem scanFrom_bad {bad rest : Bytes} {kl vl : Nat} (hk : readU16 bad keyLenOffset = .ok kl)
    (hv : readU32 bad valLenOffset = .ok vl) (hlen : bad.length = headerLen + kl + vl) {err : LsmError}
    (he : decodeEntry Γ bad = .error err) (fuel offset : Nat) :
    scanFrom Γ (fuel + 1) offset (bad ++ rest) =
      .error (.corruption (s!"wal entry at byte {offset} failed to decode: " ++ err.toString)) := by
  have hl : (bad ++ rest).length = bad.length + rest.length := List.length_append
  have hhead : headerLen = 11 := rfl
  have hk' : readU16 (bad ++ rest) keyLenOffset = .ok kl := by
    rw [readU16, readExact_append_left (by rw [hlen]; simp only [keyLenOffset, crcLen, opLen]; omega)]
    exact hk
  have hv' : readU32 (bad ++ rest) valLenOffset = .ok vl := by
    rw [readU32, readExact_append_left (by rw [hlen]; simp only [valLenOffset, crcLen, opLen, keyLenLen]; omega)]
    exact hv
  rw [scanFrom, if_neg (by omega), hk', hv']
  simp only [bind, Except.bind]
  rw [if_neg (by omega), ← hlen, List.take_left, he]

/-- An error after some whole frames is an error of the scan. -/
theorem scanFrom_error_after {es : List WalEntry} (h : ∀ e ∈ es, e.Valid) {rest : Bytes}
    (hrest : ∀ fuel offset, ∃ msg, scanFrom Γ (fuel + 1) offset rest = .error (.corruption msg)) (fuel offset : Nat)
    (hf : (encodeAll Γ es).length < fuel) : ∃ msg, scanFrom Γ fuel offset (encodeAll Γ es ++ rest) = .error (.corruption msg) := by
  induction es generalizing fuel offset with
  | nil =>
    obtain ⟨k, rfl⟩ : ∃ k, fuel = k + 1 := ⟨fuel - 1, by omega⟩
    exact hrest k offset
  | cons e es ih =>
    obtain ⟨k, rfl⟩ : ∃ k, fuel = k + 1 := ⟨fuel - 1, by omega⟩
    rw [encodeAll_cons, List.length_append] at hf
    have := e.frame_length_pos Γ
    obtain ⟨msg, hmsg⟩ := ih (fun x hx => h x (List.mem_cons_of_mem _ hx)) k (offset + (e.frame Γ).length) (by omega)
    refine ⟨msg, ?_⟩
    rw [encodeAll_cons, List.append_assoc, scanFrom_frame Γ (h e List.mem_cons_self), hmsg]
    rfl

/-- A frame with one byte changed outside its length fields declares the same lengths. -/
theorem damaged_lengths {e : WalEntry} (h : e.Valid) {i : Nat} {b : UInt8} (hout : i < keyLenOffset ∨ headerLen ≤ i) :
    readU16 ((e.frame Γ).set i b) keyLenOffset = .ok e.key.length ∧
      readU32 ((e.frame Γ).set i b) valLenOffset = .ok e.value.length := by
  have hk := WalAux.frame_keyLen Γ h.1 []
  have hv := WalAux.frame_valLen Γ h.2.1 []
  rw [List.append_nil] at hk hv
  simp only [keyLenOffset, valLenOffset, headerLen, crcLen, opLen, keyLenLen, valLenLen] at hout hk hv ⊢
  rw [readU16, readU32, readExact_set (by omega), readExact_set (by omega)]
  exact ⟨hk, hv⟩

/-- A frame with one byte changed outside its length fields does not decode. -/
theorem decodeEntry_damaged (hcrc : DetectsByte Γ.crc) {e : WalEntry} (h : e.Valid) {i : Nat} {b : UInt8}
    (hi : i < (e.frame Γ).length) (hout : i < keyLenOffset ∨ headerLen ≤ i) (hne : (e.frame Γ)[i]? ≠ some b) :
    ∃ err, decodeEntry Γ ((e.frame Γ).set i b) = .error err := by
  have hlen : ((e.frame Γ).set i b).length = headerLen + e.key.length + e.value.length := by
    rw [List.length_set, WalEntry.frame_length]
  obtain ⟨hk, hv⟩ := damaged_lengths (Γ := Γ) h (b := b) hout
  have hbody : (e.frame Γ).drop crcLen = entryBody e.op e.key e.value := by simp [WalEntry.frame, crcLen]
  have hcrcField : (e.frame Γ).take crcLen = leBytes 4 (Γ.crc (entryBody e.op e.key e.value)).toNat := by
    rw [WalEntry.frame, List.take_left']
    simp [crcLen]
  -- the checksum field and the bytes it covers no longer agree
  have hmismatch : (Γ.crc (((e.frame Γ).set i b).drop crcLen)).toNat ≠ ofLeBytes (((e.frame Γ).set i b).take crcLen) := by
    have hstored : ofLeBytes ((e.frame Γ).take crcLen) = (Γ.crc (entryBody e.op e.key e.value)).toNat := by
      rw [hcrcField]
      exact ofLeBytes_leBytes_of_lt (UInt32.toNat_lt _)
    rw [List.drop_set, List.take_set]
    by_cases hlt : i < crcLen
    · rw [if_pos hlt, hbody, ← hstored]
      intro heq
      have hset := ofLeBytes_inj (by rw [List.length_set]) heq
      apply hne
      have hget : ((e.frame Γ).take crcLen)[i]? = some b := by
        rw [hset, List.getElem?_set_self]
        simp only [List.length_take]
        omega
      rwa [List.getElem?_take, if_pos hlt] at hget
    · rw [if_neg hlt, List.set_eq_of_length_le (l := (e.frame Γ).take crcLen) (by simp only [List.length_take]; omega), hstored,
        ← hbody]
      intro heq
      refine hcrc ((e.frame Γ).drop crcLen) (i - crcLen) b (by simp only [List.length_drop]; omega) ?_ (UInt32.toNat_inj.1 heq)
      rw [List.getElem?_drop, show crcLen + (i - crcLen) = i by omega]
      exact hne
  unfold decodeEntry
  rw [if_neg (by omega)]
  simp only [bind, Except.bind, pure, Except.pure]
  cases hop : WalOp.fromByte (((e.frame Γ).set i b).getD opByteOffset 0) with
  | error err => exact ⟨err, rfl⟩
  | ok op =>
    have hcrc4 : readU32 ((e.frame Γ).set i b) 0 = .ok (ofLeBytes (((e.frame Γ).set i b).take crcLen)) := by
      rw [readU32, readExact_of_le (by rw [hlen]; simp only [headerLen, crcLen]; omega)]
      rfl
    simp only [hk, hv, hcrc4]
    rw [if_neg (by omega), ← hlen, List.take_length, if_pos hmismatch]
    exact ⟨_, rfl⟩

/-- One byte changed in any complete frame of a log, outside the two length fields, is reported: the scan fails with corruption
and a replay applies nothing, wherever the frame stands and whether or not a torn tail follows. -/
theorem damaged_byte_is_reported (hcrc : DetectsByte Γ.crc) {pre : List WalEntry} (hpre : ∀ x ∈ pre, x.Valid) {e : WalEntry} (he : e.Valid)
    (post : List WalEntry) (tail : Bytes) {i : Nat} {b : UInt8} (hi : i < (e.frame Γ).length)
    (hout : i < keyLenOffset ∨ headerLen ≤ i) (hne : (e.frame Γ)[i]? ≠ some b) (m : MemTable) :
    ∃ msg, scan Γ (encodeAll Γ pre ++ ((e.frame Γ).set i b ++ (encodeAll Γ post ++ tail))) = .error (.corruption msg) ∧
      replayInto Γ (encodeAll Γ pre ++ ((e.frame Γ).set i b ++ (encodeAll Γ post ++ tail))) m = .error (.corruption msg) := by
  obtain ⟨err, herr⟩ := decodeEntry_damaged hcrc he hi hout hne
  obtain ⟨hk, hv⟩ := damaged_lengths (Γ := Γ) he (b := b) hout
  have hscan : ∃ msg, scan Γ (encodeAll Γ pre ++ ((e.frame Γ).set i b ++ (encodeAll Γ post ++ tail))) =
      .error (.corruption msg) := by
    refine scanFrom_error_after hpre (fun fuel offset => ⟨_, scanFrom_bad hk hv
      (by rw [List.length_set, WalEntry.frame_length]) herr fuel offset⟩) _ _ (by rw [List.length_append]; omega)
  obtain ⟨msg, hmsg⟩ := hscan
  exact ⟨msg, hmsg, by rw [replayInto, hmsg]; rfl⟩

/-- The op byte of the second of three frames turned from a put into a delete, before a torn tail. -/
theorem damaged_op_is_reported :
    let pre : List WalEntry := [⟨.put, [1], [7]⟩]
    let post : List WalEntry := [⟨.delete, [1], []⟩]
    let bytes := encodeAll Ctx.concrete pre ++ ((WalEntry.frame Ctx.concrete ⟨.put, [2], [8]⟩).set 4 0x02 ++
      (encodeAll Ctx.concrete post ++ (WalEntry.frame Ctx.concrete ⟨.put, [3], [9]⟩).take 5))
    ∀ m : MemTable, ∃ msg, scan Ctx.concrete bytes = .error (.corruption msg) ∧
      replayInto Ctx.concrete bytes m = .error (.corruption msg) := by
  intro pre post bytes m
  have hpre : ∀ x ∈ pre, x.Valid := by decide
  exact damaged_byte_is_reported (Γ := Ctx.concrete) crc32_detectsByte hpre (e := ⟨.put, [2], [8]⟩) (by decide) post
    ((WalEntry.frame Ctx.concrete ⟨.put, [3], [9]⟩).take 5) (i := 4) (b := 0x02) (by decide) (by decide) (by decide +kernel) m

end LsmEngine
