import LsmEngine.Lemmas.Wal

/-!
# The frames of a byte string

The length fields of the headers alone cut any byte string into frames that are fully present and a tail that is not one. A scan
decodes these frames one by one; a frame decodes exactly when its op byte is known and its checksum is right, and it is then the
frame of the decoded entry, byte for byte.
-/

namespace LsmEngine

open Fallible Segment

/-- The key length that a header declares. -/
def declaredKeyLen (bytes : Bytes) : Nat := ofLeBytes ((bytes.drop keyLenOffset).take 2)

/-- The value length that a header declares. -/
def declaredValLen (bytes : Bytes) : Nat := ofLeBytes ((bytes.drop valLenOffset).take 4)

/-- The length of the frame that a header declares. -/
def declaredLen (bytes : Bytes) : Nat := headerLen + declaredKeyLen bytes + declaredValLen bytes

/-- No frame stands fully at the front: the bytes are fewer than a header, or fewer than the header declares. -/
def Unfinished (bytes : Bytes) : Prop := bytes.length < headerLen ∨ bytes.length < declaredLen bytes

instance (bytes : Bytes) : Decidable (Unfinished bytes) := inferInstanceAs (Decidable (_ ∨ _))

def framesFrom : Nat → Bytes → List Bytes
  | 0, _ => []
  | fuel + 1, bytes =>
    if Unfinished bytes then []
    else bytes.take (declaredLen bytes) :: framesFrom fuel (bytes.drop (declaredLen bytes))

/-- The frames that are fully present, one after another from the front. -/
def frames (bytes : Bytes) : List Bytes := framesFrom (bytes.length + 1) bytes

/-- The bytes are exactly one frame by their own header. -/
structure WholeFrame (f : Bytes) : Prop where
  header : headerLen ≤ f.length
  length : f.length = declaredLen f

/-- A frame with an op byte that stands for no operation, or with a checksum that is not that of its bytes. -/
def Damaged (Γ : Ctx) (f : Bytes) : Prop :=
  (f.getD opByteOffset 0 ≠ 0x01 ∧ f.getD opByteOffset 0 ≠ 0x02) ∨ (Γ.crc (f.drop crcLen)).toNat ≠ ofLeBytes (f.take crcLen)

/-- A frame whose op byte is that of a delete and whose header declares a value. -/
def ValuedDelete (f : Bytes) : Prop := f.getD opByteOffset 0 = 0x02 ∧ declaredValLen f ≠ 0

/-- The key length that a header declares. -/
theorem readU16_keyLen {bytes : Bytes} (h : headerLen ≤ bytes.length) :
    readU16 bytes keyLenOffset = .ok (declaredKeyLen bytes) := by
  rw [readU16, readExact_of_le (by simp only [headerLen, keyLenOffset, crcLen, opLen, keyLenLen, valLenLen] at h ⊢; omega)]
  rfl

/-- The value length that a header declares. -/
theorem readU32_valLen {bytes : Bytes} (h : headerLen ≤ bytes.length) :
    readU32 bytes valLenOffset = .ok (declaredValLen bytes) := by
  rw [readU32, readExact_of_le (by simp only [headerLen, valLenOffset, crcLen, opLen, keyLenLen, valLenLen] at h ⊢; omega)]
  rfl

/-- The frame at the front declares what the bytes it starts declare. -/
theorem declaredLen_take {bytes : Bytes} {n : Nat} (hn : headerLen ≤ n) : declaredLen (bytes.take n) = declaredLen bytes := by
  have hcut : ∀ o w, o + w ≤ headerLen → ((bytes.take n).drop o).take w = (bytes.drop o).take w := by
    intro o w ho
    rw [List.drop_take, List.take_take, Nat.min_eq_left (by omega)]
  rw [declaredLen, declaredLen, declaredKeyLen, declaredKeyLen, declaredValLen, declaredValLen, hcut _ _ (by decide),
    hcut _ _ (by decide)]

/-- The first frame of bytes that are not the tail of one. -/
theorem wholeFrame_take {bytes : Bytes} (h : ¬ Unfinished bytes) : WholeFrame (bytes.take (declaredLen bytes)) := by
  have hhead : headerLen ≤ declaredLen bytes := by
    rw [declaredLen]
    omega
  have hle : declaredLen bytes ≤ bytes.length := Nat.le_of_not_lt (fun hlt => h (Or.inr hlt))
  constructor
  · rw [List.length_take]
    omega
  · rw [declaredLen_take hhead, List.length_take]
    omega

/-- The frames that the headers cut are whole. -/
theorem wholeFrame_of_mem {fuel : Nat} {bytes f : Bytes} (h : f ∈ framesFrom fuel bytes) : WholeFrame f := by
  induction fuel generalizing bytes with
  | zero => exact absurd h List.not_mem_nil
  | succ fuel ih =>
    rw [framesFrom] at h
    split_ifs at h with hu
    · exact absurd h List.not_mem_nil
    · rcases List.mem_cons.1 h with rfl | h
      · exact wholeFrame_take hu
      · exact ih h

/-! ## Decoding one frame -/

/-- The entry that a frame holds, for the operation of its op byte. -/
def entryOf (op : WalOp) (f : Bytes) : WalEntry where
  op := op
  key := (f.drop headerLen).take (declaredKeyLen f)
  value := (f.drop (headerLen + declaredKeyLen f)).take (declaredValLen f)

variable {Γ : Ctx}

/-- A whole frame is decoded by its op byte and its checksum. -/
theorem decodeEntry_whole {f : Bytes} (hf : WholeFrame f) : decodeEntry Γ f =
    (WalOp.fromByte (f.getD opByteOffset 0)).bind (fun op =>
      if (Γ.crc (f.drop crcLen)).toNat ≠ ofLeBytes (f.take crcLen) then .error (.corruption "wal checksum mismatch")
      else .ok (entryOf op f)) := by
  have hhead := hf.header
  have hlen := hf.length
  rw [declaredLen] at hlen
  have hcrc : readU32 f 0 = .ok (ofLeBytes (f.take crcLen)) := by
    rw [readU32, readExact_of_le (by simp only [headerLen, crcLen, opLen, keyLenLen, valLenLen] at hhead; omega)]
    rfl
  unfold decodeEntry
  rw [if_neg (Nat.not_lt.2 hhead)]
  cases WalOp.fromByte (f.getD opByteOffset 0) with
  | error err => rfl
  | ok op =>
    simp only [bind, Except.bind, readU16_keyLen hhead, readU32_valLen hhead]
    rw [if_neg (by omega), hcrc, ← hlen, List.take_length]
    dsimp only
    split_ifs <;> rfl

/-- An op byte is decoded exactly when it is that of an op. -/
theorem fromByte_ok_iff {b : UInt8} {op : WalOp} : WalOp.fromByte b = .ok op ↔ b = op.toByte := by
  constructor
  · intro h
    unfold WalOp.fromByte at h
    split_ifs at h with h1 h2
    · rw [← Except.ok.inj h, h1]
      rfl
    · rw [← Except.ok.inj h, h2]
      rfl
  · rintro rfl
    exact WalAux.fromByte_toByte op

/-- A whole frame is decoded exactly when op byte and checksum are right. -/
theorem decodeEntry_whole_ok_iff {f : Bytes} (hf : WholeFrame f) {e : WalEntry} : decodeEntry Γ f = .ok e ↔
    f.getD opByteOffset 0 = e.op.toByte ∧ (Γ.crc (f.drop crcLen)).toNat = ofLeBytes (f.take crcLen) ∧ e = entryOf e.op f := by
  rw [decodeEntry_whole hf]
  constructor
  · intro h
    obtain ⟨op, hop, h⟩ := bind_eq_ok.1 h
    split_ifs at h with hcrc
    obtain rfl := Except.ok.inj h
    exact ⟨fromByte_ok_iff.1 hop, not_ne_iff.1 hcrc, rfl⟩
  · rintro ⟨hop, hcrc, he⟩
    refine bind_eq_ok.2 ⟨e.op, fromByte_ok_iff.2 hop, ?_⟩
    rw [if_neg (not_ne_iff.2 hcrc), ← he]

/-- A frame fails to decode exactly when it is damaged. -/
theorem decodeEntry_error_iff {f : Bytes} (hf : WholeFrame f) : (∃ err, decodeEntry Γ f = .error err) ↔ Damaged Γ f := by
  rw [decodeEntry_whole hf]
  constructor
  · rintro ⟨err, h⟩
    rcases bind_eq_error.1 h with hop | ⟨op, -, h⟩
    · left
      unfold WalOp.fromByte at hop
      split_ifs at hop with h1 h2
      exact ⟨h1, h2⟩
    · right
      split_ifs at h with hcrc
      exact hcrc
  · rintro (⟨h1, h2⟩ | hcrc)
    · rw [WalOp.fromByte, if_neg h1, if_neg h2]
      exact ⟨_, rfl⟩
    · cases WalOp.fromByte (f.getD opByteOffset 0) with
      | error err => exact ⟨err, rfl⟩
      | ok op => exact ⟨_, if_pos hcrc⟩

/-- The entry has the lengths that the header declares. -/
theorem entryOf_lengths {f : Bytes} (hf : WholeFrame f) (op : WalOp) :
    (entryOf op f).key.length = declaredKeyLen f ∧ (entryOf op f).value.length = declaredValLen f := by
  have hlen := hf.length
  rw [declaredLen] at hlen
  constructor
  · simp only [entryOf, List.length_take, List.length_drop]
    omega
  · simp only [entryOf, List.length_take, List.length_drop]
    omega

/-- The bytes that a header field takes, as the bytes of the number they stand for. -/
theorem at_field {f : Bytes} {o w : Nat} (h : o + w ≤ f.length) : At f o (leBytes w (ofLeBytes ((f.drop o).take w))) := by
  have hl : ((f.drop o).take w).length = w := by
    rw [List.length_take, List.length_drop]
    omega
  have heq := leBytes_ofLeBytes ((f.drop o).take w)
  rw [hl] at heq
  rw [heq]
  exact at_slice h

/-- A frame that decodes is the frame of what it decodes to. -/
theorem frame_of_decoded {f : Bytes} (hf : WholeFrame f) {e : WalEntry} (h : decodeEntry Γ f = .ok e) : f = e.frame Γ := by
  obtain ⟨hop, hcrc, he⟩ := (decodeEntry_whole_ok_iff hf).1 h
  obtain ⟨hkl, hvl⟩ := entryOf_lengths hf e.op
  rw [← he] at hkl hvl
  have hlen := hf.length
  have hhead : 11 ≤ f.length := hf.header
  rw [declaredLen, ← hkl, ← hvl, show headerLen = 11 from rfl] at hlen
  have hopAt : At f 4 [e.op.toByte] := by
    have hbyte : (f.drop 4).take 1 = [e.op.toByte] := by
      rw [List.drop_eq_getElem_cons (by omega), List.take_succ_cons, List.take_zero]
      rw [show opByteOffset = 4 from rfl, List.getD_eq_getElem?_getD, List.getElem?_eq_getElem (by omega)] at hop
      exact congrArg (fun b => [b]) hop
    rw [← hbyte]
    exact at_slice (by omega)
  have hkeyLen : At f (4 + [e.op.toByte].length) (leBytes 2 e.key.length) := by
    rw [hkl]
    exact at_field (o := 5) (by omega)
  have hvalLen : At f (5 + (leBytes 2 e.key.length).length) (leBytes 4 e.value.length) := by
    rw [hvl, leBytes_length]
    exact at_field (o := 7) (by omega)
  have hkey : At f (7 + (leBytes 4 e.value.length).length) e.key := by
    rw [leBytes_length, he]
    exact at_slice (o := 11) (by rw [← hkl]; omega)
  have hvalue : At f (11 + e.key.length) e.value := by
    have hv : e.value = (f.drop (11 + e.key.length)).take e.value.length := by
      rw [hkl, hvl]
      exact congrArg WalEntry.value he
    rw [hv]
    exact at_slice (by omega)
  -- The fields stand one after another, from the op byte to the end.
  have hbody : At f 4 (entryBody e.op e.key e.value) := by
    have := hopAt.append (hkeyLen.append (hvalLen.append (hkey.append hvalue)))
    simpa only [entryBody, List.append_assoc] using this
  have hdrop : f.drop crcLen = entryBody e.op e.key e.value := by
    rw [← hbody.slice, List.take_of_length_le]
    · rfl
    · rw [entryBody_length, List.length_drop]
      omega
  have htake : f.take crcLen = leBytes 4 (Γ.crc (entryBody e.op e.key e.value)).toNat := by
    rw [← hdrop, hcrc]
    have heq := leBytes_ofLeBytes (f.take crcLen)
    rw [List.length_take, show crcLen = 4 from rfl, Nat.min_eq_left (by omega)] at heq
    exact heq.symm
  rw [WalEntry.frame, ← htake, ← hdrop, List.take_append_drop]

/-- The length fields hold no more than the caps. -/
theorem capped_of_decoded {f : Bytes} (hf : WholeFrame f) {e : WalEntry} (h : decodeEntry Γ f = .ok e) : e.Capped := by
  obtain ⟨-, -, he⟩ := (decodeEntry_whole_ok_iff hf).1 h
  obtain ⟨hkl, hvl⟩ := entryOf_lengths hf e.op
  rw [← he] at hkl hvl
  have hk : declaredKeyLen f < 256 ^ 2 := (readU16_ok_iff.1 (readU16_keyLen hf.header)).1
  have hv : declaredValLen f < 256 ^ 4 := (readU32_ok_iff.1 (readU32_valLen hf.header)).1
  rw [WalEntry.Capped, maxKeyLen, maxValueLen]
  omega

/-- The entry of a frame that decodes can be encoded unless it is a delete with a value. -/
theorem valid_iff_of_decoded {f : Bytes} (hf : WholeFrame f) {e : WalEntry} (h : decodeEntry Γ f = .ok e) :
    e.Valid ↔ ¬ ValuedDelete f := by
  obtain ⟨hop, -, he⟩ := (decodeEntry_whole_ok_iff hf).1 h
  have hvl := (entryOf_lengths hf e.op).2
  rw [← he] at hvl
  obtain ⟨hk, hv⟩ := capped_of_decoded hf h
  have hdel : f.getD opByteOffset 0 = 0x02 ↔ e.op = .delete := by
    rw [hop]
    cases e.op <;> decide
  have hempty : declaredValLen f ≠ 0 ↔ e.value ≠ [] := by rw [← hvl, Ne, List.length_eq_zero_iff]
  rw [ValuedDelete, hdel, hempty, WalEntry.Valid]
  constructor
  · rintro ⟨-, -, hval⟩ ⟨hd, hne⟩
    exact hne (hval hd)
  · intro hval
    refine ⟨hk, hv, fun hd => ?_⟩
    by_contra hne
    exact hval ⟨hd, hne⟩

/-! ## The scan -/

/-- One round of the scan: nothing is left of a tail, and a frame is decoded before the rest is scanned. -/
theorem scanFrom_round (fuel offset : Nat) (bytes : Bytes) : scanFrom Γ (fuel + 1) offset bytes =
    if Unfinished bytes then .ok []
    else
      match decodeEntry Γ (bytes.take (declaredLen bytes)) with
      | .error err => .error (.corruption (s!"wal entry at byte {offset} failed to decode: " ++ err.toString))
      | .ok e =>
        (scanFrom Γ fuel (offset + declaredLen bytes) (bytes.drop (declaredLen bytes))).bind (fun es => .ok (e :: es)) := by
  rw [scanFrom]
  by_cases hs : bytes.length < headerLen
  · rw [if_pos hs, if_pos (show Unfinished bytes from Or.inl hs)]
  have hhead := Nat.not_lt.1 hs
  simp only [if_neg hs, readU16_keyLen hhead, readU32_valLen hhead, bind, Except.bind]
  rw [← declaredLen]
  by_cases hu : declaredLen bytes > bytes.length
  · rw [if_pos hu, if_pos (show Unfinished bytes from Or.inr hu)]
  · have hin : ¬ Unfinished bytes := not_or.2 ⟨hs, hu⟩
    refine (if_neg hu).trans (Eq.trans ?_ (if_neg hin).symm)
    cases decodeEntry Γ (bytes.take (declaredLen bytes)) <;> rfl

/-- A scan that ends well has decoded every frame in turn, and stops at the tail after them. -/
theorem scanFrom_ok_frames {fuel offset : Nat} {bytes : Bytes} {es : List WalEntry} (hfuel : bytes.length < fuel)
    (h : scanFrom Γ fuel offset bytes = .ok es) :
    List.Forall₂ (fun f e => decodeEntry Γ f = .ok e) (framesFrom fuel bytes) es ∧
      ∃ tail, bytes = (framesFrom fuel bytes).flatten ++ tail ∧ Unfinished tail := by
  induction fuel generalizing offset bytes es with
  | zero => omega
  | succ fuel ih =>
    rw [scanFrom_round] at h
    rw [framesFrom]
    by_cases hu : Unfinished bytes
    · rw [if_pos hu] at h
      obtain rfl := Except.ok.inj h
      rw [if_pos hu]
      exact ⟨List.Forall₂.nil, bytes, rfl, hu⟩
    rw [if_neg hu] at h
    rw [if_neg hu]
    cases hdec : decodeEntry Γ (bytes.take (declaredLen bytes)) with
    | error err =>
      rw [hdec] at h
      exact absurd h (by simp)
    | ok e =>
      rw [hdec] at h
      obtain ⟨rest, hrest, h⟩ := bind_eq_ok.1 h
      obtain rfl := Except.ok.inj h
      have hpos : 0 < declaredLen bytes := by
        rw [declaredLen, show headerLen = 11 from rfl]
        omega
      have hle : declaredLen bytes ≤ bytes.length := Nat.le_of_not_lt (fun hlt => hu (Or.inr hlt))
      obtain ⟨hall, tail, hbytes, htail⟩ := ih (by rw [List.length_drop]; omega) hrest
      refine ⟨List.Forall₂.cons hdec hall, tail, ?_, htail⟩
      rw [List.flatten_cons, List.append_assoc, ← hbytes, List.take_append_drop]

/-- Entries decoded from whole frames are within the caps. -/
theorem capped_of_forall {fs : List Bytes} {es : List WalEntry} (hw : ∀ f ∈ fs, WholeFrame f)
    (h : List.Forall₂ (fun f e => decodeEntry Γ f = .ok e) fs es) : ∀ e ∈ es, e.Capped := by
  induction h with
  | nil => exact fun e he => absurd he List.not_mem_nil
  | cons hdec _ ih =>
    rw [List.forall_mem_cons]
    exact ⟨capped_of_decoded (hw _ List.mem_cons_self) hdec, ih (fun f hf => hw f (List.mem_cons_of_mem _ hf))⟩

/-- What is scanned is within the caps. -/
theorem scan_capped {bytes : Bytes} {es : List WalEntry} (h : scan Γ bytes = .ok es) : ∀ e ∈ es, e.Capped :=
  capped_of_forall (fun _ hf => wholeFrame_of_mem hf) (scanFrom_ok_frames (Nat.lt_succ_self _) h).1

/-- A scan that fails has come to a frame that does not decode. -/
theorem scanFrom_error_frames {fuel offset : Nat} {bytes : Bytes} {err : LsmError} (h : scanFrom Γ fuel offset bytes = .error err) :
    (∃ msg, err = .corruption msg) ∧ ∃ f ∈ framesFrom fuel bytes, ∃ err', decodeEntry Γ f = .error err' := by
  induction fuel generalizing offset bytes err with
  | zero => exact absurd h (by simp [scanFrom])
  | succ fuel ih =>
    rw [scanFrom_round] at h
    rw [framesFrom]
    by_cases hu : Unfinished bytes
    · rw [if_pos hu] at h
      exact absurd h (by simp)
    rw [if_neg hu] at h
    rw [if_neg hu]
    cases hdec : decodeEntry Γ (bytes.take (declaredLen bytes)) with
    | error err' =>
      rw [hdec] at h
      exact ⟨⟨_, (Except.error.inj h).symm⟩, _, List.mem_cons_self, err', hdec⟩
    | ok e =>
      rw [hdec] at h
      rcases bind_eq_error.1 h with h | ⟨rest, -, h⟩
      · obtain ⟨hmsg, f, hf, herr⟩ := ih h
        exact ⟨hmsg, f, List.mem_cons_of_mem _ hf, herr⟩
      · exact absurd h (by simp)

end LsmEngine
