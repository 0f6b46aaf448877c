import LsmEngine.Lemmas.SsTableFile
import LsmEngine.Machine

/-!
# The decoders come to no fault

Each function of `LsmEngine.Machine` is the `lift` of the function on numbers and lists that it spells out: on a buffer whose length is
a word every index and slice is inside, no sum wraps, no difference underflows, every buffer is within the limit and the loops
end.
-/

namespace LsmEngine

namespace Machine

open Checked Fallible

/-- A read that does not wrap is the read on numbers. -/
theorem readExact_eq {bytes : Bytes} {offset size : Nat} (h : offset + size < 2 ^ 64) :
    readExact bytes offset size = lift (LsmEngine.readExact bytes offset size) := by
  unfold readExact LsmEngine.readExact
  rw [if_neg (by omega)]
  split
  · rfl
  · exact slice_add_eq (by omega)

theorem readU16_eq {bytes : Bytes} {offset : Nat} (h : offset + 2 < 2 ^ 64) :
    readU16 bytes offset = lift (LsmEngine.readU16 bytes offset) := by
  rw [readU16, readExact_eq h, LsmEngine.readU16]
  exact lift_map _ _

theorem readU32_eq {bytes : Bytes} {offset : Nat} (h : offset + 4 < 2 ^ 64) :
    readU32 bytes offset = lift (LsmEngine.readU32 bytes offset) := by
  rw [readU32, readExact_eq h, LsmEngine.readU32]
  exact lift_map _ _

theorem readU64_eq {bytes : Bytes} {offset : Nat} (h : offset + 8 < 2 ^ 64) :
    readU64 bytes offset = lift (LsmEngine.readU64 bytes offset) := by
  rw [readU64, readExact_eq h, LsmEngine.readU64]
  exact lift_map _ _

/-- A length of two bytes is below `2 ^ 16`. -/
theorem readU16_lt {bytes : Bytes} {offset v : Nat} (h : LsmEngine.readU16 bytes offset = .ok v) : v < 65536 :=
  (readU16_ok_iff.1 h).1

/-- A length of four bytes is below `2 ^ 32`. -/
theorem readU32_lt {bytes : Bytes} {offset v : Nat} (h : LsmEngine.readU32 bytes offset = .ok v) : v < 4294967296 :=
  (readU32_ok_iff.1 h).1

/-! ## The log -/

variable (Γ : Ctx)

/-- `decode_entry` comes to no fault. -/
theorem decodeEntry_eq (bytes : Bytes) : decodeEntry Γ bytes = lift (LsmEngine.decodeEntry Γ bytes) := by
  have hhead : headerLen = 11 := rfl
  unfold decodeEntry LsmEngine.decodeEntry
  by_cases hs : bytes.length < headerLen
  · rw [if_pos hs, if_pos hs]
    rfl
  rw [if_neg hs, if_neg hs, index_eq (by rw [show opByteOffset = 4 from rfl]; omega) 0, ok_bind]
  refine lift_bind fun op _ => ?_
  rw [readU16_eq (by decide)]
  refine lift_bind fun keyLen hk => ?_
  rw [readU32_eq (by decide)]
  refine lift_bind fun valLen hv => ?_
  have hk := readU16_lt hk
  have hv := readU32_lt hv
  rw [add_eq (by omega), ok_bind, add_eq (by omega), ok_bind]
  by_cases hlong : headerLen + keyLen + valLen > bytes.length
  · rw [if_pos hlong, if_pos hlong, add_eq (by omega), ok_bind, sub_eq (by omega), ok_bind]
    rfl
  rw [if_neg hlong, if_neg hlong, readU32_eq (by decide)]
  refine lift_bind fun stored _ => ?_
  rw [slice_eq (by rw [show crcLen = 4 from rfl]; omega) (by omega), ok_bind, ← List.drop_take]
  by_cases hcrc : (Γ.crc ((bytes.take (headerLen + keyLen + valLen)).drop crcLen)).toNat ≠ stored
  · rw [if_pos hcrc, if_pos hcrc]
    rfl
  rw [if_neg hcrc, if_neg hcrc, slice_add_eq (by omega), ok_bind, slice_add_eq (by omega), ok_bind]
  rfl

/-- The fields of a header are read alike from the header and from all the bytes. -/
theorem readHeader_eq {bytes : Bytes} {offset width : Nat} (h : headerLen ≤ bytes.length) (hw : offset + width ≤ headerLen) :
    LsmEngine.readExact (bytes.take headerLen) offset width = LsmEngine.readExact bytes offset width := by
  conv_rhs => rw [← List.take_append_drop headerLen bytes]
  rw [readExact_append_left]
  rw [List.length_take]
  omega

/-- By induction on the fuel: the loop of `scan` comes to no fault, and its result is that of the scan on lists. -/
theorem scanLoop_eq {bytes : Bytes} (hlen : bytes.length < 2 ^ 64) (fuel offset : Nat) (entries : List WalEntry)
    (ho : offset ≤ bytes.length) (hfuel : bytes.length < offset + fuel) : scanLoop Γ bytes fuel offset entries =
      lift (scanFrom Γ fuel offset (bytes.drop offset) >>= fun rest => pure (entries ++ rest)) := by
  have hhead : headerLen = 11 := rfl
  induction fuel generalizing offset entries with
  | zero => omega
  | succ fuel ih =>
    rw [scanLoop, scanFrom, sub_eq ho, ok_bind, List.length_drop]
    by_cases hs : bytes.length - offset < headerLen
    · rw [if_pos hs, if_pos hs]
      exact congrArg Checked.ok (List.append_nil entries).symm
    have hdrop : headerLen ≤ (bytes.drop offset).length := by
      rw [List.length_drop]
      omega
    have hkey : LsmEngine.readU16 ((bytes.drop offset).take headerLen) keyLenOffset =
        LsmEngine.readU16 (bytes.drop offset) keyLenOffset := by
      rw [LsmEngine.readU16, LsmEngine.readU16, readHeader_eq hdrop (by decide)]
    have hval : LsmEngine.readU32 ((bytes.drop offset).take headerLen) valLenOffset =
        LsmEngine.readU32 (bytes.drop offset) valLenOffset := by
      rw [LsmEngine.readU32, LsmEngine.readU32, readHeader_eq hdrop (by decide)]
    rw [if_neg hs, if_neg hs, add_eq (by omega), ok_bind, slice_add_eq (by omega), ok_bind, readU16_eq (by decide), hkey,
      bind_assoc]
    refine lift_bind fun keyLen hk => ?_
    rw [readU32_eq (by decide), hval, bind_assoc]
    refine lift_bind fun valLen hv => ?_
    have hk := readU16_lt hk
    have hv := readU32_lt hv
    rw [add_eq (by omega), ok_bind, add_eq (by omega), ok_bind]
    by_cases hlong : headerLen + keyLen + valLen > bytes.length - offset
    · rw [if_pos hlong, if_pos hlong]
      exact congrArg Checked.ok (List.append_nil entries).symm
    rw [if_neg hlong, if_neg hlong, add_eq (by omega), ok_bind, slice_add_eq (by omega), ok_bind, decodeEntry_eq]
    cases LsmEngine.decodeEntry Γ ((bytes.drop offset).take (headerLen + keyLen + valLen)) with
    | error err => rfl
    | ok entry =>
      -- The frame is at least a header, so what remains is shorter.
      have hrest := ih (offset + (headerLen + keyLen + valLen)) (entries ++ [entry]) (by omega) (by omega)
      rw [← List.drop_drop] at hrest
      dsimp only [lift_ok]
      rw [hrest, bind_assoc]
      refine congrArg lift (bind_congr fun rest => congrArg Except.ok ?_)
      rw [List.append_assoc, List.singleton_append]

/-- The scan of a log ends and comes to no fault. -/
theorem scan_eq {bytes : Bytes} (hlen : bytes.length < 2 ^ 64) : scan Γ bytes = lift (LsmEngine.scan Γ bytes) := by
  rw [scan, scanLoop_eq Γ hlen _ _ _ (Nat.zero_le _) (by omega), LsmEngine.scan, List.drop_zero]
  exact congrArg lift (bind_pure _)

/-! ## Records -/

/-- The length of a record does not wrap. -/
theorem recordLen_eq {keyLen valueLen : Nat} (hk : keyLen < 65536) (hv : valueLen < 4294967296) :
    recordLen keyLen valueLen = .ok (LsmEngine.recordLen keyLen valueLen) := by
  have hhead : recordHeaderLen = 7 := rfl
  rw [recordLen, add_eq (by omega), ok_bind, add_eq (by omega)]
  rfl

/-- A record is read without faults. -/
theorem readRecord_eq {limit : Nat} {bytes : Bytes} (hlen : bytes.length < 2 ^ 64) (hlim : bytes.length ≤ limit) (offset : Nat) :
    readRecord limit bytes offset = lift (LsmEngine.readRecord bytes offset) := by
  have hhead : recordHeaderLen = 7 := rfl
  unfold readRecord LsmEngine.readRecord
  by_cases hs : bytes.length - offset < recordHeaderLen
  · rw [if_pos hs, if_pos hs]
    rfl
  rw [if_neg hs, if_neg hs, readU16_eq (by omega)]
  refine lift_bind fun keyLen hk => ?_
  have hk := readU16_lt hk
  rw [add_eq (by omega), ok_bind, index_eq (by omega) 0, ok_bind, add_eq (by omega), ok_bind, readU32_eq (by omega)]
  refine lift_bind fun valueLen hv => ?_
  have hv := readU32_lt hv
  rw [recordLen_eq hk hv, ok_bind]
  have htotal : LsmEngine.recordLen keyLen valueLen = 7 + keyLen + valueLen := rfl
  by_cases hlong : LsmEngine.recordLen keyLen valueLen > bytes.length - offset
  · rw [if_pos hlong, if_pos hlong]
    rfl
  have hvalue : offset + LsmEngine.recordLen keyLen valueLen = offset + recordHeaderLen + keyLen + valueLen := by omega
  rw [if_neg hlong, if_neg hlong, add_eq (by omega), ok_bind, add_eq (by omega), ok_bind, add_eq (by omega), ok_bind,
    slice_add_eq (by omega), ok_bind, toVec_eq (by rw [List.length_take]; omega), ok_bind, hvalue, slice_add_eq (by omega), ok_bind,
    toVec_eq (by rw [List.length_take]; omega), ok_bind]
  rfl

/-- A record that is read lies inside the bytes. -/
theorem readRecord_inside {bytes : Bytes} {offset n : Nat} {key : Key} {value : Value} {deleted : Bool}
    (h : LsmEngine.readRecord bytes offset = .ok (key, value, deleted, n)) : 0 < n ∧ offset + n ≤ bytes.length := by
  have hhead : recordHeaderLen = 7 := rfl
  unfold LsmEngine.readRecord at h
  obtain ⟨-, h⟩ := guard_eq_ok.1 h
  obtain ⟨keyLen, -, h⟩ := bind_eq_ok.1 h
  obtain ⟨valueLen, -, h⟩ := bind_eq_ok.1 h
  obtain ⟨hlong, h⟩ := guard_eq_ok.1 h
  have hn : LsmEngine.recordLen keyLen valueLen = n := by
    have := Except.ok.inj h
    simp only [Prod.mk.injEq] at this
    exact this.2.2.2
  have htotal : LsmEngine.recordLen keyLen valueLen = 7 + keyLen + valueLen := rfl
  omega

/-- By induction on the fuel: the loop of `records` comes to no fault. -/
theorem recordsLoop_eq {limit : Nat} {data : Bytes} (hlen : data.length < 2 ^ 64) (hlim : data.length ≤ limit) (fuel offset : Nat)
    (out : List Record) (ho : offset ≤ data.length) (hfuel : data.length ≤ offset + fuel) (hout : out.length ≤ offset) :
    recordsLoop limit data (fuel + 1) offset out =
      lift (LsmEngine.SsTableReader.readRecords data fuel offset >>= fun rest => pure (out ++ rest)) := by
  induction fuel generalizing offset out with
  | zero =>
    rw [recordsLoop, if_neg (by omega)]
    exact congrArg Checked.ok (List.append_nil out).symm
  | succ fuel ih =>
    rw [recordsLoop, LsmEngine.SsTableReader.readRecords]
    by_cases hlt : offset < data.length
    · rw [if_pos hlt, if_pos hlt, readRecord_eq hlen hlim, bind_assoc]
      refine lift_bind fun r hr => ?_
      obtain ⟨key, value, deleted, n⟩ := r
      obtain ⟨hn, hle⟩ := readRecord_inside hr
      dsimp only
      rw [push_eq (by omega), ok_bind, add_eq (by omega), ok_bind,
        ih (offset + n) _ hle (by omega) (by rw [List.length_append, List.length_singleton]; omega), bind_assoc]
      refine congrArg lift (bind_congr fun rest => congrArg Except.ok ?_)
      rw [List.append_assoc, List.singleton_append]
    · rw [if_neg hlt, if_neg hlt]
      exact congrArg Checked.ok (List.append_nil out).symm

/-- By induction on the fuel: the scan of a block comes to no fault. -/
theorem scanBlock_eq {limit : Nat} {block : Bytes} (hlen : block.length < 2 ^ 64) (hlim : block.length ≤ limit) (key : Key)
    (fuel offset : Nat) (ho : offset ≤ block.length) (hfuel : block.length ≤ offset + fuel) :
    scanBlock limit block key (fuel + 1) offset = lift (LsmEngine.SsTableReader.scanBlock block key fuel offset) := by
  induction fuel generalizing offset with
  | zero =>
    rw [scanBlock, if_neg (by omega)]
    rfl
  | succ fuel ih =>
    rw [scanBlock, LsmEngine.SsTableReader.scanBlock]
    by_cases hlt : offset < block.length
    · rw [if_pos hlt, if_pos hlt, readRecord_eq hlen hlim]
      refine lift_bind fun r hr => ?_
      obtain ⟨recordKey, value, deleted, n⟩ := r
      obtain ⟨hn, hle⟩ := readRecord_inside hr
      dsimp only
      split_ifs with heq hgt
      · rfl
      · rfl
      · rfl
      · rw [add_eq (by omega), ok_bind]
        exact ih (offset + n) hle (by omega)
    · rw [if_neg hlt, if_neg hlt]
      rfl

/-! ## The sparse index and the Bloom block -/

/-- An entry of the index is read without faults. -/
theorem readEntry_eq {limit : Nat} {bytes : Bytes} (hlen : bytes.length < 2 ^ 64) (hlim : bytes.length ≤ limit) {offset : Nat}
    (ho : offset ≤ bytes.length) : readEntry limit bytes offset = lift (SsTableFile.readEntry bytes offset) := by
  have hhead : indexEntryHeaderLen = 18 := rfl
  unfold readEntry SsTableFile.readEntry
  rw [sub_eq ho, ok_bind]
  by_cases hs : bytes.length - offset < indexEntryHeaderLen
  · rw [if_pos hs, if_pos hs]
    rfl
  rw [if_neg hs, if_neg hs, readU16_eq (by omega)]
  refine lift_bind fun keyLen hk => ?_
  have hk := readU16_lt hk
  rw [add_eq (by omega), ok_bind]
  by_cases hlong : indexEntryHeaderLen + keyLen > bytes.length - offset
  · rw [if_pos hlong, if_pos hlong]
    rfl
  rw [if_neg hlong, if_neg hlong, add_eq (by omega), ok_bind, add_eq (by omega), ok_bind, slice_add_eq (by omega), ok_bind,
    toVec_eq (by rw [List.length_take]; omega), ok_bind, readU64_eq (by omega)]
  refine lift_bind fun blockOffset _ => ?_
  rw [add_eq (by omega), ok_bind, readU64_eq (by omega)]
  exact lift_bind fun size _ => rfl

/-- By induction on the fuel: the loop of `parse_index` comes to no fault. -/
theorem parseLoop_eq {limit : Nat} {bytes : Bytes} (hlen : bytes.length < 2 ^ 64) (hlim : bytes.length ≤ limit) (fuel offset : Nat)
    (entries : List IndexEntry) (ho : offset ≤ bytes.length) (hfuel : bytes.length ≤ offset + fuel)
    (hout : entries.length ≤ offset) : parseLoop limit bytes (fuel + 1) offset entries =
      lift (SsTableFile.parseFrom bytes fuel offset >>= fun rest => pure (entries ++ rest)) := by
  induction fuel generalizing offset entries with
  | zero =>
    rw [parseLoop, if_neg (by omega)]
    exact congrArg Checked.ok (List.append_nil entries).symm
  | succ fuel ih =>
    rw [parseLoop, SsTableFile.parseFrom]
    by_cases hlt : offset < bytes.length
    · rw [if_pos hlt, if_pos hlt, readEntry_eq hlen hlim ho, bind_assoc]
      refine lift_bind fun r hr => ?_
      obtain ⟨entry, n⟩ := r
      obtain ⟨-, hat, rfl⟩ := SsTableFile.readEntry_ok_iff.1 hr
      have hn : 0 < (SsTableFile.entryBytes entry).length := by
        rw [SsTableFile.entryBytes_length, show indexEntryHeaderLen = 18 from rfl]
        omega
      have hle := hat.le
      dsimp only
      rw [push_eq (by omega), ok_bind, add_eq (by omega), ok_bind,
        ih _ _ hle (by omega) (by rw [List.length_append, List.length_singleton]; omega), bind_assoc]
      refine congrArg lift (bind_congr fun rest => congrArg Except.ok ?_)
      rw [List.append_assoc, List.singleton_append]
    · rw [if_neg hlt, if_neg hlt]
      exact congrArg Checked.ok (List.append_nil entries).symm

/-- `parse_index` comes to no fault. -/
theorem parseIndex_eq {limit : Nat} {bytes : Bytes} (hlen : bytes.length < 2 ^ 64) (hlim : bytes.length ≤ limit) :
    parseIndex limit bytes = lift (SsTableFile.parseIndex bytes) := by
  rw [parseIndex, parseLoop_eq hlen hlim _ _ _ (Nat.zero_le _) (by omega) (Nat.le_refl _)]
  exact congrArg lift (bind_pure _)

/-- By induction on the words: they are read without faults, where there are bytes for them. -/
theorem readWords_eq {bytes : Bytes} (hlen : bytes.length < 2 ^ 64) (n i : Nat) (h : 4 + (i + n) * 8 ≤ bytes.length) :
    readWords bytes n i = lift (SsTableFile.readWords bytes n i) := by
  induction n generalizing i with
  | zero => rfl
  | succ n ih =>
    rw [readWords, SsTableFile.readWords, mul_eq (by omega), ok_bind, add_eq (by omega), ok_bind, readU64_eq (by omega)]
    refine lift_bind fun word _ => ?_
    rw [ih (i + 1) (by omega)]
    exact lift_bind fun words _ => rfl

/-- `decode_bloom` comes to no fault. -/
theorem decodeBloom_eq {limit : Nat} {bytes : Bytes} (hlen : bytes.length < 2 ^ 64) (hlim : bytes.length ≤ limit) :
    decodeBloom Γ limit bytes = lift (SsTableFile.decodeBloom Γ bytes) := by
  unfold decodeBloom SsTableFile.decodeBloom
  by_cases hs : bytes.length < 4
  · rw [if_pos hs, if_pos (Or.inl hs)]
    rfl
  rw [if_neg hs, sub_eq (by omega), ok_bind]
  by_cases hm : (bytes.length - 4) % 8 ≠ 0
  · rw [if_pos hm, if_pos (Or.inr hm)]
    rfl
  rw [if_neg hm, if_neg (not_or.2 ⟨hs, hm⟩), readU32_eq (by decide)]
  refine lift_bind fun numHashes _ => ?_
  by_cases hh : numHashes = 0 ∨ numHashes > maxNumHashes
  · rw [if_pos hh, if_pos hh]
    rfl
  rw [if_neg hh, if_neg hh]
  by_cases hw : (bytes.length - 4) / 8 = 0
  · rw [if_pos hw, if_pos hw]
    rfl
  rw [if_neg hw, if_neg hw, alloc_eq (by omega), ok_bind, readWords_eq hlen _ _ (by omega)]
  exact lift_bind fun words _ => rfl

/-! ## The reader -/

/-- A buffer filled from a range inside the file. -/
theorem readBuffer_eq {file : Bytes} {offset len : Nat} (h : offset + len ≤ file.length) :
    readBuffer file.length file offset len = .ok ((file.drop offset).take len) := by
  rw [readBuffer, alloc_eq (by omega), ok_bind]
  split_ifs with hpos
  · exact if_pos h
  · rw [show len = 0 by omega, List.take_zero]
    rfl

/-- A positional read inside the file gives its bytes. -/
theorem readAt_inside {file : Bytes} {offset len : Nat} (h : offset + len ≤ file.length) :
    SsTableFile.readAt file offset len = .ok ((file.drop offset).take len) := by
  rw [SsTableFile.readAt, if_neg (fun hc => absurd hc.2 (by omega))]

/-- The end of the index section does not lie below zero. -/
theorem endOfIndex_eq {fileLen bloomOffset : Nat} (h : footerLen ≤ fileLen) :
    endOfIndex fileLen bloomOffset = .ok (if bloomOffset = 0 then fileLen - footerLen else bloomOffset) := by
  rw [endOfIndex, sub_eq h]
  split_ifs <;> rfl

/-- The Bloom block stands inside the file, between its offset and the footer. -/
theorem openBloom_eq {file : Bytes} (hlen : file.length < 2 ^ 64) {bloomOffset bloomEnd : Nat} (h0 : bloomOffset ≠ 0)
    (hle : bloomOffset ≤ bloomEnd) (hend : bloomEnd ≤ file.length) : openBloom Γ file bloomOffset bloomEnd =
      lift ((SsTableFile.readAt file bloomOffset (bloomEnd - bloomOffset)).bind
        (fun bytes => (SsTableFile.decodeBloom Γ bytes).map some)) := by
  have hin : bloomOffset + (bloomEnd - bloomOffset) ≤ file.length := by omega
  have hbuf : ((file.drop bloomOffset).take (bloomEnd - bloomOffset)).length ≤ file.length := by
    rw [List.length_take, List.length_drop]
    omega
  rw [openBloom, if_neg h0, sub_eq hle, ok_bind, readBuffer_eq hin, ok_bind, readAt_inside hin, decodeBloom_eq Γ (by omega) hbuf]
  exact lift_map _ _

/-- `open` comes to no fault on a file of any bytes. -/
theorem openFile_eq {file : Bytes} (hlen : file.length < 2 ^ 64) (path : String) :
    openFile Γ path file = lift (SsTableFile.openFile Γ path file) := by
  have hfoot : footerLen = 24 := rfl
  unfold openFile SsTableFile.openFile
  by_cases hs : file.length < footerLen
  · rw [if_pos hs, if_pos hs]
    rfl
  have hin : file.length - footerLen + footerLen ≤ file.length := by omega
  rw [if_neg hs, if_neg hs, sub_eq (by omega), ok_bind, readAt, if_pos hin, ok_bind, readAt_inside hin]
  have hflen : ((file.drop (file.length - footerLen)).take footerLen).length = footerLen := by
    rw [List.length_take, List.length_drop]
    omega
  generalize (file.drop (file.length - footerLen)).take footerLen = footer at hflen
  have hmagic : (footer.drop (footerLen - 8)).take (footerLen - (footerLen - 8)) = footer.drop (footerLen - 8) := by
    rw [List.take_of_length_le]
    rw [List.length_drop]
    omega
  rw [sub_eq (by decide), ok_bind, slice_eq (by decide) (by omega), ok_bind, hmagic]
  by_cases hbad : footer.drop (footerLen - 8) ≠ SsTableFile.magic
  · rw [if_pos hbad]
    change _ = lift (ite _ _ _)
    rw [if_pos hbad]
    rfl
  rw [if_neg hbad, readU64_eq (by decide)]
  change _ = lift (ite _ _ _)
  rw [if_neg hbad]
  refine lift_bind fun indexOffset _ => ?_
  rw [readU64_eq (by decide)]
  refine lift_bind fun bloomOffset _ => ?_
  rw [ok_bind]
  by_cases hbloom : bloomOffset ≠ 0 ∧ bloomOffset > file.length - footerLen
  · rw [if_pos hbloom]
    change _ = lift (ite _ _ _)
    rw [if_pos hbloom]
    rfl
  rw [if_neg hbloom, endOfIndex_eq (by omega), ok_bind]
  change _ = lift (ite _ _ _)
  rw [if_neg hbloom]
  have hle : (if bloomOffset = 0 then file.length - footerLen else bloomOffset) ≤ file.length - footerLen := by
    split_ifs with h0
    · exact Nat.le_refl _
    · exact Nat.le_of_not_lt (fun hlt => hbloom ⟨h0, hlt⟩)
  dsimp only
  generalize (if bloomOffset = 0 then file.length - footerLen else bloomOffset) = endOfIndex at hle ⊢
  by_cases hout : indexOffset > endOfIndex ∨ endOfIndex > file.length
  · rw [if_pos hout, if_pos hout]
    rfl
  have hidx : indexOffset + (endOfIndex - indexOffset) ≤ file.length := by omega
  have hidxLen : ((file.drop indexOffset).take (endOfIndex - indexOffset)).length ≤ file.length := by
    rw [List.length_take, List.length_drop]
    omega
  rw [if_neg hout, if_neg hout, sub_eq (by omega), ok_bind, readBuffer_eq hidx, ok_bind, readAt_inside hidx,
    parseIndex_eq (by omega) hidxLen]
  refine lift_bind fun index _ => ?_
  by_cases h0 : bloomOffset = 0
  · rw [openBloom, if_pos h0, if_pos h0]
    rfl
  have hblm : bloomOffset ≤ file.length - footerLen := Nat.le_of_not_lt (fun hlt => hbloom ⟨h0, hlt⟩)
  rw [if_neg h0, openBloom_eq Γ hlen h0 hblm (by omega)]
  cases SsTableFile.readAt file bloomOffset (file.length - footerLen - bloomOffset) with
  | error err => rfl
  | ok bytes =>
    dsimp only [Bind.bind, Except.bind]
    cases SsTableFile.decodeBloom Γ bytes <;> rfl

variable {Γ}

/-- What an open reader is a reader of. -/
structure Opened (file : Bytes) (r : SsTableFile.SsTableReader Γ) : Prop where
  bytes : r.file = file
  length : r.fileLen = file.length
  data : r.indexOffset ≤ file.length

/-- The sections of a reader lie in its file. -/
theorem opened_of_openFile {path : String} {file : Bytes} {r : SsTableFile.SsTableReader Γ}
    (h : SsTableFile.openFile Γ path file = .ok r) : Opened file r := by
  unfold SsTableFile.openFile at h
  obtain ⟨-, h⟩ := guard_eq_ok.1 h
  obtain ⟨footer, -, h⟩ := bind_eq_ok.1 h
  obtain ⟨-, h⟩ := guard_eq_ok.1 h
  obtain ⟨indexOffset, -, h⟩ := bind_eq_ok.1 h
  obtain ⟨bloomOffset, -, h⟩ := bind_eq_ok.1 h
  obtain ⟨-, h⟩ := guard_eq_ok.1 h
  obtain ⟨hout, h⟩ := guard_eq_ok.1 h
  obtain ⟨indexBytes, -, h⟩ := bind_eq_ok.1 h
  obtain ⟨index, -, h⟩ := bind_eq_ok.1 h
  have hreader : ∃ bloom, r = ⟨file, file.length, indexOffset, index, bloom, path⟩ := by
    split at h
    · exact ⟨none, (Except.ok.inj h).symm⟩
    · obtain ⟨bloomBytes, -, h⟩ := bind_eq_ok.1 h
      obtain ⟨bloom, -, h⟩ := bind_eq_ok.1 h
      exact ⟨some bloom, (Except.ok.inj h).symm⟩
  obtain ⟨bloom, rfl⟩ := hreader
  obtain ⟨hidx, hend⟩ := not_or.1 hout
  exact ⟨rfl, rfl, (Nat.not_lt.1 hidx).trans (Nat.not_lt.1 hend)⟩

/-- `records` comes to no fault on an opened table. -/
theorem records_eq {file : Bytes} (hlen : file.length < 2 ^ 64) {r : SsTableFile.SsTableReader Γ} (hr : Opened file r) :
    records r = lift r.records := by
  obtain ⟨rfl, -, hio⟩ := hr
  have hin : 0 + r.indexOffset ≤ r.file.length := by omega
  have hdata : ((r.file.drop 0).take r.indexOffset).length ≤ r.file.length := by
    rw [List.length_take, List.length_drop]
    omega
  rw [records, readBuffer_eq hin, ok_bind,
    recordsLoop_eq (by omega) hdata _ _ _ (Nat.zero_le _) (by omega) (Nat.le_refl _), SsTableFile.SsTableReader.records,
    SsTableFile.SsTableReader.readBlockAt, readAt_inside hin]
  exact congrArg lift (bind_pure _)

/-- `get` from the block that `locate_block` returns. -/
def lookupIn (r : SsTableFile.SsTableReader Γ) (key : Key) (blockIdx : Option Nat) : Except LsmError (Option LookupValue) :=
  match blockIdx with
  | none => .ok none
  | some blockIdx =>
    match r.index[blockIdx]? with
    | none => .ok none
    | some entry =>
      let blockEnd := entry.offset + entry.size
      if blockEnd ≥ 2 ^ 64 then
        .error (.corruption ("sstable " ++ r.path ++ s!" block {blockIdx} offset+size overflows u64"))
      else if blockEnd > r.fileLen then
        .error (.corruption ("sstable " ++ r.path ++ s!" block {blockIdx} at offset {entry.offset} size " ++
          s!"{entry.size} exceeds file length {r.fileLen}"))
      else do
        let block ← r.readBlockAt entry.offset entry.size
        LsmEngine.SsTableReader.scanBlock block key block.length 0

/-- `get` comes to no fault after `locate_block`, whichever block that names. -/
theorem getIn_eq {file : Bytes} (hlen : file.length < 2 ^ 64) {r : SsTableFile.SsTableReader Γ} (hr : Opened file r) (key : Key)
    {found : Option Nat} (hfound : ∀ i, found = some i → i < r.index.length) : getIn r key found = lift (lookupIn r key found) := by
  obtain ⟨rfl, hfl, -⟩ := hr
  cases found with
  | none => rfl
  | some blockIdx =>
    have hi := hfound blockIdx rfl
    rw [getIn, lookupIn, index, List.getElem?_eq_getElem hi]
    dsimp only
    rw [ok_bind]
    generalize r.index[blockIdx] = entry
    split_ifs with hwrap hend
    · rfl
    · rfl
    · have hin : entry.offset + entry.size ≤ r.file.length := by omega
      have hblock : ((r.file.drop entry.offset).take entry.size).length ≤ r.file.length := by
        rw [List.length_take, List.length_drop]
        omega
      rw [alloc_eq (by omega), ok_bind, readAt, if_pos hin, ok_bind, SsTableFile.SsTableReader.readBlockAt, readAt_inside hin]
      exact scanBlock_eq (by omega) hblock key _ _ (Nat.zero_le _) (by omega)

/-- The block that `locate_block` returns for a position of `partition_point`. -/
def blockBefore (split : Nat) : Option Nat := if split = 0 then none else some (split - 1)

/-- `locate_block` comes to no fault. -/
theorem locateBlock_eq (partitionPoint : PartitionPoint) (entries : List IndexEntry) (key : Key) :
    locateBlock partitionPoint entries key =
      .ok (blockBefore (partitionPoint (fun e => decide (e.firstKey ≤ key)) entries)) := by
  rw [locateBlock, blockBefore]
  split_ifs with h
  · rfl
  · rw [sub_eq (by omega)]
    rfl

/-- Wherever `partition_point` puts the key, the lookup comes to no fault. -/
theorem get_eq {file : Bytes} (hlen : file.length < 2 ^ 64) {r : SsTableFile.SsTableReader Γ} (hr : Opened file r)
    (partitionPoint : PartitionPoint) (key : Key) : get partitionPoint r key =
      lift (if r.bloomProbe key = some false then .ok none
        else lookupIn r key (blockBefore (partitionPoint (fun e => decide (e.firstKey ≤ key)) r.index))) := by
  rw [get, locateBlock_eq, ok_bind]
  split_ifs with hp
  · rfl
  · refine getIn_eq hlen hr key fun i hi => ?_
    rw [blockBefore] at hi
    split_ifs at hi with h0
    obtain rfl := Option.some.inj hi
    have := (partitionPoint (fun e => decide (e.firstKey ≤ key)) r.index).isLt
    omega

/-- On an index that the key partitions, as every index that a builder writes, the lookup is that of the reader on numbers and
lists. -/
theorem get_eq_of_partition {file : Bytes} (hlen : file.length < 2 ^ 64) {r : SsTableFile.SsTableReader Γ} (hr : Opened file r)
    {partitionPoint : PartitionPoint} {key : Key}
    (hp : (partitionPoint (fun e => decide (e.firstKey ≤ key)) r.index).val =
      LsmEngine.partitionPoint (fun e => decide (e.firstKey ≤ key)) r.index) : get partitionPoint r key = lift (r.get key) := by
  rw [get_eq hlen hr, hp]
  rfl

end Machine

end LsmEngine
