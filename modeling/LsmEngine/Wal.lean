import LsmEngine.Ctx

/-!
# The write-ahead log

The entry codec of `wal/mod.rs`, the scan of `wal/reader.rs` and what `wal/writer.rs` appends. An entry on disk is
`[CRC32 u32][op u8][key_len u16][val_len u32][key][value]`, little-endian; the checksum covers every byte after its field.
-/

namespace LsmEngine

def crcLen : Nat := 4
def opLen : Nat := 1
def keyLenLen : Nat := 2
def valLenLen : Nat := 4
def headerLen : Nat := crcLen + opLen + keyLenLen + valLenLen
def opByteOffset : Nat := crcLen
def keyLenOffset : Nat := crcLen + opLen
def valLenOffset : Nat := crcLen + opLen + keyLenLen

def maxKeyLen : Nat := 65535
def maxValueLen : Nat := 4294967295

inductive WalOp where
  | put
  | delete
  deriving DecidableEq, Repr

/-- A byte as two hexadecimal digits. -/
def hexByte (b : UInt8) : String := String.ofList [Nat.digitChar (b.toNat / 16), Nat.digitChar (b.toNat % 16)]

def WalOp.fromByte (b : UInt8) : Except LsmError WalOp :=
  if b = 0x01 then .ok .put
  else if b = 0x02 then .ok .delete
  else .error (.invalidOp ("unknown wal op byte: 0x" ++ hexByte b))

def WalOp.toByte : WalOp → UInt8
  | .put => 0x01
  | .delete => 0x02

/-- One entry of the log. The value of a delete is empty; a put with an empty value is user data. -/
structure WalEntry where
  op : WalOp
  key : Key
  value : Value
  deriving DecidableEq, Repr

/-- The bytes of an entry that its checksum covers. -/
def entryBody (op : WalOp) (key : Key) (value : Value) : Bytes :=
  [op.toByte] ++ leBytes 2 key.length ++ leBytes 4 value.length ++ key ++ value

/-- `encode_entry`: the buffer with the entry appended. -/
def encodeEntry (Γ : Ctx) (op : WalOp) (key : Key) (value : Value) (buf : Bytes) : Except LsmError Bytes :=
  if key.length > maxKeyLen then .error (.keyTooLarge key.length maxKeyLen)
  else if value.length > maxValueLen then .error (.valueTooLarge value.length maxValueLen)
  else if op = .delete ∧ value ≠ [] then .error (.invalidOp "delete entry must not carry a value")
  else .ok (buf ++ (leBytes 4 (Γ.crc (entryBody op key value)).toNat ++ entryBody op key value))

/-- `decode_entry`: the entry at the front of a byte string. -/
def decodeEntry (Γ : Ctx) (bytes : Bytes) : Except LsmError WalEntry := do
  if bytes.length < headerLen then
    throw (.corruption s!"wal entry shorter than {headerLen}-byte header: {bytes.length} bytes")
  let op ← WalOp.fromByte (bytes.getD opByteOffset 0)
  let keyLen ← readU16 bytes keyLenOffset
  let valLen ← readU32 bytes valLenOffset
  let payloadEnd := headerLen + keyLen + valLen
  if payloadEnd > bytes.length then
    throw (.corruption ("wal entry truncated: header declares " ++ s!"{keyLen + valLen} payload bytes, only " ++
      s!"{bytes.length - headerLen} available"))
  -- the checksum is scoped to this entry, not to the entries chained after it
  let stored ← readU32 bytes 0
  if (Γ.crc ((bytes.take payloadEnd).drop crcLen)).toNat ≠ stored then
    throw (.corruption "wal checksum mismatch")
  pure {
    op := op
    key := (bytes.drop headerLen).take keyLen
    value := (bytes.drop (headerLen + keyLen)).take valLen
  }

/-- The loop of `WalReader::scan` from `offset`, over the bytes that remain there. It stops at a torn tail, shorter than a
header or than the frame its header declares, and reports a frame that is all there and does not decode. Every frame is at
least a header long, so the number of bytes bounds the rounds. -/
def scanFrom (Γ : Ctx) : Nat → Nat → Bytes → Except LsmError (List WalEntry)
  | 0, _, _ => .ok []
  | fuel + 1, offset, bytes =>
    if bytes.length < headerLen then .ok []
    else do
      let keyLen ← readU16 bytes keyLenOffset
      let valLen ← readU32 bytes valLenOffset
      let frameLen := headerLen + keyLen + valLen
      if frameLen > bytes.length then .ok []
      else
        match decodeEntry Γ (bytes.take frameLen) with
        | .error err => .error (.corruption (s!"wal entry at byte {offset} failed to decode: " ++ err.toString))
        | .ok entry => do
          let entries ← scanFrom Γ fuel (offset + frameLen) (bytes.drop frameLen)
          .ok (entry :: entries)

/-- `WalReader::scan` over the content of a log file. -/
def scan (Γ : Ctx) (bytes : Bytes) : Except LsmError (List WalEntry) := scanFrom Γ (bytes.length + 1) 0 bytes

/-! ## The writer -/

/-- `WalWriter::append` while the writes of its `BufWriter` succeed: all bytes given to the writer so far, and the result of the
call. -/
def walAppend (Γ : Ctx) (log : Bytes) (e : WalEntry) : Bytes × Except LsmError Unit :=
  match encodeEntry Γ e.op e.key e.value [] with
  | .error err => (log, .error err)
  | .ok frame => (log ++ frame, .ok ())

/-- The entries `encode_entry` accepts: lengths within the caps, no value on a delete. -/
def WalEntry.Valid (e : WalEntry) : Prop :=
  e.key.length ≤ maxKeyLen ∧ e.value.length ≤ maxValueLen ∧ (e.op = .delete → e.value = [])

instance (e : WalEntry) : Decidable e.Valid := inferInstanceAs (Decidable (_ ∧ _ ∧ _))

/-- The lengths of an entry are within the caps. -/
def WalEntry.Capped (e : WalEntry) : Prop := e.key.length ≤ maxKeyLen ∧ e.value.length ≤ maxValueLen

/-- A valid entry is within the caps. -/
theorem WalEntry.Valid.capped {e : WalEntry} (h : e.Valid) : e.Capped := ⟨h.1, h.2.1⟩

/-- The bytes `encode_entry` appends for an entry. -/
def WalEntry.frame (Γ : Ctx) (e : WalEntry) : Bytes :=
  leBytes 4 (Γ.crc (entryBody e.op e.key e.value)).toNat ++ entryBody e.op e.key e.value

/-- The bytes of a log that holds the given entries. -/
def encodeAll (Γ : Ctx) (es : List WalEntry) : Bytes := es.flatMap (WalEntry.frame Γ)

/-- A torn tail: some strict initial part of one frame. -/
def Torn (Γ : Ctx) (tail : Bytes) : Prop := ∃ e : WalEntry, e.Valid ∧ tail <+: e.frame Γ ∧ tail ≠ e.frame Γ

/-- A valid entry is encoded after what the buffer holds. -/
theorem encodeEntry_of_valid (Γ : Ctx) {e : WalEntry} (h : e.Valid) (buf : Bytes) :
    encodeEntry Γ e.op e.key e.value buf = .ok (buf ++ e.frame Γ) := by
  obtain ⟨hk, hv, hd⟩ := h
  unfold encodeEntry
  rw [if_neg (by omega), if_neg (by omega), if_neg (fun hc => hc.2 (hd hc.1))]
  rfl

/-- `encode_entry` accepts exactly the valid entries, and then appends their frame. -/
theorem encodeEntry_ok_iff (Γ : Ctx) (e : WalEntry) (buf out : Bytes) :
    encodeEntry Γ e.op e.key e.value buf = .ok out ↔ e.Valid ∧ out = buf ++ e.frame Γ := by
  constructor
  · intro h
    have hv : e.Valid := by
      unfold encodeEntry at h
      split_ifs at h with h1 h2 h3
      refine ⟨by omega, by omega, fun hd => ?_⟩
      by_contra hne
      exact h3 ⟨hd, hne⟩
    rw [encodeEntry_of_valid Γ hv] at h
    exact ⟨hv, (Except.ok.inj h).symm⟩
  · rintro ⟨hv, rfl⟩
    exact encodeEntry_of_valid Γ hv buf

@[simp] theorem entryBody_length (op : WalOp) (key : Key) (value : Value) :
    (entryBody op key value).length = 7 + key.length + value.length := by
  simp [entryBody]
  omega

/-- A frame is as long as its header, key and value. -/
@[simp] theorem WalEntry.frame_length (Γ : Ctx) (e : WalEntry) :
    (e.frame Γ).length = headerLen + e.key.length + e.value.length := by
  simp [WalEntry.frame, headerLen, crcLen, opLen, keyLenLen, valLenLen]
  omega

/-- No frame is empty. -/
theorem WalEntry.frame_length_pos (Γ : Ctx) (e : WalEntry) : 0 < (e.frame Γ).length := by
  rw [WalEntry.frame_length]
  simp [headerLen, crcLen, opLen, keyLenLen, valLenLen]

@[simp] theorem encodeAll_nil (Γ : Ctx) : encodeAll Γ [] = [] := rfl

@[simp] theorem encodeAll_cons (Γ : Ctx) (e : WalEntry) (es : List WalEntry) :
    encodeAll Γ (e :: es) = e.frame Γ ++ encodeAll Γ es := rfl

/-- Entries are encoded one after another. -/
@[simp] theorem encodeAll_append (Γ : Ctx) (es fs : List WalEntry) :
    encodeAll Γ (es ++ fs) = encodeAll Γ es ++ encodeAll Γ fs := by
  simp [encodeAll]

/-- Nothing is the tail of a torn frame. -/
theorem torn_nil (Γ : Ctx) : Torn Γ [] := by
  refine ⟨⟨.put, [], []⟩, ⟨by simp, by simp, by simp⟩, List.nil_prefix, ?_⟩
  intro h
  have := WalEntry.frame_length_pos Γ ⟨.put, [], []⟩
  rw [← h] at this
  simp at this

end LsmEngine
