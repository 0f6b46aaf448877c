import LsmEngine.Library.Checked
import LsmEngine.SsTableFile

/-!
# The decoders on a 64-bit machine

The functions that decode bytes the engine did not necessarily write, once more, with every index, slice, positional read,
addition, subtraction and allocation of the source where the source makes it. `LsmEngine.scan` and `LsmEngine.SsTableFile` are the
same functions on numbers and lists, which know no faults. A positional read past the end of a file would be an end-of-file error;
here it is a fault as well. `limit` is the largest buffer that may be allocated.
-/

namespace LsmEngine

namespace Machine

open Checked

/-! ## `utils/mod.rs` -/

def readExact (bytes : Bytes) (offset size : Nat) : Checked LsmError Bytes :=
  -- `checked_add`
  if offset + size ≥ 2 ^ 64 then .error (.corruption s!"read of {size} bytes overflows usize at offset {offset}")
  else if offset + size > bytes.length then
    .error (.corruption s!"read of {size} bytes at offset {offset} exceeds buffer length {bytes.length}")
  else slice bytes offset (offset + size)

def readU16 (bytes : Bytes) (offset : Nat) : Checked LsmError Nat := do
  let le ← readExact bytes offset 2
  pure (ofLeBytes le)

def readU32 (bytes : Bytes) (offset : Nat) : Checked LsmError Nat := do
  let le ← readExact bytes offset 4
  pure (ofLeBytes le)

def readU64 (bytes : Bytes) (offset : Nat) : Checked LsmError Nat := do
  let le ← readExact bytes offset 8
  pure (ofLeBytes le)

/-! ## `wal/mod.rs` and `wal/reader.rs` -/

def decodeEntry (Γ : Ctx) (bytes : Bytes) : Checked LsmError WalEntry :=
  if bytes.length < headerLen then
    .error (.corruption s!"wal entry shorter than {headerLen}-byte header: {bytes.length} bytes")
  else do
    let opByte ← index bytes opByteOffset
    let op ← lift (WalOp.fromByte opByte)
    let keyLen ← readU16 bytes keyLenOffset
    let valLen ← readU32 bytes valLenOffset
    let keyEnd ← add headerLen keyLen
    let payloadEnd ← add keyEnd valLen
    if payloadEnd > bytes.length then do
      let payload ← add keyLen valLen
      let available ← sub bytes.length headerLen
      .error (.corruption ("wal entry truncated: header declares " ++ s!"{payload} payload bytes, only " ++
        s!"{available} available"))
    else do
      let stored ← readU32 bytes 0
      let body ← slice bytes crcLen payloadEnd
      if (Γ.crc body).toNat ≠ stored then .error (.corruption "wal checksum mismatch")
      else do
        let key ← slice bytes headerLen keyEnd
        let value ← slice bytes keyEnd payloadEnd
        pure ⟨op, key, value⟩

/-- The loop of `scan`. -/
def scanLoop (Γ : Ctx) (bytes : Bytes) : Nat → Nat → List WalEntry → Checked LsmError (List WalEntry)
  | 0, _, _ => .fault .endless
  | fuel + 1, offset, entries => do
    let remaining ← sub bytes.length offset
    if remaining < headerLen then pure entries
    else do
      let headerEnd ← add offset headerLen
      let header ← slice bytes offset headerEnd
      let keyLen ← readU16 header keyLenOffset
      let valLen ← readU32 header valLenOffset
      let keyEnd ← add headerLen keyLen
      let frameLen ← add keyEnd valLen
      if frameLen > remaining then pure entries
      else do
        let frameEnd ← add offset frameLen
        let frame ← slice bytes offset frameEnd
        match decodeEntry Γ frame with
        | .fault flt => .fault flt
        | .error err => .error (.corruption (s!"wal entry at byte {offset} failed to decode: " ++ err.toString))
        | .ok entry => scanLoop Γ bytes fuel frameEnd (entries ++ [entry])

/-- `WalReader::scan`. Every round but the last takes at least a byte. -/
def scan (Γ : Ctx) (bytes : Bytes) : Checked LsmError (List WalEntry) := scanLoop Γ bytes (bytes.length + 1) 0 []

/-! ## `sstable/record.rs` -/

def recordLen (keyLen valueLen : Nat) : Checked LsmError Nat := do
  let header ← add recordHeaderLen keyLen
  add header valueLen

def readRecord (limit : Nat) (bytes : Bytes) (offset : Nat) : Checked LsmError (Key × Value × Bool × Nat) :=
  -- `saturating_sub`
  let remaining := bytes.length - offset
  if remaining < recordHeaderLen then .error (.corruption s!"sstable record at offset {offset} shorter than header")
  else do
    let keyLen ← readU16 bytes offset
    let flagsAt ← add offset 2
    let flags ← index bytes flagsAt
    let valueLenAt ← add offset 3
    let valueLen ← readU32 bytes valueLenAt
    let total ← recordLen keyLen valueLen
    if total > remaining then
      .error (.corruption (s!"sstable record at offset {offset} truncated: header declares " ++
        s!"{total} bytes, only {remaining} available"))
    else do
      let keyStart ← add offset recordHeaderLen
      let valueStart ← add keyStart keyLen
      let recordEnd ← add offset total
      let key ← slice bytes keyStart valueStart
      let key ← toVec limit key
      let value ← slice bytes valueStart recordEnd
      let value ← toVec limit value
      pure (key, value, flags &&& flagDeleted ≠ 0, total)

/-! ## `sstable/index.rs` -/

/-- The entry at `offset`, and the bytes it takes. -/
def readEntry (limit : Nat) (bytes : Bytes) (offset : Nat) : Checked LsmError (IndexEntry × Nat) := do
  let remaining ← sub bytes.length offset
  if remaining < indexEntryHeaderLen then
    .error (.corruption (s!"sstable index entry at offset {offset} truncated: {remaining} bytes left, " ++
      s!"need at least {indexEntryHeaderLen}"))
  else do
    let keyLen ← readU16 bytes offset
    let entryLen ← add indexEntryHeaderLen keyLen
    if entryLen > remaining then
      .error (.corruption (s!"sstable index entry at offset {offset} truncated: header declares {entryLen} bytes, " ++
        s!"only {remaining} available"))
    else do
      let keyStart ← add offset 2
      let keyEnd ← add keyStart keyLen
      let firstKey ← slice bytes keyStart keyEnd
      let firstKey ← toVec limit firstKey
      let blockOffset ← readU64 bytes keyEnd
      let sizeAt ← add keyEnd 8
      let size ← readU64 bytes sizeAt
      pure (⟨firstKey, blockOffset, size⟩, entryLen)

/-- The loop of `parse_index`. -/
def parseLoop (limit : Nat) (bytes : Bytes) : Nat → Nat → List IndexEntry → Checked LsmError (List IndexEntry)
  | 0, _, _ => .fault .endless
  | fuel + 1, offset, entries =>
    if offset < bytes.length then do
      let (entry, entryLen) ← readEntry limit bytes offset
      let entries ← push limit entries entry
      let offset ← add offset entryLen
      parseLoop limit bytes fuel offset entries
    else pure entries

def parseIndex (limit : Nat) (bytes : Bytes) : Checked LsmError (List IndexEntry) :=
  parseLoop limit bytes (bytes.length + 1) 0 []

/-- `slice::partition_point`. It is a binary search: on a slice that the predicate does not partition it returns some position. -/
abbrev PartitionPoint := (IndexEntry → Bool) → (entries : List IndexEntry) → Fin (entries.length + 1)

def locateBlock (partitionPoint : PartitionPoint) (entries : List IndexEntry) (key : Key) : Checked LsmError (Option Nat) :=
  let split := (partitionPoint (fun e => decide (e.firstKey ≤ key)) entries).val
  if split = 0 then pure none
  else do
    let blockIdx ← sub split 1
    pure (some blockIdx)

/-! ## `sstable/bloom.rs` -/

/-- The words from the `i`-th on. -/
def readWords (bytes : Bytes) : Nat → Nat → Checked LsmError (List UInt64)
  | 0, _ => pure []
  | n + 1, i => do
    let words ← mul i 8
    let wordAt ← add 4 words
    let word ← readU64 bytes wordAt
    let words ← readWords bytes n (i + 1)
    pure (UInt64.ofNat word :: words)

def decodeBloom (Γ : Ctx) (limit : Nat) (bytes : Bytes) : Checked LsmError Γ.Filter :=
  if bytes.length < 4 then
    .error (.corruption s!"bloom block length {bytes.length} is not 4 + a multiple of 8")
  else do
    let wordBytes ← sub bytes.length 4
    if wordBytes % 8 ≠ 0 then
      .error (.corruption s!"bloom block length {bytes.length} is not 4 + a multiple of 8")
    else do
      let numHashes ← readU32 bytes 0
      if numHashes = 0 ∨ numHashes > maxNumHashes then
        .error (.corruption s!"bloom block declares implausible hash count {numHashes}")
      else
        let numWords := wordBytes / 8
        if numWords = 0 then .error (.corruption "bloom block has no data words")
        else do
          alloc limit (numWords * 8)
          let words ← readWords bytes numWords 0
          pure (Γ.fromVec words numHashes)

/-! ## `sstable/reader.rs` -/

open SsTableFile (magic)

/-- A positional read that finds all its bytes. -/
def readAt (file : Bytes) (offset len : Nat) : Checked LsmError Bytes :=
  if offset + len ≤ file.length then .ok ((file.drop offset).take len) else .fault .outOfBounds

/-- `vec![0u8; len]` filled from `offset` on, if it has a byte. -/
def readBuffer (limit : Nat) (file : Bytes) (offset len : Nat) : Checked LsmError Bytes := do
  alloc limit len
  if len > 0 then readAt file offset len else pure []

/-- Where the index ends, by the footer. -/
def endOfIndex (fileLen bloomOffset : Nat) : Checked LsmError Nat :=
  if bloomOffset = 0 then sub fileLen footerLen else pure bloomOffset

/-- The Bloom block, by the footer. -/
def openBloom (Γ : Ctx) (file : Bytes) (bloomOffset bloomEnd : Nat) : Checked LsmError (Option Γ.Filter) :=
  if bloomOffset = 0 then pure none
  else do
    let bloomLen ← sub bloomEnd bloomOffset
    let bloomBytes ← readBuffer file.length file bloomOffset bloomLen
    let bloom ← decodeBloom Γ file.length bloomBytes
    pure (some bloom)

def openFile (Γ : Ctx) (path : String) (file : Bytes) : Checked LsmError (SsTableFile.SsTableReader Γ) :=
  let fileLen := file.length
  if fileLen < footerLen then
    .error (.corruption ("sstable " ++ path ++ s!" is {fileLen} bytes, shorter than the {footerLen}-byte footer"))
  else do
    let footerAt ← sub fileLen footerLen
    let footer ← readAt file footerAt footerLen
    let magicAt ← sub footerLen 8
    let found ← slice footer magicAt footerLen
    if found ≠ magic then
      .error (.corruption ("sstable " ++ path ++ " has an invalid magic (not an sstable or truncated footer)"))
    else do
      let indexOffset ← readU64 footer 0
      let bloomOffset ← readU64 footer 8
      let bloomEnd ← sub fileLen footerLen
      if bloomOffset ≠ 0 ∧ bloomOffset > bloomEnd then
        .error (.corruption ("sstable " ++ path ++ s!" bloom_offset {bloomOffset} exceeds region end {bloomEnd} " ++
          "(overlaps the footer)"))
      else do
        let endOfIndex ← endOfIndex fileLen bloomOffset
        if indexOffset > endOfIndex ∨ endOfIndex > fileLen then
          .error (.corruption ("sstable " ++ path ++ s!" footer offsets out of range: index_offset={indexOffset}, " ++
            s!"bloom_offset={bloomOffset}, file_len={fileLen}"))
        else do
          let indexLen ← sub endOfIndex indexOffset
          let indexBytes ← readBuffer fileLen file indexOffset indexLen
          let index ← parseIndex fileLen indexBytes
          let bloom ← openBloom Γ file bloomOffset bloomEnd
          pure ⟨file, fileLen, indexOffset, index, bloom, path⟩

variable {Γ : Ctx}

/-- The scan of one block in `get`. -/
def scanBlock (limit : Nat) (block : Bytes) (key : Key) : Nat → Nat → Checked LsmError (Option LookupValue)
  | 0, _ => .fault .endless
  | fuel + 1, offset =>
    if offset < block.length then do
      let (recordKey, value, deleted, consumed) ← readRecord limit block offset
      if recordKey = key then pure (some (if deleted then .deleted else .present value))
      else if key < recordKey then pure none
      else do
        let offset ← add offset consumed
        scanBlock limit block key fuel offset
    else pure none

/-- `get` after `locate_block`. -/
def getIn (r : SsTableFile.SsTableReader Γ) (key : Key) : Option Nat → Checked LsmError (Option LookupValue)
  | none => pure none
  | some blockIdx => do
    let entry ← index r.index blockIdx
    -- `checked_add`
    if entry.offset + entry.size ≥ 2 ^ 64 then
      .error (.corruption ("sstable " ++ r.path ++ s!" block {blockIdx} offset+size overflows u64"))
    else if entry.offset + entry.size > r.fileLen then
      .error (.corruption ("sstable " ++ r.path ++ s!" block {blockIdx} at offset {entry.offset} size " ++
        s!"{entry.size} exceeds file length {r.fileLen}"))
    else do
      alloc r.file.length entry.size
      let block ← readAt r.file entry.offset entry.size
      scanBlock r.file.length block key (block.length + 1) 0

def get (partitionPoint : PartitionPoint) (r : SsTableFile.SsTableReader Γ) (key : Key) : Checked LsmError (Option LookupValue) :=
  if r.bloomProbe key = some false then pure none
  else do
    let found ← locateBlock partitionPoint r.index key
    getIn r key found

/-- The loop of `records`. -/
def recordsLoop (limit : Nat) (data : Bytes) : Nat → Nat → List Record → Checked LsmError (List Record)
  | 0, _, _ => .fault .endless
  | fuel + 1, offset, out =>
    if offset < data.length then do
      let (key, value, deleted, consumed) ← readRecord limit data offset
      let out ← push limit out (key, value, deleted)
      let offset ← add offset consumed
      recordsLoop limit data fuel offset out
    else pure out

def records (r : SsTableFile.SsTableReader Γ) : Checked LsmError (List Record) := do
  let data ← readBuffer r.file.length r.file 0 r.indexOffset
  recordsLoop r.file.length data (data.length + 1) 0 []

end Machine

end LsmEngine
