import LsmEngine.SsTable

/-!
# The bytes of a table

The codecs of `sstable/index.rs` and `sstable/bloom.rs`, the file that `SsTableBuilder::build` writes, and the reader over the bytes
of a file. An index entry on disk is `[key_len u16][first_key][offset u64][size u64]`, the Bloom block is `[num_hashes u32][words u64
x N]`, and the footer is `[index_offset u64][bloom_offset u64][magic]`, little-endian; neither the index nor the Bloom block has a
count. `LsmEngine.SstFile` is the same file with the sections apart. The path of a file only stands in the texts of errors; here it
is the text that `{:?}` makes of it.
-/

namespace LsmEngine

namespace SsTableBuilder

variable {Γ : Ctx}

/-- `SsTableBuilder::new`: no Bloom block. -/
def new (Γ : Ctx) : SsTableBuilder Γ := {}

/-- `add` as a call on a builder that the caller keeps: what becomes of the builder, and what the call returns. -/
def addCall (b : SsTableBuilder Γ) (key : Key) (value : Value) (deleted : Bool) :
    SsTableBuilder Γ × Except LsmError Unit :=
  if key.length > maxKeyLen then (b, .error (.keyTooLarge key.length maxKeyLen))
  else if value.length > maxValueLen then (b, .error (.valueTooLarge value.length maxValueLen))
  else if b.lastKey.any (fun prev => decide (key ≤ prev)) then
    (b, .error (.invalidOp "sstable keys must be strictly ascending"))
  else
    let b :=
      if b.current ≠ [] ∧ b.current.length + recordLen key.length value.length > targetBlockSize then b.finalizeBlock
      else b
    let b := if b.current = [] then { b with currentFirstKey := some key } else b
    let b :=
      if b.expectedItems > 0 then { b with bloom := some (Γ.insert (b.bloom.getD (Γ.newBloom b.expectedItems)) key) }
      else b
    match putRecord b.current key value deleted with
    -- the block may be finalized and the key inserted by now
    | .error err => (b, .error err)
    | .ok current =>
      let b := { b with current := current }
      let b := if b.lastKey = none then { b with firstKey := some key } else b
      ({ b with lastKey := some key }, .ok ())

/-- Calls of `add` one after another: the builder they leave, and the calls that returned `Ok`. -/
def addCalls (b : SsTableBuilder Γ) : List Record → SsTableBuilder Γ × List Record
  | [] => (b, [])
  | r :: rs =>
    match b.addCall r.1 r.2.1 r.2.2 with
    | (b, .ok ()) =>
      let (b, accepted) := b.addCalls rs
      (b, r :: accepted)
    | (b, .error _) => b.addCalls rs

end SsTableBuilder

namespace SsTableFile

/-- `LSMTREE1`. -/
def magic : Bytes := [0x4C, 0x53, 0x4D, 0x54, 0x52, 0x45, 0x45, 0x31]

/-! ## The sparse index -/

/-- One entry of `encode_index`. -/
def putEntry (buf : Bytes) (e : IndexEntry) : Bytes :=
  putU64 (putU64 (putU16 buf e.firstKey.length ++ e.firstKey) e.offset) e.size

/-- `encode_index`: no entry is written before every first key has been checked. -/
def encodeIndex (buf : Bytes) (entries : List IndexEntry) : Except LsmError Bytes :=
  match entries.find? (fun e => decide (e.firstKey.length > maxKeyLen)) with
  | some e => .error (.keyTooLarge e.firstKey.length maxKeyLen)
  | none => .ok (entries.foldl putEntry buf)

/-- `encode_index` as a call on a buffer that the caller keeps: what becomes of the buffer, and what the call returns. -/
def encodeIndexInto (buf : Bytes) (entries : List IndexEntry) : Bytes × Except LsmError Unit :=
  match entries.find? (fun e => decide (e.firstKey.length > maxKeyLen)) with
  | some e => (buf, .error (.keyTooLarge e.firstKey.length maxKeyLen))
  | none => (entries.foldl putEntry buf, .ok ())

/-- The entry at `offset`, and the bytes it takes. -/
def readEntry (bytes : Bytes) (offset : Nat) : Except LsmError (IndexEntry × Nat) := do
  let remaining := bytes.length - offset
  if remaining < indexEntryHeaderLen then
    throw (.corruption (s!"sstable index entry at offset {offset} truncated: {remaining} bytes left, " ++
      s!"need at least {indexEntryHeaderLen}"))
  let keyLen ← readU16 bytes offset
  let entryLen := indexEntryHeaderLen + keyLen
  if entryLen > remaining then
    throw (.corruption (s!"sstable index entry at offset {offset} truncated: header declares {entryLen} bytes, " ++
      s!"only {remaining} available"))
  let keyEnd := offset + 2 + keyLen
  let blockOffset ← readU64 bytes keyEnd
  let size ← readU64 bytes (keyEnd + 8)
  pure (⟨(bytes.drop (offset + 2)).take keyLen, blockOffset, size⟩, entryLen)

/-- The loop of `parse_index` from `offset` on. Every entry takes at least a header, so the number of bytes bounds the rounds. -/
def parseFrom (bytes : Bytes) : Nat → Nat → Except LsmError (List IndexEntry)
  | 0, _ => .ok []
  | fuel + 1, offset =>
    if offset < bytes.length then do
      let (entry, entryLen) ← readEntry bytes offset
      let entries ← parseFrom bytes fuel (offset + entryLen)
      pure (entry :: entries)
    else .ok []

def parseIndex (bytes : Bytes) : Except LsmError (List IndexEntry) := parseFrom bytes bytes.length 0

/-! ## The Bloom block -/

def encodeBloom (Γ : Ctx) (buf : Bytes) (bloom : Γ.Filter) : Bytes :=
  (Γ.words bloom).foldl (fun buf word => putU64 buf word.toNat) (putU32 buf (Γ.numHashes bloom))

/-- The words from the `i`-th on. -/
def readWords (bytes : Bytes) : Nat → Nat → Except LsmError (List UInt64)
  | 0, _ => .ok []
  | n + 1, i => do
    let word ← readU64 bytes (4 + i * 8)
    let words ← readWords bytes n (i + 1)
    pure (UInt64.ofNat word :: words)

def decodeBloom (Γ : Ctx) (bytes : Bytes) : Except LsmError Γ.Filter := do
  if bytes.length < 4 ∨ (bytes.length - 4) % 8 ≠ 0 then
    throw (.corruption s!"bloom block length {bytes.length} is not 4 + a multiple of 8")
  let numHashes ← readU32 bytes 0
  if numHashes = 0 ∨ numHashes > maxNumHashes then
    throw (.corruption s!"bloom block declares implausible hash count {numHashes}")
  let numWords := (bytes.length - 4) / 8
  if numWords = 0 then throw (.corruption "bloom block has no data words")
  let words ← readWords bytes numWords 0
  pure (Γ.fromVec words numHashes)

/-! ## Writing a file -/

/-- `build`: the bytes it writes, `[data][index][bloom?][footer]`. -/
def build {Γ : Ctx} (b : SsTableBuilder Γ) : Except LsmError Bytes := do
  let b := b.finalizeBlock
  let indexOffset := b.data.length
  let indexBytes ← encodeIndex [] b.index
  let bloomBytes :=
    match b.bloom with
    | some bloom => encodeBloom Γ [] bloom
    | none => []
  let bloomOffset := if bloomBytes = [] then 0 else indexOffset + indexBytes.length
  let footer := putU64 (putU64 [] indexOffset) bloomOffset ++ magic
  pure (b.data ++ indexBytes ++ bloomBytes ++ footer)

/-! ## Reading a file -/

/-- `read_exact` at a place of a file: an I/O error when the file ends before, unless nothing is asked for. -/
def readAt (file : Bytes) (offset len : Nat) : Except LsmError Bytes :=
  if len ≠ 0 ∧ offset + len > file.length then .error .io else .ok ((file.drop offset).take len)

structure SsTableReader (Γ : Ctx) where
  file : Bytes
  fileLen : Nat
  /-- data occupies `[0..index_offset)` -/
  indexOffset : Nat
  index : List IndexEntry
  bloom : Option Γ.Filter
  path : String

/-- `SsTableReader::open` on the bytes of a file. -/
def openFile (Γ : Ctx) (path : String) (file : Bytes) : Except LsmError (SsTableReader Γ) := do
  let fileLen := file.length
  if fileLen < footerLen then
    throw (.corruption ("sstable " ++ path ++ s!" is {fileLen} bytes, shorter than the {footerLen}-byte footer"))
  let footer ← readAt file (fileLen - footerLen) footerLen
  if footer.drop (footerLen - 8) ≠ magic then
    throw (.corruption ("sstable " ++ path ++ " has an invalid magic (not an sstable or truncated footer)"))
  let indexOffset ← readU64 footer 0
  let bloomOffset ← readU64 footer 8
  let bloomEnd := fileLen - footerLen
  if bloomOffset ≠ 0 ∧ bloomOffset > bloomEnd then
    throw (.corruption ("sstable " ++ path ++ s!" bloom_offset {bloomOffset} exceeds region end {bloomEnd} " ++
      "(overlaps the footer)"))
  let endOfIndex := if bloomOffset = 0 then fileLen - footerLen else bloomOffset
  if indexOffset > endOfIndex ∨ endOfIndex > fileLen then
    throw (.corruption ("sstable " ++ path ++ s!" footer offsets out of range: index_offset={indexOffset}, " ++
      s!"bloom_offset={bloomOffset}, file_len={fileLen}"))
  let indexBytes ← readAt file indexOffset (endOfIndex - indexOffset)
  let index ← parseIndex indexBytes
  let bloom ←
    if bloomOffset = 0 then pure none
    else do
      let bloomBytes ← readAt file bloomOffset (bloomEnd - bloomOffset)
      let bloom ← decodeBloom Γ bloomBytes
      pure (some bloom)
  pure ⟨file, fileLen, indexOffset, index, bloom, path⟩

namespace SsTableReader

variable {Γ : Ctx}

def numBlocks (r : SsTableReader Γ) : Nat := r.index.length

def bloomProbe (r : SsTableReader Γ) (key : Key) : Option Bool := r.bloom.map (fun b => Γ.contains b key)

def readBlockAt (r : SsTableReader Γ) (offset len : Nat) : Except LsmError Bytes := readAt r.file offset len

def get (r : SsTableReader Γ) (key : Key) : Except LsmError (Option LookupValue) :=
  if r.bloomProbe key = some false then .ok none
  else
    match locateBlock r.index key with
    | none => .ok none
    | some blockIdx =>
      match r.index[blockIdx]? with
      | none => .ok none
      | some entry =>
        let blockEnd := entry.offset + entry.size
        if blockEnd ≥ 2 ^ 64 then
          .error (.corruption ("sstable " ++ r.path ++ s!" block {blockIdx} offset+size overflows u64"))
        else if blockEnd > r.fileLen then
          .error (.corruption ("sstable " ++ r.path ++ s!" block {blockIdx} at offset {entry.offset} size " ++
            s!"{entry.size} exceeds file length {r.fileLen}"))
        else do
          let block ← r.readBlockAt entry.offset entry.size
          LsmEngine.SsTableReader.scanBlock block key block.length 0

def records (r : SsTableReader Γ) : Except LsmError (List Record) := do
  let data ← r.readBlockAt 0 r.indexOffset
  LsmEngine.SsTableReader.readRecords data data.length 0

end SsTableReader

end SsTableFile

end LsmEngine
