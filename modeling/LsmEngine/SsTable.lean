import LsmEngine.Library.Overlay
import LsmEngine.Library.SortedMap
import LsmEngine.Wal

/-!
# SSTables

The record codec of `sstable/record.rs`, the builder of `sstable/builder.rs` and the reader of `sstable/reader.rs`, with the
sparse index and the Bloom filter block. A table file is `[data][index][bloom?][footer]`. `SstFile` keeps the sections apart:
the data section is bytes, block after block of records; the index and the Bloom block are the values their codecs write, with
offsets and sizes as numbers, and the footer is where the sections end.
-/

namespace LsmEngine

open Overlay

/-- One record of a table: key, value, deleted. -/
abbrev Record := Key × Value × Bool

def targetBlockSize : Nat := 4096
def footerLen : Nat := 24
def recordHeaderLen : Nat := 2 + 1 + 4
def indexEntryHeaderLen : Nat := 2 + 8 + 8
def flagDeleted : UInt8 := 1
def maxNumHashes : Nat := 255

inductive LookupValue where
  | present (value : Value)
  | deleted
  deriving DecidableEq, Repr

/-! ## Records -/

def recordLen (keyLen valueLen : Nat) : Nat := recordHeaderLen + keyLen + valueLen

/-- `put_record`: the buffer with the record appended. -/
def putRecord (buf : Bytes) (key : Key) (value : Value) (deleted : Bool) : Except LsmError Bytes :=
  if key.length > maxKeyLen then .error (.keyTooLarge key.length maxKeyLen)
  else if value.length > maxValueLen then .error (.valueTooLarge value.length maxValueLen)
  else
    let flags : UInt8 := if deleted then flagDeleted else 0
    .ok (putU32 (putU16 buf key.length ++ [flags]) value.length ++ key ++ value)

/-- `read_record`: the record at `offset` and the bytes it takes. -/
def readRecord (bytes : Bytes) (offset : Nat) : Except LsmError (Key × Value × Bool × Nat) := do
  let remaining := bytes.length - offset
  if remaining < recordHeaderLen then
    throw (.corruption s!"sstable record at offset {offset} shorter than header")
  let keyLen ← readU16 bytes offset
  let flags := bytes.getD (offset + 2) 0
  let valueLen ← readU32 bytes (offset + 3)
  let total := recordLen keyLen valueLen
  if total > remaining then
    throw (.corruption (s!"sstable record at offset {offset} truncated: header declares " ++
      s!"{total} bytes, only {remaining} available"))
  let keyStart := offset + recordHeaderLen
  let valueStart := keyStart + keyLen
  -- only bit 0 of the flags has a meaning
  let deleted := flags &&& flagDeleted ≠ 0
  pure ((bytes.drop keyStart).take keyLen, (bytes.drop valueStart).take valueLen, deleted, total)

/-! ## The sparse index and the Bloom block -/

structure IndexEntry where
  firstKey : Key
  offset : Nat
  size : Nat
  deriving DecidableEq, Repr

/-- The length check of `encode_index`, made on every entry before anything is written. -/
def encodeIndex (entries : List IndexEntry) : Except LsmError (List IndexEntry) :=
  match entries.find? (fun e => decide (e.firstKey.length > maxKeyLen)) with
  | some e => .error (.keyTooLarge e.firstKey.length maxKeyLen)
  | none => .ok entries

/-- `slice::partition_point` on a slice that its predicate partitions. -/
def partitionPoint {α : Type} (p : α → Bool) (l : List α) : Nat := (l.takeWhile p).length

/-- `locate_block`: the last entry whose first key is at most the key. -/
def locateBlock (entries : List IndexEntry) (key : Key) : Option Nat :=
  let split := partitionPoint (fun e => decide (e.firstKey ≤ key)) entries
  if split = 0 then none else some (split - 1)

/-- The Bloom block: `[num_hashes u32][words u64 x N]`. -/
structure BloomBlock where
  numHashes : Nat
  words : List UInt64
  deriving DecidableEq, Repr

def encodeBloom (Γ : Ctx) (bloom : Γ.Filter) : BloomBlock := ⟨Γ.numHashes bloom, Γ.words bloom⟩

/-- `decode_bloom`: the checks on the hash count and the word count, then the filter rebuilt from its words. -/
def decodeBloom (Γ : Ctx) (b : BloomBlock) : Except LsmError Γ.Filter :=
  if b.numHashes = 0 ∨ b.numHashes > maxNumHashes then
    .error (.corruption s!"bloom block declares implausible hash count {b.numHashes}")
  else if b.words = [] then .error (.corruption "bloom block has no data words")
  else .ok (Γ.fromVec b.words b.numHashes)

/-- A table file, section by section. -/
structure SstFile where
  data : Bytes
  index : List IndexEntry
  bloom : Option BloomBlock

/-- The length of the file in bytes. -/
def SstFile.fileLen (f : SstFile) : Nat :=
  f.data.length + (f.index.map (fun e => indexEntryHeaderLen + e.firstKey.length)).sum +
    (match f.bloom with
      | none => 0
      | some b => 4 + 8 * b.words.length) + footerLen

/-! ## The builder -/

structure SsTableBuilder (Γ : Ctx) where
  /-- finalized blocks, concatenated -/
  data : Bytes := []
  /-- active block accumulating records -/
  current : Bytes := []
  currentFirstKey : Option Key := none
  index : List IndexEntry := []
  firstKey : Option Key := none
  lastKey : Option Key := none
  bloom : Option Γ.Filter := none
  expectedItems : Nat := 0

namespace SsTableBuilder

variable {Γ : Ctx}

def withExpectedItems (Γ : Ctx) (expectedItems : Nat) : SsTableBuilder Γ := { expectedItems := expectedItems }

/-- `finalize_block`: the active block moves into `data`, and the index records its offset. -/
def finalizeBlock (b : SsTableBuilder Γ) : SsTableBuilder Γ :=
  match b.currentFirstKey with
  | none => b
  | some firstKey =>
    { b with
      currentFirstKey := none
      index := b.index ++ [⟨firstKey, b.data.length, b.current.length⟩]
      data := b.data ++ b.current
      current := [] }

/-- `add`: length caps, then strict ordering, then the record goes into the active block. -/
def add (b : SsTableBuilder Γ) (key : Key) (value : Value) (deleted : Bool) : Except LsmError (SsTableBuilder Γ) :=
  if key.length > maxKeyLen then .error (.keyTooLarge key.length maxKeyLen)
  else if value.length > maxValueLen then .error (.valueTooLarge value.length maxValueLen)
  else if b.lastKey.any (fun prev => decide (key ≤ prev)) then
    .error (.invalidOp "sstable keys must be strictly ascending")
  else do
    let b :=
      if b.current ≠ [] ∧ b.current.length + recordLen key.length value.length > targetBlockSize then b.finalizeBlock
      else b
    let b := if b.current = [] then { b with currentFirstKey := some key } else b
    let b :=
      if b.expectedItems > 0 then { b with bloom := some (Γ.insert (b.bloom.getD (Γ.newBloom b.expectedItems)) key) }
      else b
    let current ← putRecord b.current key value deleted
    let b := { b with current := current }
    let b := if b.lastKey = none then { b with firstKey := some key } else b
    pure { b with lastKey := some key }

/-- The loop over `add` in `flush_pending` and `compact_all_pending`. -/
def addAll (b : SsTableBuilder Γ) : List Record → Except LsmError (SsTableBuilder Γ)
  | [] => .ok b
  | r :: rs => do
    let b ← b.add r.1 r.2.1 r.2.2
    b.addAll rs

def isEmpty (b : SsTableBuilder Γ) : Bool := b.data.isEmpty && b.current.isEmpty

/-- `estimated_data_size`: the finalized blocks and the active one. -/
def estimatedDataSize (b : SsTableBuilder Γ) : Nat := b.data.length + b.current.length

def minKey (b : SsTableBuilder Γ) : Option Key := b.firstKey

def maxKey (b : SsTableBuilder Γ) : Option Key := b.lastKey

/-- `build`: what it writes to the file. -/
def build (b : SsTableBuilder Γ) : Except LsmError SstFile := do
  let b := b.finalizeBlock
  let index ← encodeIndex b.index
  pure ⟨b.data, index, b.bloom.map (encodeBloom Γ)⟩

end SsTableBuilder

/-! ## The reader -/

/-- An open table. `file` is the open descriptor: positional reads on it keep working after the file is unlinked. -/
structure SsTableReader (Γ : Ctx) where
  file : SstFile
  bloom : Option Γ.Filter

namespace SsTableReader

variable {Γ : Ctx}

/-- `SsTableReader::open` on the content of a table file. -/
def openFile (Γ : Ctx) (f : SstFile) : Except LsmError (SsTableReader Γ) :=
  match f.bloom with
  | none => .ok ⟨f, none⟩
  | some b => do
    let bloom ← decodeBloom Γ b
    pure ⟨f, some bloom⟩

def bloomProbe (r : SsTableReader Γ) (key : Key) : Option Bool := r.bloom.map (fun b => Γ.contains b key)

/-- `read_block_at`, for a range inside the data section. -/
def readBlockAt (r : SsTableReader Γ) (offset len : Nat) : Bytes := (r.file.data.drop offset).take len

/-- The scan of one block in `get`, from `offset` on. Every record takes at least a header, so the length of the block bounds
the rounds. -/
def scanBlock (block : Bytes) (key : Key) : Nat → Nat → Except LsmError (Option LookupValue)
  | 0, _ => .ok none
  | fuel + 1, offset =>
    if offset < block.length then do
      let (recordKey, value, deleted, consumed) ← readRecord block offset
      if recordKey = key then pure (some (if deleted then .deleted else .present value))
      else if key < recordKey then pure none -- sorted: the key cannot appear later
      else scanBlock block key fuel (offset + consumed)
    else .ok none

def get (r : SsTableReader Γ) (key : Key) : Except LsmError (Option LookupValue) :=
  if r.bloomProbe key = some false then .ok none
  else
    match locateBlock r.file.index key with
    | none => .ok none
    | some blockIdx =>
      match r.file.index[blockIdx]? with
      | none => .ok none
      | some entry =>
        if entry.offset + entry.size > r.file.fileLen then
          .error (.corruption (s!"block {blockIdx} at offset {entry.offset} size {entry.size} " ++
            s!"exceeds file length {r.file.fileLen}"))
        else
          let block := r.readBlockAt entry.offset entry.size
          scanBlock block key block.length 0

/-- The loop of `records`, from `offset` on. -/
def readRecords (data : Bytes) : Nat → Nat → Except LsmError (List Record)
  | 0, _ => .ok []
  | fuel + 1, offset =>
    if offset < data.length then do
      let (key, value, deleted, consumed) ← readRecord data offset
      let rest ← readRecords data fuel (offset + consumed)
      pure ((key, value, deleted) :: rest)
    else .ok []

def records (r : SsTableReader Γ) : Except LsmError (List Record) :=
  readRecords r.file.data r.file.data.length 0

end SsTableReader

/-! ## What the records of a table stand for -/

/-- What a record says of its key. -/
def visibleRecord (r : Value × Bool) : Option Value := if r.2 then none else some r.1

/-- What a lookup says of its key. -/
def LookupValue.visible : LookupValue → Option Value
  | .present v => some v
  | .deleted => none

/-- What a list of records says of each key. -/
def tableLayer (rs : List Record) : Layer Key (Option Value) := fun k => (SortedMap.find k rs).map visibleRecord

/-- The records a builder accepts one after another: within the caps and strictly ascending. -/
def Sorted (rs : List Record) : Prop := rs.Pairwise (fun a b => a.1 < b.1)

def Capped (rs : List Record) : Prop := ∀ r ∈ rs, r.1.length ≤ maxKeyLen ∧ r.2.1.length ≤ maxValueLen

end LsmEngine
