import LsmEngine.Manifest

/-!
# The bytes of the MANIFEST

The codec of `manifest.rs`. A record on disk is
`[level u32][seq u64][name_len u32][name][min_len u32][min][max_len u32][max]`, little-endian. There is no count: the records
follow the magic, level by level, up to the end of the file. Here a table carries its file name as a string and its numbers as
machine integers, as in the source; `LsmEngine.SstMeta` is the same with the name by what it is made from.
-/

namespace LsmEngine

namespace ManifestFile

/-- `LSMMANIFEST01`. -/
def magicManifest : Bytes := [0x4C, 0x53, 0x4D, 0x4D, 0x41, 0x4E, 0x49, 0x46, 0x45, 0x53, 0x54, 0x30, 0x31]

def magicLen : Nat := magicManifest.length
def fixedHeaderLen : Nat := 4 + 8 + 4

structure SstMeta where
  level : UInt32
  seq : UInt64
  name : String
  min : Bytes
  max : Bytes
  deriving DecidableEq, Repr

structure Manifest where
  levels : List (List SstMeta) := []
  deriving DecidableEq, Repr

/-- The levels, with empty ones at the end up to `level`. -/
def Manifest.grown (m : Manifest) (level : Nat) : List (List SstMeta) :=
  m.levels ++ List.replicate (level + 1 - m.levels.length) []

/-- A table put into a level before the first one whose seq is not smaller. -/
def insertBySeq (sst : SstMeta) (l : List SstMeta) : List SstMeta :=
  l.insertIdx (partitionPoint (fun m => decide (m.seq < sst.seq)) l) sst

/-- `Manifest::add`. -/
def Manifest.add (m : Manifest) (sst : SstMeta) : Manifest :=
  ⟨(m.grown sst.level.toNat).modify sst.level.toNat (insertBySeq sst)⟩

/-- `Manifest::remove`. -/
def Manifest.remove (m : Manifest) (level : UInt32) (seq : UInt64) : Manifest × Bool :=
  match m.levels[level.toNat]? with
  | none => (m, false)
  | some list =>
    match list.findIdx? (fun m => m.seq = seq) with
    | some pos => (⟨m.levels.modify level.toNat (fun l => l.eraseIdx pos)⟩, true)
    | none => (m, false)

/-! ## Writing -/

/-- The bytes of a string. -/
def asBytes (s : String) : Bytes := s.toByteArray.data.toList

/-- A length and the bytes it counts. `none` is the panic of `u32::try_from(..).expect(..)`. -/
def putPayload (buf payload : Bytes) : Option Bytes :=
  if payload.length < 2 ^ 32 then some (putU32 buf payload.length ++ payload) else none

/-- The record of a table at the position `level` of the levels. -/
def putMeta (buf : Bytes) (level : Nat) (sst : SstMeta) : Option Bytes := do
  let buf := putU64 (putU32 buf level) sst.seq.toNat
  let buf ← putPayload buf (asBytes sst.name)
  let buf ← putPayload buf sst.min
  putPayload buf sst.max

/-- The records of a level. -/
def putLevel (level : Nat) : Bytes → List SstMeta → Option Bytes
  | buf, [] => some buf
  | buf, sst :: metas => do
    let buf ← putMeta buf level sst
    putLevel level buf metas

/-- The records of the levels from `level` on. -/
def putLevels : Bytes → Nat → List (List SstMeta) → Option Bytes
  | buf, _, [] => some buf
  | buf, level, metas :: rest => do
    let buf ← putLevel level buf metas
    putLevels buf (level + 1) rest

def encode (manifest : Manifest) : Option Bytes := putLevels magicManifest 0 manifest.levels

/-! ## Reading -/

/-- `String::from_utf8`. -/
def fromUtf8 (bytes : Bytes) : Option String := String.fromUTF8? ⟨bytes.toArray⟩

/-- `read_payload`: the payload at `offset`, and the offset after it. -/
def readPayload (bytes : Bytes) (offset len : Nat) (what : String) : Except LsmError (Bytes × Nat) :=
  if offset + len > bytes.length then
    .error (.corruption ("manifest " ++ what ++ s!" runs past end of file: declared {len} bytes, " ++
      s!"{bytes.length - offset} available"))
  else .ok ((bytes.drop offset).take len, offset + len)

/-- A length at `offset` and the payload after it. -/
def readSized (bytes : Bytes) (offset : Nat) (what : String) : Except LsmError (Bytes × Nat) := do
  let len ← readU32 bytes offset
  readPayload bytes (offset + 4) len what

/-- The record at `offset`, and the offset after it. -/
def readMeta (bytes : Bytes) (offset : Nat) : Except LsmError (SstMeta × Nat) := do
  if bytes.length - offset < fixedHeaderLen then
    throw (.corruption (s!"manifest record shorter than {fixedHeaderLen}-byte header: " ++
      s!"{bytes.length - offset} bytes remain"))
  let level ← readU32 bytes offset
  let seq ← readU64 bytes (offset + 4)
  let (nameBytes, offset) ← readSized bytes (offset + 4 + 8) "sst name"
  match fromUtf8 nameBytes with
  | none => throw (.corruption "manifest sst name is not valid utf-8")
  | some name =>
    let (min, offset) ← readSized bytes offset "min key"
    let (max, offset) ← readSized bytes offset "max key"
    pure (⟨UInt32.ofNat level, UInt64.ofNat seq, name, min, max⟩, offset)

/-- A record that is read goes to the end of its level, which must be in ascending order of seq. -/
def Manifest.push (m : Manifest) (sst : SstMeta) : Except LsmError Manifest :=
  let levels := m.grown sst.level.toNat
  match ((levels[sst.level.toNat]?).getD []).getLast? with
  | some prev =>
    if prev.seq ≥ sst.seq then
      .error (.corruption (s!"manifest level {sst.level.toNat} seq out of order: {sst.seq.toNat} after " ++
        s!"{prev.seq.toNat}"))
    else .ok ⟨levels.modify sst.level.toNat (· ++ [sst])⟩
  | none => .ok ⟨levels.modify sst.level.toNat (· ++ [sst])⟩

/-- The loop of `decode` from `offset` on. Every record takes at least a header, so the number of bytes bounds the rounds. -/
def decodeFrom (bytes : Bytes) : Nat → Nat → Manifest → Except LsmError Manifest
  | 0, _, m => .ok m
  | fuel + 1, offset, m =>
    if offset < bytes.length then do
      let (sst, offset) ← readMeta bytes offset
      let m ← m.push sst
      decodeFrom bytes fuel offset m
    else .ok m

def decode (bytes : Bytes) : Except LsmError Manifest :=
  if bytes.length < magicLen ∨ bytes.take magicLen ≠ magicManifest then .error (.corruption "invalid manifest magic")
  else decodeFrom bytes bytes.length magicLen {}

end ManifestFile

end LsmEngine
