import LsmEngine.Disk
import LsmEngine.MemTable
import LsmEngine.Merge

/-!
# The state of the engine

`engine.rs`: the state a running engine shares between its threads, where each thread stands inside the code, and what
`open_with_options` reads from a directory. The threads themselves are not kept: what a thread inside a critical section is
about to do is the state of the section (`WalSection` for the wal mutex, `FlushSection` for `flush_lock`), and a `get` in
progress is an entry of `gets`.
-/

namespace LsmEngine

open Overlay

structure LsmOptions where
  flushThresholdBytes : Nat
  syncPerWrite : Bool
  compactionL0FileThreshold : Nat
  deriving DecidableEq, Repr

/-- A frozen MemTable waiting for its flush, with the log generation to delete once the flush commits. -/
structure PendingImm where
  mem : Nat
  walSeq : Nat
  deriving DecidableEq, Repr

/-- Who called `freeze_active`: a write that crossed the threshold, or `flush()`. A flush remembers how many writes had
completed when it took the wal mutex. -/
inductive WalCaller where
  | write (w : WalEntry)
  | flush (since : Nat)
  deriving DecidableEq, Repr

/-- What the holder of the wal mutex does next. -/
inductive WalSection where
  /-- nobody holds it -/
  | free
  /-- the entry is appended; sync when `sync_per_write`, then apply -/
  | logged (w : WalEntry)
  /-- the entry is synced; apply -/
  | synced (w : WalEntry)
  /-- the entry is applied; compare the size with the threshold -/
  | applied (w : WalEntry)
  /-- `flush()`: sync the active log -/
  | syncing (since : Nat)
  /-- `freeze_active`: return when the active MemTable is empty, else take a seq -/
  | freezing (c : WalCaller)
  /-- create the new log -/
  | rotating (c : WalCaller) (newSeq : Nat)
  /-- take `state_lock`, swap the active MemTable -/
  | created (c : WalCaller) (newSeq : Nat)
  /-- `state_lock` held: replace the writer, which drops the old one -/
  | swapped (c : WalCaller) (newSeq : Nat)
  deriving DecidableEq, Repr

/-- `state_lock` is held between the swap and the replacement of the writer. -/
def WalSection.holdsStateLock : WalSection → Bool
  | .swapped _ _ => true
  | _ => false

/-- Who called `flush_all_pending`. -/
inductive FlushCaller where
  | flush (since : Nat)
  | worker
  deriving DecidableEq, Repr

/-- What follows a MANIFEST write that succeeds. -/
inductive AfterManifest where
  /-- a flush pass: remove the logs of the flushed generations -/
  | removeWals (c : FlushCaller) (walSeqs : List Nat)
  /-- a compaction: remove the input tables -/
  | removeInputs (inputs : List SstMeta)

/-- What the holder of `flush_lock` does next. -/
inductive FlushSection where
  /-- nobody holds it -/
  | free
  /-- `flush_all_pending`, top of its loop, with the generations it has flushed -/
  | draining (c : FlushCaller) (flushed : List Nat)
  /-- `flush_pending`: write the table -/
  | building (c : FlushCaller) (flushed : List Nat) (p : PendingImm) (sst : SstMeta) (file : SstFile) (st : Stage)
  /-- `flush_pending`: take `state_lock`, commit -/
  | committing (c : FlushCaller) (flushed : List Nat) (p : PendingImm) (sst : SstMeta)
  /-- `compact_all_pending`: read the input tables that are left -/
  | reading (inputs todo : List SstMeta) (runs : List Run)
  /-- `compact_all_pending`: write the merged table -/
  | merging (inputs : List SstMeta) (sst : SstMeta) (file : SstFile) (st : Stage)
  /-- `compact_all_pending`: take `state_lock`, commit -/
  | installing (inputs : List SstMeta) (output : Option SstMeta)
  /-- `write_manifest` -/
  | manifest (after : AfterManifest) (m : Manifest) (st : Stage)
  /-- remove the logs that are left -/
  | unlinkWals (c : FlushCaller) (todo : List Nat)
  /-- remove the input tables that are left -/
  | unlinkInputs (todo : List SstMeta)

/-- Where a `get` stands, with what it still has of its snapshot. -/
inductive GetWalk where
  /-- look into the active MemTable -/
  | active (mem : Nat) (imms : List PendingImm) (tables : List SstMeta)
  /-- look into the immutables that are left, the newest first -/
  | immutables (imms : List PendingImm) (tables : List SstMeta)
  /-- look into the tables that are left, level by level, the newest first in each -/
  | tables (tables : List SstMeta)

/-- A `get` in progress. `since` is the number of writes that had been applied when it took its snapshot. -/
structure GetCall where
  key : Key
  since : Nat
  walk : GetWalk

/-- The state of a running engine. A MemTable behind an `Arc` is a number into `mems`, given in order of creation. `readers` are
the `OnceLock`s of the table handles: `none` before the first use, then for good what the first `open` gave. -/
structure Engine (Γ : Ctx) where
  options : LsmOptions
  mems : Nat → MemTable
  active : Nat
  immutables : List PendingImm
  levels : List (List SstMeta)
  readers : SstName → Option (Except String (SsTableReader Γ))
  /-- the buffer of the log writer -/
  walBuf : Bytes
  walSeq : Nat
  nextSeq : Nat
  wal : WalSection
  flush : FlushSection
  /-- `flush()` calls that have left the wal mutex and wait for `flush_lock` -/
  flushers : List Nat
  /-- the `get` calls in progress -/
  gets : List GetCall

/-- The order in which `get` asks the tables. -/
def lookupOrder (levels : List (List SstMeta)) : List SstMeta := levels.flatMap List.reverse

/-- `compact_needed`. -/
def Engine.compactNeeded {Γ : Ctx} (e : Engine Γ) : Bool :=
  e.options.compactionL0FileThreshold ≠ 0 &&
    e.levels.head?.any (fun l0 => decide (l0.length ≥ e.options.compactionL0FileThreshold))

/-! ## Reading a directory -/

/-- What `open_with_options` has read when it starts to write. -/
structure Recovered where
  levels : List (List SstMeta)
  walSeqs : List Nat
  mem : MemTable

/-- The first seq of a level that does not come after its predecessor, with that predecessor. -/
def outOfOrder : List SstMeta → Option (Nat × Nat)
  | a :: b :: rest => if a.seq ≥ b.seq then some (b.seq, a.seq) else outOfOrder (b :: rest)
  | _ => none

/-- The check of `manifest::decode` on the order of seqs, level by level. -/
def checkOrder : Nat → List (List SstMeta) → Except LsmError Unit
  | _, [] => .ok ()
  | level, l :: rest =>
    match outOfOrder l with
    | some (seq, prev) => .error (.corruption s!"manifest level {level} seq out of order: {seq} after {prev}")
    | none => checkOrder (level + 1) rest

/-- `manifest::load`. -/
def loadManifest (d : Disk) : Except LsmError Manifest :=
  match d.manifest with
  | none => .ok {}
  | some f =>
    match f.cur with
    | none => .error (.corruption "invalid manifest magic")
    | some m => do
      checkOrder 0 m.levels
      pure m

/-- The first table a manifest lists that has no file. -/
def missingSst (d : Disk) (levels : List (List SstMeta)) : Option SstMeta :=
  levels.flatten.find? (fun m => (d.ssts m.name).isNone)

/-- Every log replayed in order into one MemTable. -/
def replayAll (Γ : Ctx) : List (Nat × WalFile) → MemTable → Except LsmError MemTable
  | [], m => .ok m
  | (_, f) :: rest, m => do
    let m ← replayInto Γ f.bytes m
    replayAll Γ rest m

/-- What `open_with_options` reads before it creates the fresh log. -/
def recover (Γ : Ctx) (d : Disk) : Except LsmError Recovered := do
  let manifest ← loadManifest d
  match missingSst d manifest.levels with
  | some sst => throw (.corruption ("manifest references missing sstable " ++ sst.name.toString))
  | none =>
    let mem ← replayAll Γ d.wals.toList MemTable.new
    pure ⟨manifest.levels, d.wals.keys, mem⟩

def Recovered.maxSeq (r : Recovered) : Nat := (r.levels.flatten.map SstMeta.seq ++ r.walSeqs).foldl max 0

/-! ## The map a state stands for -/

/-- The records of the table file `name`; none when there is no such file or it does not read back. -/
def Disk.records (Γ : Ctx) (d : Disk) (name : SstName) : List Record :=
  match (d.ssts name).bind Stored.cur with
  | none => []
  | some f =>
    match SsTableReader.openFile Γ f with
    | .error _ => []
    | .ok rd => (rd.records).toOption.getD []

/-- The map the tables of some levels stand for. -/
def tablesMap (Γ : Ctx) (d : Disk) (levels : List (List SstMeta)) : Key → Option Value :=
  ontoAll ((stack levels).map (fun m => tableLayer (d.records Γ m.name))) (fun _ => none)

/-- The map an engine that has just recovered stands for. -/
def Recovered.map (Γ : Ctx) (d : Disk) (r : Recovered) : Key → Option Value := onto r.mem.layer (tablesMap Γ d r.levels)

/-- The map a running engine stands for. -/
def Engine.map {Γ : Ctx} (d : Disk) (e : Engine Γ) : Key → Option Value :=
  onto (e.mems e.active).layer
    (ontoAll (e.immutables.map (fun p => (e.mems p.mem).layer)) (tablesMap Γ d e.levels))

/-- The bytes appended to a log generation: what its file holds and, for the active one, what the writer still buffers. -/
def walStream {Γ : Ctx} (d : Disk) (e : Engine Γ) (seq : Nat) : Bytes :=
  ((d.wals.get seq).map WalFile.bytes).getD [] ++ if seq = e.walSeq then e.walBuf else []

end LsmEngine
