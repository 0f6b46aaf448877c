import LsmEngine.Lemmas.SsTable
import LsmEngine.Sequence

/-!
# What the files hold

The invariant that ties the MemTables, the logs and the tables of a running engine to the writes it has taken, and what a
directory holds that no process has open. Every log on disk is the frames of the entries appended to its generation; the
MemTable of a generation is its entries replayed; the generations on disk, in order, are the writes since the last open but for
those whose log is gone; and the tables stand for the map after the writes of the generations that were flushed.
-/

namespace LsmEngine

open Overlay SsTableAux

/-! ## Tables -/

/-- The file `f` holds the records `rs`, and `m` gives their key range. -/
structure Built (Γ : Ctx) (m : SstMeta) (f : SstFile) (rs : List Record) : Prop where
  reads : ReadsBack Γ f rs
  sorted : Sorted rs
  capped : Capped rs
  nonempty : rs ≠ []
  first : rs.head?.map Prod.fst = some m.min
  last : rs.getLast?.map Prod.fst = some m.max

/-- The file of the table `m` is there, fsynced, and holds the records `rs`. -/
def TableOf (Γ : Ctx) (d : Disk) (m : SstMeta) (rs : List Record) : Prop :=
  ∃ f, d.ssts m.name = some ⟨some f, some f⟩ ∧ Built Γ m f rs

/-- The run a compaction makes of an input table. -/
def runOf (Γ : Ctx) (d : Disk) (m : SstMeta) : Run := ⟨m.seq, d.records Γ m.name⟩

/-- The tables a compaction of these levels takes in. -/
def inputsOf (levels : List (List SstMeta)) : List SstMeta := (levels.take 2).flatten

/-- What the holder of `flush_lock` has made of tables so far. -/
def FlushSection.TablesOk (Γ : Ctx) (d : Disk) (mems : Nat → MemTable) (levels : List (List SstMeta)) :
    FlushSection → Prop
  | .building _ _ p sst file st => Built Γ sst file (mems p.mem).records ∧ st.Before file (d.sstTmps sst.name)
  | .committing _ _ p sst => TableOf Γ d sst (mems p.mem).records
  | .reading inputs todo runs => inputs = inputsOf levels ∧ ∃ read, inputs = read ++ todo ∧ runs = read.map (runOf Γ d)
  | .merging inputs sst file st => inputs = inputsOf levels ∧
      ∃ rs, mergeRuns (inputs.map (runOf Γ d)) = some rs ∧ Built Γ sst file rs ∧ st.Before file (d.sstTmps sst.name)
  | .installing inputs (some sst) => inputs = inputsOf levels ∧
      ∃ rs, mergeRuns (inputs.map (runOf Γ d)) = some rs ∧ TableOf Γ d sst rs
  | .installing inputs none => inputs = inputsOf levels ∧ mergeRuns (inputs.map (runOf Γ d)) = some []
  | .manifest (.removeInputs inputs) _ _ => ∀ i ∈ inputs, ∀ m ∈ stack levels, m.name ≠ i.name
  | .unlinkInputs todo => ∀ i ∈ todo, (∀ m ∈ stack levels, m.name ≠ i.name) ∧
      ∀ m ∈ stack d.manifestLevels, m.name ≠ i.name
  | _ => True

/-- Every table of the levels and of the MANIFEST has its file. -/
structure TablesOk {Γ : Ctx} (n : Node Γ) : Prop where
  live : ∀ m ∈ stack n.eng.levels, ∃ rs, TableOf Γ n.disk m rs
  listed : ∀ m ∈ stack n.disk.manifestLevels, ∃ rs, TableOf Γ n.disk m rs
  readers : ∀ m ∈ stack n.eng.levels, ∀ rd, n.eng.readers m.name = some (.ok rd) →
    ∃ f, (n.disk.ssts m.name).bind Stored.cur = some f ∧ SsTableReader.openFile Γ f = .ok rd
  flush : n.eng.flush.TablesOk Γ n.disk n.eng.mems n.eng.levels

/-! ## Logs and MemTables -/

/-- The write that is in the log and not yet in the MemTable. -/
def WalSection.inflight : WalSection → List WalEntry
  | .logged w | .synced w => [w]
  | _ => []

/-- `freeze_active` has found the active MemTable not empty. -/
def WalSection.rotates : WalSection → Bool
  | .rotating _ _ | .created _ _ => true
  | _ => false

/-- A log that is created and has no MemTable yet. -/
def WalSection.spare : WalSection → List Nat
  | .created _ newSeq => [newSeq]
  | _ => []

/-- The logs of a running engine, oldest first: of generations flushed in the pass in progress, of the immutables, of the active
MemTable, and one that is created and not in use yet. -/
def Engine.logs {Γ : Ctx} (e : Engine Γ) : List Nat := e.flush.flushed ++ e.generations ++ e.wal.spare

/-- Every log on disk is the frames of its entries, and a torn tail where an append has failed; every MemTable is its entries
replayed. -/
structure LogsOk {Γ : Ctx} (n : Node Γ) : Prop where
  keys : n.disk.wals.keys = n.eng.logs
  valid : ∀ g ∈ n.eng.logs, ∀ w ∈ n.hist.entries g, w.Valid
  stream : ∀ g ∈ n.eng.logs, ∃ tail, Torn Γ tail ∧ walStream n.disk n.eng g = encodeAll Γ (n.hist.entries g) ++ tail
  synced : ∀ g f, n.disk.wals.get g = some f → f.synced ≤ f.bytes.length
  carried : ∀ f, n.disk.wals.get n.hist.opened = some f → (encodeAll Γ n.hist.carried).length ≤ f.synced
  unused : ∀ g, n.eng.generation < g → n.hist.segs g = []
  opened : ∀ g ∈ n.eng.logs, n.hist.opened ≤ g
  frozen : ∀ p ∈ n.eng.immutables, p.mem < n.eng.active ∧ (n.eng.mems p.mem).isEmpty = false ∧
    (n.eng.mems p.mem).map = (replayEntries (n.hist.entries p.walSeq) MemTable.new).map
  active : ∃ es, n.hist.entries n.eng.generation = es ++ n.eng.wal.inflight ∧
    (n.eng.mems n.eng.active).map = (replayEntries es MemTable.new).map
  full : n.eng.wal.rotates = true → (n.eng.mems n.eng.active).isEmpty = false
  swapped : ∀ c s, n.eng.wal = .swapped c s →
    n.hist.entries s = [] ∧ ∃ p, n.eng.immutables.getLast? = some p ∧ p.walSeq = n.eng.walSeq

/-! ## Counting the writes -/

/-- The holder of the wal mutex is inside `put` or `delete`. -/
def WalSection.writing : WalSection → Bool
  | .logged _ | .synced _ | .applied _ => true
  | .freezing (.write _) | .rotating (.write _) _ | .created (.write _) _ | .swapped (.write _) _ => true
  | _ => false

/-- The `flush()` inside the wal mutex. -/
def WalSection.flusher : WalSection → Option Nat
  | .syncing since | .freezing (.flush since) | .rotating (.flush since) _ | .created (.flush since) _
  | .swapped (.flush since) _ => some since
  | _ => none

/-- The caller of the flush pass in progress. -/
def FlushSection.caller : FlushSection → Option FlushCaller
  | .draining c _ | .building c _ _ _ _ _ | .committing c _ _ _ | .manifest (.removeWals c _) _ _ | .unlinkWals c _ => some c
  | _ => none

/-- How the counters of the history stand to the log. -/
structure CountsOk {Γ : Ctx} (n : Node Γ) : Prop where
  applied : n.hist.applied + n.eng.wal.inflight.length = n.hist.log.length
  completed : n.hist.completed ≤ n.hist.applied
  atMostOne : n.hist.log.length ≤ n.hist.completed + 1
  idle : n.eng.wal.writing = false → n.hist.completed = n.hist.log.length
  rotated : n.hist.rotated + (n.hist.segs n.eng.walSeq).length = n.hist.log.length
  frozen : n.hist.rotated ≤ n.hist.applied
  inWal : ∀ since, n.eng.wal.flusher = some since → since ≤ n.hist.log.length
  flushers : ∀ since ∈ n.eng.flushers, since ≤ n.hist.rotated
  caller : ∀ since, n.eng.flush.caller = some (.flush since) → since ≤ n.hist.rotated

/-! ## The maps -/

/-- The entries of the generation the last open created that the open put there, while that generation has a log. -/
def Hist.carriedIn (h : Hist) (logs : List Nat) : List WalEntry := if h.opened ∈ logs then h.carried else []

/-- The flush pass has committed a table and the MANIFEST does not list it yet. -/
def FlushSection.unlisted : FlushSection → Bool
  | .draining _ fl | .building _ fl _ _ _ _ | .committing _ fl _ _ | .manifest (.removeWals _ fl) _ _ => !fl.isEmpty
  | _ => false

/-- The caller of a pass that has drained the immutables. -/
def FlushSection.drained : FlushSection → Option FlushCaller
  | .manifest (.removeWals c _) _ _ | .unlinkWals c _ => some c
  | _ => none

/-- `gone` are the writes whose log is removed. What the tables of the engine and those of the MANIFEST stand for, in terms of
the writes. -/
structure MapsOk {Γ : Ctx} (n : Node Γ) (gone : List WalEntry) : Prop where
  log : n.hist.log = gone ++ n.eng.logs.flatMap n.hist.segs
  first : n.hist.opened ∈ n.eng.logs → gone = []
  base : runWrites n.hist.carried n.hist.base = n.hist.base
  tables : n.eng.flush.flushed = [] →
    runWrites (n.hist.carriedIn n.eng.logs) (tablesMap Γ n.disk n.eng.levels) = runWrites gone n.hist.base
  tables' : n.eng.flush.flushed ≠ [] →
    tablesMap Γ n.disk n.eng.levels = runWrites (gone ++ n.eng.flush.flushed.flatMap n.hist.segs) n.hist.base
  listed : n.eng.flush.unlisted = false → tablesMap Γ n.disk n.disk.manifestLevels = tablesMap Γ n.disk n.eng.levels
  listed' : n.eng.flush.unlisted = true →
    runWrites (n.hist.carriedIn n.eng.logs) (tablesMap Γ n.disk n.disk.manifestLevels) = runWrites gone n.hist.base
  flushAck : n.hist.flushAck ≤ gone.length
  drained : ∀ since, n.eng.flush.drained = some (.flush since) →
    since ≤ gone.length + (n.eng.flush.flushed.flatMap n.hist.segs).length

/-- A running engine whose flush passes have lost no log. -/
structure DataUp {Γ : Ctx} (n : Node Γ) : Prop where
  seq : SeqUp n
  tables : TablesOk n
  logs : LogsOk n
  counts : CountsOk n
  maps : ∃ gone, MapsOk n gone

/-! ## Steps that lose nothing -/

/-- The active log is whole: its bytes are the frames of the entries a scan finds. -/
def Node.intact {Γ : Ctx} (n : Node Γ) : Prop :=
  encodeAll Γ ((scan Γ (walStream n.disk n.eng n.eng.walSeq)).toOption.getD []) = walStream n.disk n.eng n.eng.walSeq

instance {Γ : Ctx} (n : Node Γ) : Decidable n.intact := inferInstanceAs (Decidable (_ = _))

/-- The stages at which an I/O error makes the holder of `flush_lock` forget nothing: a flush pass that has not committed a table
yet, and a compaction. -/
def FlushSection.failsSafely : FlushSection → Bool
  | .building _ flushed _ _ _ _ => flushed.isEmpty
  | .manifest (.removeWals _ _) _ _ => false
  | .unlinkWals _ (_ :: _) => false
  | _ => true

/-- The actions after which every generation that has been flushed loses its log in time, no log is written on after a torn
frame, and no sync of a log fails. -/
def Node.Benign {Γ : Ctx} (n : Node Γ) : Act → Prop
  | .write _ _ => n.intact
  | .walStep io => io = .ok ∨ ∃ c s, n.eng.wal = .rotating c s
  | .flushStep io => io = .ok ∨ n.eng.flush.failsSafely = true
  | .drop io => io = .ok
  | _ => True

/-- The stages of `open_with_options` at which an I/O error is an error of the call. -/
def OpenStage.failsSafely : OpenStage → Bool
  | .removing _ (_ :: _) => false
  | _ => true

def Benign {Γ : Ctx} (s : Sys Γ) (a : Act) : Prop :=
  match s.proc, a with
  | .opening o, .openStep io => io = .ok ∨ o.stage.failsSafely = true
  | .up e, a => (Node.mk s.disk s.hist e).Benign a
  | _, _ => True

/-- No file-system operation of the action fails. -/
def Act.NoFail : Act → Prop
  | .openStep io | .write _ io | .walStep io | .flushStep io | .getStep _ io | .drop io => io = .ok
  | _ => True

instance : DecidablePred Act.NoFail := fun a =>
  match a with
  | .openStep io | .write _ io | .walStep io | .flushStep io | .getStep _ io | .drop io => inferInstanceAs (Decidable (io = .ok))
  | .openDir _ | .flush | .flushEnter _ | .workerEnter | .compactEnter | .get _ | .handover _ | .crash _ =>
    inferInstanceAs (Decidable True)

def Act.isCrash : Act → Bool
  | .crash _ => true
  | _ => false

/-- The holder of `flush_lock` is about to open the reader of a table. -/
def Node.opensReader {Γ : Ctx} (n : Node Γ) : Bool :=
  match n.eng.flush with
  | .reading _ (sst :: _) _ => (n.eng.readers sst.name).isNone
  | _ => false

/-- The actions of a running engine after which it is as if nothing had failed: what fails loses no log, tears no frame and spoils
no reader. -/
def Node.Harmless {Γ : Ctx} (n : Node Γ) : Act → Prop
  | .write _ io => io = .ok ∨ io = .fail 0
  | .walStep io => io = .ok ∨ ∃ c s, n.eng.wal = .rotating c s
  | .flushStep io => io = .ok ∨ (n.eng.flush.failsSafely = true ∧ n.opensReader = false)
  | .getStep _ io | .drop io => io = .ok
  | _ => True

def Harmless {Γ : Ctx} (s : Sys Γ) (a : Act) : Prop :=
  match s.proc, a with
  | .opening o, .openStep io => io = .ok ∨ o.stage.failsSafely = true
  | .up e, a => (Node.mk s.disk s.hist e).Harmless a
  | _, _ => True

/-- Where nothing fails, no harm is done to a running engine. -/
theorem Act.NoFail.harmless_node {Γ : Ctx} {n : Node Γ} {a : Act} (h : a.NoFail) : n.Harmless a := by
  cases a with
  | write | walStep | flushStep => exact .inl h
  | getStep | drop => exact h
  | _ => trivial

/-- Where nothing fails, no harm is done. -/
theorem Act.NoFail.harmless {Γ : Ctx} {s : Sys Γ} {a : Act} (h : a.NoFail) : Harmless s a := by
  unfold Harmless
  split
  · exact .inl h
  · exact h.harmless_node
  · trivial

/-! ## A directory no process has open -/

/-- The entries a scan of a log finds. -/
def Disk.entries (Γ : Ctx) (d : Disk) (seq : Nat) : List WalEntry :=
  match d.wals.get seq with
  | none => []
  | some f => (scan Γ f.bytes).toOption.getD []

/-- The log is the frames of some entries and a torn tail. -/
def Decodes (Γ : Ctx) (bytes : Bytes) (es : List WalEntry) : Prop :=
  (∀ w ∈ es, w.Valid) ∧ ∃ tail, Torn Γ tail ∧ bytes = encodeAll Γ es ++ tail

/-- What `open_with_options` needs of a directory: the MANIFEST is whole, its tables have their files and every log decodes. -/
structure DiskOk (Γ : Ctx) (d : Disk) : Prop where
  settled : Settled d.manifest
  listed : LevelsOk d.manifestLevels
  tables : ∀ m ∈ stack d.manifestLevels, ∃ rs, TableOf Γ d m rs
  logs : ∀ g f, d.wals.get g = some f → Decodes Γ f.bytes (d.entries Γ g)
  synced : ∀ g f, d.wals.get g = some f → f.synced ≤ f.bytes.length

/-- The map a directory stands for: the logs, in order, over the tables of the MANIFEST. -/
def Disk.recovered (Γ : Ctx) (d : Disk) : Key → Option Value :=
  runWrites (d.wals.keys.flatMap (d.entries Γ)) (tablesMap Γ d d.manifestLevels)

end LsmEngine
