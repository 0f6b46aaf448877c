import LsmEngine.Engine

/-!
# The machine

The engine as a machine that takes one step at a time. A step is what one thread does between two points where another thread,
the operating system or a crash can come in: a file-system operation, a change of the shared state under its lock, one lookup
of a `get`. Locks are taken by the step that enters a section. Steps of different threads come in any order.

What is not decided by the code is in the action: which call comes next, whether a file-system operation fails, when the buffer
of a log writer is handed over, when the process ends.

`Hist` records what has happened. No step depends on it.
-/

namespace LsmEngine

/-- The result of a file-system operation. A write that fails may have written some bytes. -/
inductive Io where
  | ok
  | fail (written : Nat)
  deriving DecidableEq, Repr

/-- What the history keeps of an earlier open: its writes and how far they had come when the next open completed. -/
structure Epoch where
  log : List WalEntry
  applied : Nat
  completed : Nat
  rotated : Nat
  flushAck : Nat

/-- What happened since the engine was opened, and over all opens the order of freezes. -/
structure Hist where
  /-- the map at the end of the last open -/
  base : Key → Option Value := fun _ => none
  /-- the writes appended to the log since, in the order of the wal mutex -/
  log : List WalEntry := []
  /-- the generation the last open created -/
  opened : Nat := 0
  /-- the entries the last open appended to it again -/
  carried : List WalEntry := []
  /-- the writes since, by the generation they were appended to -/
  segs : Nat → List WalEntry := fun _ => []
  /-- how many of them are applied to a MemTable -/
  applied : Nat := 0
  /-- how many of them have left the wal mutex -/
  completed : Nat := 0
  /-- how many of them belong to a generation whose rotation is complete -/
  rotated : Nat := 0
  /-- how many of them had completed when some `flush()` that has returned `Ok` began -/
  flushAck : Nat := 0
  /-- which of them were in their log when a sync of it succeeded -/
  secured : Nat → Bool := fun _ => false
  /-- the generations frozen, in order -/
  frozen : List Nat := []
  /-- the generation an L0 table was flushed from -/
  source : SstName → Nat := fun _ => 0
  /-- a MANIFEST write has failed and none has succeeded since -/
  stale : Bool := false
  /-- the earlier opens -/
  past : List Epoch := []

/-- The map after the first `j` writes since the last open. -/
def Hist.mapAt (h : Hist) (j : Nat) : Key → Option Value := runWrites (h.log.take j) h.base

def Hist.epoch (h : Hist) : Epoch := ⟨h.log, h.applied, h.completed, h.rotated, h.flushAck⟩

/-- The history at the end of an open that has read the map `base` and appended `carried` to the log `opened`. -/
def Hist.reopen (h : Hist) (base : Key → Option Value) (opened : Nat) (carried : List WalEntry) : Hist where
  base := base
  opened := opened
  carried := carried
  frozen := h.frozen
  source := h.source
  past := h.past ++ [h.epoch]

/-- The entries appended to a generation. -/
def Hist.entries (h : Hist) (seq : Nat) : List WalEntry := (if seq = h.opened then h.carried else []) ++ h.segs seq

/-- What a step returns to the caller of the engine. -/
inductive Out where
  | silent
  | opened (r : Except LsmError Unit)
  /-- `put` or `delete` -/
  | wrote (w : WalEntry) (r : Except LsmError Unit)
  /-- `flush()` -/
  | flushed (since : Nat) (r : Except LsmError Unit)
  /-- `flush_all_pending` of the worker -/
  | passed (r : Except LsmError Unit)
  | compacted (r : Except LsmError Unit)
  | got (key : Key) (since : Nat) (r : Except LsmError (Option Value))
  deriving DecidableEq

/-- A running engine with its directory. -/
structure Node (Γ : Ctx) where
  disk : Disk
  hist : Hist
  eng : Engine Γ

/-- The bytes of a failed append that reach the file. -/
def Disk.tear (d : Disk) (seq : Nat) (buf frame : Bytes) (written : Nat) : Disk :=
  if written = 0 then d else d.appendWal seq (buf ++ frame.take written)

/-- The records of a MemTable, in key order. -/
def MemTable.records (m : MemTable) : List Record := m.iter.map (fun b => (b.1, b.2.value, b.2.deleted))

/-- The table made of some records: its entry for the levels and the content of its file. -/
def buildSst (Γ : Ctx) (level seq expected : Nat) (rs : List Record) : Except LsmError (SstMeta × SstFile) := do
  let b ← (SsTableBuilder.withExpectedItems Γ expected).addAll rs
  let f ← b.build
  pure (⟨level, seq, ⟨level, seq⟩, b.minKey.getD [], b.maxKey.getD []⟩, f)

/-- What the `OnceLock` of a table handle is set to: `SsTableReader::open` on its path. -/
def openReader (Γ : Ctx) (d : Disk) (name : SstName) (io : Io) : Except String (SsTableReader Γ) :=
  match io, (d.ssts name).bind Stored.cur with
  | .ok, some f => (SsTableReader.openFile Γ f).mapError LsmError.toString
  | _, _ => .error LsmError.io.toString

/-- The error of `open_reader`. -/
def readerError (name : SstName) (e : String) : LsmError :=
  .corruption ("failed to open sstable " ++ name.toString ++ ": " ++ e)

namespace Node

variable {Γ : Ctx}

/-! ## The wal mutex -/

/-- The section ends: the call returns `Ok`, or goes on to `flush_all_pending`. -/
def finish (n : Node Γ) : WalCaller → Node Γ × Out
  | .write w => ({ n with eng.wal := .free, hist.completed := n.hist.log.length }, .wrote w (.ok ()))
  | .flush since => ({ n with eng.wal := .free, eng.flushers := n.eng.flushers ++ [since] }, .silent)

/-- The section ends with an error. -/
def abort (n : Node Γ) (err : LsmError) : WalCaller → Node Γ × Out
  | .write w => ({ n with eng.wal := .free, hist.completed := n.hist.log.length }, .wrote w (.error err))
  | .flush since => ({ n with eng.wal := .free }, .flushed since (.error err))

/-- `append` puts the frame into the buffer of the writer. -/
def logWrite (n : Node Γ) (w : WalEntry) (frame : Bytes) : Node Γ :=
  { n with
    eng.walBuf := n.eng.walBuf ++ frame
    eng.wal := .logged w
    hist.log := n.hist.log ++ [w]
    hist.segs := Function.update n.hist.segs n.eng.walSeq (n.hist.segs n.eng.walSeq ++ [w]) }

/-- `append` fails after part of the frame has reached the file. -/
def tearWrite (n : Node Γ) (frame : Bytes) (written : Nat) : Node Γ :=
  { n with
    disk := n.disk.tear n.eng.walSeq n.eng.walBuf frame written
    eng.walBuf := if written = 0 then n.eng.walBuf else [] }

/-- `sync` on the active log. -/
def syncActive (n : Node Γ) (next : WalSection) : Node Γ :=
  { n with
    disk := (n.disk.appendWal n.eng.walSeq n.eng.walBuf).syncWal n.eng.walSeq
    eng.walBuf := []
    eng.wal := next
    hist.secured := fun i => n.hist.secured i || decide (n.hist.rotated ≤ i ∧ i < n.hist.log.length) }

/-- The write goes into the active MemTable. -/
def applyWrite (n : Node Γ) (w : WalEntry) : Node Γ :=
  { n with
    eng.mems := Function.update n.eng.mems n.eng.active (w.applyTo (n.eng.mems n.eng.active))
    eng.wal := .applied w
    hist.applied := n.hist.log.length }

/-- Whether the active MemTable has reached the threshold. -/
def overThreshold (n : Node Γ) : Prop :=
  n.eng.options.flushThresholdBytes > 0 ∧
    (n.eng.mems n.eng.active).approximateSize ≥ n.eng.options.flushThresholdBytes

instance (n : Node Γ) : Decidable n.overThreshold := inferInstanceAs (Decidable (_ ∧ _))

/-- The active MemTable joins the immutables and a fresh one takes its place. -/
def swapActive (n : Node Γ) (c : WalCaller) (newSeq : Nat) : Node Γ :=
  { n with
    eng.immutables := n.eng.immutables ++ [⟨n.eng.active, n.eng.walSeq⟩]
    eng.mems := Function.update n.eng.mems (n.eng.active + 1) MemTable.new
    eng.active := n.eng.active + 1
    eng.wal := .swapped c newSeq
    hist.frozen := n.hist.frozen ++ [n.eng.walSeq] }

/-- The new writer takes the place of the old one. Dropping the old writer writes out its buffer. -/
def replaceWriter (n : Node Γ) (newSeq : Nat) (io : Io) : Node Γ :=
  { n with
    disk := if io = .ok then n.disk.appendWal n.eng.walSeq n.eng.walBuf else n.disk
    eng.walBuf := []
    eng.walSeq := newSeq
    hist.rotated := n.hist.log.length }

/-- `put` and `delete` up to and including the append. -/
def write (n : Node Γ) (w : WalEntry) (io : Io) : Option (Node Γ × Out) :=
  match n.eng.wal with
  | .free =>
    match encodeEntry Γ w.op w.key w.value [] with
    | .error err => some (n, .wrote w (.error err))
    | .ok frame =>
      match io with
      | .ok => some (n.logWrite w frame, .silent)
      | .fail written => if written < frame.length then some (n.tearWrite frame written, .wrote w (.error .io)) else none
  | _ => none

/-- `flush()` takes the wal mutex. -/
def flush (n : Node Γ) : Option (Node Γ × Out) :=
  match n.eng.wal with
  | .free => some ({ n with eng.wal := .syncing n.hist.completed }, .silent)
  | _ => none

/-- The holder of the wal mutex moves on. -/
def walStep (n : Node Γ) (io : Io) : Option (Node Γ × Out) :=
  match n.eng.wal with
  | .free => none
  | .logged w =>
    if n.eng.options.syncPerWrite then
      match io with
      | .ok => some (n.syncActive (.synced w), .silent)
      | .fail _ => some (n.abort .io (.write w))
    else some (n.applyWrite w, .silent)
  | .synced w => some (n.applyWrite w, .silent)
  | .applied w =>
    if n.overThreshold then some ({ n with eng.wal := .freezing (.write w) }, .silent) else some (n.finish (.write w))
  | .syncing since =>
    match io with
    | .ok => some (n.syncActive (.freezing (.flush since)), .silent)
    | .fail _ => some (n.abort .io (.flush since))
  | .freezing c =>
    if (n.eng.mems n.eng.active).isEmpty then some (n.finish c)
    else some ({ n with eng.nextSeq := n.eng.nextSeq + 1, eng.wal := .rotating c n.eng.nextSeq }, .silent)
  | .rotating c newSeq =>
    match io with
    | .ok => some ({ n with disk := n.disk.createWal newSeq, eng.wal := .created c newSeq }, .silent)
    | .fail _ => some (n.abort .io c)
  | .created c newSeq => some (n.swapActive c newSeq, .silent)
  | .swapped c newSeq => some ((n.replaceWriter newSeq io).finish c)

/-! ## `flush_lock` -/

/-- `flush_all_pending` returns. -/
def flushEnd (n : Node Γ) (r : Except LsmError Unit) : FlushCaller → Node Γ × Out
  | .flush since =>
    ({ n with
      eng.flush := .free
      hist.flushAck := if r.isOk then max n.hist.flushAck since else n.hist.flushAck }, .flushed since r)
  | .worker => ({ n with eng.flush := .free }, .passed r)

/-- `compact_all_pending` returns. -/
def compactEnd (n : Node Γ) (r : Except LsmError Unit) : Node Γ × Out := ({ n with eng.flush := .free }, .compacted r)

/-- The top of the loop of `flush_all_pending`. -/
def drain (n : Node Γ) (c : FlushCaller) (flushed : List Nat) : Node Γ × Out :=
  match n.eng.immutables with
  | [] =>
    -- nothing was committed: the MANIFEST is taken to be current
    if flushed = [] then n.flushEnd (.ok ()) c
    else ({ n with eng.flush := .manifest (.removeWals c flushed) (Manifest.ofLevels n.eng.levels) .create }, .silent)
  | p :: _ =>
    let n' : Node Γ := { n with eng.nextSeq := n.eng.nextSeq + 1 }
    match buildSst Γ 0 n.eng.nextSeq (n.eng.mems p.mem).len (n.eng.mems p.mem).records with
    | .error err => n'.flushEnd (.error err) c
    | .ok (sst, file) => ({ n' with eng.flush := .building c flushed p sst file .create }, .silent)

/-- The commit of `flush_pending`: the table joins level 0 and the immutable goes, in one step. -/
def commitFlush (n : Node Γ) (c : FlushCaller) (flushed : List Nat) (p : PendingImm) (sst : SstMeta) : Node Γ :=
  let levels := if n.eng.levels = [] then [[]] else n.eng.levels
  { n with
    eng.levels := levels.modify 0 (insertBySeq sst)
    eng.immutables := n.eng.immutables.filter (fun q => q.walSeq ≠ p.walSeq)
    eng.readers := Function.update n.eng.readers sst.name none
    eng.flush := .draining c (flushed ++ [p.walSeq])
    hist.source := Function.update n.hist.source sst.name p.walSeq }

/-- Level 0 and level 1 replaced by the output of a compaction. -/
def compactedLevels (levels : List (List SstMeta)) : Option SstMeta → List (List SstMeta)
  | some sst =>
    let levels := levels ++ List.replicate (2 - levels.length) []
    (levels.set 0 []).set 1 [sst]
  | none => ((if levels = [] then [[]] else levels).set 0 []).take 1

/-- The commit of `compact_all_pending`, up to the start of `write_manifest`. -/
def commitCompaction (n : Node Γ) (inputs : List SstMeta) (output : Option SstMeta) : Node Γ :=
  let levels := compactedLevels n.eng.levels output
  { n with
    eng.levels := levels
    eng.readers := match output with
      | some sst => Function.update n.eng.readers sst.name none
      | none => n.eng.readers
    eng.flush := .manifest (.removeInputs inputs) (Manifest.ofLevels levels) .create }

/-- The inputs are read: merge them. `none` is the panic of `merge_runs`. -/
def mergeInputs (n : Node Γ) (inputs : List SstMeta) (runs : List Run) : Option (Node Γ × Out) :=
  match mergeRuns runs with
  | none => none
  | some [] => some ({ n with eng.flush := .installing inputs none }, .silent)
  | some (r :: rs) =>
    let n' : Node Γ := { n with eng.nextSeq := n.eng.nextSeq + 1 }
    match buildSst Γ 1 n.eng.nextSeq (r :: rs).length (r :: rs) with
    | .error err => some (n'.compactEnd (.error err))
    | .ok (sst, file) => some ({ n' with eng.flush := .merging inputs sst file .create }, .silent)

/-- One input of a compaction: open its reader on first use, then read its records. -/
def readInput (n : Node Γ) (inputs : List SstMeta) (sst : SstMeta) (todo : List SstMeta) (runs : List Run) (io : Io) :
    Node Γ × Out :=
  match n.eng.readers sst.name with
  | none =>
    ({ n with eng.readers := Function.update n.eng.readers sst.name (some (openReader Γ n.disk sst.name io)) }, .silent)
  | some (.error e) => n.compactEnd (.error (readerError sst.name e))
  | some (.ok rd) =>
    match io, rd.records with
    | .fail _, _ => n.compactEnd (.error .io)
    | .ok, .error err => n.compactEnd (.error err)
    | .ok, .ok records => ({ n with eng.flush := .reading inputs todo (runs ++ [⟨sst.seq, records⟩]) }, .silent)

/-- A waiting `flush()` takes `flush_lock`. -/
def flushEnter (n : Node Γ) (i : Nat) : Option (Node Γ × Out) :=
  match n.eng.flush, n.eng.flushers[i]? with
  | .free, some since =>
    some ({ n with eng.flush := .draining (.flush since) [], eng.flushers := n.eng.flushers.eraseIdx i }, .silent)
  | _, _ => none

/-- The worker takes `flush_lock` for `flush_all_pending`. -/
def workerEnter (n : Node Γ) : Option (Node Γ × Out) :=
  match n.eng.flush with
  | .free => some ({ n with eng.flush := .draining .worker [] }, .silent)
  | _ => none

/-- `compact()`, or the worker after a pass, takes `flush_lock` for `compact_all_pending`. -/
def compactEnter (n : Node Γ) : Option (Node Γ × Out) :=
  match n.eng.flush with
  | .free =>
    if n.eng.levels.head?.all List.isEmpty then some (n.compactEnd (.ok ()))
    else
      let inputs := (n.eng.levels.take 2).flatten
      some ({ n with eng.flush := .reading inputs inputs [] }, .silent)
  | _ => none

/-- The holder of `flush_lock` moves on. -/
def flushStep (n : Node Γ) (io : Io) : Option (Node Γ × Out) :=
  match n.eng.flush with
  | .free => none
  | .draining c flushed => some (n.drain c flushed)
  | .building c flushed p sst file st =>
    match io with
    | .fail _ => some (n.flushEnd (.error .io) c)
    | .ok =>
      some ({ n with
        disk := n.disk.sstStage sst.name file st
        eng.flush := match st.next with
          | some st => .building c flushed p sst file st
          | none => .committing c flushed p sst }, .silent)
  | .committing c flushed p sst =>
    if n.eng.wal.holdsStateLock then none else some (n.commitFlush c flushed p sst, .silent)
  | .reading inputs [] runs => n.mergeInputs inputs runs
  | .reading inputs (sst :: todo) runs => some (n.readInput inputs sst todo runs io)
  | .merging inputs sst file st =>
    match io with
    | .fail _ => some ({ n with disk := n.disk.removeSstTmp sst.name }.compactEnd (.error .io))
    | .ok =>
      some ({ n with
        disk := n.disk.sstStage sst.name file st
        eng.flush := match st.next with
          | some st => .merging inputs sst file st
          | none => .installing inputs (some sst) }, .silent)
  | .installing inputs output =>
    if n.eng.wal.holdsStateLock then none else some (n.commitCompaction inputs output, .silent)
  | .manifest after m st =>
    match io with
    | .fail _ =>
      let n : Node Γ := { n with disk := n.disk.removeManifestTmp, hist.stale := true }
      -- on this path a flush pass forgets the generations it has flushed
      match after with
      | .removeWals c _ => some (n.flushEnd (.error .io) c)
      | .removeInputs _ => some (n.compactEnd (.error .io))
    | .ok =>
      let n : Node Γ := { n with disk := n.disk.manifestStage m st }
      match st.next, after with
      | some st, after => some ({ n with eng.flush := .manifest after m st }, .silent)
      | none, .removeWals c walSeqs => some ({ n with eng.flush := .unlinkWals c walSeqs, hist.stale := false }, .silent)
      | none, .removeInputs inputs => some ({ n with eng.flush := .unlinkInputs inputs, hist.stale := false }, .silent)
  | .unlinkWals c [] => some (n.flushEnd (.ok ()) c)
  | .unlinkWals c (w :: todo) =>
    some ({ n with disk := if io = .ok then n.disk.removeWal w else n.disk, eng.flush := .unlinkWals c todo }, .silent)
  | .unlinkInputs [] => some (n.compactEnd (.ok ()))
  | .unlinkInputs (sst :: todo) =>
    some ({ n with disk := if io = .ok then n.disk.removeSst sst.name else n.disk, eng.flush := .unlinkInputs todo },
      .silent)

/-! ## `get` -/

/-- `get` takes its snapshot. -/
def get (n : Node Γ) (key : Key) : Node Γ × Out :=
  ({ n with
    eng.gets := n.eng.gets ++
      [⟨key, n.hist.applied, .active n.eng.active n.eng.immutables (lookupOrder n.eng.levels)⟩] }, .silent)

/-- The `get` in place `i` walks on. -/
def walkOn (n : Node Γ) (i : Nat) (g : GetCall) (walk : GetWalk) : Node Γ × Out :=
  ({ n with eng.gets := n.eng.gets.set i { g with walk := walk } }, .silent)

/-- The `get` in place `i` returns. -/
def answer (n : Node Γ) (i : Nat) (g : GetCall) (r : Except LsmError (Option Value)) : Node Γ × Out :=
  ({ n with eng.gets := n.eng.gets.eraseIdx i }, .got g.key g.since r)

/-- A `get` looks into one table. -/
def lookTable (n : Node Γ) (i : Nat) (g : GetCall) (sst : SstMeta) (rest : List SstMeta) (io : Io) : Node Γ × Out :=
  if g.key < sst.min ∨ sst.max < g.key then n.walkOn i g (.tables rest)
  else
    match n.eng.readers sst.name with
    | none =>
      ({ n with eng.readers := Function.update n.eng.readers sst.name (some (openReader Γ n.disk sst.name io)) }, .silent)
    | some (.error e) => n.answer i g (.error (readerError sst.name e))
    | some (.ok rd) =>
      match io, rd.get g.key with
      | .fail _, _ => n.answer i g (.error .io)
      | .ok, .error err => n.answer i g (.error err)
      | .ok, .ok (some (.present v)) => n.answer i g (.ok (some v))
      | .ok, .ok (some .deleted) => n.answer i g (.ok none)
      | .ok, .ok none => n.walkOn i g (.tables rest)

/-- The `get` in place `i` moves on. -/
def getStep (n : Node Γ) (i : Nat) (io : Io) : Option (Node Γ × Out) :=
  match n.eng.gets[i]? with
  | none => none
  | some g =>
    match g.walk with
    | .active mem imms tables =>
      match (n.eng.mems mem).getEntry g.key with
      | some entry => some (n.answer i g (.ok entry.visible))
      | none => some (n.walkOn i g (.immutables imms.reverse tables))
    | .immutables [] tables => some (n.walkOn i g (.tables tables))
    | .immutables (p :: imms) tables =>
      match (n.eng.mems p.mem).getEntry g.key with
      | some entry => some (n.answer i g (.ok entry.visible))
      | none => some (n.walkOn i g (.immutables imms tables))
    | .tables [] => some (n.answer i g (.ok none))
    | .tables (sst :: rest) => some (n.lookTable i g sst rest io)

/-- The writer of the active log hands bytes of its buffer over, in order. -/
def handover (n : Node Γ) (k : Nat) : Node Γ :=
  { n with
    disk := n.disk.appendWal n.eng.walSeq (n.eng.walBuf.take k)
    eng.walBuf := n.eng.walBuf.drop k }

/-- No call and no worker pass is in progress. -/
def quiet (n : Node Γ) : Bool :=
  match n.eng.wal, n.eng.flush, n.eng.flushers, n.eng.gets with
  | .free, .free, [], [] => true
  | _, _, _, _ => false

end Node

/-! ## `open_with_options` -/

/-- What `open_with_options` does next. -/
inductive OpenStage where
  /-- read the MANIFEST and every log -/
  | loading
  /-- create the fresh log -/
  | creating (r : Recovered)
  /-- append the entries that are left, then sync -/
  | appending (r : Recovered) (todo : List WalEntry)
  /-- remove the old logs that are left, then build the runtime -/
  | removing (r : Recovered) (todo : List Nat)

/-- An `open_with_options` in progress, with the buffer of the writer of the fresh log. -/
structure Opening where
  options : LsmOptions
  stage : OpenStage
  buf : Bytes := []

/-- The number of the fresh log. -/
def Recovered.walSeq (r : Recovered) : Nat := r.maxSeq + 1

/-- The engine at the end of `open_with_options`. -/
def Recovered.engine (Γ : Ctx) (r : Recovered) (options : LsmOptions) (buf : Bytes) : Engine Γ where
  options := options
  mems := Function.update (fun _ => MemTable.new) 0 r.mem
  active := 0
  immutables := []
  levels := r.levels
  readers := fun _ => none
  walBuf := buf
  walSeq := r.walSeq
  nextSeq := r.walSeq + 1
  wal := .free
  flush := .free
  flushers := []
  gets := []

inductive Proc (Γ : Ctx) where
  | down
  | opening (o : Opening)
  | up (e : Engine Γ)

structure Sys (Γ : Ctx) where
  disk : Disk
  hist : Hist
  proc : Proc Γ

def Node.toSys {Γ : Ctx} (n : Node Γ) : Sys Γ := ⟨n.disk, n.hist, .up n.eng⟩

/-- An empty directory and no process. -/
def Sys.init (Γ : Ctx) : Sys Γ := ⟨Disk.empty, {}, .down⟩

/-- `open_with_options` returns an error. What its writer still buffers is lost; it may have handed over any part before. -/
def Sys.openFails {Γ : Ctx} (s : Sys Γ) (err : LsmError) : Sys Γ × Out := ({ s with proc := .down }, .opened (.error err))

/-- `open_with_options` moves on. -/
def openStep (Γ : Ctx) (s : Sys Γ) (o : Opening) (io : Io) : Option (Sys Γ × Out) :=
  match o.stage with
  | .loading =>
    match io, recover Γ s.disk with
    | .fail _, _ => some (s.openFails .io)
    | .ok, .error err => some (s.openFails err)
    | .ok, .ok r => some ({ s with proc := .opening { o with stage := .creating r } }, .silent)
  | .creating r =>
    match io with
    | .fail _ => some (s.openFails .io)
    | .ok =>
      let stage := if r.mem.isEmpty then .removing r r.walSeqs else .appending r (reappended r.mem)
      some ({ s with disk := s.disk.createWal r.walSeq, proc := .opening { o with stage := stage } }, .silent)
  | .appending r (w :: todo) =>
    match encodeEntry Γ w.op w.key w.value [] with
    | .error err => some (s.openFails err)
    | .ok frame =>
      match io with
      | .ok => some ({ s with proc := .opening { o with stage := .appending r todo, buf := o.buf ++ frame } }, .silent)
      | .fail written =>
        if written < frame.length then
          some ({ s with disk := s.disk.tear r.walSeq o.buf frame written }.openFails .io)
        else none
  | .appending r [] =>
    match io with
    | .fail _ => some (s.openFails .io)
    | .ok =>
      some ({ s with
        disk := (s.disk.appendWal r.walSeq o.buf).syncWal r.walSeq
        proc := .opening { o with stage := .removing r r.walSeqs, buf := [] } }, .silent)
  | .removing r (w :: todo) =>
    some ({ s with
      disk := if io = .ok then s.disk.removeWal w else s.disk
      proc := .opening { o with stage := .removing r todo } }, .silent)
  | .removing r [] =>
    match io with
    | .fail _ => some (s.openFails .io)
    | .ok =>
      some ({ s with
        hist := s.hist.reopen (r.map Γ s.disk) r.walSeq (reappended r.mem)
        proc := .up (r.engine Γ o.options o.buf) }, .opened (.ok ()))

/-- The writer of the fresh log hands bytes of its buffer over, in order. -/
def Opening.handover {Γ : Ctx} (s : Sys Γ) (o : Opening) (k : Nat) : Sys Γ :=
  match o.stage with
  | .appending r _ =>
    { s with
      disk := s.disk.appendWal r.walSeq (o.buf.take k)
      proc := .opening { o with buf := o.buf.drop k } }
  | _ => s

/-! ## Actions -/

inductive Act where
  /-- `open_with_options` is called -/
  | openDir (options : LsmOptions)
  | openStep (io : Io)
  /-- `put` or `delete` is called and appends -/
  | write (w : WalEntry) (io : Io)
  /-- `flush()` is called -/
  | flush
  | walStep (io : Io)
  | flushEnter (i : Nat)
  | workerEnter
  | compactEnter
  | flushStep (io : Io)
  | get (key : Key)
  | getStep (i : Nat) (io : Io)
  | handover (k : Nat)
  /-- the last handle is dropped -/
  | drop (io : Io)
  | crash (κ : CrashKind)
  deriving DecidableEq

/-- A step of a running engine, lifted to the system. -/
def Node.lift {Γ : Ctx} (r : Option (Node Γ × Out)) : Option (Sys Γ × Out) := r.map (fun p => (p.1.toSys, p.2))

/-- The drop of the last handle: the active log is synced, errors are ignored. -/
def Node.drop {Γ : Ctx} (n : Node Γ) (io : Io) : Sys Γ where
  disk := if io = .ok then (n.disk.appendWal n.eng.walSeq n.eng.walBuf).syncWal n.eng.walSeq else n.disk
  hist := n.hist
  proc := .down

/-- One action on a running engine. -/
def Node.act {Γ : Ctx} (n : Node Γ) : Act → Option (Sys Γ × Out)
  | .write w io => Node.lift (n.write w io)
  | .flush => Node.lift n.flush
  | .walStep io => Node.lift (n.walStep io)
  | .flushEnter i => Node.lift (n.flushEnter i)
  | .workerEnter => Node.lift n.workerEnter
  | .compactEnter => Node.lift n.compactEnter
  | .flushStep io => Node.lift (n.flushStep io)
  | .get key => Node.lift (some (n.get key))
  | .getStep i io => Node.lift (n.getStep i io)
  | .handover k => Node.lift (some (n.handover k, .silent))
  | .drop io => if n.quiet then some (n.drop io, .silent) else none
  | .openDir _ | .openStep _ | .crash _ => none

/-- One step of the system. -/
def step (Γ : Ctx) (s : Sys Γ) (a : Act) : Option (Sys Γ × Out) :=
  match a, s.proc with
  | .crash κ, _ => some (⟨s.disk.crash κ, s.hist, .down⟩, .silent)
  | .openDir options, .down => some ({ s with proc := .opening { options := options, stage := .loading } }, .silent)
  | .openStep io, .opening o => openStep Γ s o io
  | .handover k, .opening o => some (o.handover s k, .silent)
  | a, .up e => (Node.mk s.disk s.hist e).act a
  | _, _ => none

end LsmEngine
