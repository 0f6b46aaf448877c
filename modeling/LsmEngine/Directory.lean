import LsmEngine.Lemmas.SsTableFile
import LsmEngine.Library.Files
import LsmEngine.Library.Run
import LsmEngine.Step
import LsmEngine.Theorems.ManifestFile
import LsmEngine.WalName

/-!
# The bytes of the directory

The files of an engine as the operating system has them, under the names that the engine gives them and among files of others: the
operations that each step of the machine makes on them, and what `open_with_options` reads. `LsmEngine.Disk` keeps the same directory
by what the files are for. A path is its file name here, and every file name is a string.
-/

namespace LsmEngine

open Files Transition

variable {Γ : Ctx}

/-- The files that an engine makes. -/
inductive FileId where
  | wal (seq : Nat)
  | sst (name : SstName)
  | sstTmp (name : SstName)
  | manifest
  | manifestTmp
  deriving DecidableEq, Repr

def FileId.name : FileId → String
  | .wal seq => walName seq
  | .sst name => name.toString
  | .sstTmp name => name.toString ++ ".tmp"
  | .manifest => "MANIFEST"
  | .manifestTmp => "MANIFEST.tmp"

abbrev FileOps := List (FileOp FileId UInt8)

/-! ## Writing -/

/-- A step of writing `bytes` under a temporary name and renaming it. A write that fails may have written some bytes. -/
def Stage.fileOps (tmp final : FileId) (bytes : Bytes) : Stage → Io → FileOps
  | .create, .ok => [.create tmp]
  | .write, .ok => [.append tmp bytes]
  | .write, .fail written => [.append tmp (bytes.take written)]
  | .sync, .ok => [.sync tmp]
  | .rename, .ok => [.rename tmp final]
  | _, .fail _ => []

/-- The bytes of a failed append that reach the file. -/
def tearOps (seq : Nat) (buf frame : Bytes) (written : Nat) : FileOps :=
  if written = 0 then [] else [.append (.wal seq) (buf ++ frame.take written)]

/-- `sync` of a log writer: its buffer is written out, then `sync_all`. -/
def syncOps (seq : Nat) (buf : Bytes) : FileOps := [.append (.wal seq) buf, .sync (.wal seq)]

namespace Node

/-- `put` and `delete`. An append that succeeds only fills the buffer. -/
def writeOps (n : Node Γ) (w : WalEntry) : Io → FileOps
  | .ok => []
  | .fail written =>
    match encodeEntry Γ w.op w.key w.value [] with
    | .error _ => []
    | .ok frame => tearOps n.eng.walSeq n.eng.walBuf frame written

/-- The holder of the wal mutex. -/
def walOps (n : Node Γ) (io : Io) : FileOps :=
  match n.eng.wal, io with
  | .logged _, .ok => if n.eng.options.syncPerWrite then syncOps n.eng.walSeq n.eng.walBuf else []
  | .syncing _, .ok => syncOps n.eng.walSeq n.eng.walBuf
  | .rotating _ newSeq, .ok => [.create (.wal newSeq)]
  -- the old writer is dropped
  | .swapped _ _, .ok => [.append (.wal n.eng.walSeq) n.eng.walBuf]
  | _, _ => []

/-- The holder of `flush_lock`. The temporary file of a table that a flush fails to write stays, that of a compaction and that of the
MANIFEST are removed. -/
def flushOps (n : Node Γ) (io : Io) : FileOps :=
  match n.eng.flush with
  | .building _ _ _ sst file st => st.fileOps (.sstTmp sst.name) (.sst sst.name) (SsTableFile.bytes file) io
  | .merging _ sst file st =>
    st.fileOps (.sstTmp sst.name) (.sst sst.name) (SsTableFile.bytes file) io ++
      if io = .ok then [] else [.remove (.sstTmp sst.name)]
  | .manifest _ m st =>
    match ManifestFile.encode m.toFile with
    -- the panic of `encode`
    | none => []
    | some bytes => st.fileOps .manifestTmp .manifest bytes io ++ if io = .ok then [] else [.remove .manifestTmp]
  | .unlinkWals _ (w :: _) => if io = .ok then [.remove (.wal w)] else []
  | .unlinkInputs (sst :: _) => if io = .ok then [.remove (.sst sst.name)] else []
  | _ => []

def fileOps (n : Node Γ) : Act → FileOps
  | .write w io => n.writeOps w io
  | .walStep io => n.walOps io
  | .flushStep io => n.flushOps io
  | .handover k => [.append (.wal n.eng.walSeq) (n.eng.walBuf.take k)]
  | .drop io => if io = .ok then syncOps n.eng.walSeq n.eng.walBuf else []
  | _ => []

end Node

/-- `open_with_options`. -/
def Opening.fileOps (Γ : Ctx) (o : Opening) (io : Io) : FileOps :=
  match o.stage, io with
  | .creating r, .ok => [.create (.wal r.walSeq)]
  | .appending r (w :: _), .fail written =>
    match encodeEntry Γ w.op w.key w.value [] with
    | .error _ => []
    | .ok frame => tearOps r.walSeq o.buf frame written
  | .appending r [], .ok => syncOps r.walSeq o.buf
  | .removing _ (w :: _), .ok => [.remove (.wal w)]
  | _, _ => []

/-- The writer of the fresh log hands bytes of its buffer over. -/
def Opening.handoverOps (o : Opening) (k : Nat) : FileOps :=
  match o.stage with
  | .appending r _ => [.append (.wal r.walSeq) (o.buf.take k)]
  | _ => []

/-- What a step does to the files. -/
def Sys.fileOps (s : Sys Γ) (a : Act) : FileOps :=
  match s.proc, a with
  | .opening o, .openStep io => o.fileOps Γ io
  | .opening o, .handover k => o.handoverOps k
  | .up e, a => (Node.mk s.disk s.hist e).fileOps a
  | _, _ => []

/-! ## The machine with its directory -/

abbrev Dir := Files.Dir String UInt8

/-- What is left of the files when the process ends without a drop. -/
def Dir.crash (dir : Dir) : CrashKind → Dir
  | .kill => dir
  | .powerLoss => fun name => (dir name).map File.powerLoss

structure Mounted (Γ : Ctx) where
  sys : Sys Γ
  dir : Dir

/-- The files of the engine in the directory. -/
def Mounted.files (m : Mounted Γ) : Files.Dir FileId UInt8 := fun id => m.dir id.name

/-- The directory after a step. -/
def Mounted.effect (m : Mounted Γ) : Act → Dir
  | .crash κ => m.dir.crash κ
  | a => runAll m.dir ((m.sys.fileOps a).map (FileOp.map FileId.name))

def Mounted.step (Γ : Ctx) (m : Mounted Γ) (a : Act) : Option (Mounted Γ × Out) :=
  (LsmEngine.step Γ m.sys a).map (fun r => (⟨r.1, m.effect a⟩, r.2))

/-! ## Reading -/

namespace Dir

/-- `manifest::load`. -/
def loadManifest (dir : Dir) : Except LsmError ManifestFile.Manifest :=
  match dir FileId.manifest.name with
  | none => .ok {}
  | some f => ManifestFile.decode f.bytes

/-- The first table a manifest lists that has no file. -/
def missingSst (dir : Dir) (levels : List (List ManifestFile.SstMeta)) : Option ManifestFile.SstMeta :=
  levels.flatten.find? (fun m => (dir m.name).isNone)

/-- The logs replayed in order into one MemTable. -/
def replayAll (Γ : Ctx) (dir : Dir) : List (Nat × String) → MemTable → Except LsmError MemTable
  | [], m => .ok m
  | (_, name) :: rest, m =>
    match dir name with
    | none => .error .io
    | some f => do
      let m ← replayInto Γ f.bytes m
      replayAll Γ dir rest m

end Dir

/-- What `open_with_options` has read of the files when it starts to write. -/
structure Loaded where
  levels : List (List ManifestFile.SstMeta)
  walSeqs : List (Nat × String)
  mem : MemTable

/-- What `open_with_options` reads before it creates the fresh log, when the directory is listed as `names`. -/
def Dir.recover (Γ : Ctx) (dir : Dir) (names : List String) : Except LsmError Loaded := do
  let manifest ← dir.loadManifest
  match dir.missingSst manifest.levels with
  | some sst => throw (.corruption ("manifest references missing sstable " ++ sst.name))
  | none =>
    let mem ← dir.replayAll Γ (walSeqs names) MemTable.new
    pure ⟨manifest.levels, walSeqs names, mem⟩

/-- `SsTableReader::open`. -/
def Dir.openTable (Γ : Ctx) (dir : Dir) (name : String) : Except LsmError (SsTableFile.SsTableReader Γ) :=
  match dir name with
  | none => .error .io
  | some f => SsTableFile.openFile Γ name f.bytes

/-- `open_reader` of a handle. -/
def Dir.openReader (Γ : Ctx) (dir : Dir) (name : String) : Except LsmError (SsTableFile.SsTableReader Γ) :=
  (dir.openTable Γ name).mapError (fun e => .corruption ("failed to open sstable " ++ name ++ ": " ++ e.toString))

/-- The loop of `get` over the tables of its snapshot. -/
def Dir.getTables (Γ : Ctx) (dir : Dir) (key : Key) : List ManifestFile.SstMeta → Except LsmError (Option Value)
  | [] => .ok none
  | sst :: rest =>
    if key < sst.min ∨ sst.max < key then dir.getTables Γ key rest
    else do
      let rd ← dir.openReader Γ sst.name
      match ← rd.get key with
      | some (.present v) => pure (some v)
      | some .deleted => pure none
      | none => dir.getTables Γ key rest

/-- `get` on the engine that comes of it, before anything is written. -/
def Loaded.get (Γ : Ctx) (dir : Dir) (l : Loaded) (key : Key) : Except LsmError (Option Value) :=
  match l.mem.getEntry key with
  | some entry => .ok entry.visible
  | none => dir.getTables Γ key (l.levels.flatMap List.reverse)

end LsmEngine
