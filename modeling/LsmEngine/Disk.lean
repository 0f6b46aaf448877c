import LsmEngine.Manifest

/-!
# The directory

The files of an engine's directory and the operations the engine makes on them. Names are kept by what they are made from: a
log by its sequence number, a table by its level and sequence number, the MANIFEST, and the temporary files of the last two. A
listing of the directory gives the logs in order of their numbers, as `open_with_options` sorts them.

An operation that creates, renames or removes a name is atomic and durable when it returns. Content is not: a log remembers how
many of its bytes an fsync has covered, and a table or a MANIFEST what an fsync has covered of it.
-/

namespace LsmEngine

/-- A log file: its bytes as the operating system has them, and how many of them are fsynced. -/
structure WalFile where
  bytes : Bytes
  synced : Nat
  deriving DecidableEq, Repr

/-- A file written in one go. `cur` is its content as the operating system has it, `dur` what is fsynced of it; `none` is a file
that does not hold all of its content. -/
structure Stored (α : Type) where
  cur : Option α
  dur : Option α

structure Disk where
  wals : SortedMap Nat WalFile
  ssts : SstName → Option (Stored SstFile)
  sstTmps : SstName → Option (Stored SstFile)
  manifest : Option (Stored Manifest)
  manifestTmp : Option (Stored Manifest)

/-- How a process ends without a drop. A killed process loses what it had in its own buffers; a power loss takes every byte that
is not fsynced as well. -/
inductive CrashKind where
  | kill
  | powerLoss
  deriving DecidableEq, Repr

/-- The steps of writing a file under a temporary name and renaming it: `File::create`, the writes, `sync_all`, `rename`. -/
inductive Stage where
  | create
  | write
  | sync
  | rename
  deriving DecidableEq, Repr

def Stage.next : Stage → Option Stage
  | .create => some .write
  | .write => some .sync
  | .sync => some .rename
  | .rename => none

/-- A temporary file after one step that does not rename it. -/
def Stage.apply {α : Type} (content : α) (tmp : Option (Stored α)) : Stage → Option (Stored α)
  | .create => some ⟨none, none⟩
  | .write => tmp.map (fun f => { f with cur := some content })
  | .sync => tmp.map (fun f => { f with dur := f.cur })
  | .rename => none

namespace Disk

def empty : Disk := ⟨SortedMap.empty, fun _ => none, fun _ => none, none, none⟩

/-- `WalWriter::create`. -/
def createWal (d : Disk) (seq : Nat) : Disk := { d with wals := d.wals.insert seq ⟨[], 0⟩ }

/-- Bytes a log writer hands over to the operating system. -/
def appendWal (d : Disk) (seq : Nat) (bs : Bytes) : Disk :=
  match d.wals.get seq with
  | none => d
  | some f => { d with wals := d.wals.insert seq { f with bytes := f.bytes ++ bs } }

/-- `sync_all` on a log. -/
def syncWal (d : Disk) (seq : Nat) : Disk :=
  match d.wals.get seq with
  | none => d
  | some f => { d with wals := d.wals.insert seq { f with synced := f.bytes.length } }

def removeWal (d : Disk) (seq : Nat) : Disk := { d with wals := d.wals.erase seq }

/-- One step of writing the table `name`. -/
def sstStage (d : Disk) (name : SstName) (file : SstFile) (st : Stage) : Disk :=
  let tmps := Function.update d.sstTmps name (st.apply file (d.sstTmps name))
  if st = .rename then { d with sstTmps := tmps, ssts := Function.update d.ssts name (d.sstTmps name) }
  else { d with sstTmps := tmps }

def removeSst (d : Disk) (name : SstName) : Disk := { d with ssts := Function.update d.ssts name none }

def removeSstTmp (d : Disk) (name : SstName) : Disk := { d with sstTmps := Function.update d.sstTmps name none }

/-- One step of `write_atomic`. -/
def manifestStage (d : Disk) (m : Manifest) (st : Stage) : Disk :=
  let tmp := st.apply m d.manifestTmp
  if st = .rename then { d with manifestTmp := tmp, manifest := d.manifestTmp } else { d with manifestTmp := tmp }

def removeManifestTmp (d : Disk) : Disk := { d with manifestTmp := none }

end Disk

def WalFile.crash : CrashKind → WalFile → WalFile
  | .kill, f => f
  | .powerLoss, f => ⟨f.bytes.take f.synced, (f.bytes.take f.synced).length⟩

def Stored.crash {α : Type} : CrashKind → Stored α → Stored α
  | .kill, f => f
  | .powerLoss, f => ⟨f.dur, f.dur⟩

/-- What is left of the directory when the process ends without a drop. -/
def Disk.crash (κ : CrashKind) (d : Disk) : Disk where
  wals := d.wals.mapVal (WalFile.crash κ)
  ssts := fun n => (d.ssts n).map (Stored.crash κ)
  sstTmps := fun n => (d.sstTmps n).map (Stored.crash κ)
  manifest := d.manifest.map (Stored.crash κ)
  manifestTmp := d.manifestTmp.map (Stored.crash κ)

/-! ## What the operations leave alone -/

namespace Disk

variable (d : Disk)

@[simp] theorem createWal_ssts (seq : Nat) : (d.createWal seq).ssts = d.ssts := rfl
@[simp] theorem createWal_manifest (seq : Nat) : (d.createWal seq).manifest = d.manifest := rfl
@[simp] theorem removeWal_ssts (seq : Nat) : (d.removeWal seq).ssts = d.ssts := rfl
@[simp] theorem removeWal_manifest (seq : Nat) : (d.removeWal seq).manifest = d.manifest := rfl

@[simp] theorem appendWal_ssts (seq : Nat) (bs : Bytes) : (d.appendWal seq bs).ssts = d.ssts := by
  unfold appendWal
  split <;> rfl

@[simp] theorem appendWal_manifest (seq : Nat) (bs : Bytes) : (d.appendWal seq bs).manifest = d.manifest := by
  unfold appendWal
  split <;> rfl

@[simp] theorem syncWal_ssts (seq : Nat) : (d.syncWal seq).ssts = d.ssts := by
  unfold syncWal
  split <;> rfl

@[simp] theorem syncWal_manifest (seq : Nat) : (d.syncWal seq).manifest = d.manifest := by
  unfold syncWal
  split <;> rfl

@[simp] theorem removeSst_wals (name : SstName) : (d.removeSst name).wals = d.wals := rfl
@[simp] theorem removeSst_manifest (name : SstName) : (d.removeSst name).manifest = d.manifest := rfl
@[simp] theorem removeSstTmp_wals (name : SstName) : (d.removeSstTmp name).wals = d.wals := rfl
@[simp] theorem removeSstTmp_ssts (name : SstName) : (d.removeSstTmp name).ssts = d.ssts := rfl
@[simp] theorem removeSstTmp_manifest (name : SstName) : (d.removeSstTmp name).manifest = d.manifest := rfl
@[simp] theorem removeManifestTmp_wals : d.removeManifestTmp.wals = d.wals := rfl
@[simp] theorem removeManifestTmp_ssts : d.removeManifestTmp.ssts = d.ssts := rfl
@[simp] theorem removeManifestTmp_manifest : d.removeManifestTmp.manifest = d.manifest := rfl

@[simp] theorem sstStage_wals (name : SstName) (file : SstFile) (st : Stage) : (d.sstStage name file st).wals = d.wals := by
  unfold sstStage
  split <;> rfl

@[simp] theorem sstStage_manifest (name : SstName) (file : SstFile) (st : Stage) :
    (d.sstStage name file st).manifest = d.manifest := by
  unfold sstStage
  split <;> rfl

/-- Before the rename a table that is being written is not in its place. -/
theorem sstStage_ssts_of_ne (name : SstName) (file : SstFile) {st : Stage} (h : st ≠ .rename) :
    (d.sstStage name file st).ssts = d.ssts := by
  unfold sstStage
  rw [if_neg h]

/-- The rename puts the file in its place that was written under the temporary name. -/
theorem sstStage_rename_ssts (name : SstName) (file : SstFile) :
    (d.sstStage name file .rename).ssts = Function.update d.ssts name (d.sstTmps name) := rfl

/-- Under the temporary name of a table stands what the stage makes of the file. -/
theorem sstStage_sstTmps (name : SstName) (file : SstFile) (st : Stage) :
    (d.sstStage name file st).sstTmps name = st.apply file (d.sstTmps name) := by
  unfold sstStage
  split <;> simp

@[simp] theorem manifestStage_wals (m : Manifest) (st : Stage) : (d.manifestStage m st).wals = d.wals := by
  unfold manifestStage
  split <;> rfl

@[simp] theorem manifestStage_ssts (m : Manifest) (st : Stage) : (d.manifestStage m st).ssts = d.ssts := by
  unfold manifestStage
  split <;> rfl

/-- Before the rename the old MANIFEST is in its place. -/
theorem manifestStage_manifest_of_ne (m : Manifest) {st : Stage} (h : st ≠ .rename) :
    (d.manifestStage m st).manifest = d.manifest := by
  unfold manifestStage
  rw [if_neg h]

/-- The rename puts the MANIFEST in its place that was written under the temporary name. -/
theorem manifestStage_rename_manifest (m : Manifest) : (d.manifestStage m .rename).manifest = d.manifestTmp := rfl

/-- Under the temporary name of the MANIFEST stands what the stage makes of the file. -/
theorem manifestStage_manifestTmp (m : Manifest) (st : Stage) :
    (d.manifestStage m st).manifestTmp = st.apply m d.manifestTmp := by
  unfold manifestStage
  split <;> rfl

/-! ## The logs after an operation -/

/-- A log that is created is empty, and the others are what they were. -/
theorem get_createWal (seq w : Nat) : (d.createWal seq).wals.get w = if seq = w then some ⟨[], 0⟩ else d.wals.get w :=
  SortedMap.get_insert _ _ _ _

/-- A log that is removed is gone, and the others are what they were. -/
theorem get_removeWal (seq w : Nat) : (d.removeWal seq).wals.get w = if seq = w then none else d.wals.get w :=
  SortedMap.get_erase _ _ _

/-- A log that is appended to has the bytes at its end, and the others are what they were. -/
theorem get_appendWal (seq : Nat) (bs : Bytes) (w : Nat) : (d.appendWal seq bs).wals.get w =
    if seq = w then (d.wals.get w).map (fun f => { f with bytes := f.bytes ++ bs }) else d.wals.get w := by
  unfold appendWal
  by_cases h : seq = w
  · subst h
    cases hg : d.wals.get seq <;> simp [hg]
  · cases hg : d.wals.get seq <;> simp [h, SortedMap.get_insert]

/-- A log that is fsynced is fsynced to its end, and the others are what they were. -/
theorem get_syncWal (seq : Nat) (w : Nat) : (d.syncWal seq).wals.get w =
    if seq = w then (d.wals.get w).map (fun f => { f with synced := f.bytes.length }) else d.wals.get w := by
  unfold syncWal
  by_cases h : seq = w
  · subst h
    cases hg : d.wals.get seq <;> simp [hg]
  · cases hg : d.wals.get seq <;> simp [h, SortedMap.get_insert]

@[simp] theorem keys_appendWal (seq : Nat) (bs : Bytes) : (d.appendWal seq bs).wals.keys = d.wals.keys := by
  unfold appendWal
  cases hg : d.wals.get seq with
  | none => rfl
  | some f => exact d.wals.keys_insert_of_mem _ (d.wals.mem_keys_iff.2 ⟨f, hg⟩)

@[simp] theorem keys_syncWal (seq : Nat) : (d.syncWal seq).wals.keys = d.wals.keys := by
  unfold syncWal
  cases hg : d.wals.get seq with
  | none => rfl
  | some f => exact d.wals.keys_insert_of_mem _ (d.wals.mem_keys_iff.2 ⟨f, hg⟩)

/-- The removal of a log takes its number away. -/
theorem keys_removeWal (seq : Nat) : (d.removeWal seq).wals.keys = d.wals.keys.filter (· ≠ seq) := SortedMap.keys_erase _ _

/-- A log created above all others has its number at the end. -/
theorem keys_createWal {seq : Nat} (h : ∀ w ∈ d.wals.keys, w < seq) : (d.createWal seq).wals.keys = d.wals.keys ++ [seq] :=
  SortedMap.keys_insert_of_lt _ _ h

/-- A crash removes no log. -/
@[simp] theorem keys_crash (κ : CrashKind) : (d.crash κ).wals.keys = d.wals.keys := SortedMap.keys_mapVal _ _

/-- A crash leaves of each log what it leaves of its file. -/
theorem get_crash (κ : CrashKind) (w : Nat) : (d.crash κ).wals.get w = (d.wals.get w).map (WalFile.crash κ) :=
  SortedMap.get_mapVal _ _ _

end Disk

end LsmEngine
