import LsmEngine.Lemmas.Files
import LsmEngine.Lemmas.Reads
import LsmEngine.Theorems.ManifestFile

/-!
# Two directories that differ where the engine does not look

The files of a directory that are neither logs nor the MANIFEST can be others, if those that an engine still reads or lists are the same:
every step is then the same. What an engine still reads is in its state.
-/

namespace LsmEngine

open Overlay Transition

variable {Γ : Ctx}

/-- The files of a directory that are neither logs nor the MANIFEST. -/
structure Others where
  ssts : SstName → Option (Stored SstFile)
  sstTmps : SstName → Option (Stored SstFile)
  manifestTmp : Option (Stored Manifest)

def Disk.others (d : Disk) : Others := ⟨d.ssts, d.sstTmps, d.manifestTmp⟩

def Disk.withOthers (d : Disk) (x : Others) : Disk :=
  { d with ssts := x.ssts, sstTmps := x.sstTmps, manifestTmp := x.manifestTmp }

def Node.withOthers (n : Node Γ) (x : Others) : Node Γ := { n with disk := n.disk.withOthers x }

def Sys.withOthers (s : Sys Γ) (x : Others) : Sys Γ := { s with disk := s.disk.withOthers x }

/-- A disk with the same logs and MANIFEST is the disk beside the other's table files. -/
theorem Disk.eq_withOthers {d d' : Disk} (hw : d'.wals = d.wals) (hm : d'.manifest = d.manifest) : d' = d.withOthers d'.others := by
  unfold withOthers others
  rw [← hw, ← hm]

/-! ## What an engine still reads -/

/-- The tables that a MANIFEST lists, as it is or as it is after a power loss. -/
def listed (f : Option (Stored Manifest)) : List SstMeta :=
  f.toList.flatMap (fun g => (g.cur.toList ++ g.dur.toList).flatMap (fun m => m.levels.flatten))

/-- The inputs of a compaction that are removed after the MANIFEST is written. -/
def AfterManifest.inputs : AfterManifest → List SstMeta
  | .removeWals _ _ => []
  | .removeInputs inputs => inputs

/-- The tables that the holder of `flush_lock` has yet to read, to put in the levels or the MANIFEST, or to remove. -/
def FlushSection.needs : FlushSection → List SstMeta
  | .committing _ _ _ sst => [sst]
  | .reading inputs todo _ => inputs ++ todo
  | .merging inputs _ _ _ => inputs
  | .installing inputs output => inputs ++ output.toList
  | .manifest after m _ => m.levels.flatten ++ after.inputs
  | .unlinkInputs todo => todo
  | _ => []

def Engine.needs (e : Engine Γ) : List SstMeta := e.levels.flatten ++ e.gets.flatMap (fun g => g.walk.ssts) ++ e.flush.needs

def Opening.needs (o : Opening) : List SstMeta := o.stage.read.toList.flatMap (fun r => r.levels.flatten)

def Proc.needs : Proc Γ → List SstMeta
  | .down => []
  | .opening o => o.needs
  | .up e => e.needs

/-- The table that the holder of `flush_lock` renames into place. -/
def FlushSection.placed : FlushSection → Io → Option SstMeta
  | .building _ _ _ sst _ .rename, .ok | .merging _ sst _ .rename, .ok => some sst
  | _, _ => none

/-- A temporary MANIFEST lists what is being written. -/
def FlushSection.Lists (d : Disk) : FlushSection → Prop
  | .manifest _ m st => st ≠ .create → ∀ sst ∈ listed d.manifestTmp, sst ∈ m.levels.flatten
  | _ => True

/-- The file that the holder of `flush_lock` is writing under a temporary name is the same once it has been created. -/
def FlushSection.Same (d : Disk) (x : Others) : FlushSection → Prop
  | .building _ _ _ sst _ st | .merging _ sst _ st => st ≠ .create → x.sstTmps sst.name = d.sstTmps sst.name
  | .manifest _ _ st => st ≠ .create → x.manifestTmp = d.manifestTmp
  | _ => True

/-- The tables of a running engine whose files are still read. -/
def Node.Reads (n : Node Γ) (name : SstName) : Prop := ∃ m ∈ listed n.disk.manifest ++ n.eng.needs, m.name = name

/-- The files that are still read are the same. -/
structure Node.Fits (n : Node Γ) (x : Others) : Prop where
  ssts : ∀ name, n.Reads name → x.ssts name = n.disk.ssts name
  lists : n.eng.flush.Lists n.disk
  tmp : n.eng.flush.Same n.disk x

/-- The same when the engine may not be running. -/
def Sys.Reads (s : Sys Γ) (name : SstName) : Prop := ∃ m ∈ listed s.disk.manifest ++ s.proc.needs, m.name = name

structure Sys.Fits (s : Sys Γ) (x : Others) : Prop where
  ssts : ∀ name, s.Reads name → x.ssts name = s.disk.ssts name
  lists : ∀ e, s.proc = .up e → e.flush.Lists s.disk
  tmp : ∀ e, s.proc = .up e → e.flush.Same s.disk x

/-- Other files that fit a running engine fit its system. -/
theorem Node.Fits.toSys {n : Node Γ} {x : Others} (h : n.Fits x) : n.toSys.Fits x :=
  ⟨h.ssts, fun _ he => Proc.up.inj he ▸ h.lists, fun _ he => Proc.up.inj he ▸ h.tmp⟩

/-- Other files that fit a system fit the engine that runs in it. -/
theorem Sys.Fits.node {s : Sys Γ} {x : Others} (h : s.Fits x) {e : Engine Γ} (hp : s.proc = .up e) :
    (Node.mk s.disk s.hist e).Fits x :=
  ⟨by simpa only [Sys.Reads, Node.Reads, hp, Proc.needs] using h.ssts, h.lists e hp, h.tmp e hp⟩

/-! ## The logs -/

namespace Disk

variable (d : Disk) (x : Others)

/-- The creation of a log looks at no table. -/
theorem createWal_withOthers (seq : Nat) : (d.withOthers x).createWal seq = (d.createWal seq).withOthers x := rfl

/-- The removal of a log looks at no table. -/
theorem removeWal_withOthers (seq : Nat) : (d.withOthers x).removeWal seq = (d.removeWal seq).withOthers x := rfl

/-- An append to a log looks at no table. -/
theorem appendWal_withOthers (seq : Nat) (bs : Bytes) : (d.withOthers x).appendWal seq bs = (d.appendWal seq bs).withOthers x := by
  unfold appendWal
  cases h : d.wals.get seq <;> simp only [withOthers, h]

/-- The fsync of a log looks at no table. -/
theorem syncWal_withOthers (seq : Nat) : (d.withOthers x).syncWal seq = (d.syncWal seq).withOthers x := by
  unfold syncWal
  cases h : d.wals.get seq <;> simp only [withOthers, h]

/-- An append that fails part way looks at no table. -/
theorem tear_withOthers (seq : Nat) (buf frame : Bytes) (written : Nat) :
    (d.withOthers x).tear seq buf frame written = (d.tear seq buf frame written).withOthers x := by
  unfold tear
  split
  · rfl
  · exact appendWal_withOthers d x seq _

end Disk

/-- A result of a step with other files. -/
def besides (x : Others) (r : Node Γ × Out) : Node Γ × Out := (r.1.withOthers x, r.2)

namespace Node

variable (n : Node Γ) (x : Others)

/-- The fsync of the active log under the wal mutex looks at no table. -/
theorem syncActive_withOthers (next : WalSection) : (n.withOthers x).syncActive next = (n.syncActive next).withOthers x := by
  unfold syncActive withOthers
  rw [Disk.appendWal_withOthers, Disk.syncWal_withOthers]

/-- The last step of a rotation looks at no table. -/
theorem replaceWriter_withOthers (newSeq : Nat) (io : Io) :
    (n.withOthers x).replaceWriter newSeq io = (n.replaceWriter newSeq io).withOthers x := by
  unfold replaceWriter withOthers
  dsimp only
  split
  · rw [Disk.appendWal_withOthers]
  · rfl

/-- The return of a call looks at no table. -/
theorem finish_withOthers (c : WalCaller) : (n.withOthers x).finish c = besides x (n.finish c) := by
  cases c <;> rfl

/-- The failure of a call looks at no table. -/
theorem abort_withOthers (err : LsmError) (c : WalCaller) : (n.withOthers x).abort err c = besides x (n.abort err c) := by
  cases c <;> rfl

/-- An append does beside other files what it does without them. -/
theorem write_withOthers (w : WalEntry) (io : Io) : (n.withOthers x).write w io = (n.write w io).map (besides x) := by
  have heng : (n.withOthers x).eng = n.eng := rfl
  unfold write
  rw [heng]
  cases n.eng.wal with
  | free =>
    dsimp only
    split
    · rfl
    · cases io with
      | ok => rfl
      | fail written =>
        dsimp only
        split
        · simp only [Option.map_some, besides, tearWrite, withOthers, Disk.tear_withOthers]
        · rfl
  | _ => rfl

theorem walStep_withOthers (io : Io) : (n.withOthers x).walStep io = (n.walStep io).map (besides x) := by
  have heng : (n.withOthers x).eng = n.eng := rfl
  unfold walStep
  rw [heng]
  cases n.eng.wal with
  | free => rfl
  | logged w =>
    dsimp only
    split
    · cases io with
      | ok => simp only [syncActive_withOthers, Option.map_some, besides]
      | fail k => rfl
    · rfl
  | synced w => rfl
  | applied w =>
    dsimp only
    by_cases ht : n.overThreshold
    · rw [if_pos ht, if_pos (show (n.withOthers x).overThreshold from ht)]
      rfl
    · rw [if_neg ht, if_neg (show ¬(n.withOthers x).overThreshold from ht)]
      rfl
  | syncing since =>
    cases io with
    | ok => simp only [syncActive_withOthers, Option.map_some, besides]
    | fail k => rfl
  | freezing c =>
    dsimp only
    split
    · rw [finish_withOthers]
      rfl
    · rfl
  | rotating c newSeq =>
    cases io with
    | ok => rfl
    | fail k =>
      dsimp only
      rw [abort_withOthers]
      rfl
  | created c newSeq => rfl
  | swapped c newSeq =>
    dsimp only
    rw [replaceWriter_withOthers, finish_withOthers]
    rfl

theorem flush_withOthers : (n.withOthers x).flush = n.flush.map (besides x) := by
  have heng : (n.withOthers x).eng = n.eng := rfl
  unfold flush
  rw [heng]
  cases n.eng.wal <;> rfl

theorem flushEnter_withOthers (i : Nat) : (n.withOthers x).flushEnter i = (n.flushEnter i).map (besides x) := by
  have heng : (n.withOthers x).eng = n.eng := rfl
  unfold flushEnter
  rw [heng]
  cases n.eng.flush with
  | free => cases n.eng.flushers[i]? <;> rfl
  | _ => rfl

theorem workerEnter_withOthers : (n.withOthers x).workerEnter = n.workerEnter.map (besides x) := by
  have heng : (n.withOthers x).eng = n.eng := rfl
  unfold workerEnter
  rw [heng]
  cases n.eng.flush <;> rfl

theorem compactEnter_withOthers : (n.withOthers x).compactEnter = n.compactEnter.map (besides x) := by
  have heng : (n.withOthers x).eng = n.eng := rfl
  unfold compactEnter
  rw [heng]
  cases n.eng.flush with
  | free =>
    dsimp only
    split <;> rfl
  | _ => rfl

theorem handover_withOthers (k : Nat) : (n.withOthers x).handover k = (n.handover k).withOthers x := by
  unfold handover withOthers
  rw [Disk.appendWal_withOthers]

theorem drop_withOthers (io : Io) : (n.withOthers x).drop io = (n.drop io).withOthers x := by
  unfold drop withOthers Sys.withOthers
  dsimp only
  split
  · rw [Disk.appendWal_withOthers, Disk.syncWal_withOthers]
  · rfl

/-! ## Reading tables -/

/-- The reader of a table is opened from its own file. -/
theorem openReader_withOthers {d : Disk} {name : SstName} (h : x.ssts name = d.ssts name) (io : Io) :
    openReader Γ (d.withOthers x) name io = openReader Γ d name io := by
  unfold openReader
  rw [show (d.withOthers x).ssts name = d.ssts name from h]

/-- A `get` that asks a table looks at the file of that table. -/
theorem lookTable_withOthers {sst : SstMeta} (h : x.ssts sst.name = n.disk.ssts sst.name) (i : Nat) (g : GetCall)
    (rest : List SstMeta) (io : Io) : (n.withOthers x).lookTable i g sst rest io = besides x (n.lookTable i g sst rest io) := by
  have heng : (n.withOthers x).eng = n.eng := rfl
  unfold lookTable
  rw [heng]
  split
  · rfl
  · cases n.eng.readers sst.name with
    | none =>
      dsimp only
      rw [show (n.withOthers x).disk = n.disk.withOthers x from rfl, openReader_withOthers x h]
      rfl
    | some r =>
      cases r with
      | error e => rfl
      | ok rd =>
        cases io with
        | fail k => rfl
        | ok =>
          dsimp only
          cases rd.get g.key with
          | error err => rfl
          | ok v =>
            cases v with
            | none => rfl
            | some v => cases v <;> rfl

variable {n x}

/-- A step of a `get` does beside other files that fit what it does without them. -/
theorem getStep_withOthers (h : n.Fits x) (i : Nat) (io : Io) : (n.withOthers x).getStep i io = (n.getStep i io).map (besides x) := by
  have heng : (n.withOthers x).eng = n.eng := rfl
  unfold getStep
  rw [heng]
  cases hg : n.eng.gets[i]? with
  | none => rfl
  | some g =>
    dsimp only
    cases hw : g.walk with
    | active mem imms tables =>
      dsimp only
      cases (n.eng.mems mem).getEntry g.key <;> rfl
    | immutables imms tables =>
      cases imms with
      | nil => rfl
      | cons p imms =>
        dsimp only
        cases (n.eng.mems p.mem).getEntry g.key <;> rfl
    | tables tables =>
      cases tables with
      | nil => rfl
      | cons sst rest =>
        have hneed : sst ∈ n.eng.needs := by
          refine List.mem_append_left _ (List.mem_append_right _ (List.mem_flatMap.2 ⟨g, List.mem_of_getElem? hg, ?_⟩))
          rw [hw]
          exact List.mem_cons_self
        have hsame := h.ssts _ ⟨sst, List.mem_append_right _ hneed, rfl⟩
        dsimp only
        rw [lookTable_withOthers n x hsame]
        rfl

end Node

/-! ## Writing tables -/

/-- The other files after a step of the holder of `flush_lock`. -/
def FlushSection.after (d : Disk) (x : Others) (io : Io) : FlushSection → Others
  | .building _ _ _ sst file st => if io = .ok then ((d.withOthers x).sstStage sst.name file st).others else x
  | .merging _ sst file st =>
    if io = .ok then ((d.withOthers x).sstStage sst.name file st).others else ((d.withOthers x).removeSstTmp sst.name).others
  | .manifest _ m st =>
    if io = .ok then ((d.withOthers x).manifestStage m st).others else (d.withOthers x).removeManifestTmp.others
  | .unlinkInputs (sst :: _) => if io = .ok then ((d.withOthers x).removeSst sst.name).others else x
  | _ => x

/-- A stage of the writing of a table changes the other files as it changes those of the disk. -/
theorem Disk.sstStage_withOthers (d : Disk) (x : Others) (name : SstName) (file : SstFile) (st : Stage) :
    (d.withOthers x).sstStage name file st =
      (d.sstStage name file st).withOthers ((d.withOthers x).sstStage name file st).others :=
  eq_withOthers (by simp only [sstStage_wals]; rfl) (by simp only [sstStage_manifest]; rfl)

/-- A MANIFEST comes into place that is the same. -/
theorem Disk.manifestStage_withOthers {d : Disk} {x : Others} (m : Manifest) {st : Stage}
    (h : st ≠ .create → x.manifestTmp = d.manifestTmp) :
    (d.withOthers x).manifestStage m st = (d.manifestStage m st).withOthers ((d.withOthers x).manifestStage m st).others := by
  refine eq_withOthers (by simp only [manifestStage_wals]; rfl) ?_
  by_cases hst : st = .rename
  · subst hst
    exact h (by simp)
  · rw [manifestStage_manifest_of_ne _ _ hst, manifestStage_manifest_of_ne _ _ hst]
    rfl

section Flush

variable {n : Node Γ} {x : Others}

/-- The end of a pass looks at no table. -/
theorem Node.flushEnd_withOthers (n : Node Γ) (x : Others) (r : Except LsmError Unit) (c : FlushCaller) :
    (n.withOthers x).flushEnd r c = besides x (n.flushEnd r c) := by
  cases c <;> rfl

/-- The choice of the next immutable looks at no table. -/
theorem Node.drain_withOthers (n : Node Γ) (x : Others) (c : FlushCaller) (flushed : List Nat) :
    (n.withOthers x).drain c flushed = besides x (n.drain c flushed) := by
  have heng : (n.withOthers x).eng = n.eng := rfl
  unfold drain
  rw [heng]
  cases n.eng.immutables with
  | nil =>
    dsimp only
    split
    · exact flushEnd_withOthers n x _ c
    · rfl
  | cons p rest =>
    dsimp only
    cases buildSst Γ 0 n.eng.nextSeq (n.eng.mems p.mem).len (n.eng.mems p.mem).records with
    | error err => exact flushEnd_withOthers { n with eng.nextSeq := n.eng.nextSeq + 1 } x _ c
    | ok b => rfl

/-- The merge of runs that have been read looks at no table. -/
theorem Node.mergeInputs_withOthers (n : Node Γ) (x : Others) (inputs : List SstMeta) (runs : List Run) :
    (n.withOthers x).mergeInputs inputs runs = (n.mergeInputs inputs runs).map (besides x) := by
  have heng : (n.withOthers x).eng = n.eng := rfl
  unfold mergeInputs
  rw [heng]
  cases mergeRuns runs with
  | none => rfl
  | some rs =>
    cases rs with
    | nil => rfl
    | cons r rs =>
      dsimp only
      cases buildSst Γ 1 n.eng.nextSeq (r :: rs).length (r :: rs) <;> rfl

/-- The reading of an input looks at the file of that input. -/
theorem Node.readInput_withOthers {sst : SstMeta} (h : x.ssts sst.name = n.disk.ssts sst.name) (inputs todo : List SstMeta)
    (runs : List Run) (io : Io) :
    (n.withOthers x).readInput inputs sst todo runs io = besides x (n.readInput inputs sst todo runs io) := by
  have heng : (n.withOthers x).eng = n.eng := rfl
  unfold readInput
  rw [heng]
  cases n.eng.readers sst.name with
  | none =>
    dsimp only
    rw [show (n.withOthers x).disk = n.disk.withOthers x from rfl, openReader_withOthers x h]
    rfl
  | some r =>
    cases r with
    | error e => rfl
    | ok rd =>
      cases io with
      | fail k => rfl
      | ok =>
        dsimp only
        cases rd.records <;> rfl

/-- A step of the holder of `flush_lock` does beside other files that fit what it does without them. -/
theorem Node.flushStep_withOthers (h : n.Fits x) (io : Io) :
    (n.withOthers x).flushStep io = (n.flushStep io).map (besides (n.eng.flush.after n.disk x io)) := by
  have heng : (n.withOthers x).eng = n.eng := rfl
  have hdisk : (n.withOthers x).disk = n.disk.withOthers x := rfl
  have htmp := h.tmp
  unfold flushStep
  rw [heng, hdisk]
  cases hf : n.eng.flush with
  | free => rfl
  | draining c fl => exact congrArg some (drain_withOthers n x c fl)
  | building c fl p sst file st =>
    cases io with
    | ok =>
      dsimp only
      rw [Disk.sstStage_withOthers]
      rfl
    | fail k => exact congrArg some (flushEnd_withOthers n x _ c)
  | committing c fl p sst =>
    dsimp only
    split <;> rfl
  | reading inputs todo runs =>
    cases todo with
    | nil => exact mergeInputs_withOthers n x inputs runs
    | cons sst todo =>
      have hneed : sst ∈ n.eng.needs := List.mem_append_right _ (by simp [hf, FlushSection.needs])
      exact congrArg some (readInput_withOthers (h.ssts _ ⟨sst, List.mem_append_right _ hneed, rfl⟩) inputs todo runs io)
  | merging inputs sst file st =>
    cases io with
    | ok =>
      dsimp only
      rw [Disk.sstStage_withOthers]
      rfl
    | fail k => rfl
  | installing inputs output =>
    dsimp only
    split <;> rfl
  | manifest after m st =>
    rw [hf] at htmp
    cases io with
    | ok =>
      dsimp only
      rw [Disk.manifestStage_withOthers m htmp]
      cases st.next with
      | none => cases after <;> rfl
      | some st' => rfl
    | fail k =>
      cases after with
      | removeWals c ws => cases c <;> rfl
      | removeInputs inputs => rfl
  | unlinkWals c todo =>
    cases todo with
    | nil => exact congrArg some (flushEnd_withOthers n x _ c)
    | cons w todo => cases io <;> rfl
  | unlinkInputs todo =>
    cases todo with
    | nil => rfl
    | cons sst todo => cases io <;> rfl

/-! ## The files that are read stay the same -/

/-- A table is listed when the MANIFEST lists it, as it is now or as it would be after a power loss. -/
theorem mem_listed {f : Option (Stored Manifest)} {sst : SstMeta} :
    sst ∈ listed f ↔ ∃ g m, f = some g ∧ (g.cur = some m ∨ g.dur = some m) ∧ sst ∈ m.levels.flatten := by
  cases f with
  | none => simp [listed]
  | some g => simp [listed, Option.mem_toList, or_and_right, exists_or]

/-- An element of a list of lists of which one was modified is new or was there. -/
theorem mem_flatten_modify {α : Type} {ls : List (List α)} {i : Nat} {f : List α → List α} {x : α}
    (h : x ∈ (ls.modify i f).flatten) : (∃ l ∈ ls, x ∈ f l) ∨ x ∈ ls.flatten := by
  obtain ⟨l, hl, hx⟩ := List.mem_flatten.1 h
  obtain ⟨j, hj⟩ := List.mem_iff_getElem?.1 hl
  rw [List.getElem?_modify] at hj
  obtain ⟨l', hl', rfl⟩ := Option.map_eq_some_iff.1 hj
  split at hx
  · exact .inl ⟨l', List.mem_of_getElem? hl', hx⟩
  · exact .inr (List.mem_flatten.2 ⟨l', List.mem_of_getElem? hl', hx⟩)

/-- A table put into a level is the only new one. -/
theorem mem_flatten_insertBySeq {ls : List (List SstMeta)} {i : Nat} {sst x : SstMeta}
    (h : x ∈ (ls.modify i (insertBySeq sst)).flatten) : x = sst ∨ x ∈ ls.flatten := by
  rcases mem_flatten_modify h with ⟨l, hl, hx⟩ | hx
  · exact (mem_insertBySeq hx).imp_right (fun hx => List.mem_flatten.2 ⟨l, hl, hx⟩)
  · exact .inr hx

/-- Empty levels at the end hold no table. -/
theorem mem_flatten_grown {ls : List (List SstMeta)} {k : Nat} {x : SstMeta} (h : x ∈ (ls ++ List.replicate k []).flatten) :
    x ∈ ls.flatten := by
  simpa using h

/-- A table of a manifest to which a level was added was there or has the name of one that was added. -/
theorem Manifest.mem_addLevel {m : Manifest} {level : Nat} {handles : List SstMeta} {x : SstMeta}
    (h : x ∈ (m.addLevel level handles).levels.flatten) : x ∈ m.levels.flatten ∨ ∃ y ∈ handles, y.name = x.name := by
  induction handles generalizing m with
  | nil => exact .inl h
  | cons sst handles ih =>
    rcases ih h with hx | ⟨y, hy, hname⟩
    · rcases mem_flatten_insertBySeq hx with rfl | hx
      · exact .inr ⟨sst, List.mem_cons_self, rfl⟩
      · exact .inl (mem_flatten_grown hx)
    · exact .inr ⟨y, List.mem_cons_of_mem _ hy, hname⟩

theorem Manifest.mem_addLevels {m : Manifest} {level : Nat} {levels : List (List SstMeta)} {x : SstMeta}
    (h : x ∈ (m.addLevels level levels).levels.flatten) : x ∈ m.levels.flatten ∨ ∃ y ∈ levels.flatten, y.name = x.name := by
  induction levels generalizing m level with
  | nil => exact .inl h
  | cons handles rest ih =>
    rcases ih h with hx | ⟨y, hy, hname⟩
    · exact (mem_addLevel hx).imp_right (fun ⟨y, hy, hname⟩ => ⟨y, List.mem_append_left _ hy, hname⟩)
    · exact .inr ⟨y, List.mem_append_right _ hy, hname⟩

/-- A MANIFEST that is written names tables of the levels. -/
theorem Manifest.name_of_ofLevels {levels : List (List SstMeta)} {x : SstMeta} (h : x ∈ (Manifest.ofLevels levels).levels.flatten) :
    ∃ y ∈ levels.flatten, y.name = x.name :=
  (mem_addLevels h).resolve_left (by simp)

/-- A table of the levels after a compaction is the output or was there. -/
theorem mem_compactedLevels {levels : List (List SstMeta)} {output : Option SstMeta} {x : SstMeta}
    (h : x ∈ (Node.compactedLevels levels output).flatten) : x ∈ output.toList ∨ x ∈ levels.flatten := by
  cases output with
  | none =>
    rw [compactedLevels_none] at h
    simp at h
  | some sst =>
    obtain ⟨l, hl, hx⟩ := List.mem_flatten.1 h
    rcases List.mem_or_eq_of_mem_set hl with hl | rfl
    · rcases List.mem_or_eq_of_mem_set hl with hl | rfl
      · exact .inr (mem_flatten_grown (List.mem_flatten.2 ⟨l, hl, hx⟩))
      · simp at hx
    · exact .inl (by simpa using hx)

variable {n' : Node Γ} {y : Others} {name : SstName}

/-- The names that are read are those of the listed tables, of the levels, and of what the calls in progress need. -/
theorem Node.reads_iff : n.Reads name ↔ (∃ m ∈ listed n.disk.manifest, m.name = name) ∨
    (∃ m ∈ n.eng.levels.flatten, m.name = name) ∨ (∃ g ∈ n.eng.gets, ∃ m ∈ g.walk.ssts, m.name = name) ∨
      ∃ m ∈ n.eng.flush.needs, m.name = name := by
  unfold Reads Engine.needs
  simp only [List.mem_append, List.mem_flatMap, or_assoc, or_and_right, exists_or]
  refine or_congr_right (or_congr_right (or_congr_left ⟨?_, ?_⟩))
  · rintro ⟨m, ⟨g, hg, hm⟩, hname⟩
    exact ⟨g, hg, m, hm, hname⟩
  · rintro ⟨g, hg, m, hm, hname⟩
    exact ⟨m, ⟨g, hg, hm⟩, hname⟩

/-- The holder of `flush_lock` moves on and puts nothing in place. -/
theorem Node.Reads.of_flush (h : n'.Reads name)
    (hman : ∀ m ∈ listed n'.disk.manifest, m ∈ listed n.disk.manifest ++ n.eng.flush.needs)
    (hlev : ∀ m ∈ n'.eng.levels.flatten, m ∈ n.eng.levels.flatten ++ n.eng.flush.needs) (hgets : n'.eng.gets = n.eng.gets)
    (hfl : ∀ m ∈ n'.eng.flush.needs, ∃ m' ∈ n.eng.levels.flatten ++ n.eng.flush.needs, m'.name = m.name) : n.Reads name := by
  rw [reads_iff] at h ⊢
  rcases h with ⟨m, hm, hname⟩ | ⟨m, hm, hname⟩ | h | ⟨m, hm, hname⟩
  · rcases List.mem_append.1 (hman m hm) with hm | hm
    · exact .inl ⟨m, hm, hname⟩
    · exact .inr (.inr (.inr ⟨m, hm, hname⟩))
  · rcases List.mem_append.1 (hlev m hm) with hm | hm
    · exact .inr (.inl ⟨m, hm, hname⟩)
    · exact .inr (.inr (.inr ⟨m, hm, hname⟩))
  · exact .inr (.inr (.inl (hgets ▸ h)))
  · obtain ⟨m', hm', heq⟩ := hfl m hm
    rcases List.mem_append.1 hm' with hm' | hm'
    · exact .inr (.inl ⟨m', hm', heq.trans hname⟩)
    · exact .inr (.inr (.inr ⟨m', hm', heq.trans hname⟩))

/-- A stage that does not create its file depends on what was written before. -/
theorem Stage.apply_congr {α : Type} {content : α} {a b : Option (Stored α)} {st : Stage} (h : st ≠ .create → a = b) :
    st.apply content a = st.apply content b := by
  cases st with
  | create => rfl
  | _ => rw [h (by simp)]

/-- A stage of writing a table. -/
theorem FlushSection.Same.sstStage {d : Disk} {name : SstName} (file : SstFile) {st : Stage}
    (h : st ≠ .create → x.sstTmps name = d.sstTmps name) :
    ((d.withOthers x).sstStage name file st).others.sstTmps name = (d.sstStage name file st).sstTmps name := by
  change ((d.withOthers x).sstStage name file st).sstTmps name = _
  rw [Disk.sstStage_sstTmps, Disk.sstStage_sstTmps]
  exact Stage.apply_congr h

/-- A stage of the writing of a manifest lists only the tables of that manifest. -/
theorem listed_apply {m : Manifest} {tmp : Option (Stored Manifest)} {st : Stage}
    (h : st ≠ .create → ∀ sst ∈ listed tmp, sst ∈ m.levels.flatten) : ∀ sst ∈ listed (st.apply m tmp), sst ∈ m.levels.flatten := by
  intro sst hsst
  obtain ⟨g, m', hg, hm', hmem⟩ := mem_listed.1 hsst
  cases st with
  | create =>
    obtain rfl := Option.some.inj hg
    simp at hm'
  | rename => simp [Stage.apply] at hg
  | write =>
    obtain ⟨f, hf, rfl⟩ := Option.map_eq_some_iff.1 hg
    rcases hm' with hm' | hm'
    · rwa [Option.some.inj hm']
    · exact h (by simp) sst (mem_listed.2 ⟨f, m', hf, .inr hm', hmem⟩)
  | sync =>
    obtain ⟨f, hf, rfl⟩ := Option.map_eq_some_iff.1 hg
    exact h (by simp) sst (mem_listed.2 ⟨f, m', hf, .inl (hm'.elim id id), hmem⟩)

/-- The holder of `flush_lock` moves on, with the levels and the MANIFEST as they are. -/
theorem Node.Reads.stay (h : n'.Reads name) (hman : n'.disk.manifest = n.disk.manifest) (hlev : n'.eng.levels = n.eng.levels)
    (hgets : n'.eng.gets = n.eng.gets)
    (hfl : ∀ m ∈ n'.eng.flush.needs, ∃ m' ∈ n.eng.levels.flatten ++ n.eng.flush.needs, m'.name = m.name) : n.Reads name := by
  refine h.of_flush ?_ ?_ hgets hfl
  · rw [hman]
    exact fun m hm => List.mem_append_left _ hm
  · rw [hlev]
    exact fun m hm => List.mem_append_left _ hm

/-- A table is renamed into place. -/
theorem Node.Reads.renamed {sst : SstMeta} {file : SstFile} {fl : FlushSection}
    (h : Node.Reads { n with disk := n.disk.sstStage sst.name file .rename, eng.flush := fl } name)
    (hfl : ∀ m ∈ fl.needs, m = sst ∨ m ∈ n.eng.flush.needs) : n.Reads name ∨ sst.name = name := by
  rw [Node.reads_iff]
  rcases Node.reads_iff.1 h with h | h | h | ⟨m, hm, hname⟩
  · exact .inl (.inl h)
  · exact .inl (.inr (.inl h))
  · exact .inl (.inr (.inr (.inl h)))
  · rcases hfl m hm with rfl | hm
    · exact .inr hname
    · exact .inl (.inr (.inr (.inr ⟨m, hm, hname⟩)))

/-- What is read after a step of the holder of `flush_lock` was read before, or has just been put in place. -/
theorem FlushMove.reads {io : Io} {r : Node Γ × Out} (hm : FlushMove n io r) (hlists : n.eng.flush.Lists n.disk)
    (hr : r.1.Reads name) : n.Reads name ∨ ∃ sst, n.eng.flush.placed io = some sst ∧ sst.name = name := by
  have hold : ∀ m ∈ n.eng.flush.needs, ∃ m' ∈ n.eng.levels.flatten ++ n.eng.flush.needs, m'.name = m.name :=
    fun m hm => ⟨m, List.mem_append_right _ hm, rfl⟩
  cases hm with
  | @nothing c hf | @unbuilt c _ _ _ _ hf | @flushDone c hf | @buildFails c _ _ _ _ _ _ hf | @manifestFailsFlush c _ _ _ _ hf =>
    cases c <;> exact .inl (hr.stay rfl rfl rfl (by simp [Node.flushEnd, FlushSection.needs]))
  | mergedUnbuilt | readFails | compactDone | mergeFails | manifestFailsCompact =>
    exact .inl (hr.stay rfl rfl rfl (by simp [Node.compactEnd, FlushSection.needs]))
  | built | unlinkWal | unlinkWalFails => exact .inl (hr.stay rfl rfl rfl (by simp [FlushSection.needs]))
  | buildStage => exact .inl (hr.stay (by simp) rfl rfl (by simp [FlushSection.needs]))
  | readOpen => exact .inl (hr.stay rfl rfl rfl hold)
  | drained =>
    refine .inl (hr.stay rfl rfl rfl (fun m hm => ?_))
    obtain ⟨m', hm', hname⟩ := Manifest.name_of_ofLevels (by simpa [FlushSection.needs, AfterManifest.inputs] using hm)
    exact ⟨m', List.mem_append_left _ hm', hname⟩
  | mergedNone hf | merged hf | read hf | unlinkInput hf | unlinkInputFails hf =>
    refine .inl (hr.stay rfl rfl rfl (fun m hm => hold m ?_))
    rw [hf]
    simp only [FlushSection.needs, List.mem_append, List.mem_cons, Option.toList_none] at hm ⊢
    tauto
  | mergeStage hf =>
    refine .inl (hr.stay (by simp) rfl rfl (fun m hm => hold m ?_))
    rw [hf]
    exact hm
  | @buildRename c fl p sst file hf hio =>
    exact (hr.renamed (by simp [FlushSection.needs])).imp_right (fun hname => ⟨sst, by rw [hf, hio]; rfl, hname⟩)
  | @mergeRename inputs sst file hf hio =>
    refine (hr.renamed (fun m hm => ?_)).imp_right (fun hname => ⟨sst, by rw [hf, hio]; rfl, hname⟩)
    rw [hf]
    rcases List.mem_append.1 hm with hm | hm
    · exact .inr hm
    · exact .inl (by simpa using hm)
  | @commit c fl p sst hf hl =>
    refine .inl (hr.of_flush (fun m hm => List.mem_append_left _ hm) (fun m hm => ?_) rfl
      (by simp [Node.commitFlush, FlushSection.needs]))
    rcases mem_flatten_insertBySeq hm with rfl | hm
    · exact List.mem_append_right _ (by simp [hf, FlushSection.needs])
    · refine List.mem_append_left _ ?_
      split at hm
      · simp at hm
      · exact hm
  | @install inputs output hf hl =>
    have hlev : ∀ m ∈ (n.commitCompaction inputs output).eng.levels.flatten, m ∈ n.eng.levels.flatten ++ n.eng.flush.needs := by
      intro m hm
      rw [hf]
      rcases mem_compactedLevels hm with hm | hm
      · exact List.mem_append_right _ (List.mem_append_right _ hm)
      · exact List.mem_append_left _ hm
    refine .inl (hr.of_flush (fun m hm => List.mem_append_left _ hm) hlev rfl (fun m hm => ?_))
    rcases List.mem_append.1 hm with hm | hm
    · obtain ⟨m', hm', hname⟩ := Manifest.name_of_ofLevels hm
      exact ⟨m', hlev m' hm', hname⟩
    · refine hold m ?_
      rw [hf]
      exact List.mem_append_left _ hm
  | @manifestStage after m st st' hf hio hst =>
    refine .inl (hr.stay (Disk.manifestStage_manifest_of_ne _ _ (ne_rename_of_next hst)) rfl rfl (fun m' hm' => hold m' ?_))
    rw [hf]
    exact hm'
  | manifestFlush hf | manifestCompact hf =>
    rw [hf] at hlists
    refine .inl (hr.of_flush (fun m hm => List.mem_append_right _ ?_) (fun m hm => List.mem_append_left _ hm) rfl
      (fun m hm => hold m ?_))
    · rw [hf]
      exact List.mem_append_left _ (hlists (by simp) m hm)
    · rw [hf]
      exact List.mem_append_right _ hm

/-- The MANIFEST that is being written lists the tables of the engine after a step of its writer. -/
theorem FlushMove.lists {io : Io} {r : Node Γ × Out} (hm : FlushMove n io r) (hlists : n.eng.flush.Lists n.disk) :
    r.1.eng.flush.Lists r.1.disk := by
  cases hm with
  | @nothing c | @unbuilt c | @flushDone c | @buildFails c | @manifestFailsFlush c => cases c <;> trivial
  | drained | install => exact fun hc => absurd rfl hc
  | manifestStage hf =>
    rw [hf] at hlists
    intro _
    rw [Disk.manifestStage_manifestTmp]
    exact listed_apply hlists
  | readOpen hf =>
    change n.eng.flush.Lists _
    rw [hf]
    trivial
  | _ => trivial

/-- After a step of the holder of `flush_lock` what it has written is the same beside the other files. -/
theorem FlushMove.keepsSame {io : Io} {r : Node Γ × Out} (hm : FlushMove n io r) (htmp : n.eng.flush.Same n.disk x) :
    r.1.eng.flush.Same r.1.disk (n.eng.flush.after n.disk x io) := by
  cases hm with
  | @nothing c | @unbuilt c | @flushDone c | @buildFails c | @manifestFailsFlush c => cases c <;> trivial
  | drained | install | built | merged => exact fun hc => absurd rfl hc
  | buildStage hf hio | mergeStage hf hio =>
    rw [hf] at htmp ⊢
    simp only [FlushSection.after, hio, if_true]
    exact fun _ => FlushSection.Same.sstStage _ htmp
  | manifestStage hf hio =>
    rw [hf] at htmp ⊢
    simp only [FlushSection.after, hio, if_true]
    intro _
    rw [Disk.others, Disk.manifestStage_manifestTmp, Disk.manifestStage_manifestTmp]
    exact Stage.apply_congr htmp
  | readOpen hf =>
    change n.eng.flush.Same _ _
    rw [hf]
    trivial
  | _ => trivial

/-- A table file that was the same is the same, and so is one that is put in place. -/
theorem FlushMove.ssts {io : Io} {r : Node Γ × Out} (hm : FlushMove n io r) (htmp : n.eng.flush.Same n.disk x)
    (hwas : x.ssts name = n.disk.ssts name ∨ ∃ sst, n.eng.flush.placed io = some sst ∧ sst.name = name) :
    (n.eng.flush.after n.disk x io).ssts name = r.1.disk.ssts name := by
  have hkept : n.eng.flush.placed io = none → x.ssts name = n.disk.ssts name := by
    intro hnone
    refine hwas.resolve_right (fun ⟨sst, hsst, _⟩ => ?_)
    rw [hnone] at hsst
    simp at hsst
  have hupdate : ∀ (key : SstName) (a b : Option (Stored SstFile)), (name = key → a = b) →
      (name ≠ key → x.ssts name = n.disk.ssts name) → Function.update x.ssts key a name = Function.update n.disk.ssts key b name := by
    intro key a b hab hne
    by_cases hname : name = key
    · rw [hname, Function.update_self, Function.update_self, hab hname]
    · rw [Function.update_of_ne hname, Function.update_of_ne hname, hne hname]
  cases hm with
  | @nothing c hf | @unbuilt c _ _ _ _ hf | @flushDone c hf =>
    rw [hf] at hkept ⊢
    cases c <;> exact hkept rfl
  | @buildFails c _ _ _ _ _ _ hf hio | @manifestFailsFlush c _ _ _ _ hf hio =>
    rw [hf, hio] at hkept ⊢
    cases c <;> exact hkept (by simp [FlushSection.placed])
  | manifestFailsCompact hf hio | mergeFails hf hio | unlinkInputFails hf hio =>
    rw [hf, hio] at hkept ⊢
    exact hkept (by simp [FlushSection.placed])
  | buildStage hf hio hst | mergeStage hf hio hst =>
    have hne := ne_rename_of_next hst
    rw [hf, hio] at hkept ⊢
    simp only [FlushSection.after, if_true]
    rw [Disk.others, Disk.sstStage_ssts_of_ne _ _ _ hne, Disk.sstStage_ssts_of_ne _ _ _ hne]
    refine hkept ?_
    unfold FlushSection.placed
    split <;> simp_all
  | manifestStage hf hio | manifestFlush hf hio | manifestCompact hf hio =>
    rw [hf, hio] at hkept ⊢
    simp only [FlushSection.after, if_true]
    rw [Disk.others, Disk.manifestStage_ssts, Disk.manifestStage_ssts]
    exact hkept rfl
  | @buildRename c fl p sst file hf hio | @mergeRename inputs sst file hf hio =>
    rw [hf] at htmp
    rw [hf, hio] at hwas ⊢
    refine hupdate sst.name _ _ (fun _ => htmp (by simp)) (fun hne => hwas.resolve_right ?_)
    rintro ⟨sst', hsst', hname⟩
    obtain rfl := Option.some.inj hsst'
    exact hne hname.symm
  | @unlinkInput sst todo hf hio =>
    rw [hf, hio] at hkept ⊢
    exact hupdate sst.name _ _ (fun _ => rfl) (fun _ => hkept rfl)
  | drained hf | mergedUnbuilt hf | readFails hf | compactDone hf | built hf | merged hf | mergedNone hf | unlinkWal hf
  | unlinkWalFails hf | readOpen hf | read hf | commit hf | install hf =>
    rw [hf] at hkept ⊢
    exact hkept rfl

/-- After a step of the holder of `flush_lock` the other files fit. -/
theorem Node.Fits.flushMove (h : n.Fits x) {io : Io} {r : Node Γ × Out} (hm : FlushMove n io r) :
    r.1.Fits (n.eng.flush.after n.disk x io) where
  ssts _ hr := hm.ssts h.tmp ((hm.reads h.lists hr).imp_left (h.ssts _))
  lists := hm.lists h.lists
  tmp := hm.keepsSame h.tmp

end Flush

end LsmEngine
