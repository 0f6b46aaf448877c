import LsmEngine.Lemmas.Directory
import LsmEngine.Theorems.Upkeep

/-!
# The files follow the machine

One step of the machine and the operations that it makes on the files: the directory shows the disk after it as before.
-/

namespace LsmEngine

open Files Transition SsTableAux

variable {Γ : Ctx} {n : Node Γ} {d d' : Disk} {files files' : Files.Dir FileId UInt8}

/-! ## The file being written -/

/-- The table that is being written comes from a builder that took all its records. -/
def FlushSection.Made (Γ : Ctx) : FlushSection → Prop
  | .building _ _ _ sst file _ | .merging _ sst file _ =>
    ∃ level seq expected rs, Capped rs ∧ Sorted rs ∧ buildSst Γ level seq expected rs = .ok (sst, file)
  | _ => True

/-- Nothing has been written to the temporary file when the write comes. -/
def FlushSection.Clean (d : Disk) (files : Files.Dir FileId UInt8) : FlushSection → Prop
  | .building _ _ _ sst _ st | .merging _ sst _ st => st.Clean (d.sstTmps sst.name) (files (.sstTmp sst.name))
  | .manifest _ _ st => st.Clean d.manifestTmp (files .manifestTmp)
  | _ => True

/-- The content of the table that is being written. -/
def FlushSection.file : FlushSection → Option SstFile
  | .building _ _ _ _ file _ | .merging _ _ file _ => some file
  | _ => none

/-- A table that was built fits its format, when its file is below `2 ^ 64` bytes. -/
theorem fileFits_of_buildSst {level seq expected : Nat} {rs : List Record} {sst : SstMeta} {file : SstFile} (hc : Capped rs)
    (hs : Sorted rs) (h : buildSst Γ level seq expected rs = .ok (sst, file)) (hlen : (SsTableFile.bytes file).length < 2 ^ 64) :
    SsTableFile.FileFits file := by
  obtain ⟨b, hadd, hinv⟩ := builderInv_addAll Γ expected hc hs
  simp only [buildSst, hadd, bind, Except.bind, pure, Except.pure] at h
  cases hbuild : b.build with
  | error err => simp [hbuild] at h
  | ok f =>
    simp only [hbuild, Except.ok.injEq, Prod.mk.injEq] at h
    obtain ⟨-, rfl⟩ := h
    exact SsTableFile.fileFits_of_build hinv hbuild hlen

theorem FlushSection.Made.fits {fl : FlushSection} (h : fl.Made Γ) {file : SstFile} (hf : fl.file = some file)
    (hlen : (SsTableFile.bytes file).length < 2 ^ 64) : SsTableFile.FileFits file := by
  cases fl with
  | building c flushed p sst file' st | merging inputs sst file' st =>
    obtain rfl := Option.some.inj hf
    obtain ⟨level, seq, expected, rs, hc, hs, hb⟩ := h
    exact fileFits_of_buildSst hc hs hb hlen
  | _ => simp [FlushSection.file] at hf

/-- Steps that are about logs leave the temporary files as they are. -/
theorem FlushSection.Clean.congr {fl : FlushSection} (h : fl.Clean d files) (ht : d'.sstTmps = d.sstTmps)
    (hm : d'.manifestTmp = d.manifestTmp) (hf : ∀ id, (∀ w, id ≠ .wal w) → files' id = files id) : fl.Clean d' files' := by
  cases fl with
  | building c flushed p sst file st | merging inputs sst file st =>
    change st.Clean (d'.sstTmps sst.name) (files' (.sstTmp sst.name))
    rw [ht, hf _ (by simp)]
    exact h
  | manifest after m st =>
    change st.Clean d'.manifestTmp (files' .manifestTmp)
    rw [hm, hf _ (by simp)]
    exact h
  | _ => trivial

/-- Only logs are touched. -/
def OnLogs (ops : FileOps) : Prop := ∀ op ∈ ops, ∀ id ∈ op.names, ∃ w, id = .wal w

/-- Operations on logs leave every other file as it is. -/
theorem OnLogs.same {ops : FileOps} (h : OnLogs ops) (files : Files.Dir FileId UInt8) {id : FileId} (hid : ∀ w, id ≠ .wal w) :
    runAll files ops id = files id :=
  runAll_of_ne (fun op hop hmem => (h op hop id hmem).elim hid) files

theorem onLogs_nil : OnLogs [] := fun _ hop => absurd hop List.not_mem_nil

/-- An fsync of the buffer is on its log. -/
theorem onLogs_sync (seq : Nat) (buf : Bytes) : OnLogs (syncOps seq buf) := by
  simp [OnLogs, syncOps, FileOp.names]

/-- An append that fails part way is on its log. -/
theorem onLogs_tear (seq : Nat) (buf frame : Bytes) (written : Nat) : OnLogs (tearOps seq buf frame written) := by
  unfold tearOps
  split
  · exact onLogs_nil
  · simp [OnLogs, FileOp.names]

theorem onLogs_append (seq : Nat) (bs : Bytes) : OnLogs [.append (.wal seq) bs] := by simp [OnLogs, FileOp.names]

/-! ## The wal mutex -/

/-- An append that fails part way touches no temporary file. -/
theorem tear_sstTmps (d : Disk) (seq : Nat) (buf frame : Bytes) (written : Nat) :
    (d.tear seq buf frame written).sstTmps = d.sstTmps ∧ (d.tear seq buf frame written).manifestTmp = d.manifestTmp := by
  unfold Disk.tear
  split
  · exact ⟨rfl, rfl⟩
  · exact ⟨sstTmps_appendWal _ _ _, manifestTmp_appendWal _ _ _⟩

/-- A step that is about logs: the disk and the files after it, the logs, none of which is new unless it is created, and the temporary
files, which are the same. -/
structure LogStep (d d' : Disk) (ops : FileOps) : Prop where
  renders : ∀ {files : Files.Dir FileId UInt8}, Renders d files → Renders d' (runAll files ops)
  logs : OnLogs ops
  keys : ∀ w ∈ d'.wals.keys, w ∈ d.wals.keys ∨ .create (.wal w) ∈ ops
  sstTmps : d'.sstTmps = d.sstTmps
  manifestTmp : d'.manifestTmp = d.manifestTmp

namespace LogStep

theorem refl (d : Disk) : LogStep d d [] := ⟨fun h => h, onLogs_nil, fun _ hw => .inl hw, rfl, rfl⟩

/-- An append to a log. -/
theorem append (d : Disk) (seq : Nat) (bs : Bytes) : LogStep d (d.appendWal seq bs) [.append (.wal seq) bs] :=
  ⟨fun h => h.appendWal seq bs, onLogs_append seq bs, fun _ hw => .inl (by simpa using hw), sstTmps_appendWal _ _ _,
    manifestTmp_appendWal _ _ _⟩

/-- An fsync of a log with what its buffer holds. -/
theorem sync (d : Disk) (seq : Nat) (buf : Bytes) : LogStep d ((d.appendWal seq buf).syncWal seq) (syncOps seq buf) where
  renders h := h.flushBuffer seq buf
  logs := onLogs_sync seq buf
  keys _ hw := .inl (by simpa using hw)
  sstTmps := by rw [sstTmps_syncWal, sstTmps_appendWal]
  manifestTmp := by rw [manifestTmp_syncWal, manifestTmp_appendWal]

/-- An append to a log that fails part way. -/
theorem tear (d : Disk) (seq : Nat) (buf frame : Bytes) (written : Nat) :
    LogStep d (d.tear seq buf frame written) (tearOps seq buf frame written) :=
  ⟨fun h => h.tear seq buf frame written, onLogs_tear _ _ _ _, fun _ hw => .inl (by rwa [tear_keys] at hw),
    (tear_sstTmps _ _ _ _ _).1, (tear_sstTmps _ _ _ _ _).2⟩

/-- The creation of a log. -/
theorem create (d : Disk) (seq : Nat) : LogStep d (d.createWal seq) [.create (.wal seq)] where
  renders h := h.createWal seq
  logs := by simp [OnLogs, FileOp.names]
  keys w hw := by
    obtain ⟨f, hf⟩ := (SortedMap.mem_keys_iff _).1 hw
    rw [Disk.get_createWal] at hf
    split at hf
    · rename_i he
      exact .inr (by simp [he])
    · exact .inl ((SortedMap.mem_keys_iff _).2 ⟨f, hf⟩)
  sstTmps := rfl
  manifestTmp := rfl

/-- The removal of a log. -/
theorem remove (d : Disk) (seq : Nat) : LogStep d (d.removeWal seq) [.remove (.wal seq)] where
  renders h := h.removeWal seq
  logs := by simp [OnLogs, FileOp.names]
  keys w hw := by
    rw [Disk.keys_removeWal] at hw
    exact .inl (List.mem_of_mem_filter hw)
  sstTmps := rfl
  manifestTmp := rfl

end LogStep

/-- What an append of the engine does to the files. -/
theorem WriteMove.logStep {n' : Node Γ} {w : WalEntry} {io : Io} {o : Out} (hm : WriteMove n w io n' o) :
    LogStep n.disk n'.disk (n.writeOps w io) := by
  cases hm with
  | refused hw he =>
    cases io with
    | ok => exact .refl _
    | fail k =>
      simp only [Node.writeOps, he]
      exact .refl _
  | logged hw hv hio =>
    subst hio
    exact .refl _
  | @torn k hw hv hio hk =>
    subst hio
    simp only [Node.writeOps, encodeEntry_of_valid Γ hv, List.nil_append]
    exact .tear _ _ _ _ _

/-- What a step under the wal mutex does to the files. -/
theorem WalMove.logStep {io : Io} {r : Node Γ × Out} (hm : WalMove n io r) : LogStep n.disk r.1.disk (n.walOps io) := by
  cases hm with
  | sync hw ho hio =>
    subst hio
    simp only [Node.walOps, hw, ho, if_true]
    exact .sync _ _ _
  | flushSync hw hio =>
    subst hio
    simp only [Node.walOps, hw]
    exact .sync _ _ _
  | create hw hio =>
    subst hio
    simp only [Node.walOps, hw]
    exact .create _ _
  | @replace c newSeq hw =>
    cases io with
    | ok =>
      simp only [Node.walOps, hw]
      cases c <;> exact .append _ _ _
    | fail k =>
      simp only [Node.walOps, hw]
      cases c <;> exact .refl _
  | apply hw ho =>
    cases io with
    | ok =>
      simp only [Node.walOps, hw, ho, Bool.false_eq_true, if_false]
      exact .refl _
    | fail k =>
      simp only [Node.walOps, hw]
      exact .refl _
  | syncFails hw hio | flushSyncFails hw hio =>
    subst hio
    simp only [Node.walOps, hw]
    exact .refl _
  | @createFails c newSeq k hw hio =>
    subst hio
    simp only [Node.walOps, hw]
    cases c <;> exact .refl _
  | @nothing c hw he =>
    cases io <;> simp only [Node.walOps, hw] <;> cases c <;> exact .refl _
  | applySynced hw | exceeds hw | done hw | takeSeq hw | swap hw =>
    cases io <;> simp only [Node.walOps, hw] <;> exact .refl _

/-! ## `open_with_options` -/

/-- What a step of an open does to the files. -/
theorem OpenMove.logStep {s : Sys Γ} {o : Opening} {io : Io} {x : Sys Γ × Out} (hm : OpenMove s o io x) :
    LogStep s.disk x.1.disk (o.fileOps Γ io) := by
  cases hm with
  | createdEmpty hst hio | created hst hio =>
    subst hio
    simp only [Opening.fileOps, hst]
    exact .create _ _
  | sync hst hio =>
    subst hio
    simp only [Opening.fileOps, hst]
    exact .sync _ _ _
  | torn hst hv hio hk =>
    subst hio
    simp only [Opening.fileOps, hst, encodeEntry_of_valid Γ hv, List.nil_append]
    exact .tear _ _ _ _ _
  | remove hst hio =>
    subst hio
    simp only [Opening.fileOps, hst]
    exact .remove _ _
  | refused hst he =>
    cases io <;> simp only [Opening.fileOps, hst, he] <;> exact .refl _
  | loaded hst hio | createFails hst hio | append hst hv hio | syncFails hst hio | removeFails hst hio | runtimeFails hst hio
  | up hst hio =>
    subst hio
    simp only [Opening.fileOps, hst]
    exact .refl _
  | loadFails hst =>
    cases io <;> simp only [Opening.fileOps, hst] <;> exact .refl _

/-- What a hand-over during an open does to the files. -/
theorem Opening.handover_logStep (s : Sys Γ) (o : Opening) (k : Nat) :
    LogStep s.disk (o.handover s k).disk (o.handoverOps k) := by
  cases hst : o.stage with
  | appending r todo =>
    simp only [Opening.handover, Opening.handoverOps, hst]
    exact .append _ _ _
  | loading | creating | removing =>
    simp only [Opening.handover, Opening.handoverOps, hst]
    exact .refl _

/-! ## `flush_lock` -/

/-- Whatever a step of writing a file leaves, the next one finds what it needs. -/
theorem Stage.clean_next {α : Type} {st st' : Stage} (hst : st.next = some st') (c : α) (tmp : Option (Stored α)) (tmpId final : FileId)
    (bytes : Bytes) : st'.Clean (st.apply c tmp) (runAll files (st.fileOps tmpId final bytes .ok) tmpId) := by
  cases st with
  | create =>
    obtain rfl := Option.some.inj hst
    simp [Stage.Clean, Stage.apply, Stage.fileOps]
  | write | sync =>
    obtain rfl := Option.some.inj hst
    trivial
  | rename => simp [Stage.next] at hst

/-- The table that is being written was built from records. -/
theorem FlushMove.made (h : TablesUp n) (hmade : n.eng.flush.Made Γ) {io : Io} {r : Node Γ × Out} (hm : FlushMove n io r) :
    r.1.eng.flush.Made Γ := by
  cases hm with
  | @built c fl p rest sst file hf hi hb =>
    exact ⟨_, _, _, _, capped_records (h.mems.stored p.mem), sorted_records _, hb⟩
  | @merged inputs runs rs sst file hf hrs hne hb =>
    obtain ⟨rs', hrs', hs, hc⟩ := h.tables.merge_read h.seq.levels.len hf
    obtain rfl := Option.some.inj (hrs.symm.trans hrs')
    exact ⟨_, _, _, _, hc, hs, hb⟩
  | buildStage hf | mergeStage hf =>
    rw [hf] at hmade
    exact hmade
  | @nothing c | @unbuilt c | @buildFails c | @manifestFailsFlush c | @flushDone c => cases c <;> trivial
  | readOpen hf =>
    change n.eng.flush.Made Γ
    rw [hf]
    trivial
  | _ => trivial

/-- The temporary files hold what has been written of them. -/
theorem FlushMove.clean {io : Io} {r : Node Γ × Out} (hm : FlushMove n io r) (henc : ∀ after m st, n.eng.flush = .manifest after m st →
    ∃ bytes, ManifestBytes m bytes) : r.1.eng.flush.Clean r.1.disk (runAll files (n.flushOps io)) := by
  cases hm with
  | @buildStage c fl p sst file st st' hf hio hst =>
    subst hio
    simp only [Node.flushOps, hf, FlushSection.Clean, Disk.sstStage_sstTmps]
    exact Stage.clean_next hst _ _ _ _ _
  | @mergeStage inputs sst file st st' hf hio hst =>
    subst hio
    simp only [Node.flushOps, hf, FlushSection.Clean, Disk.sstStage_sstTmps, if_true, List.append_nil]
    exact Stage.clean_next hst _ _ _ _ _
  | @manifestStage after m st st' hf hio hst =>
    subst hio
    obtain ⟨bytes, henc, -⟩ := henc _ _ _ hf
    simp only [Node.flushOps, hf, henc, FlushSection.Clean, Disk.manifestStage_manifestTmp, if_true, List.append_nil]
    exact Stage.clean_next hst _ _ _ _ _
  | @nothing c | @unbuilt c | @buildFails c | @manifestFailsFlush c | @flushDone c => cases c <;> trivial
  | readOpen hf =>
    simp only [hf]
    trivial
  | _ => trivial

/-- A step of the holder of `flush_lock` does to the files what it does to the disk. -/
theorem FlushMove.renders (h : TablesUp n) (hmade : n.eng.flush.Made Γ) (hclean : n.eng.flush.Clean n.disk files)
    (hren : Renders n.disk files) (hfile : ∀ file, n.eng.flush.file = some file → (SsTableFile.bytes file).length < 2 ^ 64)
    (henc : ∀ after m st, n.eng.flush = .manifest after m st → ∃ bytes, ManifestBytes m bytes)
    {io : Io} {r : Node Γ × Out} (hm : FlushMove n io r) : Renders r.1.disk (runAll files (n.flushOps io)) := by
  have htab := h.tables.flush
  have hman := h.seq.manifest
  cases hm with
  | @buildStage c fl p sst file st st' hf hio hst =>
    subst hio
    simp only [Node.flushOps, hf]
    rw [hf] at htab hclean
    exact hren.sstStage hclean htab.2 (hmade.fits (by rw [hf]; rfl) (hfile _ (by rw [hf]; rfl)))
  | @buildRename c fl p sst file hf hio =>
    subst hio
    simp only [Node.flushOps, hf]
    rw [hf] at htab hclean
    exact hren.sstStage hclean htab.2 (hmade.fits (by rw [hf]; rfl) (hfile _ (by rw [hf]; rfl)))
  | @mergeStage inputs sst file st st' hf hio hst =>
    subst hio
    simp only [Node.flushOps, hf, if_true, List.append_nil]
    rw [hf] at htab hclean
    obtain ⟨-, rs, -, -, hbefore⟩ := htab
    exact hren.sstStage hclean hbefore (hmade.fits (by rw [hf]; rfl) (hfile _ (by rw [hf]; rfl)))
  | @mergeRename inputs sst file hf hio =>
    subst hio
    simp only [Node.flushOps, hf, if_true, List.append_nil]
    rw [hf] at htab hclean
    obtain ⟨-, rs, -, -, hbefore⟩ := htab
    exact hren.sstStage hclean hbefore (hmade.fits (by rw [hf]; rfl) (hfile _ (by rw [hf]; rfl)))
  | manifestStage hf hio | manifestFlush hf hio | manifestCompact hf hio =>
    subst hio
    obtain ⟨bytes, hbytes⟩ := henc _ _ _ hf
    simp only [Node.flushOps, hf, hbytes.1, if_true, List.append_nil]
    rw [hf] at hman hclean
    exact hren.manifestStage hclean hman.2 hbytes
  | @buildFails c fl p sst file st k hf hio =>
    subst hio
    simp only [Node.flushOps, hf]
    rw [hf] at hclean
    cases c <;> exact hren.sstFails hclean _ _
  | mergeFails hf hio =>
    subst hio
    simp only [Node.flushOps, hf, reduceCtorEq, if_false]
    rw [hf] at hclean
    rw [runAll, List.foldl_append]
    exact (hren.sstFails hclean _ _).removeSstTmp _
  | manifestFailsCompact hf hio =>
    subst hio
    obtain ⟨bytes, hbytes⟩ := henc _ _ _ hf
    simp only [Node.flushOps, hf, hbytes.1, reduceCtorEq, if_false]
    rw [hf] at hclean
    rw [runAll, List.foldl_append]
    exact (hren.manifestFails hclean _ _).removeManifestTmp
  | @manifestFailsFlush c ws m st k hf hio =>
    subst hio
    obtain ⟨bytes, hbytes⟩ := henc _ _ _ hf
    simp only [Node.flushOps, hf, hbytes.1, reduceCtorEq, if_false]
    rw [hf] at hclean
    rw [runAll, List.foldl_append]
    cases c <;> exact (hren.manifestFails hclean _ _).removeManifestTmp
  | unlinkWal hf hio =>
    subst hio
    simp only [Node.flushOps, hf, if_true]
    exact hren.removeWal _
  | unlinkInput hf hio =>
    subst hio
    simp only [Node.flushOps, hf, if_true]
    exact hren.removeSst _
  | unlinkWalFails hf hio | unlinkInputFails hf hio =>
    subst hio
    simp only [Node.flushOps, hf, reduceCtorEq, if_false]
    exact hren
  | @nothing c hf | @unbuilt c _ _ _ _ hf | @flushDone c hf =>
    simp only [Node.flushOps, hf]
    cases c <;> exact hren
  | drained hf | built hf | commit hf | mergedNone hf | mergedUnbuilt hf | merged hf | readOpen hf | readFails hf | read hf
  | install hf | compactDone hf =>
    simp only [Node.flushOps, hf]
    exact hren

/-! ## One step -/

/-- The numbers of the files and the lengths of the tables are `u64`s. -/
def Proc.Fits : Proc Γ → Prop
  | .down => True
  | .opening o => ∀ r ∈ o.stage.read, r.walSeq < 2 ^ 64
  | .up e => e.nextSeq ≤ 2 ^ 64 ∧ ∀ file ∈ e.flush.file, (SsTableFile.bytes file).length < 2 ^ 64

instance : (p : Proc Γ) → Decidable p.Fits
  | .down => inferInstanceAs (Decidable True)
  | .opening o => inferInstanceAs (Decidable (∀ r ∈ o.stage.read, r.walSeq < 2 ^ 64))
  | .up e =>
    inferInstanceAs (Decidable (e.nextSeq ≤ 2 ^ 64 ∧ ∀ file ∈ e.flush.file, (SsTableFile.bytes file).length < 2 ^ 64))

/-- What every step keeps of the machine and its directory. -/
structure Mounted.Sound (m : Mounted Γ) : Prop where
  seq : SeqInv m.sys
  tables : m.sys.TablesOk
  renders : Renders m.sys.disk m.files
  keys : ∀ w ∈ m.sys.disk.wals.keys, w < 2 ^ 64
  flush : ∀ e, m.sys.proc = .up e → e.flush.Made Γ ∧ e.flush.Clean m.sys.disk m.files

/-- The MANIFEST that is being written can be encoded. -/
theorem TablesUp.manifestBytes (h : TablesUp n) (hnext : n.eng.nextSeq ≤ 2 ^ 64) {after : AfterManifest} {m : Manifest} {st : Stage}
    (hf : n.eng.flush = .manifest after m st) : ∃ bytes, ManifestBytes m bytes :=
  h.encodes hf (fun x hx => (h.seq.live x hx).trans_le hnext)

/-- A log that is created has a number that was drawn. -/
theorem create_mem_walOps (h : SeqUp n) {io : Io} {w : Nat} (hw : .create (.wal w) ∈ n.walOps io) : w < n.eng.nextSeq := by
  have hwal := h.wal
  unfold Node.walOps at hw
  split at hw
  · split at hw <;> simp [syncOps] at hw
  · simp [syncOps] at hw
  · rename_i hs
    simp only [List.mem_singleton, FileOp.create.injEq, FileId.wal.injEq] at hw
    rw [hs] at hwal
    rw [hw]
    exact hwal.1
  · simp at hw
  · simp at hw

/-- The log that an open creates has the number it has computed. -/
theorem create_mem_openOps {o : Opening} {io : Io} {w : Nat} (hw : .create (.wal w) ∈ o.fileOps Γ io) :
    ∃ r, o.stage.read = some r ∧ r.walSeq = w := by
  unfold Opening.fileOps at hw
  split at hw
  · rename_i r hs
    simp only [List.mem_singleton, FileOp.create.injEq, FileId.wal.injEq] at hw
    exact ⟨r, by rw [hs]; rfl, hw.symm⟩
  · split at hw
    · simp at hw
    · unfold tearOps at hw
      split at hw <;> simp at hw
  · simp [syncOps] at hw
  · simp at hw
  · simp at hw

/-- The steps of a running engine but for those inside `flush_lock` are about logs, or about no file at all. -/
theorem NodeMove.logStep {a : Act} {x : Sys Γ × Out} (hm : NodeMove n a x) (ha : ∀ io, a ≠ .flushStep io) :
    LogStep n.disk x.1.disk (n.fileOps a) := by
  cases hm with
  | write h => exact h.logStep
  | wal h => exact h.logStep
  | @flushStep io _ _ => exact absurd rfl (ha io)
  | getStep h => cases h <;> exact .refl _
  | handover => exact .append _ _ _
  | @drop io =>
    cases io with
    | ok => exact .sync _ _ _
    | fail k => exact .refl _
  | flush | flushEnter | workerEnter | compactNothing | compactEnter | get => exact .refl _

/-- They leave the section of `flush_lock` as it is, or begin one. -/
theorem NodeMove.flush_kept {a : Act} {x : Sys Γ × Out} (hm : NodeMove n a x) (ha : ∀ io, a ≠ .flushStep io) {e : Engine Γ}
    (hp : x.1.proc = .up e) {P : FlushSection → Prop} (hdrain : ∀ c, P (.draining c [])) (hread : ∀ i, P (.reading i i []))
    (h : P n.eng.flush) : P e.flush := by
  cases hm with
  | write hw =>
    obtain rfl := Proc.up.inj hp
    cases hw <;> exact h
  | wal hw =>
    obtain rfl := Proc.up.inj hp
    cases hw with
    | @nothing c | @createFails c | @replace c => cases c <;> exact h
    | _ => exact h
  | @flushStep io _ _ => exact absurd rfl (ha io)
  | getStep hg =>
    obtain rfl := Proc.up.inj hp
    cases hg <;> exact h
  | drop => simp [Node.drop] at hp
  | flushEnter | workerEnter =>
    obtain rfl := Proc.up.inj hp
    exact hdrain _
  | compactEnter =>
    obtain rfl := Proc.up.inj hp
    exact hread _
  | compactNothing hf =>
    obtain rfl := Proc.up.inj hp
    rw [hf] at h
    exact h
  | flush | get | handover =>
    obtain rfl := Proc.up.inj hp
    exact h

/-- Every action on the engine does to the files what it does to the disk. -/
theorem NodeMove.renders (h : TablesUp n) (hnext : n.eng.nextSeq ≤ 2 ^ 64)
    (hfile : ∀ file ∈ n.eng.flush.file, (SsTableFile.bytes file).length < 2 ^ 64) (hren : Renders n.disk files)
    (hkeys : ∀ w ∈ n.disk.wals.keys, w < 2 ^ 64) (hflush : n.eng.flush.Made Γ ∧ n.eng.flush.Clean n.disk files) {a : Act}
    {x : Sys Γ × Out} (hm : NodeMove n a x) :
    Renders x.1.disk (runAll files (n.fileOps a)) ∧ (∀ w ∈ x.1.disk.wals.keys, w < 2 ^ 64) ∧
      ∀ e, x.1.proc = .up e → e.flush.Made Γ ∧ e.flush.Clean x.1.disk (runAll files (n.fileOps a)) := by
  by_cases ha : ∃ io, a = .flushStep io
  · obtain ⟨io, rfl⟩ := ha
    cases hm with
    | @flushStep _ r hm =>
      have henc : ∀ after m st, n.eng.flush = .manifest after m st → ∃ bytes, ManifestBytes m bytes :=
        fun after m st hf => h.manifestBytes hnext hf
      refine ⟨hm.renders h hflush.1 hflush.2 hren hfile henc, fun w hw => ?_, fun e he => ?_⟩
      · obtain ⟨f, hf⟩ := (SortedMap.mem_keys_iff _).1 hw
        exact hkeys w ((SortedMap.mem_keys_iff _).2 ⟨f, hm.sameWrites.wals w f hf⟩)
      · obtain rfl := Proc.up.inj he
        exact ⟨hm.made h hflush.1, hm.clean henc⟩
  · have ha' : ∀ io, a ≠ .flushStep io := fun io he => ha ⟨io, he⟩
    have hl := hm.logStep ha'
    refine ⟨hl.renders hren, fun w hw => ?_, fun e he => ?_⟩
    · rcases hl.keys w hw with hold | hnew
      · exact hkeys w hold
      · cases a with
        | walStep io => exact (create_mem_walOps h.seq hnew).trans_le hnext
        | write w' io =>
          cases io with
          | ok => simp [Node.fileOps, Node.writeOps] at hnew
          | fail k =>
            simp only [Node.fileOps, Node.writeOps] at hnew
            split at hnew
            · simp at hnew
            · unfold tearOps at hnew
              split at hnew <;> simp at hnew
        | drop io => cases io <;> simp [Node.fileOps, syncOps] at hnew
        | flushStep io => exact absurd rfl (ha' io)
        | _ => simp [Node.fileOps] at hnew
    · refine hm.flush_kept ha' he (P := fun fl => fl.Made Γ ∧ fl.Clean x.1.disk _) (fun _ => ⟨trivial, trivial⟩)
        (fun _ => ⟨trivial, trivial⟩) ⟨hflush.1, hflush.2.congr hl.sstTmps hl.manifestTmp (fun id hid => hl.logs.same files hid)⟩

/-- What an action does to the directory, on the files of the engine. -/
theorem Mounted.files_effect {a : Act} (ha : ∀ κ, a ≠ .crash κ) (m : Mounted Γ) (t : Sys Γ) :
    Mounted.files ⟨t, m.effect a⟩ = runAll m.files (m.sys.fileOps a) := by
  have heffect : m.effect a = runAll m.dir ((m.sys.fileOps a).map (FileOp.map FileId.name)) := by
    cases a with
    | crash κ => exact absurd rfl (ha κ)
    | _ => rfl
  unfold Mounted.files
  rw [heffect]
  exact runAll_map FileId.name_injective _ _

/-- The machine and its directory when the process ends without a drop. -/
def Mounted.crashed (m : Mounted Γ) (κ : CrashKind) : Mounted Γ := ⟨m.sys.crashed κ, m.dir.crash κ⟩

/-- A crash leaves the files those of the disk. -/
theorem Mounted.Sound.crashed {m : Mounted Γ} (h : m.Sound) (κ : CrashKind) : (m.crashed κ).Sound where
  seq := seqInv_step h.seq (step_crash m.sys κ)
  tables := step_tablesOk h.seq h.tables (step_crash m.sys κ)
  renders := by
    cases κ with
    | kill =>
      change Renders (m.sys.disk.crash .kill) m.files
      rw [Disk.crash_kill]
      exact h.renders
    | powerLoss => exact h.renders.powerLoss
  keys w hw := h.keys w (by simpa [Mounted.crashed, Sys.crashed] using hw)
  flush e he := by simp [Mounted.crashed, Sys.crashed] at he

/-- A step that does to the files what it does to the disk keeps them those of the disk. -/
theorem Mounted.Sound.of_ops {m : Mounted Γ} {a : Act} (ha : ∀ κ, a ≠ .crash κ) {t : Sys Γ} (hseq : SeqInv t) (htab : t.TablesOk)
    (hren : Renders t.disk (runAll m.files (m.sys.fileOps a))) (hkeys : ∀ w ∈ t.disk.wals.keys, w < 2 ^ 64)
    (hflush : ∀ e, t.proc = .up e → e.flush.Made Γ ∧ e.flush.Clean t.disk (runAll m.files (m.sys.fileOps a))) :
    Mounted.Sound ⟨t, m.effect a⟩ where
  seq := hseq
  tables := htab
  renders := by rwa [Mounted.files_effect ha]
  keys := hkeys
  flush := by rwa [Mounted.files_effect ha]

/-- A step of an open, which is about logs. -/
theorem Mounted.Sound.of_logStep {m : Mounted Γ} (h : m.Sound) {a : Act} (ha : ∀ κ, a ≠ .crash κ) {t : Sys Γ} (hseq : SeqInv t)
    (htab : t.TablesOk) (hl : LogStep m.sys.disk t.disk (m.sys.fileOps a))
    (hnew : ∀ w, .create (.wal w) ∈ m.sys.fileOps a → w < 2 ^ 64) (hup : ∀ e, t.proc = .up e → e.flush = .free) :
    Mounted.Sound ⟨t, m.effect a⟩ := by
  refine .of_ops ha hseq htab (hl.renders h.renders) (fun w hw => ?_) (fun e he => ?_)
  · rcases hl.keys w hw with hold | hcreated
    · exact h.keys w hold
    · exact hnew w hcreated
  · rw [hup e he]
    exact ⟨trivial, trivial⟩

/-- Every step keeps the directory as the disk has it. -/
theorem Mounted.Sound.step {m m' : Mounted Γ} {a : Act} {o : Out} (h : m.Sound) (hfits : m.sys.proc.Fits)
    (hs : Mounted.step Γ m a = some (m', o)) : m'.Sound := by
  obtain ⟨⟨t, o'⟩, hstep, hr⟩ := Option.map_eq_some_iff.1 hs
  obtain ⟨rfl, rfl⟩ := Prod.mk.inj hr
  have hseq := seqInv_step h.seq hstep
  have htab := step_tablesOk h.seq h.tables hstep
  cases step_cases hstep with
  | @crash κ => exact h.crashed κ
  | openDir hp =>
    have hops : ∀ options, m.sys.fileOps (.openDir options) = [] := fun options => by simp only [Sys.fileOps, hp]
    refine h.of_logStep (by simp) hseq htab ?_ (fun w hw => ?_) (fun e he => by simp at he)
    · rw [hops]
      exact .refl _
    · simp [hops] at hw
  | @openStep io op _ hp hm =>
    have hops : m.sys.fileOps (.openStep io) = op.fileOps Γ io := by simp only [Sys.fileOps, hp]
    refine h.of_logStep (by simp) hseq htab (by rw [hops]; exact hm.logStep) (fun w hw => ?_) (fun e he => ?_)
    · rw [hops] at hw
      obtain ⟨r, hr, rfl⟩ := create_mem_openOps hw
      rw [hp] at hfits
      exact hfits r hr
    · cases hm with
      | up =>
        obtain rfl := Proc.up.inj he
        rfl
      | _ => simp at he
  | @openHandover k op hp =>
    have hops : m.sys.fileOps (.handover k) = op.handoverOps k := by simp only [Sys.fileOps, hp]
    refine h.of_logStep (by simp) hseq htab (by rw [hops]; exact op.handover_logStep m.sys k) (fun w hw => ?_) (fun e he => ?_)
    · rw [hops] at hw
      unfold Opening.handoverOps at hw
      split at hw <;> simp at hw
    · unfold Opening.handover at he
      split at he <;> simp [hp] at he
  | @node _ e _ hp hm =>
    have hops : m.sys.fileOps a = (Node.mk m.sys.disk m.sys.hist e).fileOps a := by
      simp only [Sys.fileOps, hp]
    have htabs := h.tables
    rw [Sys.TablesOk, hp] at htabs
    rw [hp] at hfits
    have ha : ∀ κ, a ≠ .crash κ := by
      rintro κ rfl
      cases hm
    obtain ⟨h1, h2, h3⟩ := hm.renders htabs hfits.1 hfits.2 h.renders h.keys (h.flush e hp)
    rw [← hops] at h1 h3
    exact .of_ops ha hseq htab h1 h2 h3

/-! ## Files of others -/

/-- A step leaves every file alone that is none of the engine's; a power loss may cut it. -/
theorem Mounted.step_others {m m' : Mounted Γ} {a : Act} {o : Out} (hs : Mounted.step Γ m a = some (m', o)) {name : String}
    (hn : ∀ id : FileId, id.name ≠ name) : m'.dir name = m.dir name ∨ m'.dir name = (m.dir name).map File.powerLoss := by
  obtain ⟨r, -, hr⟩ := Option.map_eq_some_iff.1 hs
  obtain ⟨rfl, rfl⟩ := Prod.mk.inj hr
  cases a with
  | crash κ =>
    cases κ with
    | kill => exact .inl rfl
    | powerLoss => exact .inr rfl
  | _ => exact .inl (runAll_map_of_not_range hn _ _)

/-- A directory that holds just logs starts with the files of the disk. -/
theorem Mounted.Sound.of_logs {logs : SortedMap Nat WalFile} {dir : Dir}
    (h : Renders (Sys.ofLogs Γ logs).disk (fun id => dir id.name)) (hlogs : ∀ w ∈ logs.keys, w < 2 ^ 64) :
    Mounted.Sound ⟨Sys.ofLogs Γ logs, dir⟩ :=
  ⟨seqInv_ofLogs logs, fun m hm => absurd hm List.not_mem_nil, h, hlogs, fun e he => by simp [Sys.ofLogs] at he⟩

/-- The runs in which the numbers and lengths stay `u64`s. -/
def Mounted.InBounds (m : Mounted Γ) (_ : Act) : Prop := m.sys.proc.Fits

instance (m : Mounted Γ) (a : Act) : Decidable (m.InBounds a) := inferInstanceAs (Decidable m.sys.proc.Fits)

/-- In every run in bounds the files stay those of the disk. -/
theorem Mounted.Sound.steps {m m' : Mounted Γ} (h : m.Sound) (hrun : Steps (Mounted.step Γ) Mounted.InBounds m m') : m'.Sound :=
  hrun.invariant h (fun hm hfits hs => hm.step hfits hs)

/-- A run leaves the files of others where they are, and as they are when they are fsynced. -/
theorem Mounted.steps_others {ok : Mounted Γ → Act → Prop} {m m' : Mounted Γ} (hrun : Steps (Mounted.step Γ) ok m m') {name : String}
    (hn : ∀ id : FileId, id.name ≠ name) : (m'.dir name = none ↔ m.dir name = none) ∧
      ((∀ f, m.dir name = some f → f.Settled) → m'.dir name = m.dir name) := by
  refine hrun.invariant (P := fun u => (u.dir name = none ↔ m.dir name = none) ∧
    ((∀ f, m.dir name = some f → f.Settled) → u.dir name = m.dir name)) ⟨Iff.rfl, fun _ => rfl⟩ ?_
  intro t u a o ht _ hs
  rcases Mounted.step_others hs hn with hsame | hcut
  · rwa [hsame]
  · rw [hcut, Option.map_eq_none_iff]
    refine ⟨ht.1, fun hset => ?_⟩
    rw [ht.2 hset]
    cases hd : m.dir name with
    | none => rfl
    | some f => exact congrArg some (hset f hd).powerLoss

/-- A crash takes no file away. -/
theorem Dir.crash_eq_none {dir : Dir} {κ : CrashKind} {name : String} : dir.crash κ name = none ↔ dir name = none := by
  cases κ with
  | kill => rfl
  | powerLoss => exact Option.map_eq_none_iff

/-- Finitely many files stay finitely many. -/
theorem Mounted.steps_finite {ok : Mounted Γ → Act → Prop} {m m' : Mounted Γ} (hrun : Steps (Mounted.step Γ) ok m m')
    (h : {name | m.dir name ≠ none}.Finite) : {name | m'.dir name ≠ none}.Finite := by
  refine hrun.invariant (P := fun u => {name | u.dir name ≠ none}.Finite) h ?_
  intro t u a o ht _ hs
  obtain ⟨r, -, hr⟩ := Option.map_eq_some_iff.1 hs
  obtain ⟨rfl, rfl⟩ := Prod.mk.inj hr
  cases a with
  | crash κ => exact ht.subset (fun name hname => fun hnone => hname (Dir.crash_eq_none.2 hnone))
  | _ => exact runAll_finite ht _

end LsmEngine
