import LsmEngine.Lemmas.Names
import LsmEngine.Lemmas.Upkeep

/-!
# The directory shows the disk

What it means for the files of a directory to be those that a `Disk` keeps, and that the operations of a step on the two keep it so:
one lemma for each operation on a `Disk`, about the files with the operations that `fileOps` gives for it.
-/

namespace LsmEngine

open Files

/-- The bytes of a file hold what is known of its content: all of them what the operating system has, the first ones what is fsynced. -/
structure Stored.Holds {α : Type} (enc : α → Bytes → Prop) (f : Stored α) (file : File UInt8) : Prop where
  cur : ∀ c, f.cur = some c → enc c file.bytes
  dur : ∀ c, f.dur = some c → enc c (file.bytes.take file.synced)

def TableBytes (f : SstFile) (bytes : Bytes) : Prop := SsTableFile.FileFits f ∧ bytes = SsTableFile.bytes f

def ManifestBytes (m : Manifest) (bytes : Bytes) : Prop :=
  ManifestFile.encode m.toFile = some bytes ∧ ManifestFile.decode bytes = .ok m.toFile

def WalFile.toFile (f : WalFile) : File UInt8 := ⟨f.bytes, f.synced⟩

/-- What the file `id` is when the directory is as `d` has it. -/
def Disk.Shows (d : Disk) : FileId → Option (File UInt8) → Prop
  | .wal seq, f => f = (d.wals.get seq).map WalFile.toFile
  | .sst name, f => Option.Rel (Stored.Holds TableBytes) (d.ssts name) f
  | .sstTmp name, f => Option.Rel (Stored.Holds TableBytes) (d.sstTmps name) f
  | .manifest, f => Option.Rel (Stored.Holds ManifestBytes) d.manifest f
  | .manifestTmp, f => Option.Rel (Stored.Holds ManifestBytes) d.manifestTmp f

/-- The files of the engine are as `d` has them. -/
def Renders (d : Disk) (files : Files.Dir FileId UInt8) : Prop := ∀ id, d.Shows id (files id)

variable {d d' : Disk} {files files' : Files.Dir FileId UInt8}

/-- The files that do not change, and those that do. -/
theorem Renders.change (h : Renders d files) (ids : List FileId) (hd : ∀ id ∉ ids, ∀ f, d.Shows id f → d'.Shows id f)
    (hf : ∀ id ∉ ids, files' id = files id) (hnew : ∀ id ∈ ids, d'.Shows id (files' id)) : Renders d' files' := by
  intro id
  by_cases hid : id ∈ ids
  · exact hnew id hid
  · rw [hf id hid]
    exact hd id hid _ (h id)

/-! ## Logs -/

/-- A change of one log shows in that log's file only. -/
theorem Disk.Shows.setWals {seq : Nat} (hs : d'.ssts = d.ssts) (ht : d'.sstTmps = d.sstTmps) (hm : d'.manifest = d.manifest)
    (hmt : d'.manifestTmp = d.manifestTmp) (hw : ∀ w, seq ≠ w → d'.wals.get w = d.wals.get w) :
    ∀ id ∉ [FileId.wal seq], ∀ f, d.Shows id f → d'.Shows id f := by
  intro id hid f h
  cases id with
  | wal w =>
    have hne : seq ≠ w := fun he => hid (by rw [he]; exact List.mem_singleton_self _)
    rwa [Disk.Shows, hw w hne]
  | sst name => rwa [Disk.Shows, hs]
  | sstTmp name => rwa [Disk.Shows, ht]
  | manifest => rwa [Disk.Shows, hm]
  | manifestTmp => rwa [Disk.Shows, hmt]

/-- Creating a log creates its file. -/
theorem Renders.createWal (h : Renders d files) (seq : Nat) :
    Renders (d.createWal seq) ((FileOp.create (.wal seq)).run files) := by
  refine h.change [.wal seq] (Disk.Shows.setWals rfl rfl rfl rfl (fun w hw => by rw [Disk.get_createWal, if_neg hw]))
    (fun id hid => run_create_of_ne _ (by simpa using hid)) ?_
  simp only [List.mem_singleton, forall_eq, Disk.Shows, Disk.get_createWal, if_true, run_create]
  rfl

/-- An append to a log appends to its file. -/
theorem Renders.appendWal (h : Renders d files) (seq : Nat) (bs : Bytes) :
    Renders (d.appendWal seq bs) ((FileOp.append (.wal seq) bs).run files) := by
  refine h.change [.wal seq] (Disk.Shows.setWals (by simp) (sstTmps_appendWal _ _ _) (by simp) (manifestTmp_appendWal _ _ _)
    (fun w hw => by rw [Disk.get_appendWal, if_neg hw])) (fun id hid => run_append_of_ne _ (by simpa using hid) _) ?_
  have hwal : files (.wal seq) = (d.wals.get seq).map WalFile.toFile := h (.wal seq)
  simp only [List.mem_singleton, forall_eq, Disk.Shows, Disk.get_appendWal, if_true, run_append, hwal, Option.map_map]
  rfl

/-- An fsync of a log fsyncs its file. -/
theorem Renders.syncWal (h : Renders d files) (seq : Nat) : Renders (d.syncWal seq) ((FileOp.sync (.wal seq)).run files) := by
  refine h.change [.wal seq] (Disk.Shows.setWals (by simp) (sstTmps_syncWal _ _) (by simp) (manifestTmp_syncWal _ _)
    (fun w hw => by rw [Disk.get_syncWal, if_neg hw])) (fun id hid => run_sync_of_ne _ (by simpa using hid)) ?_
  have hwal : files (.wal seq) = (d.wals.get seq).map WalFile.toFile := h (.wal seq)
  simp only [List.mem_singleton, forall_eq, Disk.Shows, Disk.get_syncWal, if_true, run_sync, hwal, Option.map_map]
  rfl

/-- Removing a log removes its file. -/
theorem Renders.removeWal (h : Renders d files) (seq : Nat) :
    Renders (d.removeWal seq) ((FileOp.remove (.wal seq)).run files) := by
  refine h.change [.wal seq] (Disk.Shows.setWals rfl rfl rfl rfl (fun w hw => by rw [Disk.get_removeWal, if_neg hw]))
    (fun id hid => run_remove_of_ne _ (by simpa using hid)) ?_
  simp only [List.mem_singleton, forall_eq, Disk.Shows, Disk.get_removeWal, if_true, run_remove]
  rfl

/-- Handing the buffer over and fsyncing appends and fsyncs. -/
theorem Renders.flushBuffer (h : Renders d files) (seq : Nat) (buf : Bytes) :
    Renders ((d.appendWal seq buf).syncWal seq) (runAll files (syncOps seq buf)) :=
  (h.appendWal seq buf).syncWal seq

/-- An append that fails part way appends the part. -/
theorem Renders.tear (h : Renders d files) (seq : Nat) (buf frame : Bytes) (written : Nat) :
    Renders (d.tear seq buf frame written) (runAll files (tearOps seq buf frame written)) := by
  unfold Disk.tear tearOps
  split
  · exact h
  · exact h.appendWal _ _

/-! ## Tables and the MANIFEST -/

variable {α : Type} {enc : α → Bytes → Prop}

/-- Nothing has been written to a temporary file when the write comes. -/
def Stage.Clean (tmp : Option (Stored α)) (file : Option (File UInt8)) : Stage → Prop
  | .write => tmp = some ⟨none, none⟩ ∧ file = some ⟨[], 0⟩
  | _ => True

/-- A temporary file after a step of writing it. -/
theorem Stage.holds_apply {st : Stage} (hst : st ≠ .rename) {c : α} {bytes : Bytes} (henc : enc c bytes) {tmp : Option (Stored α)}
    {tmpId : FileId} (final : FileId) (hclean : st.Clean tmp (files tmpId))
    (h : Option.Rel (Stored.Holds enc) tmp (files tmpId)) :
    Option.Rel (Stored.Holds enc) (st.apply c tmp) (runAll files (st.fileOps tmpId final bytes .ok) tmpId) := by
  cases st with
  | rename => exact absurd rfl hst
  | create =>
    simp only [Stage.fileOps, runAll_cons, runAll_nil, run_create, Stage.apply]
    exact .some ⟨fun c hc => by simp at hc, fun c hc => by simp at hc⟩
  | write =>
    obtain ⟨htmp, hfile⟩ := hclean
    simp only [Stage.fileOps, runAll_cons, runAll_nil, run_append, Stage.apply, htmp, hfile, Option.map_some, List.nil_append]
    refine .some ⟨fun c' hc => ?_, fun c hc => by simp at hc⟩
    rwa [← Option.some.inj hc]
  | sync =>
    simp only [Stage.fileOps, runAll_cons, runAll_nil, run_sync, Stage.apply]
    generalize files tmpId = file at h
    cases h with
    | none => exact .none
    | some hh =>
      refine .some ⟨hh.cur, fun c hc => ?_⟩
      rw [List.take_length]
      exact hh.cur c hc

/-- The two names of a file after a step of writing it. -/
theorem Stage.holds_fileOps {st : Stage} {c : α} {bytes : Bytes} (henc : enc c bytes) {tmp final : Option (Stored α)}
    {tmpId finalId : FileId} (hne : tmpId ≠ finalId) (hclean : st.Clean tmp (files tmpId)) (hbefore : st.Before c tmp)
    (htmp : Option.Rel (Stored.Holds enc) tmp (files tmpId)) (hfinal : Option.Rel (Stored.Holds enc) final (files finalId)) :
    Option.Rel (Stored.Holds enc) (st.apply c tmp) (runAll files (st.fileOps tmpId finalId bytes .ok) tmpId) ∧
      Option.Rel (Stored.Holds enc) (if st = .rename then tmp else final)
        (runAll files (st.fileOps tmpId finalId bytes .ok) finalId) := by
  by_cases hst : st = .rename
  · subst hst
    have hb : tmp = some ⟨some c, some c⟩ := hbefore
    subst hb
    cases hfile : files tmpId with
    | none =>
      rw [hfile] at htmp
      cases htmp
    | some f =>
      rw [hfile] at htmp
      simp only [Stage.fileOps, runAll_cons, runAll_nil, if_true, run_rename_new hfile, run_rename_old hfile hne]
      exact ⟨.none, htmp⟩
  · refine ⟨Stage.holds_apply hst henc finalId hclean htmp, ?_⟩
    rw [if_neg hst, runAll_of_ne]
    · exact hfinal
    · cases st <;> simp_all [Stage.fileOps, FileOp.names, hne.symm]

/-- A step of writing a file touches its two names only. -/
theorem Stage.fileOps_of_ne (st : Stage) {tmp final id : FileId} (h : id ∉ [tmp, final]) (bytes : Bytes) (io : Io)
    (files : Files.Dir FileId UInt8) : runAll files (st.fileOps tmp final bytes io) id = files id := by
  refine runAll_of_ne (fun op hop hmem => h ?_) files
  cases st <;> cases io <;> simp only [Stage.fileOps, List.mem_singleton, List.not_mem_nil] at hop <;> subst hop <;>
    simp only [FileOp.names, List.mem_singleton, List.mem_pair] at hmem <;> simp [hmem]

/-- A step of writing a file that fails. -/
theorem Stage.holds_fails {st : Stage} {tmp : Option (Stored α)} {tmpId : FileId} (hclean : st.Clean tmp (files tmpId))
    (h : Option.Rel (Stored.Holds enc) tmp (files tmpId)) (final : FileId) (bytes : Bytes) (k : Nat) :
    Option.Rel (Stored.Holds enc) tmp (runAll files (st.fileOps tmpId final bytes (.fail k)) tmpId) := by
  cases st with
  | write =>
    obtain ⟨htmp, hfile⟩ := hclean
    simp only [Stage.fileOps, runAll_cons, runAll_nil, run_append, htmp, hfile, Option.map_some]
    exact .some ⟨fun c hc => by simp at hc, fun c hc => by simp at hc⟩
  | create | sync | rename => exact h

/-- A step of writing a file that fails does not touch its final name. -/
theorem Stage.fileOps_fails_of_ne (st : Stage) {tmp id : FileId} (h : id ≠ tmp) (final : FileId) (bytes : Bytes) (k : Nat)
    (files : Files.Dir FileId UInt8) : runAll files (st.fileOps tmp final bytes (.fail k)) id = files id := by
  cases st with
  | write => exact run_append_of_ne _ h _
  | create | sync | rename => rfl

/-- A change of one table shows in its file and its temporary file only. -/
theorem Disk.Shows.setTable {name : SstName} (hw : d'.wals = d.wals) (hm : d'.manifest = d.manifest)
    (hmt : d'.manifestTmp = d.manifestTmp) (hs : ∀ n, n ≠ name → d'.ssts n = d.ssts n)
    (ht : ∀ n, n ≠ name → d'.sstTmps n = d.sstTmps n) :
    ∀ id ∉ [FileId.sstTmp name, FileId.sst name], ∀ f, d.Shows id f → d'.Shows id f := by
  intro id hid f h
  cases id with
  | wal w => rwa [Disk.Shows, hw]
  | sst n => rwa [Disk.Shows, hs n (fun he => hid (by simp [he]))]
  | sstTmp n => rwa [Disk.Shows, ht n (fun he => hid (by simp [he]))]
  | manifest => rwa [Disk.Shows, hm]
  | manifestTmp => rwa [Disk.Shows, hmt]

/-- A change of the MANIFEST shows in its file and its temporary file only. -/
theorem Disk.Shows.setManifest (hw : d'.wals = d.wals) (hs : d'.ssts = d.ssts) (ht : d'.sstTmps = d.sstTmps) :
    ∀ id ∉ [FileId.manifestTmp, FileId.manifest], ∀ f, d.Shows id f → d'.Shows id f := by
  intro id hid f h
  cases id with
  | wal w => rwa [Disk.Shows, hw]
  | sst n => rwa [Disk.Shows, hs]
  | sstTmp n => rwa [Disk.Shows, ht]
  | manifest | manifestTmp => simp at hid

/-- A stage of the writing of a table does to the files what it does to the disk. -/
theorem Renders.sstStage (h : Renders d files) {name : SstName} {file : SstFile} {st : Stage}
    (hclean : st.Clean (d.sstTmps name) (files (.sstTmp name))) (hbefore : st.Before file (d.sstTmps name))
    (hfits : SsTableFile.FileFits file) :
    Renders (d.sstStage name file st) (runAll files (st.fileOps (.sstTmp name) (.sst name) (SsTableFile.bytes file) .ok)) := by
  have henc : TableBytes file (SsTableFile.bytes file) := ⟨hfits, rfl⟩
  obtain ⟨htmp, hfinal⟩ := Stage.holds_fileOps henc (show FileId.sstTmp name ≠ .sst name by simp) hclean hbefore
    (h (.sstTmp name)) (h (.sst name))
  refine h.change [.sstTmp name, .sst name] (Disk.Shows.setTable (by simp) (by simp) ?_ ?_ ?_)
    (fun id hid => st.fileOps_of_ne hid _ _ _) ?_
  · unfold Disk.sstStage
    split <;> rfl
  · intro n hn
    unfold Disk.sstStage
    split
    · exact Function.update_of_ne hn _ _
    · rfl
  · intro n hn
    unfold Disk.sstStage
    split <;> exact Function.update_of_ne hn _ _
  · simp only [List.mem_cons, List.not_mem_nil, or_false, forall_eq_or_imp, forall_eq, Disk.Shows, Disk.sstStage_sstTmps]
    refine ⟨htmp, ?_⟩
    unfold Disk.sstStage
    by_cases hst : st = .rename
    · rw [if_pos hst] at hfinal ⊢
      simpa only [Function.update_self] using hfinal
    · rw [if_neg hst] at hfinal ⊢
      exact hfinal

theorem Renders.manifestStage (h : Renders d files) {m : Manifest} {bytes : Bytes} {st : Stage}
    (hclean : st.Clean d.manifestTmp (files .manifestTmp)) (hbefore : st.Before m d.manifestTmp) (henc : ManifestBytes m bytes) :
    Renders (d.manifestStage m st) (runAll files (st.fileOps .manifestTmp .manifest bytes .ok)) := by
  obtain ⟨htmp, hfinal⟩ := Stage.holds_fileOps henc (show FileId.manifestTmp ≠ .manifest by simp) hclean hbefore
    (h .manifestTmp) (h .manifest)
  refine h.change [.manifestTmp, .manifest] (Disk.Shows.setManifest (by simp) (by simp) ?_)
    (fun id hid => st.fileOps_of_ne hid _ _ _) ?_
  · exact manifestStage_sstTmps _ _ _
  · simp only [List.mem_cons, List.not_mem_nil, or_false, forall_eq_or_imp, forall_eq, Disk.Shows, Disk.manifestStage_manifestTmp]
    refine ⟨htmp, ?_⟩
    unfold Disk.manifestStage
    by_cases hst : st = .rename
    · rw [if_pos hst] at hfinal ⊢
      exact hfinal
    · rw [if_neg hst] at hfinal ⊢
      exact hfinal

/-- A stage that fails leaves at most part of the temporary file of the table, which the disk does not show. -/
theorem Renders.sstFails (h : Renders d files) {name : SstName} {st : Stage}
    (hclean : st.Clean (d.sstTmps name) (files (.sstTmp name))) (bytes : Bytes) (k : Nat) :
    Renders d (runAll files (st.fileOps (.sstTmp name) (.sst name) bytes (.fail k))) := by
  refine h.change [.sstTmp name] (fun _ _ _ hs => hs) (fun id hid => st.fileOps_fails_of_ne (by simpa using hid) _ _ _ _) ?_
  simp only [List.mem_singleton, forall_eq]
  exact Stage.holds_fails hclean (h (.sstTmp name)) _ _ _

theorem Renders.manifestFails (h : Renders d files) {st : Stage} (hclean : st.Clean d.manifestTmp (files .manifestTmp)) (bytes : Bytes)
    (k : Nat) : Renders d (runAll files (st.fileOps .manifestTmp .manifest bytes (.fail k))) := by
  refine h.change [.manifestTmp] (fun _ _ _ hs => hs) (fun id hid => st.fileOps_fails_of_ne (by simpa using hid) _ _ _ _) ?_
  simp only [List.mem_singleton, forall_eq]
  exact Stage.holds_fails hclean (h .manifestTmp) _ _ _

/-- Removing a table removes its file. -/
theorem Renders.removeSst (h : Renders d files) (name : SstName) :
    Renders (d.removeSst name) ((FileOp.remove (.sst name)).run files) := by
  refine h.change [.sst name] ?_ (fun id hid => run_remove_of_ne _ (by simpa using hid)) ?_
  · intro id hid f hs
    cases id with
    | sst n =>
      have hne : n ≠ name := fun he => hid (by rw [he]; exact List.mem_singleton_self _)
      simpa only [Disk.Shows, Disk.removeSst, Function.update_of_ne hne] using hs
    | wal | sstTmp | manifest | manifestTmp => exact hs
  · simp only [List.mem_singleton, forall_eq, Disk.Shows, Disk.removeSst, Function.update_self, run_remove]
    exact .none

/-- Removing the temporary file of a table removes it. -/
theorem Renders.removeSstTmp (h : Renders d files) (name : SstName) :
    Renders (d.removeSstTmp name) ((FileOp.remove (.sstTmp name)).run files) := by
  refine h.change [.sstTmp name] ?_ (fun id hid => run_remove_of_ne _ (by simpa using hid)) ?_
  · intro id hid f hs
    cases id with
    | sstTmp n =>
      have hne : n ≠ name := fun he => hid (by rw [he]; exact List.mem_singleton_self _)
      simpa only [Disk.Shows, Disk.removeSstTmp, Function.update_of_ne hne] using hs
    | wal | sst | manifest | manifestTmp => exact hs
  · simp only [List.mem_singleton, forall_eq, Disk.Shows, Disk.removeSstTmp, Function.update_self, run_remove]
    exact .none

/-- Removing the temporary file of the MANIFEST removes it. -/
theorem Renders.removeManifestTmp (h : Renders d files) :
    Renders d.removeManifestTmp ((FileOp.remove .manifestTmp).run files) := by
  refine h.change [.manifestTmp] ?_ (fun id hid => run_remove_of_ne _ (by simpa using hid)) ?_
  · intro id hid f hs
    cases id with
    | manifestTmp => simp at hid
    | wal | sst | sstTmp | manifest => exact hs
  · simp only [List.mem_singleton, forall_eq, Disk.Shows, Disk.removeManifestTmp, run_remove]
    exact .none

/-! ## A crash -/

/-- A power loss leaves of a file what it leaves of the content it holds. -/
theorem Stored.Holds.crash {f : Stored α} {file : File UInt8} (h : f.Holds enc file) : (f.crash .powerLoss).Holds enc file.powerLoss where
  cur := h.dur
  dur := by
    intro c hc
    unfold File.powerLoss
    dsimp only
    rw [List.take_length]
    exact h.dur c hc

theorem holds_crash {f : Option (Stored α)} {file : Option (File UInt8)} (h : Option.Rel (Stored.Holds enc) f file) :
    Option.Rel (Stored.Holds enc) (f.map (Stored.crash .powerLoss)) (file.map File.powerLoss) := by
  cases h with
  | none => exact .none
  | some h => exact .some h.crash

/-- A power loss leaves of the files what it leaves of the disk. -/
theorem Renders.powerLoss (h : Renders d files) :
    Renders (d.crash .powerLoss) (fun id => (files id).map File.powerLoss) := by
  intro id
  cases id with
  | wal seq =>
    have hwal : files (.wal seq) = (d.wals.get seq).map WalFile.toFile := h (.wal seq)
    simp only [Disk.Shows, Disk.get_crash, hwal, Option.map_map]
    rfl
  | sst name => exact holds_crash (h (.sst name))
  | sstTmp name => exact holds_crash (h (.sstTmp name))
  | manifest => exact holds_crash (h .manifest)
  | manifestTmp => exact holds_crash (h .manifestTmp)

end LsmEngine
