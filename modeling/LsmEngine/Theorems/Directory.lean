import LsmEngine.Lemmas.Loaded
import LsmEngine.Theorems.Durability

/-!
# The bytes of the directory

The files that the operating system keeps are those of the machine's disk, in every run and whatever fails in it; an open reads of their
bytes what `recover` reads of the disk; and what a crash leaves of the bytes answers for the writes that were acknowledged.
-/

namespace LsmEngine

open Files Transition

variable {Γ : Ctx}

/-- No run makes a file of others a log. -/
theorem Mounted.steps_apart {ok : Mounted Γ → Act → Prop} {m m' : Mounted Γ} (hrun : Steps (Mounted.step Γ) ok m m')
    (h : m.dir.Apart) : m'.dir.Apart :=
  fun name hn hne => h name hn (fun hnone => hne ((Mounted.steps_others hrun hn).1.2 hnone))

theorem Dir.Apart.crash {dir : Dir} (h : dir.Apart) (κ : CrashKind) : (dir.crash κ).Apart :=
  fun name hn hne => h name hn (fun hnone => hne (Dir.crash_eq_none.2 hnone))

/-- A crash leaves a directory with finitely many files. -/
theorem Dir.crash_finite {dir : Dir} (h : {name | dir name ≠ none}.Finite) (κ : CrashKind) :
    {name | dir.crash κ name ≠ none}.Finite :=
  h.subset (fun _ hname hnone => hname (Dir.crash_eq_none.2 hnone))

/-- A step of the machine with its directory is one of the machine. -/
theorem Mounted.step_sys {m t : Mounted Γ} {a : Act} {o : Out} (hs : Mounted.step Γ m a = some (t, o)) :
    LsmEngine.step Γ m.sys a = some (t.sys, o) := by
  obtain ⟨r, hr, hx⟩ := Option.map_eq_some_iff.1 hs
  obtain ⟨rfl, rfl⟩ := Prod.mk.inj hx
  exact hr

/-- A run of the machine with its directory is a run of the machine. -/
theorem Mounted.steps {ok : Mounted Γ → Act → Prop} {ok' : Sys Γ → Act → Prop} {m m' : Mounted Γ}
    (hrun : Steps (Mounted.step Γ) ok m m') (hok : ∀ m a, ok m a → ok' m.sys a) : Steps (LsmEngine.step Γ) ok' m.sys m'.sys := by
  induction hrun with
  | refl => exact .refl
  | tail _ ha hs ih => exact ih.tail (hok _ _ ha) (Mounted.step_sys hs)

/-- What is read of the files is what is read of the disk. -/
theorem Mounted.Sound.recovers {m : Mounted Γ} (h : m.Sound) (hapart : m.dir.Apart) {names : List String} (hn : m.dir.Lists names) :
    m.dir.recover Γ names = (recover Γ m.sys.disk).map Recovered.loaded ∧
      ∀ r, recover Γ m.sys.disk = .ok r → ∀ key, r.loaded.get Γ m.dir key = .ok (r.map Γ m.sys.disk key) := by
  have htab := h.tables.hasTables
  refine ⟨h.renders.recover h.seq.settled h.seq.listed htab hapart h.keys hn, fun r hr key => h.renders.get (fun x hx => ?_) key⟩
  rw [(recover_names hr).1] at hx
  exact htab x hx

/-- A directory without files of the engine shows the empty disk. -/
theorem renders_empty {dir : Dir} (h : ∀ id : FileId, dir id.name = none) : Renders Disk.empty (fun id => dir id.name) := by
  intro id
  dsimp only
  rw [h id]
  cases id with
  | wal => rfl
  | sst | sstTmp | manifest | manifestTmp => exact .none

/-- A directory with one file in it, which is of somebody else. -/
def guestDir : Dir := fun name => if name = "notes.txt" then some ⟨[1, 2], 2⟩ else none

/-- No file of the engine has the name of the guest. -/
theorem name_ne_guest (id : FileId) : id.name ≠ "notes.txt" := by
  intro h
  have hends : id.kind = ends "notes.txt" := by rw [← h, ends_name]
  have hguest : ends "notes.txt" = (some 'n', some 't') := by decide
  rw [hguest] at hends
  cases id <;> simp [FileId.kind] at hends

theorem guestDir_name (id : FileId) : guestDir id.name = none := if_neg (name_ne_guest id)

/-- The guest is not taken for a log. -/
theorem guestDir_apart : guestDir.Apart := by
  intro name _ hne
  have hname : name = "notes.txt" := by
    by_contra hother
    exact hne (if_neg hother)
  rw [hname]
  decide

/-- The directory has one file. -/
theorem guestDir_finite : {name | guestDir name ≠ none}.Finite := by
  refine (Set.finite_singleton "notes.txt").subset (fun name hname => ?_)
  by_contra hother
  exact hname (if_neg hother)

/-! ## Every run -/

/-- In every run from a directory with any logs and any files of others, whatever fails and however often the process ends, the files
of the engine are those of the disk after every step; and a file of others that is fsynced stays as it is. -/
theorem files_follow_disk {logs : SortedMap Nat WalFile} {dir : Dir} {m : Mounted Γ}
    (h0 : Renders (Sys.ofLogs Γ logs).disk (fun id => dir id.name)) (hlogs : ∀ w ∈ logs.keys, w < 2 ^ 64)
    (hrun : Steps (Mounted.step Γ) Mounted.InBounds ⟨Sys.ofLogs Γ logs, dir⟩ m) :
    Renders m.sys.disk m.files ∧
      ∀ name, (∀ id : FileId, id.name ≠ name) → (∀ f, dir name = some f → f.Settled) → m.dir name = dir name :=
  ⟨((Mounted.Sound.of_logs h0 hlogs).steps hrun).renders, fun _ hn hset => (Mounted.steps_others hrun hn).2 hset⟩

/-- A table is written beside a file of somebody else, and its log removed. -/
theorem files_follow_disk_table : ∃ m : Mounted Ctx.concrete, (∃ file, m.files (.sst ⟨0, 3⟩) = some file) ∧
    m.files (.wal 1) = none ∧ m.dir "notes.txt" = some ⟨[1, 2], 2⟩ ∧ Renders m.sys.disk m.files := by
  obtain ⟨m, hrun, hp⟩ := exists_steps_of_play (Mounted.step Ctx.concrete) Mounted.InBounds ⟨Sys.ofLogs _ SortedMap.empty, guestDir⟩
    (Script.openDir ⟨0, false, 0⟩ 0 0 ++ Script.put [1] [7] ++ Script.flush)
    (fun m => decide (m.sys.disk.wals.get 1 = none) && (m.sys.disk.ssts ⟨0, 3⟩).isSome) (by decide +kernel)
  simp only [Bool.and_eq_true, decide_eq_true_eq] at hp
  obtain ⟨hwal, hsst⟩ := hp
  obtain ⟨hren, hothers⟩ := files_follow_disk (renders_empty guestDir_name) (fun w hw => absurd hw List.not_mem_nil) hrun
  obtain ⟨f, hf⟩ := Option.isSome_iff_exists.1 hsst
  have htable := hren (.sst ⟨0, 3⟩)
  rw [Disk.Shows, hf] at htable
  obtain ⟨file, hfile, -⟩ := rel_some htable
  refine ⟨m, ⟨file, hfile⟩, ?_, ?_, hren⟩
  · have hlog : m.files (.wal 1) = (m.sys.disk.wals.get 1).map WalFile.toFile := hren (.wal 1)
    rw [hlog, hwal]
    rfl
  · refine hothers _ name_ne_guest (fun f hf => ?_)
    obtain rfl : ⟨[1, 2], 2⟩ = f := Option.some.inj hf
    rfl

/-- In every such run, when no file of others is taken for a log: the directory can be listed, and in whatever order it is,
`open_with_options` reads of the bytes what `recover` reads of the disk, or fails with the same error; and every lookup in the bytes
that it has read gives what the map recovered from the disk gives. Every name in the directory is UTF-8, as a `String` is. -/
theorem bytes_are_recovered {logs : SortedMap Nat WalFile} {dir : Dir} {m : Mounted Γ}
    (h0 : Renders (Sys.ofLogs Γ logs).disk (fun id => dir id.name)) (hlogs : ∀ w ∈ logs.keys, w < 2 ^ 64) (hapart : dir.Apart)
    (hfin : {name | dir name ≠ none}.Finite) (hrun : Steps (Mounted.step Γ) Mounted.InBounds ⟨Sys.ofLogs Γ logs, dir⟩ m) :
    (∃ names, m.dir.Lists names) ∧ ∀ names, m.dir.Lists names →
      m.dir.recover Γ names = (recover Γ m.sys.disk).map Recovered.loaded ∧
      ∀ r, recover Γ m.sys.disk = .ok r → ∀ key, r.loaded.get Γ m.dir key = .ok (r.map Γ m.sys.disk key) :=
  ⟨Dir.exists_lists (Mounted.steps_finite hrun hfin),
    fun _ hn => ((Mounted.Sound.of_logs h0 hlogs).steps hrun).recovers (Mounted.steps_apart hrun hapart) hn⟩

/-- A table, a MANIFEST and a log whose last frame is torn. -/
theorem bytes_are_recovered_torn : ∃ (m : Mounted Ctx.concrete) (names : List String), m.dir.Lists names ∧
    m.dir.recover Ctx.concrete names = (recover Ctx.concrete m.sys.disk).map Recovered.loaded ∧
    ∃ r, recover Ctx.concrete m.sys.disk = .ok r ∧ (stack r.levels).length = 1 ∧ r.mem.len = 1 ∧
      ∀ key, r.loaded.get Ctx.concrete m.dir key = .ok (r.map Ctx.concrete m.sys.disk key) := by
  obtain ⟨m, hrun, hp⟩ := exists_steps_of_play (Mounted.step Ctx.concrete) Mounted.InBounds ⟨Sys.ofLogs _ SortedMap.empty, guestDir⟩
    (Script.openDir ⟨0, false, 0⟩ 0 0 ++ Script.put [1] [7] ++ Script.flush ++ Script.put [1] [9] ++ Script.put [2] [9] ++
      [.handover 20, .crash .kill])
    (fun m => (recover Ctx.concrete m.sys.disk).toOption.any (fun r : Recovered => decide ((stack r.levels).length = 1 ∧ r.mem.len = 1)))
    (by decide +kernel)
  obtain ⟨⟨names, hn⟩, hall⟩ := bytes_are_recovered (renders_empty guestDir_name) (fun w hw => absurd hw List.not_mem_nil)
    guestDir_apart guestDir_finite hrun
  obtain ⟨hrec, hget⟩ := hall names hn
  cases hr : recover Ctx.concrete m.sys.disk with
  | error err => simp [hr, Except.toOption] at hp
  | ok r =>
    simp only [hr, Except.toOption, Option.any_some, decide_eq_true_eq] at hp
    exact ⟨m, names, hn, by rw [hrec, hr], r, hr, hp.1, hp.2, hget r hr⟩

/-! ## What a process leaves -/

/-- The bytes of a directory, in whatever order it is listed, are opened, and every lookup in them answers from `M`. -/
def Dir.Answers (Γ : Ctx) (dir : Dir) (M : Key → Option Value) : Prop :=
  (∃ names, dir.Lists names) ∧ ∀ names, dir.Lists names →
    ∃ l, dir.recover Γ names = .ok l ∧ ∀ key, l.get Γ dir key = .ok (M key)

/-- The bytes of a directory that no process has open answer from what the disk stands for. -/
theorem Mounted.Sound.answers {m : Mounted Γ} (h : m.Sound) (hdisk : DiskOk Γ m.sys.disk) (hapart : m.dir.Apart)
    (hfin : {name | m.dir name ≠ none}.Finite) : m.dir.Answers Γ (m.sys.disk.recovered Γ) := by
  refine ⟨Dir.exists_lists hfin, fun names hn => ?_⟩
  obtain ⟨r, hr, -, -, -, -, hmap⟩ := hdisk.recover
  obtain ⟨hrec, hget⟩ := h.recovers hapart hn
  refine ⟨r.loaded, by rw [hrec, hr]; rfl, fun key => ?_⟩
  rw [← hmap]
  exact hget r hr key

/-- Runs in bounds in which nothing fails and every write is fsynced. -/
def Mounted.SyncsWrites (m : Mounted Γ) (a : Act) : Prop := m.InBounds a ∧ LsmEngine.SyncsWrites m.sys a

/-- Runs in bounds in which nothing fails and the process can be killed, but no power is lost. -/
def Mounted.OnlyKills (m : Mounted Γ) (a : Act) : Prop := m.InBounds a ∧ LsmEngine.OnlyKills m.sys a

instance (m : Mounted Γ) (a : Act) : Decidable (m.SyncsWrites a) := inferInstanceAs (Decidable (_ ∧ _))
instance (m : Mounted Γ) (a : Act) : Decidable (m.OnlyKills a) := inferInstanceAs (Decidable (_ ∧ _))

/-- A crash leaves bytes that answer from `M`, and `M` is what the next open has read. -/
def Mounted.CrashLeaves (ok : Sys Γ → Act → Prop) (κ : CrashKind) (m : Mounted Γ) (M : Key → Option Value) : Prop :=
  (m.dir.crash κ).Answers Γ M ∧ Leaves ok (m.sys.crashed κ) M

/-- What a crash leaves, where nothing has failed. -/
theorem Mounted.Sound.crashLeaves {R : Regime Γ} {m : Mounted Γ} (h : m.Sound) (hapart : m.dir.Apart)
    (hfin : {name | m.dir name ≠ none}.Finite) {κ : CrashKind} (hinv : R.Inv (m.sys.crashed κ)) {ok : Sys Γ → Act → Prop}
    (hok : ∀ t a, ok t a → a.NoFail ∧ (a = .crash .powerLoss → κ = .powerLoss)) :
    m.CrashLeaves ok κ ((m.sys.disk.crash κ).recovered Γ) := by
  refine ⟨?_, hinv.leaves hok⟩
  simp only [Regime.Inv, Sys.crashed] at hinv
  exact (h.crashed κ).answers hinv.2.1 (hapart.crash κ) (Dir.crash_finite hfin κ)

/-- From a directory with no file of an engine and any files of others that are not taken for logs, in runs in which nothing fails. With
every write fsynced, the bytes that a power loss leaves at any step are opened, and every lookup in them answers from the map that the last
open has read with the first writes since, with every write that was acknowledged or seen among them. Without, the bytes that a kill leaves
do so with every write that was acknowledged before a `flush()` that returned `Ok` began, and the bytes that a drop leaves with every
write. So it was at every open before. -/
theorem acknowledged_writes_are_in_the_bytes {dir : Dir} (h0 : ∀ id : FileId, dir id.name = none) (hapart : dir.Apart)
    (hfin : {name | dir name ≠ none}.Finite) {m : Mounted Γ} :
    (Steps (Mounted.step Γ) Mounted.SyncsWrites ⟨Sys.init Γ, dir⟩ m →
      FirstWrites SyncedCut m.sys (m.CrashLeaves LsmEngine.SyncsWrites .powerLoss) ∧
        ∀ a t o, m.SyncsWrites a → Mounted.step Γ m a = some (t, o) → Acknowledges m.sys t.sys o) ∧
    (Steps (Mounted.step Γ) Mounted.OnlyKills ⟨Sys.init Γ, dir⟩ m →
      FirstWrites KilledCut m.sys (m.CrashLeaves LsmEngine.OnlyKills .kill) ∧
        (∀ t, m.OnlyKills (.drop .ok) → Mounted.step Γ m (.drop .ok) = some (t, .silent) →
          t.dir.Answers Γ (m.sys.hist.mapAt m.sys.hist.log.length)) ∧
        ∀ a t o, m.OnlyKills a → Mounted.step Γ m a = some (t, o) → Acknowledges m.sys t.sys o) := by
  have hsound : Mounted.Sound (⟨Sys.init Γ, dir⟩ : Mounted Γ) :=
    Mounted.Sound.of_logs (renders_empty h0) (fun w hw => absurd hw List.not_mem_nil)
  constructor
  · intro hrun
    have hsys : Steps (LsmEngine.step Γ) LsmEngine.SyncsWrites (Sys.init Γ) m.sys := Mounted.steps hrun (fun _ _ ha => ha.2)
    have hinv := Regime.inv_of_steps (Regime.synced_sound Γ) (hsys.mono (fun _ _ ha => ha.ok))
    have hm : m.Sound := hsound.steps (hrun.mono (fun _ _ ha => ha.1))
    refine ⟨Regime.firstWrites (κ := .powerLoss) (Regime.synced_sound Γ).toStable hinv trivial (fun hcrashed => ?_), fun a t o _ hs => ?_⟩
    · exact hm.crashLeaves (Mounted.steps_apart hrun hapart) (Mounted.steps_finite hrun hfin) hcrashed
        (fun _ _ ha => ⟨ha.1, fun _ => rfl⟩)
    · exact acknowledges_step (lastLogged_of_steps hsys) (fun e hp => hinv.counts (fun n hn => hn.1.reading) hp) (Mounted.step_sys hs)
  · intro hrun
    have hsys : Steps (LsmEngine.step Γ) LsmEngine.OnlyKills (Sys.init Γ) m.sys := Mounted.steps hrun (fun _ _ ha => ha.2)
    have hinv := Regime.inv_of_steps (Regime.killed_sound Γ) (hsys.mono (fun _ _ ha => ha.ok))
    have hm : m.Sound := hsound.steps (hrun.mono (fun _ _ ha => ha.1))
    refine ⟨Regime.firstWrites (Regime.killed_sound Γ).toStable hinv rfl (fun hcrashed => ?_), fun t ha hs => ?_, fun a t o _ hs => ?_⟩
    · exact hm.crashLeaves (Mounted.steps_apart hrun hapart) (Mounted.steps_finite hrun hfin) hcrashed
        (fun _ _ ha => ⟨ha.1, fun hpower => absurd hpower ha.2⟩)
    · have hrun' := hrun.tail ha hs
      have hdown := Regime.inv_step (Regime.killed_sound Γ).toStable hinv ha.2.ok (Mounted.step_sys hs)
      obtain ⟨hp, hrec⟩ := dropped_cases (fun e hp => hinv.data hp) (Mounted.step_sys hs)
      simp only [Regime.Inv, hp] at hdown
      rw [← hrec]
      exact (hsound.steps (hrun'.mono (fun _ _ ha => ha.1))).answers hdown.2.1 (Mounted.steps_apart hrun' hapart)
        (Mounted.steps_finite hrun' hfin)
    · exact acknowledges_step (lastLogged_of_steps hsys) (fun e hp => hinv.counts (fun n hn => hn.1.reading) hp) (Mounted.step_sys hs)

/-- After an earlier open, two writes have been acknowledged and a third is in the log, not fsynced; the power loss comes then, or the
process is killed after a flush with part of the next frame in its log. -/
theorem acknowledged_writes_are_in_the_bytes_third :
    (∃ m : Mounted Ctx.concrete, m.sys.hist.past.length = 2 ∧ m.sys.hist.completed = 2 ∧ m.sys.hist.log.length = 3 ∧
      FirstWrites SyncedCut m.sys (m.CrashLeaves LsmEngine.SyncsWrites .powerLoss)) ∧
    ∃ m : Mounted Ctx.concrete, m.sys.hist.past.length = 2 ∧ m.sys.hist.flushAck = 1 ∧ m.sys.hist.log.length = 2 ∧
      FirstWrites KilledCut m.sys (m.CrashLeaves LsmEngine.OnlyKills .kill) := by
  constructor
  · obtain ⟨m, hrun, hp⟩ := exists_steps_of_play (Mounted.step Ctx.concrete) Mounted.SyncsWrites ⟨Sys.init _, guestDir⟩
      (Script.openDir ⟨0, true, 0⟩ 0 0 ++ Script.syncedPut [3] [7] ++ [.crash .powerLoss] ++ Script.openDir ⟨0, true, 0⟩ 1 1 ++
        Script.syncedPut [1] [7] ++ Script.syncedPut [2] [8] ++ [.write ⟨.put, [1], [9]⟩ .ok])
      (fun m => decide (m.sys.hist.past.length = 2 ∧ m.sys.hist.completed = 2 ∧ m.sys.hist.log.length = 3)) (by decide +kernel)
    obtain ⟨h1, h2, h3⟩ := of_decide_eq_true hp
    exact ⟨m, h1, h2, h3, ((acknowledged_writes_are_in_the_bytes guestDir_name guestDir_apart guestDir_finite).1 hrun).1⟩
  · obtain ⟨m, hrun, hp⟩ := exists_steps_of_play (Mounted.step Ctx.concrete) Mounted.OnlyKills ⟨Sys.init _, guestDir⟩
      (Script.openDir ⟨0, false, 0⟩ 0 0 ++ Script.put [3] [7] ++ [.drop .ok] ++ Script.openDir ⟨0, false, 0⟩ 1 1 ++
        Script.put [1] [7] ++ Script.flush ++ Script.put [1] [9] ++ [.handover 5])
      (fun m => decide (m.sys.hist.past.length = 2 ∧ m.sys.hist.flushAck = 1 ∧ m.sys.hist.log.length = 2)) (by decide +kernel)
    obtain ⟨h1, h2, h3⟩ := of_decide_eq_true hp
    exact ⟨m, h1, h2, h3, ((acknowledged_writes_are_in_the_bytes guestDir_name guestDir_apart guestDir_finite).2 hrun).1⟩

end LsmEngine
