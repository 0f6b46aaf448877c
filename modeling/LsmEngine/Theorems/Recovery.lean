import LsmEngine.Lemmas.Calls
import LsmEngine.Lemmas.Within
import LsmEngine.Script

/-!
# Recovery can be interrupted and started again

Opens of a directory that are killed, or that fail at any of their file-system operations, change nothing of what the directory
stands for; and a log with a frame that does not decode makes the open fail before it has touched a file.
-/

namespace LsmEngine

open Transition

variable {Γ : Ctx}

/-! ## Attempts to open -/

/-- What can happen to a directory that is opened again and again: an open begins, goes on with every file-system operation
failing or not, or is killed; an engine that has come up is dropped or killed. -/
def Attempt (_ : Sys Γ) : Act → Prop
  | .openDir _ | .openStep _ | .handover _ | .drop _ | .crash .kill => True
  | _ => False

instance (s : Sys Γ) : DecidablePred (Attempt s) := fun a =>
  match a with
  | .openDir _ | .openStep _ | .handover _ | .drop _ | .crash .kill => inferInstanceAs (Decidable True)
  | .crash .powerLoss | .write _ _ | .flush | .walStep _ | .flushEnter _ | .workerEnter | .compactEnter | .flushStep _ | .get _
  | .getStep _ _ => inferInstanceAs (Decidable False)

/-- What is known of the states in between. -/
structure Attempted (M : Key → Option Value) (s : Sys Γ) : Prop where
  disk : DiskOk Γ s.disk
  map : s.disk.recovered Γ = M
  proc : match s.proc with
    | .down => True
    | .opening o => OpenOk Γ s.disk o
    | .up e => e.walBuf = []

/-- The logs keep their bytes. -/
theorem DiskOk.sameBytes {d d' : Disk} (h : DiskOk Γ d) (hm : d'.manifest = d.manifest) (hs : d'.ssts = d.ssts)
    (hk : d'.wals.keys = d.wals.keys)
    (hg : ∀ g f, d'.wals.get g = some f → ∃ f₀, d.wals.get g = some f₀ ∧ f.bytes = f₀.bytes ∧ f.synced ≤ f.bytes.length) :
    DiskOk Γ d' ∧ d'.recovered Γ = d.recovered Γ := by
  constructor
  · refine h.setWals hm hs (fun g f hf => ?_)
    obtain ⟨f₀, hf₀, hb, hle⟩ := hg g f hf
    exact .inr ⟨⟨_, hb ▸ h.logs g f₀ hf₀⟩, hle⟩
  · have hent : ∀ g ∈ d.wals.keys, d'.entries Γ g = d.entries Γ g := by
      intro g hgm
      rw [← hk] at hgm
      obtain ⟨f, hf⟩ := d'.wals.mem_keys_iff.1 hgm
      obtain ⟨f₀, hf₀, hb, -⟩ := hg g f hf
      exact entries_congr hf₀ hf hb
    rw [Disk.recovered, Disk.recovered, hk, manifestLevels_congr hm, tablesMap_of_ssts hs, List.flatMap_congr hent]

/-- An append of no bytes changes nothing. -/
theorem DiskOk.appendNothing {d : Disk} (h : DiskOk Γ d) (seq : Nat) :
    DiskOk Γ (d.appendWal seq []) ∧ (d.appendWal seq []).recovered Γ = d.recovered Γ := by
  refine h.sameBytes (by simp) (by simp) (by simp) (fun g f hf => ?_)
  rw [Disk.get_appendWal] at hf
  split at hf
  · obtain ⟨f₀, hf₀, rfl⟩ := Option.map_eq_some_iff.1 hf
    exact ⟨f₀, hf₀, by simp, by simpa using h.synced g f₀ hf₀⟩
  · exact ⟨f, hf, rfl, h.synced g f hf⟩

/-- An fsync changes nothing that is recovered. -/
theorem DiskOk.sync {d : Disk} (h : DiskOk Γ d) (seq : Nat) :
    DiskOk Γ (d.syncWal seq) ∧ (d.syncWal seq).recovered Γ = d.recovered Γ := by
  refine h.sameBytes (by simp) (by simp) (by simp) (fun g f hf => ?_)
  rw [Disk.get_syncWal] at hf
  split at hf
  · obtain ⟨f₀, hf₀, rfl⟩ := Option.map_eq_some_iff.1 hf
    exact ⟨f₀, hf₀, rfl, Nat.le_refl _⟩
  · exact ⟨f, hf, rfl, h.synced g f hf⟩

/-- A step of an open that may fail or be killed keeps what the directory recovers to. -/
theorem Attempted.step {M : Key → Option Value} {s t : Sys Γ} {a : Act} {o : Out} (h : Attempted M s) (ha : Attempt s a)
    (hs : step Γ s a = some (t, o)) : Attempted M t := by
  cases step_cases hs with
  | @crash κ =>
    cases κ with
    | powerLoss => simp [Attempt] at ha
    | kill => exact ⟨by rw [Disk.crash_kill]; exact h.disk, by rw [Disk.crash_kill]; exact h.map, trivial⟩
  | openDir hp => exact ⟨h.disk, h.map, h.disk, rfl⟩
  | @openStep io op _ hp hm =>
    have hopen : OpenOk Γ s.disk op := by
      have := h.proc
      simpa only [hp] using this
    obtain ⟨hsame, hnext⟩ := hopen.move hm
    refine ⟨hsame.disk, hsame.recovered.trans h.map, ?_⟩
    cases hpt : t.proc with
    | down => trivial
    | opening op' => exact hnext op' hpt
    | up e =>
      cases hm with
      | @up r hst hio =>
        obtain rfl := Proc.up.inj hpt
        have hstage := hopen.stage
        rw [hst] at hstage
        exact hstage.1
      | _ => simp at hpt
  | @openHandover k op hp =>
    have hopen : OpenOk Γ s.disk op := by
      have := h.proc
      simpa only [hp] using this
    obtain ⟨hsame, op', hp', hnext⟩ := hopen.handover hp k
    exact ⟨hsame.disk, hsame.recovered.trans h.map, by simpa only [hp'] using hnext⟩
  | @node a e _ hp hm =>
    have hbuf : e.walBuf = [] := by
      have := h.proc
      simpa only [hp] using this
    cases hm with
    | @drop io =>
      simp only [Node.drop, hbuf]
      split
      · obtain ⟨h1, h2⟩ := h.disk.appendNothing e.walSeq
        obtain ⟨h3, h4⟩ := h1.sync e.walSeq
        exact ⟨h3, (h4.trans h2).trans h.map, trivial⟩
      · exact ⟨h.disk, h.map, trivial⟩
    | @handover k =>
      obtain ⟨h1, h2⟩ := h.disk.appendNothing e.walSeq
      refine ⟨?_, ?_, ?_⟩
      · simpa [Node.toSys, Node.handover, hbuf] using h1
      · simpa [Node.toSys, Node.handover, hbuf] using h2.trans h.map
      · simp [Node.toSys, Node.handover, hbuf]
    | _ => simp [Attempt] at ha

/-! ## Corrupt logs -/

/-- The frame at the front of a byte string is all there: the header, and as many bytes as it declares. -/
def FrameThere (bytes : Bytes) (frameLen : Nat) : Prop :=
  headerLen ≤ bytes.length ∧ frameLen ≤ bytes.length ∧
    ∃ keyLen valLen, readU16 bytes keyLenOffset = .ok keyLen ∧ readU32 bytes valLenOffset = .ok valLen ∧
      frameLen = headerLen + keyLen + valLen

/-- Some frame of a log is all there and does not decode; the frames before it decode. -/
inductive Corrupt (Γ : Ctx) : Bytes → Prop where
  | here {bytes : Bytes} {frameLen : Nat} {err : LsmError} (h : FrameThere bytes frameLen)
      (he : decodeEntry Γ (bytes.take frameLen) = .error err) : Corrupt Γ bytes
  | later {bytes : Bytes} {frameLen : Nat} {e : WalEntry} (h : FrameThere bytes frameLen)
      (he : decodeEntry Γ (bytes.take frameLen) = .ok e) (hrest : Corrupt Γ (bytes.drop frameLen)) : Corrupt Γ bytes

/-- The scan of a corrupt log is an error. -/
theorem Corrupt.scanFrom {bytes : Bytes} (h : Corrupt Γ bytes) {fuel : Nat} (hf : bytes.length < fuel) (offset : Nat) :
    ∃ msg, scanFrom Γ fuel offset bytes = .error (.corruption msg) := by
  induction h generalizing fuel offset with
  | @here bytes frameLen err h he =>
    obtain ⟨h1, h2, kl, vl, hk, hv, rfl⟩ := h
    obtain ⟨k, rfl⟩ : ∃ k, fuel = k + 1 := ⟨fuel - 1, by omega⟩
    rw [LsmEngine.scanFrom, if_neg (by omega), hk, hv]
    simp only [bind, Except.bind]
    rw [if_neg (by omega), he]
    exact ⟨_, rfl⟩
  | @later bytes frameLen e h he hrest ih =>
    obtain ⟨h1, h2, kl, vl, hk, hv, rfl⟩ := h
    obtain ⟨k, rfl⟩ : ∃ k, fuel = k + 1 := ⟨fuel - 1, by omega⟩
    have hhead : 0 < headerLen := by decide
    have hlt : (bytes.drop (headerLen + kl + vl)).length < k := by
      rw [List.length_drop]
      omega
    obtain ⟨msg, hmsg⟩ := ih hlt (offset + (headerLen + kl + vl))
    refine ⟨msg, ?_⟩
    rw [LsmEngine.scanFrom, if_neg (by omega), hk, hv]
    simp only [bind, Except.bind]
    rw [if_neg (by omega), he]
    simp only [hmsg]

/-- A log that does not scan fails the replay. -/
theorem replayAll_error {bs : List (Nat × WalFile)} {g : Nat} {f : WalFile} (hmem : (g, f) ∈ bs) {err : LsmError}
    (hscan : scan Γ f.bytes = .error err) (m : MemTable) : ∃ err', replayAll Γ bs m = .error err' := by
  induction bs generalizing m with
  | nil => simp at hmem
  | cons b bs ih =>
    rcases List.mem_cons.1 hmem with rfl | hrest
    · exact ⟨err, by simp only [replayAll, replayInto, hscan, bind, Except.bind]⟩
    · obtain ⟨g', f'⟩ := b
      simp only [replayAll, bind, Except.bind]
      cases hr : replayInto Γ f'.bytes m with
      | error err' => exact ⟨err', rfl⟩
      | ok m' => exact ih hrest m'

/-- What an open reads of a directory with a corrupt log is an error. -/
theorem recover_error {d : Disk} {g : Nat} {f : WalFile} (hg : d.wals.get g = some f) (h : Corrupt Γ f.bytes) :
    ∃ err, recover Γ d = .error err := by
  obtain ⟨msg, hscan⟩ := h.scanFrom (Nat.lt_succ_self _) 0
  obtain ⟨err, hall⟩ := replayAll_error (d.wals.mem_toList_iff.2 hg) hscan MemTable.new
  simp only [recover, bind, Except.bind]
  cases loadManifest d with
  | error err => exact ⟨err, rfl⟩
  | ok m =>
    dsimp only
    cases missingSst d m.levels with
    | some sst => exact ⟨_, rfl⟩
    | none => exact ⟨err, by simp only [hall]⟩

/-- An open of a directory with a corrupt log fails, and leaves everything as it was. -/
theorem corrupt_log_fails_open {s : Sys Γ} (hp : s.proc = .down) {g : Nat} {f : WalFile} (hg : s.disk.wals.get g = some f)
    (h : Corrupt Γ f.bytes) (options : LsmOptions) (io : Io) :
    ∃ s' err, step Γ s (.openDir options) = some (s', .silent) ∧ step Γ s' (.openStep io) = some (s, .opened (.error err)) := by
  obtain ⟨err, hrec⟩ := recover_error hg h
  obtain ⟨d, hh, p⟩ := s
  obtain rfl : p = .down := hp
  cases io with
  | ok => exact ⟨_, err, rfl, by simp only [step, openStep, hrec, Sys.openFails]⟩
  | fail k => exact ⟨_, .io, rfl, by simp only [step, openStep, Sys.openFails]⟩

/-! ## Both -/

/-- A directory that a run without failures has left, whatever crashes came, opens; and after any number of opens that were
killed or failed at any of their operations, the next open that nothing disturbs succeeds and reads as it would have then. And an
open of a directory with a corrupt log fails and changes no file. -/
theorem recovery_restarts {s : Sys Γ} (h : Steps (step Γ) NoFailure (Sys.init Γ) s) (hp : s.proc = .down) :
    (∃ M, Reopens s M ∧ ∀ t, Steps (step Γ) Attempt s t → Reopens (t.crashed .kill) M) ∧
      ∀ (c : Sys Γ) g f, c.proc = .down → c.disk.wals.get g = some f → Corrupt Γ f.bytes → ∀ options io, ∃ c' err,
        step Γ c (.openDir options) = some (c', .silent) ∧ step Γ c' (.openStep io) = some (c, .opened (.error err)) := by
  refine ⟨?_, fun c g f hc hg hbad options io => corrupt_log_fails_open hc hg hbad options io⟩
  have hin : InOrder s := inOrder_of_steps h
  refine ⟨_, hin.reopens hp, fun t ht => ?_⟩
  have hdisk : DiskOk Γ s.disk := by
    simp only [InOrder, Regime.Inv, hp] at hin
    exact hin.2.1
  have hatt : Attempted (s.disk.recovered Γ) t :=
    ht.invariant ⟨hdisk, rfl, by simp only [hp]⟩ (fun h hok hs => h.step hok hs)
  have hstep := step_crash t .kill
  have hend : Attempted (s.disk.recovered Γ) (t.crashed .kill) := hatt.step (a := .crash .kill) trivial hstep
  have hseq : SeqInv (t.crashed .kill) :=
    seqInv_step (seqInv_of_steps ((h.mono (fun _ _ _ => trivial)).trans (ht.mono (fun _ _ _ => trivial)))) hstep
  have hre := (InOrder.down rfl hseq hend.disk).reopens rfl
  rwa [hend.map] at hre

/-- A killed process has left two logs, one of them torn; then an open is killed in the middle of its copy. -/
theorem recovery_restarts_killed :
    ∃ s t : Sys Ctx.concrete, s.proc = .down ∧ s.disk.wals.keys.length = 2 ∧ t.disk.wals.keys.length = 3 ∧
      ∃ M, Reopens s M ∧ Reopens (t.crashed .kill) M := by
  obtain ⟨s, hrun, hp⟩ := exists_steps_of_play (step Ctx.concrete) NoFailure (Sys.init _)
    (Script.openDir ⟨0, false, 0⟩ 0 0 ++ Script.put [1] [7] ++ Script.flushStart ++ Script.put [2] [8] ++
      [.handover 5, .crash .kill])
    (fun s => s.isDown && decide (s.disk.wals.keys.length = 2) &&
      (play (restrict (step Ctx.concrete) Attempt) [.openDir ⟨0, false, 0⟩, .openStep .ok, .openStep .ok, .openStep .ok,
        .handover 7] s).any (fun r : Sys Ctx.concrete × List Out => decide (r.1.disk.wals.keys.length = 3))) (by decide +kernel)
  simp only [Bool.and_eq_true, Sys.isDown_iff, decide_eq_true_eq] at hp
  obtain ⟨⟨hproc, htwo⟩, hattempt⟩ := hp
  obtain ⟨t, hrun', ht⟩ := exists_steps_of_play (step Ctx.concrete) Attempt s _
    (fun t => decide (t.disk.wals.keys.length = 3)) hattempt
  obtain ⟨M, h1, h2⟩ := (recovery_restarts hrun hproc).1
  exact ⟨s, t, hproc, htwo, of_decide_eq_true ht, M, h1, h2 t hrun'⟩

end LsmEngine
