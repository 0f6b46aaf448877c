import LsmEngine.Lemmas.Files
import LsmEngine.Lemmas.Worker

/-!
# The number of tables

Level 0 grows by the passes of the task and by `flush()`. When nobody calls `flush()`, every pass is followed by the question whether
to compact, so between two passes level 0 is below the threshold. This is about runs without crashes and failures, with one threshold.
-/

namespace LsmEngine

open Transition

variable {Γ : Ctx} {n n' : Node Γ} {T : Nat}

/-- How many tables level 0 has. -/
def level0 (levels : List (List SstMeta)) : Nat := (levels[0]?.getD []).length

/-- The open is called with the threshold `T`. -/
def Act.opensWith (T : Nat) : Act → Bool
  | .openDir options => decide (options.compactionL0FileThreshold = T)
  | _ => true

/-- The steps of a run without crashes, failures and calls of `flush()`, in which every open has the threshold `T`. -/
def Regular (T : Nat) (_ : Hosted Γ) (a : HostedAct) : Prop :=
  ∀ b ∈ a.toAct, b.NoFail ∧ b.isCrash = false ∧ b ≠ .flush ∧ b.opensWith T = true

instance (h : Hosted Γ) (a : HostedAct) : Decidable (Regular T h a) := inferInstanceAs (Decidable (∀ b ∈ a.toAct, _))

/-- What a regular run asks of an action covers what the files need. -/
theorem Regular.smooth {h : Hosted Γ} {a : HostedAct} (hr : Regular T h a) {b : Act} (hb : a.toAct = some b) : Smooth h.sys b :=
  ⟨(hr b hb).1, (hr b hb).2.1⟩

/-- A compaction has put its output in place of the levels. -/
def FlushSection.installed : FlushSection → Bool
  | .manifest (.removeInputs _) _ _ | .unlinkInputs _ => true
  | _ => false

/-- Nobody flushes but the task, and level 0 is below the threshold unless the task is in a pass and has not compacted. -/
structure Paced (T : Nat) (e : Engine Γ) (w : Worker) : Prop where
  threshold : e.options.compactionL0FileThreshold = T
  inWal : e.wal.flusher = none
  flushers : e.flushers = []
  caller : ∀ since, e.flush.caller ≠ some (.flush since)
  between : w = .waiting ∨ w = .notified → level0 e.levels < T
  compacted : w = .compacting → e.flush.installed = true → level0 e.levels < T

def Hosted.Paced (T : Nat) (h : Hosted Γ) : Prop :=
  match h.sys.proc with
  | .down => level0 h.sys.disk.manifestLevels < T
  | .opening o => o.options.compactionL0FileThreshold = T ∧ level0 h.sys.disk.manifestLevels < T
  | .up e => LsmEngine.Paced T e h.worker

/-- What a compaction does to level 0. -/
theorem FlushMove.level0 (hseq : SeqUp n) (hc : n.eng.flush.caller = none) {io : Io} {r : Node Γ × Out} (hm : FlushMove n io r) :
    (r.1.eng.levels = n.eng.levels ∧ (r.1.eng.flush.installed = true → n.eng.flush.installed = true)) ∨
      LsmEngine.level0 r.1.eng.levels = 0 := by
  cases hm with
  | nothing hf | drained hf | unbuilt hf | built hf | buildFails hf | buildStage hf | buildRename hf | commit hf
  | manifestFailsFlush hf | manifestFlush hf | flushDone hf | unlinkWal hf | unlinkWalFails hf => simp [hf, FlushSection.caller] at hc
  | @install inputs output hf =>
    right
    rw [LsmEngine.level0, show (n.commitCompaction inputs output).eng.levels = Node.compactedLevels n.eng.levels output from rfl,
      level0_compacted hseq.levels.len]
    rfl
  | @manifestStage after _ _ _ hf =>
    cases after with
    | removeWals => simp [hf, FlushSection.caller] at hc
    | removeInputs => exact .inl ⟨rfl, fun _ => by rw [hf]; rfl⟩
  | readOpen hf => exact .inl ⟨rfl, id⟩
  | mergedNone hf | mergedUnbuilt hf | merged hf | readFails hf | read hf | mergeFails hf | mergeStage hf
  | mergeRename hf | manifestFailsCompact hf =>
    exact .inl ⟨rfl, fun hi => by simp [Node.compactEnd, FlushSection.installed] at hi⟩
  | manifestCompact hf | compactDone hf | unlinkInput hf | unlinkInputFails hf => exact .inl ⟨rfl, fun _ => by rw [hf]; rfl⟩

/-- A compaction that returns without an error has put its output in place. -/
theorem FlushMove.compaction_done {io : Io} {r : Node Γ × Out} (hm : FlushMove n io r) (ho : r.2 = .compacted (.ok ())) :
    n.eng.flush.installed = true := by
  cases hm with
  | compactDone hf => rw [hf]; rfl
  | @nothing c | @unbuilt c | @buildFails c | @manifestFailsFlush c | @flushDone c => cases c <;> simp [Node.flushEnd] at ho
  | mergedUnbuilt | readFails | mergeFails | manifestFailsCompact => simp [Node.compactEnd] at ho
  | _ => simp at ho

/-- Without calls of `flush()` no caller waits for a flush pass, and none comes. -/
theorem WalMove.no_flusher (h : n.eng.wal.flusher = none) {io : Io} {r : Node Γ × Out} (hm : WalMove n io r) :
    r.1.eng.wal.flusher = none ∧ r.1.eng.flushers = n.eng.flushers ∧ r.1.eng.options = n.eng.options := by
  cases hm with
  | flushSync hw | flushSyncFails hw => simp [hw, WalSection.flusher] at h
  | @nothing c hw | @takeSeq c hw | @create c _ hw | @createFails c _ _ hw | @swap c _ hw | @replace c _ hw =>
    cases c with
    | flush since => simp [hw, WalSection.flusher] at h
    | write w => exact ⟨rfl, rfl, rfl⟩
  | _ => exact ⟨rfl, rfl, rfl⟩

/-- A step of the holder of `flush_lock` keeps the pace: it adds a table to level 0 only in a pass, and compacts at the threshold. -/
theorem Paced.flushMove {w : Worker} (h : Paced T n.eng w) (hT : 0 < T) (hok : WorkerOk n.eng w) (hdata : DataUp n)
    (hh : HandlesOk n) {r : Node Γ × Out} (hm : FlushMove n .ok r) : Paced T r.1.eng (w.after r.2) := by
  have hs := hm.sameWrites
  have hq : r.1.eng.flushers = [] := hm.same.2.trans h.flushers
  have hinWal : r.1.eng.wal.flusher = none := by rw [hs.wal]; exact h.inWal
  have hthr : r.1.eng.options.compactionL0FileThreshold = T := by rw [hs.options]; exact h.threshold
  have hok' : ∀ {o : Option FlushCaller} {res : Except LsmError Unit}, r.2 = Out.toCaller o res → res = .ok () := by
    intro o res ho
    cases res with
    | ok u => rfl
    | error err =>
      refine absurd ?_ (hm.not_failed hdata hh err)
      rw [ho]
      rcases o with - | since | - <;> rfl
  cases hc : n.eng.flush.caller with
  | some c =>
    cases c with
    | flush since => exact absurd hc (h.caller since)
    | worker =>
      -- the pass of the task: level 0 may grow
      obtain rfl := hok.flushing.2 hc
      rcases hm.returns with ⟨ho, -, hc'⟩ | ⟨hfree, res, ho⟩
      · rw [ho, Worker.after_silent]
        exact ⟨hthr, hinWal, hq, fun since => by rw [hc', hc]; simp, by simp, by simp⟩
      · obtain rfl := hok' ho
        rw [ho, hc]
        exact ⟨hthr, hinWal, hq, fun since => by simp [hfree, FlushSection.caller], by simp [Out.toCaller, Worker.after],
          by simp [Out.toCaller, Worker.after]⟩
  | none =>
    -- a compaction: level 0 stays or goes
    have hnf : w ≠ .flushing := fun hw => by simp [hok.flushing.1 hw] at hc
    have hlev := hm.level0 hdata.seq hc
    have hlt : level0 n.eng.levels < T → level0 r.1.eng.levels < T := by
      intro hlt
      rcases hlev with ⟨heq, -⟩ | hz
      · rw [heq]
        exact hlt
      · rw [hz]
        exact hT
    rcases hm.returns with ⟨ho, -, hc'⟩ | ⟨hfree, res, ho⟩
    · rw [ho, Worker.after_silent]
      refine ⟨hthr, hinWal, hq, fun since => by rw [hc', hc]; simp, fun hw => hlt (h.between hw), fun hw hi => ?_⟩
      rcases hlev with ⟨heq, hinst⟩ | hz
      · rw [heq]
        exact h.compacted hw (hinst hi)
      · rw [hz]
        exact hT
    · obtain rfl := hok' ho
      rw [hc] at ho
      refine ⟨hthr, hinWal, hq, fun since => by simp [hfree, FlushSection.caller], fun hw => ?_, fun _ hi => ?_⟩
      · by_cases hcw : w = .compacting
        · exact hlt (h.compacted hcw (hm.compaction_done ho))
        · refine hlt (h.between ?_)
          rw [ho] at hw
          cases w <;> simp_all [Worker.after, Out.toCaller]
      · simp [hfree, FlushSection.installed] at hi

theorem Paced.nodeMove {w : Worker} (h : Paced T n.eng w) (hT : 0 < T) (hok : WorkerOk n.eng w) (hdata : DataUp n)
    (hh : HandlesOk n) {a : Act} (ha : a.NoFail) (hne : a ≠ .flush) (hnw : a ≠ .workerEnter) {x : Sys Γ × Out}
    (hm : NodeMove n a x) (hx : x.1 = n'.toSys) : Paced T n'.eng (w.after x.2) := by
  -- a step outside `flush_lock`
  have hkeep : a.flushes = false → n'.eng.options = n.eng.options → n'.eng.wal.flusher = none →
      n'.eng.flushers = n.eng.flushers → n'.eng.levels = n.eng.levels → Paced T n'.eng (w.after x.2) := by
    intro hfl h1 h2 h3 h4
    obtain ⟨hf, hw⟩ := hm.same_flush hfl hx w
    rw [hw]
    exact ⟨by rw [h1]; exact h.threshold, h2, by rw [h3]; exact h.flushers, by rw [hf]; exact h.caller, by rw [h4]; exact h.between,
      by rw [h4, hf]; exact h.compacted⟩
  cases hm with
  | workerEnter => exact absurd rfl hnw
  | flush => exact absurd rfl hne
  | flushStep hf =>
    obtain rfl := toSys_inj hx
    obtain rfl : _ = Io.ok := ha
    exact h.flushMove hT hok hdata hh hf
  | flushEnter hf hi =>
    rw [h.flushers] at hi
    simp at hi
  | compactEnter hf | compactNothing hf =>
    obtain rfl := toSys_inj hx
    obtain ⟨h1, h2⟩ := hok.outside hf
    have hw : w.after (.compacted (.ok ())) = w := by cases w <;> first | rfl | exact absurd rfl h2
    simp only [Node.compactEnd, Worker.after_silent, hw]
    exact ⟨h.threshold, h.inWal, h.flushers, fun since => by simp [FlushSection.caller], h.between, fun hw => absurd hw h2⟩
  | wal hw =>
    obtain rfl := toSys_inj hx
    obtain ⟨h1, h2, h3⟩ := hw.no_flusher h.inWal
    exact hkeep rfl h3 h1 h2 hw.leaves.1
  | write hw =>
    obtain rfl := toSys_inj hx
    refine hkeep rfl ?_ ?_ ?_ ?_ <;> cases hw <;> first | rfl | exact h.inWal
  | getStep hg =>
    obtain rfl := toSys_inj hx
    refine hkeep rfl ?_ ?_ ?_ ?_ <;> cases hg <;> first | rfl | exact h.inWal
  | get | handover =>
    obtain rfl := toSys_inj hx
    exact hkeep rfl rfl h.inWal rfl rfl
  | drop => simp [Node.drop, Node.toSys] at hx

/-! ## Runs -/

/-- Level 1 holds at most one table. -/
theorem levelsOk_bound {levels : List (List SstMeta)} (h : LevelsOk levels) : (stack levels).length ≤ level0 levels + 1 := by
  have hs := h.single
  have hl := h.len
  rcases levels with - | ⟨l0, - | ⟨l1, - | ⟨l2, rest⟩⟩⟩
  · simp [stack]
  · simp [stack, level0]
  · simp [stack, level0] at hs ⊢
    omega
  · simp at hl

/-- The same levels have as many tables in level 0. -/
theorem SameLevels.level0 {a b : List (List SstMeta)} (h : SameLevels a b) : LsmEngine.level0 a = LsmEngine.level0 b := by
  rw [LsmEngine.level0, h 0, LsmEngine.level0]

/-- A change of the logs changes no level. -/
theorem level0_logsApart {d d' : Disk} (h : LogsApart d d') : level0 d'.manifestLevels = level0 d.manifestLevels := by
  rw [manifestLevels_congr h.manifest]

/-- An open starts below the threshold, when the MANIFEST does. -/
theorem OpenMove.paced {s : Sys Γ} {o : Opening} (hst : o.stage.SeqOk s.disk s.hist) (hthr : o.options.compactionL0FileThreshold = T)
    (hlt : level0 s.disk.manifestLevels < T) {io : Io} {x : Sys Γ × Out} (hm : OpenMove s o io x) :
    Hosted.Paced T ⟨x.1, 0, .waiting⟩ := by
  have hlt' : level0 x.1.disk.manifestLevels < T := by rw [level0_logsApart hm.logsApart]; exact hlt
  cases hm with
  | loadFails | createFails | refused | torn | syncFails | runtimeFails => exact hlt'
  | loaded | createdEmpty | created | append | sync | remove | removeFails => exact ⟨hthr, hlt'⟩
  | @up r hst' =>
    rw [hst'] at hst
    have hlev : level0 r.levels < T := by rw [hst.1]; exact hlt
    exact ⟨hthr, rfl, rfl, fun since => by simp [Recovered.engine, FlushSection.caller], fun _ => hlev, by simp⟩

/-- A step of the engine with its task and channel keeps the pace. -/
theorem HostedMove.paced {h : Hosted Γ} (hpaced : h.Paced T) (hT : 0 < T) (hsound : h.Sound) (htidy : h.sys.Tidy)
    (hinv : (Regime.maintained Γ).Inv h.sys) {a : HostedAct} (ha : Regular T h a) {x : Hosted Γ × Out} (hm : HostedMove h a x) :
    x.1.Paced T := by
  have hdata : ∀ {e : Engine Γ}, h.sys.proc = .up e → DataUp ⟨h.sys.disk, h.sys.hist, e⟩ ∧
      HandlesOk ⟨h.sys.disk, h.sys.hist, e⟩ ∧ Listed ⟨h.sys.disk, h.sys.hist, e⟩ := by
    intro e hp
    simp only [Regime.Inv, hp] at hinv
    exact ⟨hinv.1, hinv.2.1.handles, hinv.2.2.1.2.1⟩
  have hpup : ∀ {e : Engine Γ}, h.sys.proc = .up e → LsmEngine.Paced T e h.worker := by
    intro e hp
    rwa [Hosted.Paced, hp] at hpaced
  have hok : ∀ {e : Engine Γ}, h.sys.proc = .up e → WorkerOk e h.worker := fun hp => (Hosted.ok_up hp).1 hsound.ok
  cases hm with
  | @restart a t o hs hre hd =>
    obtain ⟨hnf, hcr, hne, how⟩ := ha a rfl
    cases step_cases hs with
    | crash => simp [Act.isCrash] at hcr
    | openDir hp =>
      rw [Hosted.Paced, hp] at hpaced
      exact ⟨by simpa [Act.opensWith] using how, hpaced⟩
    | openStep hp hmove =>
      rw [Hosted.Paced, hp] at hpaced
      have hseq := hsound.seq
      rw [SeqInv, hp] at hseq
      exact hmove.paced hseq.2 hpaced.1 hpaced.2
    | openHandover => simp [Act.restarts] at hre
    | @node _ e _ hp hmove =>
      cases hmove with
      | @drop io hw hf hq hg =>
        -- the MANIFEST lists the levels
        have hstale : h.sys.hist.stale = false := by
          rw [Sys.Tidy, hp] at htidy
          exact htidy.2
        have hsame := (hdata hp).2.2.current hstale (by dsimp only; rw [hf]; rfl)
        have hlt := (hpup hp).between (.inl (hd rfl))
        obtain rfl : io = .ok := hnf
        change level0 (Disk.manifestLevels _) < T
        simp only [Node.drop, if_true]
        rw [level0_logsApart ((LogsApart.appendWal _ _ _).trans (.syncWal _ _)), hsame.level0]
        exact hlt
      | _ => simp [Act.restarts] at hre
  | @machine a t o hs hre hw =>
    obtain ⟨hnf, hcr, hne, how⟩ := ha a rfl
    rcases step_running hs hre with ⟨e, e', hp, ht, hmove⟩ | ⟨op, op', hp, ht, hst, -⟩
    · have := (hpup hp).nodeMove hT (hok hp) (hdata hp).1 (hdata hp).2.1 hnf hne hw hmove ht
      rw [ht]
      exact this
    · cases step_cases hs with
      | @openHandover k op₁ hp₁ =>
        rw [Hosted.Paced, hp₁] at hpaced
        unfold Opening.handover
        split
        · refine ⟨hpaced.1, ?_⟩
          rw [level0_logsApart (.appendWal _ _ _)]
          exact hpaced.2
        · rw [Hosted.Paced]
          dsimp only
          rw [hp₁]
          exact hpaced
      | crash | openDir | openStep => simp [Act.restarts] at hre
      | node hp₁ => simp [hp] at hp₁
  | @receive e k hp hw hk =>
    have hold := hpup hp
    rw [Hosted.Paced]
    dsimp only
    rw [hp]
    exact ⟨hold.threshold, hold.inWal, hold.flushers, hold.caller, fun _ => hold.between (.inl hw), by simp⟩
  | enter hw hs =>
    rcases step_running hs rfl with ⟨e, e', hp, ht, hmove⟩ | ⟨op, op', hp, -⟩
    · have hold := hpup hp
      cases hmove with
      | workerEnter hf => exact ⟨hold.threshold, hold.inWal, hold.flushers, by simp [FlushSection.caller], by simp, by simp⟩
    · simp [step, hp] at hs
  | @check e hp hw =>
    have hold := hpup hp
    rw [Hosted.Paced]
    dsimp only
    rw [hp]
    refine ⟨hold.threshold, hold.inWal, hold.flushers, hold.caller, fun hbetween => ?_, fun hc => ?_⟩
    · cases hneed : e.compactNeeded with
      | true => simp [hneed] at hbetween
      | false =>
        -- the task has looked: level 0 is below the threshold
        rw [Engine.compactNeeded, hold.threshold] at hneed
        rw [level0]
        cases hl : e.levels with
        | nil => simpa using hT
        | cons l0 rest => simpa [hl, Nat.ne_of_gt hT] using hneed
    · split at hc <;> simp at hc
  | compact hw hs =>
    rcases step_running hs rfl with ⟨e, e', hp, ht, hmove⟩ | ⟨op, op', hp, -⟩
    · have hold := hpup hp
      cases hmove with
      | compactNothing hf he =>
        refine ⟨hold.threshold, hold.inWal, hold.flushers, by simp [FlushSection.caller, Node.compactEnd], fun _ => ?_, by simp⟩
        change level0 e.levels < T
        rw [level0, he]
        exact hT
      | compactEnter hf he =>
        exact ⟨hold.threshold, hold.inWal, hold.flushers, by simp [FlushSection.caller], by simp, by simp [FlushSection.installed]⟩
    · simp [step, hp] at hs

theorem Hosted.paced_of_steps (hT : 0 < T) {h : Hosted Γ} (hrun : Steps (Hosted.step Γ) (Regular T) (Hosted.init Γ) h) :
    h.Paced T ∧ h.Sound := by
  induction hrun with
  | refl => exact ⟨hT, Hosted.sound_init⟩
  | tail hrun ha hs ih =>
    obtain ⟨htidy, hinv⟩ := tidy_of_steps (Hosted.steps hrun (fun _ _ _ hr hb => hr.smooth hb))
    exact ⟨(hosted_cases hs).paced ih.1 hT ih.2 htidy hinv ha, ih.2.step hs⟩

end LsmEngine
