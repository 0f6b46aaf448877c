import LsmEngine.Lemmas.Calls
import LsmEngine.Lemmas.Counters
import LsmEngine.Lemmas.Listed
import LsmEngine.Lemmas.Within
import LsmEngine.Script

/-!
# Maintenance that fails

A flush pass, a compaction and an open write tables and the MANIFEST and remove files, and each of these operations can fail.
A drop and a reopen then read what was read before, as long as no generation that has been flushed keeps its log: a flush pass
that fails after its first commit forgets which logs it has made redundant, and a log that is not removed is replayed over
whatever was flushed after it.
-/

namespace LsmEngine

open Transition

variable {Γ : Ctx}

/-! ## Logs that outlive their generation -/

/-- The holder of `flush_lock` writes a table, writes the MANIFEST or removes a file. -/
def FlushSection.maintains : FlushSection → Bool
  | .building _ _ _ _ _ _ | .merging _ _ _ _ | .manifest _ _ _ | .unlinkWals _ _ | .unlinkInputs _ => true
  | _ => false

/-- The step writes a table, writes the MANIFEST or removes a file. -/
def Sys.maintains (s : Sys Γ) : Act → Bool
  | .openStep _ =>
    match s.proc with
    | .opening o => !o.stage.failsSafely
    | _ => false
  | .flushStep _ =>
    match s.proc with
    | .up e => e.flush.maintains
    | _ => false
  | _ => false

/-- The step, should it fail, leaves no log behind: it is not in a flush pass after its first commit and does not remove a
log. -/
def Sys.failsSafely (s : Sys Γ) : Act → Bool
  | .openStep _ =>
    match s.proc with
    | .opening o => o.stage.failsSafely
    | _ => true
  | .flushStep _ =>
    match s.proc with
    | .up e => e.flush.failsSafely
    | _ => true
  | _ => true

/-- The actions of a run without crashes in which writing a table, writing the MANIFEST and removing a file can fail, and nothing
else. -/
def OnlyMaintenanceFails (s : Sys Γ) (a : Act) : Prop := a.isCrash = false ∧ (a.NoFail ∨ s.maintains a = true)

/-- What fails leaves no log behind. -/
def LosesNoLog (s : Sys Γ) (a : Act) : Prop := a.NoFail ∨ s.failsSafely a = true

instance (s : Sys Γ) (a : Act) : Decidable (OnlyMaintenanceFails s a) := inferInstanceAs (Decidable (_ ∧ (_ ∨ _)))

instance (s : Sys Γ) (a : Act) : Decidable (LosesNoLog s a) := inferInstanceAs (Decidable (_ ∨ _))

/-- A step that writes files of maintenance opens no reader. -/
theorem opensReader_of_maintains {n : Node Γ} (h : n.eng.flush.maintains = true) : n.opensReader = false := by
  cases hf : n.eng.flush with
  | reading => simp [hf, FlushSection.maintains] at h
  | _ => simp [Node.opensReader, hf]

/-- A failure of maintenance that loses no log is harmless. -/
theorem OnlyMaintenanceFails.harmless {s : Sys Γ} {a : Act} (h : OnlyMaintenanceFails s a) (hl : LosesNoLog s a) :
    Harmless s a := by
  rcases h.2 with hok | hm
  · exact hok.harmless
  rcases hl with hok | hl
  · exact hok.harmless
  cases hp : s.proc with
  | down => simp only [Harmless, hp]
  | opening o =>
    cases a with
    | openStep io => simp [Sys.maintains, Sys.failsSafely, hp] at hm hl; simp [hm] at hl
    | _ => simp only [Harmless, hp]
  | up e =>
    cases a with
    | flushStep io =>
      simp only [Sys.maintains, Sys.failsSafely, hp] at hm hl
      simp only [Harmless, hp]
      exact .inr ⟨hl, opensReader_of_maintains (n := ⟨s.disk, s.hist, e⟩) hm⟩
    | _ => simp [Sys.maintains, hp] at hm

/-- An engine that nobody uses, of a run in which what failed left no log behind: the logs on disk are those of the generations
that are not flushed; and after a drop the directory opens, and every `get` returns what it returned before the drop. -/
theorem drop_keeps_reads {s : Sys Γ} {e : Engine Γ}
    (h : Steps (step Γ) (fun s a => OnlyMaintenanceFails s a ∧ LosesNoLog s a) (Sys.init Γ) s) (hp : s.proc = .up e)
    (hq : (Node.mk s.disk s.hist e).quiet = true) :
    s.disk.wals.keys = e.generations ∧
      ∃ M t, Reads s M ∧ step Γ s (.drop .ok) = some (t, .silent) ∧ Reopens t M := by
  have hin : InOrder s :=
    Regime.inv_of_steps (Regime.undisturbed_sound Γ) (h.mono (fun _ _ ha => ha.1.harmless ha.2))
  have hidle := hin.idle hp hq
  obtain ⟨t, hs, hint, hpt, hmap⟩ := hidle.drop
  refine ⟨?_, _, t, hidle.reads, hs, hmap ▸ hint.reopens hpt⟩
  rw [(hin.up hp).1.logs.keys, logs_of_quiet hq, Engine.generations, Engine.generation, (quiet_parts hq).1]

/-- A flush whose MANIFEST write fails leaves the log of its generation behind. The next write of the key is flushed, and the
reopen then brings the first value back. -/
theorem stale_log_comes_back :
    ¬∀ (s : Sys Ctx.concrete) (e : Engine Ctx.concrete), Steps (step Ctx.concrete) OnlyMaintenanceFails (Sys.init _) s →
      s.proc = .up e → (Node.mk s.disk s.hist e).quiet = true →
      ∃ M t, Reads s M ∧ step Ctx.concrete s (.drop .ok) = some (t, .silent) ∧ Reopens t M := by
  intro hall
  obtain ⟨s, e, hrun, hproc, hp⟩ := exists_up_of_play OnlyMaintenanceFails (Sys.init Ctx.concrete)
    (Script.openDir ⟨0, false, 0⟩ 0 0 ++ Script.put [1] [7] ++ Script.flushStart ++ [.flushEnter 0] ++
      List.replicate 7 (.flushStep .ok) ++ [.flushStep (.fail 0)] ++ Script.put [1] [8] ++ Script.flush)
    (fun s e => (Node.mk s.disk s.hist e).quiet && decide (replies _ 20 (.get [1]) s = some [.value (.ok (some [8]))]) &&
      (step _ s (.drop .ok)).any (fun r => (runAct _ 20 (.openDir ⟨0, false, 0⟩) r.1).any
        (fun r => decide (replies _ 20 (.get [1]) r.1 = some [.value (.ok (some [7]))])))) (by decide +kernel)
  simp only [Bool.and_eq_true, decide_eq_true_eq] at hp
  obtain ⟨⟨hq, hbefore⟩, hafter⟩ := hp
  obtain ⟨M, t, hreads, hdrop, hreopens⟩ := hall s e hrun hproc hq
  rw [hdrop, Option.any_some] at hafter
  have h1 := hreads.value hbefore
  have h2 := hreopens.value hafter
  rw [h1] at h2
  simp at h2

/-- A compaction whose MANIFEST write fails, between two flushes. -/
theorem drop_keeps_reads_compacted :
    ∃ (s : Sys Ctx.concrete) (e : Engine Ctx.concrete), s.proc = .up e ∧ s.hist.stale = true ∧
      ∃ M t, Reads s M ∧ step Ctx.concrete s (.drop .ok) = some (t, .silent) ∧ Reopens t M := by
  obtain ⟨s, e, hrun, hproc, hp⟩ := exists_up_of_play
    (fun s a => OnlyMaintenanceFails s a ∧ LosesNoLog s a) (Sys.init Ctx.concrete)
    (Script.openDir ⟨0, false, 0⟩ 0 0 ++ Script.put [1] [7] ++ Script.flush ++ [.compactEnter] ++
      List.replicate 8 (.flushStep .ok) ++ [.flushStep (.fail 0)])
    (fun s e => (Node.mk s.disk s.hist e).quiet && s.hist.stale) (by decide +kernel)
  simp only [Bool.and_eq_true] at hp
  exact ⟨s, e, hproc, hp.2, (drop_keeps_reads hrun hproc hp.1).2⟩

/-! ## A flush that finds nothing to do -/

/-- The holder of `flush_lock` writes a table or the MANIFEST. -/
def FlushSection.writesFile : FlushSection → Bool
  | .building _ _ _ _ _ _ | .merging _ _ _ _ | .manifest _ _ _ => true
  | _ => false

/-- The step writes a table or the MANIFEST. -/
def Sys.writesFile (s : Sys Γ) : Act → Bool
  | .flushStep _ =>
    match s.proc with
    | .up e => e.flush.writesFile
    | _ => false
  | _ => false

/-- The actions of a run without crashes in which writing a table and writing the MANIFEST can fail, and nothing else. -/
def OnlyWritesFail (s : Sys Γ) (a : Act) : Prop := a.isCrash = false ∧ (a.NoFail ∨ s.writesFile a = true)

instance (s : Sys Γ) (a : Act) : Decidable (OnlyWritesFail s a) := inferInstanceAs (Decidable (_ ∧ (_ ∨ _)))

/-- The pass of a `flush()` finds nothing to flush, and takes the MANIFEST to be current. -/
def FlushSection.skips (imms : List PendingImm) : FlushSection → Bool
  | .draining (.flush _) [] => imms.isEmpty
  | _ => false

/-- The step ends a `flush()` without a write of the MANIFEST. -/
def Sys.skips (s : Sys Γ) : Act → Bool
  | .flushStep _ =>
    match s.proc with
    | .up e => e.flush.skips e.immutables
    | _ => false
  | _ => false

/-- A `flush()` that finds nothing to flush comes when the last write of the MANIFEST has not failed. -/
def SkipsCurrent (s : Sys Γ) (a : Act) : Prop := s.skips a = true → s.hist.stale = false

instance (s : Sys Γ) (a : Act) : Decidable (SkipsCurrent s a) := inferInstanceAs (Decidable (_ → _))

/-- The MANIFEST lists the levels of the engine; and after a power loss the directory opens, and every key has a value it has had
after the first `since` writes since the last open. -/
def DurableSince (t : Sys Γ) (since : Nat) : Prop :=
  ∃ e, t.proc = .up e ∧ (∃ m, loadManifest t.disk = .ok m ∧ SameLevels m.levels e.levels) ∧
    ∃ M, Reopens (t.crashed .powerLoss) M ∧
      ∀ k, ∃ j, since ≤ j ∧ j ≤ t.hist.log.length ∧ M k = runWrites (t.hist.earlier ++ t.hist.log.take j) (fun _ => none) k

/-- A failure to write is one of maintenance. -/
theorem OnlyWritesFail.maintenance {s : Sys Γ} {a : Act} (h : OnlyWritesFail s a) : OnlyMaintenanceFails s a := by
  refine ⟨h.1, h.2.imp_right (fun hw => ?_)⟩
  cases a with
  | flushStep io =>
    cases hp : s.proc with
    | up e =>
      simp only [Sys.writesFile, Sys.maintains, hp] at hw ⊢
      cases hf : e.flush <;> simp_all [FlushSection.writesFile, FlushSection.maintains]
    | _ => simp [Sys.writesFile, hp] at hw
  | _ => simp [Sys.writesFile] at hw

/-- What is known when a `flush()` is about to return `Ok`: the MANIFEST lists the levels. -/
theorem Listed.at_flushed {n : Node Γ} (h : Listed n) {since : Nat}
    (hcase : (n.eng.flush = .draining (.flush since) [] ∧ n.eng.immutables = []) ∨
      n.eng.flush = .unlinkWals (.flush since) [])
    (hskip : n.eng.flush.skips n.eng.immutables = true → n.hist.stale = false) :
    SameLevels n.disk.manifestLevels n.eng.levels := by
  rcases hcase with ⟨hf, hi⟩ | hf
  · exact h.current (hskip (by rw [hf, hi]; rfl)) (by rw [hf]; rfl)
  · exact h.current (h.written _ _ hf) (by rw [hf]; rfl)

/-- A `flush()` that returns `Ok` is a durability point, in a run in which what failed left no log behind and no `flush()` has found
nothing to flush after a write of the MANIFEST that failed. -/
theorem flush_is_durable {s t : Sys Γ} {a : Act} {since : Nat}
    (h : Steps (step Γ) (fun s a => OnlyWritesFail s a ∧ LosesNoLog s a ∧ SkipsCurrent s a) (Sys.init Γ) s)
    (ha : OnlyWritesFail s a ∧ LosesNoLog s a ∧ SkipsCurrent s a)
    (hs : step Γ s a = some (t, .flushed since (.ok ()))) : DurableSince t since := by
  have hok : ∀ (s : Sys Γ) (a : Act), OnlyWritesFail s a ∧ LosesNoLog s a ∧ SkipsCurrent s a → (Regime.maintained Γ).ok s a :=
    fun s a ha => ⟨ha.1.1, ha.1.maintenance.harmless ha.2.1⟩
  have hinv := Regime.inv_of_steps (Regime.maintained_sound Γ) (h.mono hok)
  have hinv' := Regime.inv_step (Regime.maintained_sound Γ).toStable hinv (hok s a ha) hs
  obtain ⟨e, io, r, hp, rfl, hm, rfl, ho⟩ := step_flushed hs
  obtain ⟨hcase, hr⟩ := hm.flushed ho
  simp only [Regime.Inv, hp] at hinv
  obtain ⟨hdata', hup'⟩ := hinv'
  refine ⟨r.1.eng, rfl, ?_, ?_⟩
  · obtain ⟨m, hm, hlev⟩ := loadManifest_ok hdata'.seq.settled hdata'.seq.listed
    refine ⟨m, hm, ?_⟩
    rw [hlev, hr]
    refine hinv.2.2.1.2.1.at_flushed hcase (fun hskip => ha.2.2 ?_)
    simp only [Sys.skips, hp]
    exact hskip
  · have hkeeps := hup'.2.1.1.keeps hdata' (cut_crash hdata'.seq hdata'.logs .powerLoss)
      (fun g f hf => kept_of_synced hdata'.logs hf .powerLoss)
    have hseq : SeqInv (r.1.toSys.crashed .powerLoss) := hdata'.seq.down.crash .powerLoss
    refine ⟨_, (InOrder.down rfl hseq (Regime.diskOk_crash hdata' .powerLoss)).reopens rfl, fun k => ?_⟩
    obtain ⟨j, hack, hj, hval, -⟩ := hkeeps k
    refine ⟨j, (hm.acknowledges ho).trans hack, hj, hval.trans ?_⟩
    rw [Hist.mapAt, hup'.2.1.2.2, runWrites_append]

/-- A compaction whose MANIFEST write fails has changed the levels. The next `flush()` has nothing to flush, returns `Ok` and leaves
the MANIFEST as it is. -/
theorem flush_leaves_manifest_behind :
    ¬∀ (s t : Sys Ctx.concrete) (a : Act) (since : Nat), Steps (step Ctx.concrete) OnlyWritesFail (Sys.init _) s →
      OnlyWritesFail s a → step Ctx.concrete s a = some (t, .flushed since (.ok ())) → DurableSince t since := by
  intro hall
  obtain ⟨s, hrun, hp⟩ := exists_steps_of_play (step Ctx.concrete) OnlyWritesFail (Sys.init _)
    (Script.openDir ⟨0, false, 0⟩ 0 0 ++ Script.put [1] [7] ++ Script.flush ++ [.compactEnter] ++
      List.replicate 8 (.flushStep .ok) ++ [.flushStep (.fail 0)] ++ [.flush, .walStep .ok, .walStep .ok, .flushEnter 0])
    (fun s => leadsTo (step _ s (.flushStep .ok)) (.flushed 1 (.ok ())) (fun t => t.runs (fun t e =>
      decide (e.levels[0]?.getD [] = []) && decide (t.disk.manifestLevels[0]?.getD [] ≠ [])))) (by decide +kernel)
  obtain ⟨t, hs, ht⟩ := leadsTo_iff.1 hp
  obtain ⟨e, hpt, he⟩ := Sys.runs_iff.1 ht
  simp only [Bool.and_eq_true, decide_eq_true_eq] at he
  obtain ⟨e', hpt', ⟨m, hm, hlev⟩, -⟩ := hall s t (.flushStep .ok) 1 hrun ⟨rfl, .inl rfl⟩ hs
  obtain rfl := Proc.up.inj (hpt.symm.trans hpt')
  have hlist : m.levels = t.disk.manifestLevels := loadManifest_levels hm
  exact he.2 (by rw [← hlist, hlev 0, he.1])

/-- The write of a table fails, and the `flush()` is called again. -/
theorem flush_is_durable_retried :
    ∃ t : Sys Ctx.concrete, t.hist.log.length = 2 ∧ DurableSince t 2 := by
  obtain ⟨s, hrun, hp⟩ := exists_steps_of_play (step Ctx.concrete)
    (fun s a => OnlyWritesFail s a ∧ LosesNoLog s a ∧ SkipsCurrent s a) (Sys.init _)
    (Script.openDir ⟨0, false, 0⟩ 0 0 ++ Script.put [1] [7] ++ Script.flushStart ++
      [.flushEnter 0, .flushStep .ok, .flushStep .ok, .flushStep (.fail 0)] ++ Script.put [1] [8] ++ Script.flushStart ++
      [.flushEnter 0] ++ List.replicate 19 (.flushStep .ok))
    (fun s => decide (SkipsCurrent s (.flushStep .ok)) &&
      leadsTo (step _ s (.flushStep .ok)) (.flushed 2 (.ok ())) (fun t => decide (t.hist.log.length = 2))) (by decide +kernel)
  rw [Bool.and_eq_true, decide_eq_true_eq] at hp
  obtain ⟨t, hs, hlen⟩ := leadsTo_iff.1 hp.2
  exact ⟨t, of_decide_eq_true hlen, flush_is_durable (a := .flushStep .ok) hrun ⟨⟨rfl, .inl rfl⟩, .inl rfl, hp.1⟩ hs⟩

end LsmEngine
