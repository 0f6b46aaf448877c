import LsmEngine.Lemmas.Calls
import LsmEngine.Lemmas.Counters
import LsmEngine.Lemmas.Listed
import LsmEngine.Lemmas.Within
import LsmEngine.Script

/-!
# What survives a crash

With `sync_per_write`, a power loss at any step leaves every write that was acknowledged or seen, in order, and at most one
more. Without it, a kill at any step leaves a prefix of the writes, with every rotated generation and every write that was
acknowledged before the last `flush()` that returned `Ok` began; and a drop makes every write durable whose generation is active or
flushed, but not those of the immutables that are pending, whose logs were never fsynced.
-/

namespace LsmEngine

open Transition

variable {Γ : Ctx}

/-- What a kind of run keeps of a directory is in order. -/
theorem Regime.Inv.inOrder {R : Regime Γ} {s : Sys Γ} (h : R.Inv s) (hp : s.proc = .down) : InOrder s := by
  simp only [Regime.Inv, hp] at h
  exact InOrder.down hp h.1 h.2.1

/-- The directory that a process has left in `s` opens and reads as `M`, and `M` is what the next open has read, however often steps of the
kind `ok` interrupt it. -/
def Leaves (ok : Sys Γ → Act → Prop) (s : Sys Γ) (M : Key → Option Value) : Prop :=
  Reopens s M ∧ ∀ u, Steps (step Γ) ok s u → u.hist.past = s.hist.past ++ [s.hist.epoch] → u.hist.base = M

/-- Over all opens of a run: the map that the last one has read comes from first writes of every open before, as many as `cut` allows; a
running engine reads as that map with the writes that are applied; and that map with some first writes of the last open has `P`. -/
structure FirstWrites (cut : Epoch → Nat → Prop) (s : Sys Γ) (P : (Key → Option Value) → Prop) : Prop where
  base : Prefixes cut s.hist.past s.hist.base
  reads : ∀ e, s.proc = .up e → e.map s.disk = s.hist.mapAt s.hist.applied
  left : ∃ j, cut s.hist.epoch j ∧ P (s.hist.mapAt j)

/-- A running engine of a run of a kind is in order. -/
theorem Regime.Inv.data {R : Regime Γ} {s : Sys Γ} (h : R.Inv s) {e : Engine Γ} (hp : s.proc = .up e) : DataUp ⟨s.disk, s.hist, e⟩ := by
  simp only [Regime.Inv, hp] at h
  exact h.1

/-- What is left when the process ends is read by the next open. -/
theorem leaves_of_recovered (crashes : CrashKind → Prop) {ok : Sys Γ → Act → Prop} {s : Sys Γ} {M : Key → Option Value}
    (hp : s.proc = .down) (hseq : SeqInv s) (hdisk : DiskOk Γ s.disk) (hrec : s.disk.recovered Γ = M)
    (hcrash : crashes .powerLoss → (s.disk.crash .powerLoss).recovered Γ = M)
    (hok : ∀ t a, ok t a → a.NoFail ∧ ∀ κ, a = .crash κ → crashes κ) : Leaves ok s M := by
  refine ⟨hrec ▸ (InOrder.down hp hseq hdisk).reopens hp, fun u hu hnext => ?_⟩
  exact Regime.base_of_left hp hseq hdisk hrec hcrash (hu.mono (fun t a ha => hok t a ha)) hnext

/-- What a crash leaves is read by the next open, when no power is lost after a kill. -/
theorem Regime.Inv.leaves {R : Regime Γ} {s : Sys Γ} {κ : CrashKind} (h : R.Inv (s.crashed κ)) {ok : Sys Γ → Act → Prop}
    (hok : ∀ t a, ok t a → a.NoFail ∧ (a = .crash .powerLoss → κ = .powerLoss)) :
    Leaves ok (s.crashed κ) ((s.disk.crash κ).recovered Γ) := by
  simp only [Regime.Inv, Sys.crashed] at h
  refine leaves_of_recovered (fun κ' => κ' = .powerLoss → κ = .powerLoss) rfl h.1 h.2.1 rfl (fun hκ => ?_) (fun t a ha => ?_)
  · dsimp only [Sys.crashed]
    rw [hκ rfl, Disk.crash_crash]
  · obtain ⟨hno, hpower⟩ := hok t a ha
    exact ⟨hno, fun κ' ha hκ' => hpower (by rw [ha, hκ'])⟩

/-- A drop leaves the map with every write since the last open. -/
theorem dropped_cases {s t : Sys Γ} {o : Out} (hdata : ∀ e, s.proc = .up e → DataUp ⟨s.disk, s.hist, e⟩)
    (hs : step Γ s (.drop .ok) = some (t, o)) : t.proc = .down ∧ t.disk.recovered Γ = s.hist.mapAt s.hist.log.length := by
  generalize hx : (t, o) = x at hs
  cases step_cases hs with
  | @node _ e _ hp hm =>
    cases hm with
    | drop hw =>
      obtain ⟨rfl, -⟩ := Prod.mk.inj hx
      exact ⟨rfl, ((hdata e hp).dropped hw).2.1⟩

/-- In a run in which nothing fails, a crash leaves first writes of the last open over the map that open has read. -/
theorem Regime.firstWrites {options : LsmOptions → Prop} {crashes : CrashKind → Prop} {cut : Epoch → Nat → Prop} {extra : Node Γ → Prop}
    (hR : (Regime.prefixes Γ options crashes cut extra).Stable) {s : Sys Γ} (h : (Regime.prefixes Γ options crashes cut extra).Inv s)
    {κ : CrashKind} (hκ : crashes κ) {P : (Key → Option Value) → Prop}
    (hP : (Regime.prefixes Γ options crashes cut extra).Inv (s.crashed κ) → P ((s.disk.crash κ).recovered Γ)) :
    FirstWrites cut s P := by
  have hok : (Regime.prefixes Γ options crashes cut extra).ok s (.crash κ) :=
    ⟨trivial, fun _ ho => by simp at ho, fun κ' h' => by rwa [← Act.crash.inj h']⟩
  have hinv := Regime.inv_step hR h hok (step_crash s κ)
  have hleft := hP hinv
  simp only [Regime.Inv, Sys.crashed] at hinv
  obtain ⟨hbase, j, hj, hrec⟩ := hinv.2.2.1
  exact ⟨hbase, fun e hp => (h.data hp).map_eq, j, hj, by rwa [← show (s.disk.crash κ).recovered Γ = s.hist.mapAt j from hrec]⟩

/-- A running engine of a run in which nothing fails counts its writes, and its readers stand where they should. -/
theorem Regime.Inv.counts {R : Regime Γ} {s : Sys Γ} (h : R.Inv s) (hr : ∀ n : Node Γ, R.up n → Reading n) {e : Engine Γ}
    (hp : s.proc = .up e) : CountsOk ⟨s.disk, s.hist, e⟩ ∧ Reading ⟨s.disk, s.hist, e⟩ := by
  simp only [Regime.Inv, hp] at h
  exact ⟨h.1.counts, hr _ h.2⟩

/-! ## Every write is fsynced -/

/-- The options of a call of `open_with_options`. -/
def Act.opens : Act → Option LsmOptions
  | .openDir options => some options
  | _ => none

/-- The actions of a run in which nothing fails and every engine is opened with `sync_per_write`. -/
def SyncsWrites (_ : Sys Γ) (a : Act) : Prop := a.NoFail ∧ ∀ options ∈ a.opens, options.syncPerWrite = true

instance (s : Sys Γ) (a : Act) : Decidable (SyncsWrites s a) := inferInstanceAs (Decidable (_ ∧ _))

theorem SyncsWrites.ok {s : Sys Γ} {a : Act} (h : SyncsWrites s a) : (Regime.synced Γ).ok s a :=
  ⟨h.1, fun o ho => h.2 o (by rw [ho]; rfl), fun _ _ => trivial⟩

/-- With every write fsynced and no failure, at any step of any run: a power loss leaves the map that the last open has read with the first
writes since, namely every write that has left the wal mutex, so every write that returned `Ok`, and every write whose effect a `get` has
returned, and at most one more than have left the wal mutex; the next open reads that, whatever power losses come before it is complete.
So it was at every open before. -/
theorem synced_writes_survive {s : Sys Γ} (h : Steps (step Γ) SyncsWrites (Sys.init Γ) s) :
    FirstWrites SyncedCut s (Leaves SyncsWrites (s.crashed .powerLoss)) ∧
      ∀ a t o, SyncsWrites s a → step Γ s a = some (t, o) → Acknowledges s t o := by
  have hinv := Regime.inv_of_steps (Regime.synced_sound Γ) (h.mono (fun _ _ ha => ha.ok))
  constructor
  · exact Regime.firstWrites (Regime.synced_sound Γ).toStable hinv trivial
      (fun hcrashed => hcrashed.leaves (fun _ _ ha => ⟨ha.1, fun _ => rfl⟩))
  · intro a t o _ hs
    exact acknowledges_step (lastLogged_of_steps h) (fun e hp => hinv.counts (fun n hn => hn.1.reading) hp) hs

/-- One write has been acknowledged and a power loss has come; after the next open two more have been, and a third is in the log, not
fsynced, when the power is lost again. -/
theorem synced_writes_survive_third :
    ∃ s : Sys Ctx.concrete, s.hist.past.length = 2 ∧ s.hist.completed = 2 ∧ s.hist.log.length = 3 ∧
      FirstWrites SyncedCut s (Leaves SyncsWrites (s.crashed .powerLoss)) := by
  obtain ⟨s, hrun, hp⟩ := exists_steps_of_play (step Ctx.concrete) SyncsWrites (Sys.init _)
    (Script.openDir ⟨0, true, 0⟩ 0 0 ++ Script.syncedPut [3] [7] ++ [.crash .powerLoss] ++ Script.openDir ⟨0, true, 0⟩ 1 1 ++
      Script.syncedPut [1] [7] ++ Script.syncedPut [2] [8] ++ [.write ⟨.put, [1], [9]⟩ .ok])
    (fun s => decide (s.hist.past.length = 2 ∧ s.hist.completed = 2 ∧ s.hist.log.length = 3)) (by decide +kernel)
  obtain ⟨h1, h2, h3⟩ := of_decide_eq_true hp
  exact ⟨s, h1, h2, h3, (synced_writes_survive hrun).1⟩

/-! ## Only the process ends -/

/-- The actions of a run in which nothing fails and the process can be killed, but no power is lost. -/
def OnlyKills (_ : Sys Γ) (a : Act) : Prop := a.NoFail ∧ a ≠ .crash .powerLoss

instance (s : Sys Γ) (a : Act) : Decidable (OnlyKills s a) := inferInstanceAs (Decidable (_ ∧ _))

theorem OnlyKills.ok {s : Sys Γ} {a : Act} (h : OnlyKills s a) : (Regime.killed Γ).ok s a := by
  refine ⟨h.1, fun _ _ => trivial, fun κ hκ => ?_⟩
  cases κ with
  | kill => rfl
  | powerLoss => exact absurd hκ h.2

/-- With no failure, at any step of any run: a kill leaves the map that the last open has read with the first writes since, namely every
write of a generation whose rotation is complete and every write that had completed when a `flush()` that returned `Ok` began; a drop leaves
all of them. The next open reads what is left, whatever kills come before it is complete. So it was at every open before. -/
theorem killed_process_keeps_first_writes {s : Sys Γ} (h : Steps (step Γ) OnlyKills (Sys.init Γ) s) :
    FirstWrites KilledCut s (Leaves OnlyKills (s.crashed .kill)) ∧
      (∀ t, step Γ s (.drop .ok) = some (t, .silent) → Leaves OnlyKills t (s.hist.mapAt s.hist.log.length)) ∧
      ∀ a t o, OnlyKills s a → step Γ s a = some (t, o) → Acknowledges s t o := by
  have hinv := Regime.inv_of_steps (Regime.killed_sound Γ) (h.mono (fun _ _ ha => ha.ok))
  refine ⟨?_, ?_, ?_⟩
  · exact Regime.firstWrites (Regime.killed_sound Γ).toStable hinv rfl
      (fun hcrashed => hcrashed.leaves (fun _ _ ha => ⟨ha.1, fun hpower => absurd hpower ha.2⟩))
  · intro t hs
    have hdown := Regime.inv_step (Regime.killed_sound Γ).toStable hinv (OnlyKills.ok (a := .drop .ok) ⟨rfl, by simp⟩) hs
    obtain ⟨hp, hrec⟩ := dropped_cases (fun e hp => hinv.data hp) hs
    simp only [Regime.Inv, hp] at hdown
    exact leaves_of_recovered (fun κ => κ = .kill) hp hdown.1 hdown.2.1 hrec (fun hc => by simp at hc)
      (fun _ _ ha => ⟨ha.1, ha.ok.2.2⟩)
  · intro a t o _ hs
    exact acknowledges_step (lastLogged_of_steps h) (fun e hp => hinv.counts (fun n hn => hn.1.reading) hp) hs

/-- A write that is never flushed survives a drop; after the next open one write is flushed, and of the second, part of the frame has
reached the file when the process is killed. -/
theorem killed_process_keeps_flushed :
    ∃ s : Sys Ctx.concrete, s.hist.past.length = 2 ∧ s.hist.flushAck = 1 ∧ s.hist.log.length = 2 ∧
      FirstWrites KilledCut s (Leaves OnlyKills (s.crashed .kill)) := by
  obtain ⟨s, hrun, hp⟩ := exists_steps_of_play (step Ctx.concrete) OnlyKills (Sys.init _)
    (Script.openDir ⟨0, false, 0⟩ 0 0 ++ Script.put [3] [7] ++ [.drop .ok] ++ Script.openDir ⟨0, false, 0⟩ 1 1 ++
      Script.put [1] [7] ++ Script.flush ++ Script.put [1] [9] ++ [.handover 5])
    (fun s => decide (s.hist.past.length = 2 ∧ s.hist.flushAck = 1 ∧ s.hist.log.length = 2)) (by decide +kernel)
  obtain ⟨h1, h2, h3⟩ := of_decide_eq_true hp
  exact ⟨s, h1, h2, h3, (killed_process_keeps_first_writes hrun).1⟩

/-! ## A drop -/

/-- All of the log is fsynced. -/
def Disk.fsynced (d : Disk) (seq : Nat) : Bool := (d.wals.get seq).all (fun f => decide (f.synced = f.bytes.length))

/-- The actions of a run in which nothing fails and the process ends by a drop. -/
def OnlyDrops (_ : Sys Γ) (a : Act) : Prop := a.NoFail ∧ a.isCrash = false

instance (s : Sys Γ) (a : Act) : Decidable (OnlyDrops s a) := inferInstanceAs (Decidable (_ ∧ _))

/-- With no failure, after a drop that finds the logs of the pending immutables fsynced and a power loss, the directory opens and
reads as all the writes. -/
theorem drop_is_durable {s : Sys Γ} {e : Engine Γ} (h : Steps (step Γ) OnlyDrops (Sys.init Γ) s) (hp : s.proc = .up e)
    (hq : (Node.mk s.disk s.hist e).quiet = true) (hf : ∀ p ∈ e.immutables, s.disk.fsynced p.walSeq = true) :
    ∃ t, step Γ s (.drop .ok) = some (t, .silent) ∧
      Reopens (t.crashed .powerLoss) (runWrites s.hist.writes (fun _ => none)) := by
  have hinv := Regime.inv_of_steps (Regime.maintained_sound Γ) (h.mono (fun _ _ ha => ⟨ha.2, ha.1.harmless⟩))
  simp only [Regime.Inv, hp] at hinv
  obtain ⟨hdata, hun, -, ws, hws, hmap⟩ := hinv
  have hs : step Γ s (.drop .ok) = some (Node.drop ⟨s.disk, s.hist, e⟩ .ok, .silent) := by
    conv_lhs => rw [toSys_of_up hp]
    exact step_toSys (by simp only [Node.act, hq, if_true])
  refine ⟨_, hs, ?_⟩
  -- every log but the active one belongs to an immutable, and is all there after the power loss
  have hrec : ((Node.drop ⟨s.disk, s.hist, e⟩ .ok).disk.crash .powerLoss).recovered Γ = runWrites s.hist.writes (fun _ => none) := by
    rw [hdata.dropped_powerLoss, Hist.mapAt, List.take_length]
    · rw [show s.hist.writes = ws from hws]
      exact hmap
    · intro g hg hne
      obtain ⟨f, hget⟩ := hdata.logs.file hg
      have himm : ∃ p ∈ e.immutables, p.walSeq = g := by
        rw [logs_of_quiet hq, List.mem_append, List.mem_map, List.mem_singleton] at hg
        exact hg.resolve_right hne
      obtain ⟨p, hpm, rfl⟩ := himm
      have hsync : f.synced = f.bytes.length := by simpa [Disk.fsynced, show s.disk.wals.get p.walSeq = some f from hget] using hf p hpm
      refine Nat.le_trans ?_ (kept_of_synced hdata.logs hget .powerLoss)
      rw [← hun.whole _ f hget, walStream_of_ne hget hne, hsync]
  have hinv' := seqInv_step (seqInv_step (seqInv_of_steps h) hs) (step_crash _ .powerLoss)
  have hdisk : DiskOk Γ (Sys.crashed (Node.drop ⟨s.disk, s.hist, e⟩ .ok) .powerLoss).disk :=
    (Regime.diskOk_drop hdata).crash .powerLoss
  have hre := (InOrder.down rfl hinv' hdisk).reopens rfl
  rwa [show (Sys.crashed (Node.drop ⟨s.disk, s.hist, e⟩ .ok) .powerLoss).disk.recovered Γ = _ from hrec] at hre

/-- A write fills the MemTable, which is frozen. Its log is never fsynced, the drop fsyncs the next one, and the power loss takes
the write. -/
theorem frozen_write_is_lost :
    ¬∀ (s : Sys Ctx.concrete) (e : Engine Ctx.concrete), Steps (step Ctx.concrete) OnlyDrops (Sys.init _) s → s.proc = .up e →
      (Node.mk s.disk s.hist e).quiet = true → ∃ t, step Ctx.concrete s (.drop .ok) = some (t, .silent) ∧
        Reopens (t.crashed .powerLoss) (runWrites s.hist.writes (fun _ => none)) := by
  intro hall
  obtain ⟨s, e, hrun, hproc, hp⟩ := exists_up_of_play OnlyDrops (Sys.init Ctx.concrete)
    (Script.openDir ⟨1, false, 0⟩ 0 0 ++ [.write ⟨.put, [1], [7]⟩ .ok] ++ List.replicate 6 (.walStep .ok))
    (fun s e => (Node.mk s.disk s.hist e).quiet && decide (runWrites s.hist.writes (fun _ => none) [1] = some [7]) &&
      (step _ s (.drop .ok)).any (fun r => (runAct _ 20 (.openDir ⟨1, false, 0⟩) (r.1.crashed .powerLoss)).any
        (fun r => decide (replies _ 20 (.get [1]) r.1 = some [.value (.ok none)])))) (by decide +kernel)
  simp only [Bool.and_eq_true, decide_eq_true_eq] at hp
  obtain ⟨⟨hq, hwrite⟩, hafter⟩ := hp
  obtain ⟨t, hdrop, hreopens⟩ := hall s e hrun hproc hq
  rw [hdrop, Option.any_some] at hafter
  have := hreopens.value hafter
  rw [hwrite] at this
  simp at this

/-- One write is flushed, and the next has filled its MemTable, which waits behind a log that is fsynced. -/
theorem drop_is_durable_flushed :
    ∃ (s t : Sys Ctx.concrete) (e : Engine Ctx.concrete), s.proc = .up e ∧ e.levels.flatten.length = 1 ∧ e.immutables.length = 1 ∧
      s.hist.log.length = 2 ∧ step Ctx.concrete s (.drop .ok) = some (t, .silent) ∧
      Reopens (t.crashed .powerLoss) (runWrites s.hist.writes (fun _ => none)) := by
  obtain ⟨s, e, hrun, hproc, hp⟩ := exists_up_of_play OnlyDrops (Sys.init Ctx.concrete)
    (Script.openDir ⟨1, true, 0⟩ 0 0 ++ [.write ⟨.put, [1], [7]⟩ .ok] ++ List.replicate 7 (.walStep .ok) ++
      [.flush, .walStep .ok, .walStep .ok] ++ Script.flushPass 1 ++ [.write ⟨.put, [1], [9]⟩ .ok] ++ List.replicate 7 (.walStep .ok))
    (fun s e => (Node.mk s.disk s.hist e).quiet && e.immutables.all (fun p => s.disk.fsynced p.walSeq) &&
      decide (e.levels.flatten.length = 1 ∧ e.immutables.length = 1 ∧ s.hist.log.length = 2)) (by decide +kernel)
  simp only [Bool.and_eq_true, decide_eq_true_eq, List.all_eq_true] at hp
  obtain ⟨⟨hq, hsynced⟩, hlevels, himms, hlog⟩ := hp
  obtain ⟨t, hs, hre⟩ := drop_is_durable hrun hproc hq hsynced
  exact ⟨s, t, e, hproc, hlevels, himms, hlog, hs, hre⟩

end LsmEngine
