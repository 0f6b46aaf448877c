import LsmEngine.Lemmas.Backlog
import LsmEngine.Lemmas.Schedule
import LsmEngine.Script

/-!
# The background task keeps up

No message is lost that a frozen MemTable needs, everything in progress comes to its end whoever is scheduled, and level 0 does not
grow past the threshold.
-/

namespace LsmEngine

open Transition

variable {Γ : Ctx}

/-- The actions of a call by a thread, for the machine with its task. -/
def Script.calls (as : List Act) : List HostedAct := as.map HostedAct.act

/-- A `put` that freezes the active MemTable and sends its message, after an open with a threshold of one byte. -/
def Script.putFreezing (k : Key) (v : Value) : List HostedAct :=
  Script.calls ([.write ⟨.put, k, v⟩ .ok] ++ List.replicate 6 (.walStep .ok))

/-! ## Wake-ups -/

/-- In a settled state nobody holds a lock or waits, and no message is left. -/
theorem Hosted.settled_up {h : Hosted Γ} {e : Engine Γ} (hp : h.sys.proc = .up e) (hs : h.settled = true) :
    e.wal = .free ∧ e.flush = .free ∧ e.flushers = [] ∧ h.notes = 0 ∧ h.worker = .waiting := by
  simp only [Hosted.settled, hp, Bool.and_eq_true, decide_eq_true_eq] at hs
  obtain ⟨hq, hk, hw⟩ := hs
  unfold Node.quiet at hq
  split at hq
  · rename_i h1 h2 h3 h4
    exact ⟨h1, h2, h3, hk, hw⟩
  · simp at hq

/-- In every run in which the tables of flush passes can be written, whatever else fails: while a frozen MemTable waits for its flush
there is a message for the task, or a call that will flush it. An engine in which nothing is in progress has none. -/
theorem frozen_is_awaited {h : Hosted Γ} (hrun : Steps (Hosted.step Γ) TablesWritten (Hosted.init Γ) h) {e : Engine Γ}
    (hp : h.sys.proc = .up e) :
    (e.immutables ≠ [] → e.Awaited h.notes h.worker) ∧ (h.settled = true → e.immutables = []) := by
  have hinv := hrun.invariant (P := fun h => h.Sound ∧ h.Awake) ⟨Hosted.sound_init, fun e hp => by simp [Hosted.init, Sys.init] at hp⟩
    (fun hi ha hs => ⟨hi.1.step hs, (hosted_cases hs).awake hi.1 hi.2 ha⟩)
  refine ⟨fun hne => (hinv.2 e hp).resolve_left hne, fun hs => ?_⟩
  obtain ⟨hwal, hflush, hq, hk, hw⟩ := Hosted.settled_up hp hs
  refine (hinv.2 e hp).resolve_right ?_
  simp [Engine.Awaited, hwal, hflush, hq, hk, hw, FlushSection.drains, WalSection.holdsStateLock]

/-- A frozen MemTable is awaited by a message in the channel. -/
theorem frozen_is_awaited_message : ∃ (h : Hosted Ctx.concrete) (e : Engine Ctx.concrete), h.sys.proc = .up e ∧
    e.immutables.length = 1 ∧ e.Awaited h.notes h.worker := by
  obtain ⟨h, hrun, hup⟩ := exists_steps_of_play (Hosted.step Ctx.concrete) TablesWritten (Hosted.init Ctx.concrete)
    (Script.calls (Script.openDir ⟨1, false, 0⟩ 0 0) ++ Script.putFreezing [1] [7])
    (fun h => h.sys.runs (fun _ e => decide (e.immutables.length = 1))) (by decide +kernel)
  obtain ⟨e, hp, hlen⟩ := Sys.runs_iff.1 hup
  have hlen := of_decide_eq_true hlen
  exact ⟨h, e, hp, hlen, (frozen_is_awaited hrun hp).1 (List.ne_nil_of_length_pos (by omega))⟩

/-! ## Whoever is scheduled -/

/-- From every state of every run, whatever has failed and whatever fails: when no new call comes, the calls in progress, the messages
and the task come to their end in whatever order their steps are taken, and a log writer may hand bytes over in between. -/
theorem every_schedule_settles {ok : Hosted Γ → HostedAct → Prop} {h : Hosted Γ}
    (hrun : Steps (Hosted.step Γ) ok (Hosted.init Γ) h) :
    Inevitable (Hosted.step Γ) (fun a => a.works = true) (fun a => a.hands = true) (fun h => h.settled = true) h := by
  refine inevitable_of_rank (P := Hosted.Sound) Hosted.rank ?_ ?_ ?_ (Hosted.sound_of_steps hrun)
  · intro h a t o hs ha hstep
    exact ⟨hs.step hstep, (hosted_cases hstep).rank_lt hs ha⟩
  · intro h a t o hs ha hstep
    exact ⟨hs.step hstep, ((hosted_cases hstep).rank_hands ha).le⟩
  · intro h hs
    refine hs.goes.imp id ?_
    rintro ⟨a, ha, hstep⟩
    obtain ⟨⟨t, o⟩, hstep⟩ := Option.isSome_iff_exists.1 hstep
    exact ⟨a, t, o, ha, hstep⟩

/-- A freeze has sent its message, another `put` is inside the wal mutex and a `get` has begun. -/
theorem every_schedule_settles_busy : ∃ h : Hosted Ctx.concrete,
    h.sys.runs (fun _ e => decide (e.wal.writing = true ∧ e.gets.length = 1 ∧ e.immutables.length = 1 ∧ h.notes = 1)) = true ∧
    Inevitable (Hosted.step Ctx.concrete) (fun a => a.works = true) (fun a => a.hands = true) (fun h => h.settled = true) h := by
  obtain ⟨h, hrun, hbusy⟩ := exists_steps_of_play (Hosted.step Ctx.concrete) (fun _ _ => True) (Hosted.init Ctx.concrete)
    (Script.calls (Script.openDir ⟨1, false, 0⟩ 0 0) ++ Script.putFreezing [1] [7] ++
      Script.calls [.write ⟨.put, [2], [7]⟩ .ok, .get [1]])
    (fun h => h.sys.runs (fun _ e => decide (e.wal.writing = true ∧ e.gets.length = 1 ∧ e.immutables.length = 1 ∧ h.notes = 1)))
    (by decide +kernel)
  exact ⟨h, hbusy, every_schedule_settles hrun⟩

/-! ## The number of tables -/

/-- In every run without crashes and failures, with an L0 threshold that is not 0 and without calls of `flush()`: between two passes of
the task level 0 is below the threshold, and there are no more tables than the threshold says. -/
theorem tables_within_threshold {T : Nat} (hT : 0 < T) {h : Hosted Γ}
    (hrun : Steps (Hosted.step Γ) (Regular T) (Hosted.init Γ) h) {e : Engine Γ} (hp : h.sys.proc = .up e)
    (hw : h.worker = .waiting ∨ h.worker = .notified) : level0 e.levels < T ∧ (stack e.levels).length ≤ T := by
  obtain ⟨hpaced, hsound⟩ := Hosted.paced_of_steps hT hrun
  rw [Hosted.Paced, hp] at hpaced
  have hlt := hpaced.between hw
  have hle : (stack e.levels).length ≤ level0 e.levels + 1 := levelsOk_bound (hsound.up hp).seq.levels
  exact ⟨hlt, by omega⟩

/-- A freeze, the pass it causes and the compaction that follows. -/
theorem tables_within_threshold_pass : ∃ (h : Hosted Ctx.concrete) (e : Engine Ctx.concrete), h.sys.proc = .up e ∧
    h.worker = .waiting ∧ (stack e.levels).length = 1 ∧ level0 e.levels < 1 ∧ (stack e.levels).length ≤ 1 := by
  obtain ⟨h, hrun, hend⟩ := exists_steps_of_play (Hosted.step Ctx.concrete) (Regular 1) (Hosted.init Ctx.concrete)
    (Script.calls (Script.openDir ⟨1, false, 1⟩ 0 0) ++ Script.putFreezing [1] [7] ++ [.receive, .enter] ++
      Script.calls (List.replicate 13 (.flushStep .ok)) ++ [.check, .compact] ++ Script.calls (List.replicate 14 (.flushStep .ok)))
    (fun h => h.sys.runs (fun _ e => decide (h.worker = .waiting ∧ (stack e.levels).length = 1))) (by decide +kernel)
  obtain ⟨e, hp, hend⟩ := Sys.runs_iff.1 hend
  obtain ⟨hw, hlen⟩ := of_decide_eq_true hend
  exact ⟨h, e, hp, hw, hlen, tables_within_threshold (by decide) hrun hp (.inl hw)⟩

end LsmEngine
