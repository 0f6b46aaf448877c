import LsmEngine.Worker
import LsmEngine.Lemmas.Upkeep
import LsmEngine.Lemmas.Within

/-!
# Wake-ups

Where the task stands fits the section of `flush_lock` it is in, whatever fails; and an immutable is never left behind without a
message, a `flush()` or a flush pass that will come to it, unless a table could not be written.
-/

namespace LsmEngine

open Transition

variable {Γ : Ctx} {n n' : Node Γ}

/-! ## What `flush_lock` returns to whom -/

/-- What the holder of `flush_lock` returns. A compaction has no `FlushCaller`. -/
def Out.toCaller : Option FlushCaller → Except LsmError Unit → Out
  | some (.flush since), r => .flushed since r
  | some .worker, r => .passed r
  | none, r => .compacted r

/-- The holder of `flush_lock` goes on for its caller, or returns to it. -/
theorem FlushMove.returns {io : Io} {r : Node Γ × Out} (hm : FlushMove n io r) :
    (r.2 = .silent ∧ r.1.eng.flush.busy = true ∧ r.1.eng.flush.caller = n.eng.flush.caller) ∨
      (r.1.eng.flush = .free ∧ ∃ res, r.2 = Out.toCaller n.eng.flush.caller res) := by
  cases hm with
  | @nothing c hf | @unbuilt c _ _ _ _ hf | @buildFails c _ _ _ _ _ _ hf | @manifestFailsFlush c _ _ _ _ hf | @flushDone c hf =>
    right
    rw [hf]
    cases c <;> exact ⟨rfl, _, rfl⟩
  | mergedUnbuilt hf | readFails hf | mergeFails hf | manifestFailsCompact hf | compactDone hf =>
    right
    rw [hf]
    exact ⟨rfl, _, rfl⟩
  | readOpen hf =>
    left
    refine ⟨rfl, ?_, rfl⟩
    rw [hf]
    rfl
  | @manifestStage after _ _ _ hf =>
    left
    rw [hf]
    cases after <;> exact ⟨rfl, rfl, rfl⟩
  | drained hf | built hf | buildStage hf | buildRename hf | commit hf | mergedNone hf | merged hf | read hf | mergeStage hf
  | mergeRename hf | install hf | manifestFlush hf | manifestCompact hf | unlinkWal hf | unlinkWalFails hf | unlinkInput hf
  | unlinkInputFails hf =>
    left
    rw [hf]
    exact ⟨rfl, rfl, rfl⟩

/-- Only a holder of `flush_lock` steps. -/
theorem FlushMove.busy {io : Io} {r : Node Γ × Out} (hm : FlushMove n io r) : n.eng.flush.busy = true := by
  cases hm <;> simp_all [FlushSection.busy]

/-- The actions of `flush_lock`. -/
def Act.flushes : Act → Bool
  | .flushEnter _ | .workerEnter | .compactEnter | .flushStep _ => true
  | _ => false

/-- Every other action leaves the section alone and does not end the call of the task. -/
theorem NodeMove.same_flush {a : Act} {x : Sys Γ × Out} (hm : NodeMove n a x) (ha : a.flushes = false) (hx : x.1 = n'.toSys)
    (w : Worker) : n'.eng.flush = n.eng.flush ∧ w.after x.2 = w := by
  cases hm with
  | flushEnter | workerEnter | compactNothing | compactEnter | flushStep => simp [Act.flushes] at ha
  | write hw =>
    obtain rfl := toSys_inj hx
    cases hw <;> exact ⟨rfl, w.after_other (by simp) (by simp)⟩
  | wal hw =>
    obtain rfl := toSys_inj hx
    cases hw with
    | @nothing c | @replace c | @createFails c =>
      cases c <;> exact ⟨rfl, w.after_other (by simp [Node.finish, Node.abort]) (by simp [Node.finish, Node.abort])⟩
    | _ => exact ⟨rfl, w.after_other (by simp [Node.finish, Node.abort]) (by simp [Node.finish, Node.abort])⟩
  | getStep hg =>
    obtain rfl := toSys_inj hx
    cases hg <;> exact ⟨rfl, w.after_other (by simp [Node.walkOn, Node.answer]) (by simp [Node.walkOn, Node.answer])⟩
  | flush | get | handover =>
    obtain rfl := toSys_inj hx
    exact ⟨rfl, w.after_silent⟩
  | drop => simp [Node.drop, Node.toSys] at hx

/-! ## Where the task stands -/

structure WorkerOk (e : Engine Γ) (w : Worker) : Prop where
  flushing : w = .flushing ↔ e.flush.caller = some .worker
  compacting : w = .compacting → e.flush.busy = true ∧ e.flush.caller = none

def Hosted.Ok (h : Hosted Γ) : Prop :=
  match h.sys.proc with
  | .up e => WorkerOk e h.worker
  | _ => h.notes = 0 ∧ h.worker = .waiting

/-- What is asked of the task of a running engine. -/
theorem Hosted.ok_up {h : Hosted Γ} {e : Engine Γ} (hp : h.sys.proc = .up e) : h.Ok ↔ WorkerOk e h.worker := by
  rw [Hosted.Ok, hp]

/-- Nobody holds `flush_lock`: the task is not inside a call. -/
theorem WorkerOk.outside {e : Engine Γ} {w : Worker} (h : WorkerOk e w) (hf : e.flush = .free) : w ≠ .flushing ∧ w ≠ .compacting := by
  constructor
  · intro hw
    have := h.flushing.1 hw
    simp [hf, FlushSection.caller] at this
  · intro hw
    have := (h.compacting hw).1
    simp [hf, FlushSection.busy] at this

/-- A task that is in no pass, while no pass is its own. -/
theorem WorkerOk.of_outside {e : Engine Γ} {w : Worker} (h1 : w ≠ .flushing) (h2 : w ≠ .compacting)
    (hc : e.flush.caller ≠ some .worker) : WorkerOk e w :=
  ⟨⟨fun hw => absurd hw h1, fun hw => absurd hw hc⟩, fun hw => absurd hw h2⟩

/-- The call of the task is over, and so is its section. -/
theorem WorkerOk.returned {e : Engine Γ} {w : Worker} (h : WorkerOk e w) (res : Except LsmError Unit) :
    w.after (Out.toCaller e.flush.caller res) ≠ .flushing ∧ w.after (Out.toCaller e.flush.caller res) ≠ .compacting := by
  cases w with
  | flushing =>
    rw [h.flushing.1 rfl]
    cases res <;> exact ⟨by simp [Out.toCaller, Worker.after], by simp [Out.toCaller, Worker.after]⟩
  | compacting =>
    rw [(h.compacting rfl).2]
    exact ⟨by simp [Out.toCaller, Worker.after], by simp [Out.toCaller, Worker.after]⟩
  | waiting | notified | checking | needed =>
    constructor <;> intro hw <;> unfold Worker.after at hw <;> split at hw <;> simp at hw

/-- The task is where its pass is after every action. -/
theorem WorkerOk.nodeMove {w : Worker} (h : WorkerOk n.eng w) {a : Act} (ha : a ≠ .workerEnter) {x : Sys Γ × Out}
    (hm : NodeMove n a x) (hx : x.1 = n'.toSys) : WorkerOk n'.eng (w.after x.2) := by
  by_cases hfl : a.flushes = false
  · obtain ⟨h1, h2⟩ := hm.same_flush hfl hx w
    rw [h2]
    exact ⟨by rw [h1]; exact h.flushing, by rw [h1]; exact h.compacting⟩
  cases hm with
  | workerEnter => exact absurd rfl ha
  | flushStep hf =>
    obtain rfl := toSys_inj hx
    rcases hf.returns with ⟨ho, hb, hc⟩ | ⟨hfree, res, ho⟩
    · dsimp only at ho ⊢
      rw [ho, Worker.after_silent]
      exact ⟨by rw [hc]; exact h.flushing, fun hw => ⟨hb, by rw [hc]; exact (h.compacting hw).2⟩⟩
    · dsimp only at ho ⊢
      rw [ho]
      obtain ⟨h1, h2⟩ := h.returned res
      exact .of_outside h1 h2 (by simp [hfree, FlushSection.caller])
  | flushEnter hf _ | compactEnter hf =>
    obtain rfl := toSys_inj hx
    obtain ⟨h1, h2⟩ := h.outside hf
    rw [Worker.after_silent]
    exact .of_outside h1 h2 (by simp [FlushSection.caller])
  | compactNothing hf =>
    obtain rfl := toSys_inj hx
    obtain ⟨h1, h2⟩ := h.outside hf
    have hkept : w.after (.compacted (.ok ())) = w := by cases w <;> first | rfl | exact absurd rfl h2
    rw [hkept]
    exact .of_outside h1 h2 (by simp [Node.compactEnd, FlushSection.caller])
  | write | flush | wal | get | getStep | handover | drop => exact absurd rfl hfl

/-- Where the process is after an action that starts or ends an engine. -/
theorem restarted {s t : Sys Γ} {a : Act} {o : Out} (hs : step Γ s a = some (t, o)) (ha : a.restarts = true) {e : Engine Γ}
    (hp : t.proc = .up e) : e.wal = .free ∧ e.flush = .free ∧ e.flushers = [] ∧ e.gets = [] ∧ e.immutables = [] := by
  cases step_cases hs with
  | crash | openDir => simp at hp
  | openStep hp' hm =>
    cases hm with
    | up =>
      obtain rfl := Proc.up.inj hp
      exact ⟨rfl, rfl, rfl, rfl, rfl⟩
    | _ => simp at hp
  | openHandover => simp [Act.restarts] at ha
  | node hp' hm =>
    cases hm with
    | drop => simp [Node.drop] at hp
    | _ => simp [Act.restarts] at ha

/-- The actions of a running engine. -/
theorem step_up {s : Sys Γ} {e : Engine Γ} (hp : s.proc = .up e) {a : Act} (ha : a.restarts = false) :
    step Γ s a = (Node.mk s.disk s.hist e).act a := by
  rw [toSys_of_up hp]
  cases a with
  | openDir | openStep | crash => simp [Act.restarts] at ha
  | _ => rfl

/-- An action that neither starts nor ends an engine is a step of the engine, or leaves the process opening. -/
theorem step_running {s t : Sys Γ} {a : Act} {o : Out} (hs : step Γ s a = some (t, o)) (ha : a.restarts = false) :
    (∃ e e', s.proc = .up e ∧ t = Node.toSys ⟨t.disk, t.hist, e'⟩ ∧ NodeMove ⟨s.disk, s.hist, e⟩ a (t, o)) ∨
      (∃ op op', s.proc = .opening op ∧ t.proc = .opening op' ∧ op'.stage = op.stage ∧ o = .silent) := by
  cases step_cases hs with
  | crash | openDir | openStep => simp [Act.restarts] at ha
  | @openHandover k op hp =>
    refine .inr ⟨op, ?_⟩
    unfold Opening.handover
    split
    · exact ⟨_, hp, rfl, rfl, rfl⟩
    · exact ⟨op, hp, hp, rfl, rfl⟩
  | @node _ e _ hp hm =>
    cases hm with
    | drop => simp [Act.restarts] at ha
    | write hw => exact .inl ⟨e, _, hp, rfl, .write hw⟩
    | wal hw => exact .inl ⟨e, _, hp, rfl, .wal hw⟩
    | flushStep hf => exact .inl ⟨e, _, hp, rfl, .flushStep hf⟩
    | getStep hg => exact .inl ⟨e, _, hp, rfl, .getStep hg⟩
    | flush hw => exact .inl ⟨e, _, hp, rfl, .flush hw⟩
    | flushEnter hf hi => exact .inl ⟨e, _, hp, rfl, .flushEnter hf hi⟩
    | workerEnter hf => exact .inl ⟨e, _, hp, rfl, .workerEnter hf⟩
    | compactNothing hf he => exact .inl ⟨e, _, hp, rfl, .compactNothing hf he⟩
    | compactEnter hf he => exact .inl ⟨e, _, hp, rfl, .compactEnter hf he⟩
    | get => exact .inl ⟨e, _, hp, rfl, .get⟩
    | handover => exact .inl ⟨e, _, hp, rfl, .handover⟩

/-- At the start nothing runs and nobody waits. -/
theorem Hosted.ok_init : (Hosted.init Γ).Ok := ⟨rfl, rfl⟩

/-- Every step keeps the task where its section is. -/
theorem HostedMove.ok {h : Hosted Γ} (hok : h.Ok) {a : HostedAct} {x : Hosted Γ × Out} (hm : HostedMove h a x) : x.1.Ok := by
  cases hm with
  | @restart a t o hs ha hd =>
    unfold Hosted.Ok
    cases hp : t.proc with
    | up e =>
      obtain ⟨-, hf, -⟩ := restarted hs ha hp
      exact .of_outside (by simp) (by simp) (by simp [hf, FlushSection.caller])
    | _ => exact ⟨rfl, rfl⟩
  | @machine a t o hs ha hw =>
    rcases step_running hs ha with ⟨e, e', hp, ht, hmove⟩ | ⟨op, op', hp, ht, -, rfl⟩
    · have hp' : t.proc = .up e' := by rw [ht]; rfl
      rw [Hosted.ok_up hp] at hok
      rw [Hosted.ok_up (e := e') hp']
      exact hok.nodeMove hw hmove ht
    · rw [Hosted.Ok, hp] at hok
      obtain ⟨hn, hw⟩ := hok
      have hsends : h.sys.sends a = false := by
        unfold Sys.sends
        rw [hp]
        split
        · rename_i heq
          simp at heq
        · rfl
      rw [Hosted.Ok]
      dsimp only
      rw [ht, hn, hw, hsends]
      exact ⟨rfl, rfl⟩
  | @receive e k hp hw hk =>
    rw [Hosted.ok_up hp] at hok
    rw [Hosted.ok_up (h := ⟨h.sys, k, .notified⟩) hp]
    exact .of_outside (by simp) (by simp) (fun hc => by simpa [hw] using hok.flushing.2 hc)
  | @enter t o hw hs =>
    rcases step_running hs rfl with ⟨e, e', hp, ht, hmove⟩ | ⟨op, op', hp, -⟩
    · cases hmove with
      | workerEnter hf =>
        rw [Hosted.ok_up (h := ⟨_, h.notes, .flushing⟩) rfl]
        exact ⟨⟨fun _ => rfl, fun _ => rfl⟩, fun hc => by simp at hc⟩
    · simp [step, hp] at hs
  | @check e hp hw =>
    rw [Hosted.ok_up hp] at hok
    rw [Hosted.ok_up (h := ⟨h.sys, h.notes, if e.compactNeeded then .needed else .waiting⟩) hp]
    refine .of_outside ?_ ?_ (fun hc => by simpa [hw] using hok.flushing.2 hc)
    · dsimp only
      split <;> simp
    · dsimp only
      split <;> simp
  | @compact t o hw hs =>
    rcases step_running hs rfl with ⟨e, e', hp, ht, hmove⟩ | ⟨op, op', hp, -⟩
    · cases hmove with
      | compactNothing hf he =>
        rw [Hosted.ok_up (h := ⟨_, h.notes, _⟩) rfl]
        exact .of_outside (by simp) (by simp) (by simp [Node.compactEnd, FlushSection.caller])
      | compactEnter hf he =>
        rw [Hosted.ok_up (h := ⟨_, h.notes, _⟩) rfl]
        exact ⟨⟨fun hc => by simp at hc, fun hc => by simp [FlushSection.caller] at hc⟩, fun _ => ⟨rfl, rfl⟩⟩
    · simp [step, hp] at hs

/-! ## Runs -/

/-- What is known in every run, whatever fails. -/
structure Hosted.Sound (h : Hosted Γ) : Prop where
  ok : h.Ok
  seq : SeqInv h.sys
  tables : h.sys.TablesOk

/-- A running engine of a sound state has its tables in order. -/
theorem Hosted.Sound.up {h : Hosted Γ} (hs : h.Sound) {e : Engine Γ} (hp : h.sys.proc = .up e) :
    TablesUp ⟨h.sys.disk, h.sys.hist, e⟩ := by
  have := hs.tables
  rwa [Sys.TablesOk, hp] at this

/-- A step of the engine with its task keeps the state sound. -/
theorem Hosted.Sound.step {h : Hosted Γ} (hs : h.Sound) {a : HostedAct} {x : Hosted Γ × Out} (hstep : Hosted.step Γ h a = some x) :
    x.1.Sound := by
  have hm := hosted_cases hstep
  rcases hm.machine_step with ⟨b, -, hb⟩ | ⟨-, hsame, -⟩
  · exact ⟨hm.ok hs.ok, seqInv_step hs.seq hb, step_tablesOk hs.seq hs.tables hb⟩
  · exact ⟨hm.ok hs.ok, by rw [hsame]; exact hs.seq, by rw [hsame]; exact hs.tables⟩

/-- The start is sound. -/
theorem Hosted.sound_init : (Hosted.init Γ).Sound :=
  ⟨Hosted.ok_init, seqInv_ofLogs SortedMap.empty, fun _ hm => absurd hm List.not_mem_nil⟩

/-- Every state of a run is sound. -/
theorem Hosted.sound_of_steps {ok : Hosted Γ → HostedAct → Prop} {h : Hosted Γ}
    (hrun : Steps (Hosted.step Γ) ok (Hosted.init Γ) h) : h.Sound :=
  hrun.invariant Hosted.sound_init (fun hs _ hstep => hs.step hstep)

/-! ## Wake-ups -/

/-- The flush pass will look at the immutables again. -/
def FlushSection.drains : FlushSection → Bool
  | .draining _ _ | .building _ _ _ _ _ _ | .committing _ _ _ _ => true
  | _ => false

/-- The flush pass is writing a table. -/
def FlushSection.builds : FlushSection → Bool
  | .building _ _ _ _ _ _ => true
  | _ => false

/-- The immutables of an engine will be looked at: there is a message for the task or the task has it, a flush pass is in progress, a
`flush()` waits for its pass, or a freeze is about to send or to wait. -/
def Engine.Awaited (e : Engine Γ) (notes : Nat) (w : Worker) : Prop :=
  0 < notes ∨ w = .notified ∨ e.flush.drains = true ∨ e.flushers ≠ [] ∨ e.wal.holdsStateLock = true

def Hosted.Awake (h : Hosted Γ) : Prop :=
  ∀ e, h.sys.proc = .up e → e.immutables = [] ∨ e.Awaited h.notes h.worker

/-- The step of a write that ends its freeze sends a message. -/
theorem sends_swapped {s : Sys Γ} {e : Engine Γ} (hp : s.proc = .up e) {w : WalEntry} {newSeq : Nat}
    (hw : e.wal = .swapped (.write w) newSeq) (io : Io) : s.sends (.walStep io) = true := by
  simp [Sys.sends, hp, hw]

/-- A step under the wal mutex that freezes a MemTable sends a message. -/
theorem WalMove.awake {io : Io} {r : Node Γ × Out} (hm : WalMove n io r) {k : Nat} {w : Worker}
    (h : n.eng.immutables = [] ∨ n.eng.Awaited k w) :
    r.1.eng.immutables = [] ∨ r.1.eng.Awaited (k + if n.toSys.sends (.walStep io) then 1 else 0) w := by
  have hkeep : ∀ {e : Engine Γ} {j : Nat}, e.immutables = n.eng.immutables → e.flush = n.eng.flush →
      e.flushers = n.eng.flushers → n.eng.wal.holdsStateLock = false → e.immutables = [] ∨ e.Awaited (k + j) w := by
    intro e j h1 h2 h3 h4
    unfold Engine.Awaited at h ⊢
    rw [h1, h2, h3]
    rw [h4] at h
    rcases h with h | h | h | h | h | h
    · exact .inl h
    · exact .inr (.inl (by omega))
    · exact .inr (.inr (.inl h))
    · exact .inr (.inr (.inr (.inl h)))
    · exact .inr (.inr (.inr (.inr (.inl h))))
    · simp at h
  cases hm with
  | swap => exact .inr (.inr (.inr (.inr (.inr rfl))))
  | @replace c newSeq hw =>
    right
    cases c with
    | write v =>
      rw [sends_swapped (s := n.toSys) rfl hw]
      exact .inl (Nat.succ_pos k)
    | flush since => exact .inr (.inr (.inr (.inl (by simp [Node.finish]))))
  | @nothing c hw =>
    cases c with
    | write v => exact hkeep rfl rfl rfl (by rw [hw]; rfl)
    | flush since => exact .inr (.inr (.inr (.inr (.inl (by simp [Node.finish])))))
  | @createFails c newSeq _ hw => cases c <;> exact hkeep rfl rfl rfl (by rw [hw]; rfl)
  | sync hw | syncFails hw | apply hw | applySynced hw | exceeds hw | done hw | flushSync hw | flushSyncFails hw | takeSeq hw
  | create hw => exact hkeep rfl rfl rfl (by rw [hw]; rfl)

/-- A pass that ends has drained the queue. -/
theorem FlushMove.awake (hup : TablesUp n) {io : Io} (hio : io = .ok ∨ n.eng.flush.builds = false) {r : Node Γ × Out}
    (hm : FlushMove n io r) {k : Nat} {w : Worker} (h : n.eng.immutables = [] ∨ n.eng.Awaited k w) :
    r.1.eng.immutables = [] ∨ r.1.eng.Awaited k (w.after r.2) := by
  have hkeep : ∀ {e : Engine Γ} (o : Out), e.immutables = n.eng.immutables → e.flushers = n.eng.flushers →
      e.wal = n.eng.wal → n.eng.flush.drains = false → e.immutables = [] ∨ e.Awaited k (w.after o) := by
    intro e o h1 h2 h3 h4
    unfold Engine.Awaited at h ⊢
    rw [h1, h2, h3]
    rw [h4] at h
    rcases h with h | h | rfl | h | h | h
    · exact .inl h
    · exact .inr (.inl h)
    · exact .inr (.inr (.inl rfl))
    · simp at h
    · exact .inr (.inr (.inr (.inr (.inl h))))
    · exact .inr (.inr (.inr (.inr (.inr h))))
  have hdrains : ∀ {e : Engine Γ} (o : Out), e.flush.drains = true → e.immutables = [] ∨ e.Awaited k (w.after o) :=
    fun _ hd => .inr (.inr (.inr (.inl hd)))
  cases hm with
  | @nothing c hf hi => cases c <;> exact .inl hi
  | drained hf hi => exact .inl hi
  | unbuilt hf hi hb => exact absurd hb (hup.mems.flushable.build_ne_error (by rw [hi]; exact List.mem_cons_self) _ _ _)
  | buildFails hf hfail => simp [hf, hfail, FlushSection.builds] at hio
  | built | buildStage | buildRename | commit => exact hdrains _ rfl
  | @manifestFailsFlush c _ _ _ _ hf | @flushDone c hf => cases c <;> exact hkeep _ rfl rfl rfl (by rw [hf]; rfl)
  | mergedNone hf | mergedUnbuilt hf | merged hf | readOpen hf | readFails hf | read hf | mergeFails hf | mergeStage hf
  | mergeRename hf | install hf | manifestFailsCompact hf | manifestStage hf | manifestFlush hf | manifestCompact hf
  | unlinkWal hf | unlinkWalFails hf | compactDone hf | unlinkInput hf | unlinkInputFails hf =>
    exact hkeep _ rfl rfl rfl (by rw [hf]; rfl)

/-- No action leaves a frozen MemTable that nobody awaits. -/
theorem NodeMove.awake (hup : TablesUp n) {a : Act} (hio : ∀ io, a = .flushStep io → io = .ok ∨ n.eng.flush.builds = false)
    {x : Sys Γ × Out} (hm : NodeMove n a x) (hx : x.1 = n'.toSys) {k : Nat} {w : Worker}
    (h : n.eng.immutables = [] ∨ n.eng.Awaited k w) :
    n'.eng.immutables = [] ∨ n'.eng.Awaited (k + if n.toSys.sends a then 1 else 0) (w.after x.2) := by
  have hsends : (∀ io, a ≠ .walStep io) → n.toSys.sends a = false := by
    intro hne
    unfold Sys.sends
    split
    · exact absurd rfl (hne _)
    · rfl
  -- a step that leaves the immutables and what they wait for alone
  have hkeep : (∀ io, a ≠ .walStep io) → n'.eng.immutables = n.eng.immutables → n'.eng.flush = n.eng.flush →
      n'.eng.flushers = n.eng.flushers → (n.eng.wal.holdsStateLock = true → n'.eng.wal.holdsStateLock = true) →
      w.after x.2 = w → n'.eng.immutables = [] ∨ n'.eng.Awaited (k + if n.toSys.sends a then 1 else 0) (w.after x.2) := by
    intro hne h1 h2 h3 h4 h5
    unfold Engine.Awaited at h ⊢
    rw [hsends hne, h1, h2, h3, h5]
    exact h.imp id (Or.imp id (Or.imp id (Or.imp id (Or.imp id h4))))
  cases hm with
  | flushStep hf =>
    obtain rfl := toSys_inj hx
    rw [hsends (by simp)]
    exact hf.awake hup (hio _ rfl) h
  | wal hw =>
    obtain rfl := toSys_inj hx
    rw [(NodeMove.same_flush (.wal hw) rfl rfl w).2]
    exact hw.awake h
  | flushEnter | workerEnter =>
    obtain rfl := toSys_inj hx
    exact .inr (.inr (.inr (.inl rfl)))
  | write hw =>
    obtain rfl := toSys_inj hx
    refine hkeep (by simp) ?_ ?_ ?_ ?_ (NodeMove.same_flush (.write hw) rfl rfl w).2
    · cases hw <;> rfl
    · cases hw <;> rfl
    · cases hw <;> rfl
    · intro hl
      cases hw with
      | logged hw => simp [hw, WalSection.holdsStateLock] at hl
      | _ => exact hl
  | flush hw =>
    obtain rfl := toSys_inj hx
    exact hkeep (by simp) rfl rfl rfl (fun hl => by simp [hw, WalSection.holdsStateLock] at hl) w.after_silent
  | getStep hg =>
    obtain rfl := toSys_inj hx
    refine hkeep (by simp) ?_ ?_ ?_ ?_ (NodeMove.same_flush (.getStep hg) rfl rfl w).2 <;> cases hg <;> first | rfl | exact id
  | get | handover =>
    obtain rfl := toSys_inj hx
    exact hkeep (by simp) rfl rfl rfl id w.after_silent
  | compactEnter hf | compactNothing hf =>
    obtain rfl := toSys_inj hx
    unfold Engine.Awaited at h ⊢
    rw [hsends (by simp)]
    rw [hf] at h
    rcases h with h | h | rfl | h | h | h
    · exact .inl h
    · exact .inr (.inl h)
    · exact .inr (.inr (.inl rfl))
    · simp [FlushSection.drains] at h
    · exact .inr (.inr (.inr (.inr (.inl h))))
    · exact .inr (.inr (.inr (.inr (.inr h))))
  | drop => simp [Node.drop, Node.toSys] at hx

/-- A flush pass of the running engine is writing a table. -/
def Sys.builds (s : Sys Γ) : Bool :=
  match s.proc with
  | .up e => e.flush.builds
  | _ => false

/-- No table of a flush pass fails to be written. -/
def TablesWritten (h : Hosted Γ) : HostedAct → Prop
  | .act (.flushStep io) => io = .ok ∨ h.sys.builds = false
  | _ => True

instance (h : Hosted Γ) (a : HostedAct) : Decidable (TablesWritten h a) :=
  match a with
  | .act (.flushStep io) => inferInstanceAs (Decidable (io = .ok ∨ h.sys.builds = false))
  | .act (.openDir _) | .act (.openStep _) | .act (.write _ _) | .act .flush | .act (.walStep _) | .act (.flushEnter _)
  | .act .workerEnter | .act .compactEnter | .act (.get _) | .act (.getStep _ _) | .act (.handover _) | .act (.drop _)
  | .act (.crash _) | .receive | .enter | .check | .compact => inferInstanceAs (Decidable True)

theorem HostedMove.awake {h : Hosted Γ} (hsound : h.Sound) (haw : h.Awake)
    {a : HostedAct} (ha : TablesWritten h a) {x : Hosted Γ × Out} (hm : HostedMove h a x) : x.1.Awake := by
  intro e' hp'
  cases hm with
  | restart hs hre => exact .inl (restarted hs hre hp').2.2.2.2
  | @machine a t o hs hre hw =>
    rcases step_running hs hre with ⟨e, e'', hp, ht, hmove⟩ | ⟨op, op', hp, ht, -⟩
    · obtain rfl : e'' = e' := by
        dsimp only at hp'
        rw [ht] at hp'
        exact Proc.up.inj hp'
      have hio : ∀ io, a = .flushStep io → io = .ok ∨ e.flush.builds = false := by
        rintro io rfl
        exact ha.imp_right (fun hb => by rwa [Sys.builds, hp] at hb)
      have := hmove.awake (hsound.up hp) hio ht (haw e hp)
      rwa [← toSys_of_up hp] at this
    · dsimp only at hp'
      simp [ht] at hp'
  | receive => exact .inr (.inr (.inl rfl))
  | enter hw hs =>
    rcases step_running hs rfl with ⟨e, e'', hp, ht, hmove⟩ | ⟨op, op', hp, -⟩
    · cases hmove with
      | workerEnter hf =>
        obtain rfl := Proc.up.inj hp'
        exact .inr (.inr (.inr (.inl rfl)))
    · simp [step, hp] at hs
  | check hp hw =>
    have hold := haw e' hp'
    unfold Engine.Awaited at hold ⊢
    rw [hw] at hold
    simp only [reduceCtorEq, false_or] at hold
    exact hold.imp id (Or.imp id Or.inr)
  | compact hw hs =>
    rcases step_running hs rfl with ⟨e, e'', hp, ht, hmove⟩ | ⟨op, op', hp, -⟩
    · have hold := haw e hp
      unfold Engine.Awaited at hold ⊢
      rw [hw] at hold
      simp only [reduceCtorEq, false_or] at hold
      cases hmove with
      | compactNothing hf | compactEnter hf =>
        rw [hf] at hold
        simp only [FlushSection.drains, Bool.false_eq_true, false_or] at hold
        obtain rfl := Proc.up.inj hp'
        exact hold.imp id (Or.imp id (fun ho => .inr (.inr ho)))
    · simp [step, hp] at hs

end LsmEngine
