import LsmEngine.Step
import LsmEngine.Library.Run

/-!
# The background task

`flush_worker` and the channel it listens on. A write that has frozen the MemTable sends a message; for each message the task runs
`flush_all_pending`, and `compact_all_pending` after it when `compact_needed`. The machine leaves open when a pass of the worker
comes; here a pass comes when a message does.

The task holds the engine from a message to the end of its pass, so the last handle goes between two passes.
-/

namespace LsmEngine

open Transition

variable {Γ : Ctx}

/-- Where the task stands. -/
inductive Worker where
  /-- `rx.recv()` -/
  | waiting
  /-- a message has come: call `flush_all_pending` -/
  | notified
  /-- inside `flush_all_pending` -/
  | flushing
  /-- `flush_all_pending` has returned `Ok`: ask `compact_needed` -/
  | checking
  /-- call `compact_all_pending` -/
  | needed
  /-- inside `compact_all_pending` -/
  | compacting
  deriving DecidableEq, Repr

/-- The machine, with the messages in the channel of the running engine and its task. -/
structure Hosted (Γ : Ctx) where
  sys : Sys Γ
  notes : Nat
  worker : Worker

def Hosted.init (Γ : Ctx) : Hosted Γ := ⟨Sys.init Γ, 0, .waiting⟩

inductive HostedAct where
  /-- a step of a call, of the operating system or inside a section that the task has entered -/
  | act (a : Act)
  /-- `recv` returns a message, and the engine is still there -/
  | receive
  /-- the task takes `flush_lock` for `flush_all_pending` -/
  | enter
  /-- `compact_needed` -/
  | check
  /-- the task takes `flush_lock` for `compact_all_pending` -/
  | compact
  deriving DecidableEq

/-- The step ends the `freeze_active` of a write, which then sends a message. -/
def Sys.sends (s : Sys Γ) (a : Act) : Bool :=
  match a, s.proc with
  | .walStep _, .up e =>
    match e.wal with
    | .swapped (.write _) _ => true
    | _ => false
  | _, _ => false

/-- The task goes on when the call it is in returns. -/
def Worker.after : Worker → Out → Worker
  | .flushing, .passed (.ok _) => .checking
  | .flushing, .passed (.error _) => .waiting
  | .compacting, .compacted _ => .waiting
  | w, _ => w

/-- The task takes no notice of what other calls return. -/
theorem Worker.after_other (w : Worker) {o : Out} (h1 : ∀ r, o ≠ .passed r) (h2 : ∀ r, o ≠ .compacted r) : w.after o = w := by
  cases o with
  | passed r => exact absurd rfl (h1 r)
  | compacted r => exact absurd rfl (h2 r)
  | _ => cases w <;> rfl

@[simp] theorem Worker.after_silent (w : Worker) : w.after .silent = w := w.after_other (by simp) (by simp)

/-- The actions after which there is no engine, or a new one. -/
def Act.restarts : Act → Bool
  | .openDir _ | .openStep _ | .drop _ | .crash _ => true
  | _ => false

def Act.isDrop : Act → Bool
  | .drop _ => true
  | _ => false

namespace Hosted

/-- The channel and the task after a step of the machine. -/
def after (h : Hosted Γ) (a : Act) (r : Sys Γ × Out) : Hosted Γ × Out :=
  if a.restarts then (⟨r.1, 0, .waiting⟩, r.2)
  else (⟨r.1, h.notes + (if h.sys.sends a then 1 else 0), h.worker.after r.2⟩, r.2)

/-- One step of the machine with its task. -/
def step (Γ : Ctx) (h : Hosted Γ) : HostedAct → Option (Hosted Γ × Out)
  | .act a =>
    if a = .workerEnter ∨ (a.isDrop = true ∧ h.worker ≠ .waiting) then none
    else (LsmEngine.step Γ h.sys a).map (h.after a)
  | .receive =>
    match h.sys.proc, h.worker, h.notes with
    | .up _, .waiting, k + 1 => some (⟨h.sys, k, .notified⟩, .silent)
    | _, _, _ => none
  | .enter =>
    if h.worker = .notified then
      (LsmEngine.step Γ h.sys .workerEnter).map (fun r => (⟨r.1, h.notes, .flushing⟩, r.2))
    else none
  | .check =>
    match h.sys.proc, h.worker with
    | .up e, .checking => some (⟨h.sys, h.notes, if e.compactNeeded then .needed else .waiting⟩, .silent)
    | _, _ => none
  | .compact =>
    if h.worker = .needed then
      (LsmEngine.step Γ h.sys .compactEnter).map
        (fun r => (⟨r.1, h.notes, if r.2 = .silent then .compacting else .waiting⟩, r.2))
    else none

end Hosted

/-- What the action is to the machine. -/
def HostedAct.toAct : HostedAct → Option Act
  | .act a => some a
  | .receive | .check => none
  | .enter => some .workerEnter
  | .compact => some .compactEnter

/-! ## The steps, branch by branch -/

inductive HostedMove (h : Hosted Γ) : HostedAct → Hosted Γ × Out → Prop where
  /-- the process starts, or ends -/
  | restart {a : Act} {t : Sys Γ} {o : Out} (hs : step Γ h.sys a = some (t, o)) (ha : a.restarts = true)
      (hd : a.isDrop = true → h.worker = .waiting) : HostedMove h (.act a) (⟨t, 0, .waiting⟩, o)
  | machine {a : Act} {t : Sys Γ} {o : Out} (hs : step Γ h.sys a = some (t, o)) (ha : a.restarts = false)
      (hw : a ≠ .workerEnter) :
      HostedMove h (.act a) (⟨t, h.notes + (if h.sys.sends a then 1 else 0), h.worker.after o⟩, o)
  | receive {e : Engine Γ} {k : Nat} (hp : h.sys.proc = .up e) (hw : h.worker = .waiting) (hk : h.notes = k + 1) :
      HostedMove h .receive (⟨h.sys, k, .notified⟩, .silent)
  | enter {t : Sys Γ} {o : Out} (hw : h.worker = .notified) (hs : step Γ h.sys .workerEnter = some (t, o)) :
      HostedMove h .enter (⟨t, h.notes, .flushing⟩, o)
  | check {e : Engine Γ} (hp : h.sys.proc = .up e) (hw : h.worker = .checking) :
      HostedMove h .check (⟨h.sys, h.notes, if e.compactNeeded then .needed else .waiting⟩, .silent)
  | compact {t : Sys Γ} {o : Out} (hw : h.worker = .needed) (hs : step Γ h.sys .compactEnter = some (t, o)) :
      HostedMove h .compact (⟨t, h.notes, if o = .silent then .compacting else .waiting⟩, o)

/-- A step of the engine with its task is one of its moves. -/
theorem hosted_cases {h : Hosted Γ} {a : HostedAct} {x : Hosted Γ × Out} (hs : Hosted.step Γ h a = some x) : HostedMove h a x := by
  cases a with
  | act a =>
    simp only [Hosted.step] at hs
    split at hs
    case isTrue => simp at hs
    case isFalse hno =>
    obtain ⟨⟨t, o⟩, hstep, rfl⟩ := Option.map_eq_some_iff.1 hs
    rw [not_or, not_and, not_not] at hno
    unfold Hosted.after
    split
    case isTrue ha => exact .restart hstep ha hno.2
    case isFalse ha => exact .machine hstep (by simpa using ha) hno.1
  | receive =>
    simp only [Hosted.step] at hs
    split at hs
    · rename_i hp hw hk
      rw [← Option.some.inj hs]
      exact .receive hp hw hk
    · simp at hs
  | enter =>
    simp only [Hosted.step] at hs
    split at hs
    case isTrue hw =>
      obtain ⟨⟨t, o⟩, hstep, rfl⟩ := Option.map_eq_some_iff.1 hs
      exact .enter hw hstep
    case isFalse => simp at hs
  | check =>
    simp only [Hosted.step] at hs
    split at hs
    · rename_i hp hw
      rw [← Option.some.inj hs]
      exact .check hp hw
    · simp at hs
  | compact =>
    simp only [Hosted.step] at hs
    split at hs
    case isTrue hw =>
      obtain ⟨⟨t, o⟩, hstep, rfl⟩ := Option.map_eq_some_iff.1 hs
      exact .compact hw hstep
    case isFalse => simp at hs

/-- A step is a step of the machine, or leaves the machine alone. -/
theorem HostedMove.machine_step {h : Hosted Γ} {a : HostedAct} {x : Hosted Γ × Out} (hm : HostedMove h a x) :
    (∃ b, a.toAct = some b ∧ step Γ h.sys b = some (x.1.sys, x.2)) ∨ (a.toAct = none ∧ x.1.sys = h.sys ∧ x.2 = .silent) := by
  cases hm with
  | restart hs | machine hs | enter _ hs | compact _ hs => exact .inl ⟨_, rfl, hs⟩
  | receive | check => exact .inr ⟨rfl, rfl, rfl⟩

/-- A run with the task is a run of the machine. -/
theorem Hosted.steps {ok : Hosted Γ → HostedAct → Prop} {ok' : Sys Γ → Act → Prop} {h h' : Hosted Γ}
    (hrun : Steps (Hosted.step Γ) ok h h') (hok : ∀ h a b, ok h a → a.toAct = some b → ok' h.sys b) :
    Steps (LsmEngine.step Γ) ok' h.sys h'.sys := by
  induction hrun with
  | refl => exact .refl
  | tail _ ha hs ih =>
    rcases (hosted_cases hs).machine_step with ⟨b, hb, hstep⟩ | ⟨-, hsame, -⟩
    · exact ih.tail (hok _ _ _ ha hb) hstep
    · rwa [hsame]

end LsmEngine
