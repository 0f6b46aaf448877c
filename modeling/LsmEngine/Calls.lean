import LsmEngine.Step
import LsmEngine.Library.Run

/-!
# Calls that run alone

A call from its start to its return with nothing of another call in between and no failure, and what a sequence of such calls
does. `next` says what the calls in progress do next; following it brings every one of them to its end.
-/

namespace LsmEngine

open Transition

variable {Γ : Ctx}

/-- Somebody holds `flush_lock`. -/
def FlushSection.busy : FlushSection → Bool
  | .free => false
  | _ => true

/-- `flush_lock` is free exactly when nobody holds it. -/
theorem FlushSection.not_busy {f : FlushSection} : f.busy = false ↔ f = .free := by
  cases f <;> simp [FlushSection.busy]

/-- What the calls in progress do next: the holder of the wal mutex first, then the holder of `flush_lock`, then the calls that
wait for it, then the readers. -/
def Node.pending (n : Node Γ) : Option Act :=
  if n.eng.wal ≠ .free then some (.walStep .ok)
  else if n.eng.flush.busy then some (.flushStep .ok)
  else if n.eng.flushers ≠ [] then some (.flushEnter 0)
  else if n.eng.gets.isEmpty then none
  else some (.getStep 0 .ok)

/-- What the process does next when no new call comes. -/
def next (s : Sys Γ) : Option Act :=
  match s.proc with
  | .down => none
  | .opening _ => some (.openStep .ok)
  | .up e => (Node.mk s.disk s.hist e).pending

/-- One action, and then all that is in progress up to its end. -/
def runAct (Γ : Ctx) (fuel : Nat) (a : Act) (s : Sys Γ) : Option (Sys Γ × List Out) :=
  match step Γ s a with
  | none => none
  | some (t, o) => (drive (step Γ) next fuel t).map (fun r => (r.1, o :: r.2))

/-- What a caller sees of a step. -/
inductive Reply where
  | done (r : Except LsmError Unit)
  | value (r : Except LsmError (Option Value))
  deriving DecidableEq

def Out.reply : Out → List Reply
  | .silent => []
  | .opened r | .wrote _ r | .flushed _ r | .passed r | .compacted r => [.done r]
  | .got _ _ r => [.value r]

/-- The calls of a program that uses the engine, one after another, and what can come between them. -/
inductive Call where
  | put (key : Key) (value : Value)
  | delete (key : Key)
  | get (key : Key)
  | flush
  | compact
  /-- a pass of the background worker: `flush_all_pending`, then `compact_all_pending` when `compact_needed` -/
  | worker
  /-- the last handle is dropped and the directory opened again -/
  | reopen (options : LsmOptions)
  /-- the log writer hands bytes of its buffer over -/
  | handover (k : Nat)

/-- `compact_needed` of a running engine. -/
def Sys.compactNeeded (s : Sys Γ) : Bool :=
  match s.proc with
  | .up e => e.compactNeeded
  | _ => false

/-- The replies of a call, and the state after it. -/
def Call.perform (Γ : Ctx) (fuel : Nat) (s : Sys Γ) : Call → Option (Sys Γ × List Out)
  | .put k v => runAct Γ fuel (.write ⟨.put, k, v⟩ .ok) s
  | .delete k => runAct Γ fuel (.write ⟨.delete, k, []⟩ .ok) s
  | .get k => runAct Γ fuel (.get k) s
  | .flush => runAct Γ fuel .flush s
  | .compact => runAct Γ fuel .compactEnter s
  | .worker => do
    let (t, os) ← runAct Γ fuel .workerEnter s
    if t.compactNeeded then
      let (u, os') ← runAct Γ fuel .compactEnter t
      pure (u, os ++ os')
    else pure (t, os)
  | .reopen options => do
    let (t, os) ← runAct Γ fuel (.drop .ok) s
    let (u, os') ← runAct Γ fuel (.openDir options) t
    pure (u, os ++ os')
  | .handover k => runAct Γ fuel (.handover k) s

/-- Every `get` that runs alone returns what the map says. -/
def Reads (s : Sys Γ) (M : Key → Option Value) : Prop :=
  ∀ k, ∃ fuel t os, runAct Γ fuel (.get k) s = some (t, os) ∧ os.flatMap Out.reply = [.value (.ok (M k))]

/-- The directory opens, whatever the options, and the engine then reads as the map says. -/
def Reopens (s : Sys Γ) (M : Key → Option Value) : Prop :=
  ∀ options, ∃ fuel t os, runAct Γ fuel (.openDir options) s = some (t, os) ∧
    os.flatMap Out.reply = [.done (.ok ())] ∧ Reads t M

/-- A call that runs alone has one outcome, whatever the fuel. -/
theorem runAct_unique {f g : Nat} {a : Act} {s : Sys Γ} {x y : Sys Γ × List Out} (h : runAct Γ f a s = some x)
    (h' : runAct Γ g a s = some y) : x = y := by
  unfold runAct at h h'
  cases hs : step Γ s a with
  | none => simp [hs] at h
  | some r =>
    obtain ⟨t, o⟩ := r
    simp only [hs] at h h'
    obtain ⟨u, hu, rfl⟩ := Option.map_eq_some_iff.1 h
    obtain ⟨v, hv, rfl⟩ := Option.map_eq_some_iff.1 h'
    have hu' := drive_mono hu (Nat.le_max_left f g)
    rw [drive_mono hv (Nat.le_max_right f g)] at hu'
    rw [Option.some.inj hu']

/-- An engine reads as one map. -/
theorem Reads.unique {s : Sys Γ} {M N : Key → Option Value} (h : Reads s M) (h' : Reads s N) : M = N := by
  funext k
  obtain ⟨f, t, os, hrun, hout⟩ := h k
  obtain ⟨g, u, ps, hrun', hout'⟩ := h' k
  have heq := runAct_unique hrun hrun'
  rw [Prod.mk.injEq] at heq
  rw [heq.2, hout'] at hout
  simpa using hout.symm

/-- A directory reads as one map only. -/
theorem Reopens.unique {s : Sys Γ} {M N : Key → Option Value} (h : Reopens s M) (h' : Reopens s N) : M = N := by
  obtain ⟨f, t, os, hrun, -, hreads⟩ := h ⟨0, false, 0⟩
  obtain ⟨g, u, ps, hrun', -, hreads'⟩ := h' ⟨0, false, 0⟩
  have heq := runAct_unique hrun hrun'
  rw [Prod.mk.injEq] at heq
  rw [← heq.1] at hreads'
  exact hreads.unique hreads'

/-- What a call that runs alone replies. -/
def replies (Γ : Ctx) (fuel : Nat) (a : Act) (s : Sys Γ) : Option (List Reply) :=
  (runAct Γ fuel a s).map (fun r => r.2.flatMap Out.reply)

/-- What a `get` is seen to reply is what the map says. -/
theorem Reads.replied {s : Sys Γ} {M : Key → Option Value} (h : Reads s M) {fuel : Nat} {k : Key}
    {r : Except LsmError (Option Value)} (hg : replies Γ fuel (.get k) s = some [.value r]) : r = .ok (M k) := by
  obtain ⟨f, t, os, hrun, hout⟩ := h k
  obtain ⟨x, hx, hrep⟩ := Option.map_eq_some_iff.1 hg
  obtain rfl := runAct_unique hrun hx
  simpa [hout, eq_comm] using hrep

/-- What an engine replies to a `get` is what the map it reads as has there. -/
theorem Reads.value {s : Sys Γ} {M : Key → Option Value} (h : Reads s M) {fuel : Nat} {k : Key} {v : Option Value}
    (hg : replies Γ fuel (.get k) s = some [.value (.ok v)]) : M k = v :=
  (Except.ok.inj (h.replied hg)).symm

/-- What a `get` is seen to reply after an open is what the map says. -/
theorem Reopens.value {s : Sys Γ} {M : Key → Option Value} (h : Reopens s M) {fuel : Nat} {options : LsmOptions} {k : Key}
    {v : Option Value} (hg : (runAct Γ fuel (.openDir options) s).any
      (fun r => decide (replies Γ fuel (.get k) r.1 = some [.value (.ok v)])) = true) : M k = v := by
  obtain ⟨f, t, os, hrun, -, hreads⟩ := h options
  obtain ⟨r, hr, hrep⟩ := (Option.any_eq_true _ _).1 hg
  obtain rfl := runAct_unique hrun hr
  exact hreads.value (of_decide_eq_true hrep)

/-- The replies of a sequence of calls, call by call. -/
def runCalls (Γ : Ctx) (fuel : Nat) : List Call → Sys Γ → Option (Sys Γ × List (List Reply))
  | [], s => some (s, [])
  | c :: cs, s => do
    let (t, os) ← c.perform Γ fuel s
    let (u, rs) ← runCalls Γ fuel cs t
    pure (u, os.flatMap Out.reply :: rs)

/-- The replies of the open of an empty directory and of the calls that follow it. -/
def session (Γ : Ctx) (fuel : Nat) (options : LsmOptions) (calls : List Call) : Option (Sys Γ × List (List Reply)) := do
  let (s, os) ← runAct Γ fuel (.openDir options) (Sys.init Γ)
  let (t, rs) ← runCalls Γ fuel calls s
  pure (t, os.flatMap Out.reply :: rs)

/-- The process ends without a drop. -/
def Sys.crashed (s : Sys Γ) (κ : CrashKind) : Sys Γ := ⟨s.disk.crash κ, s.hist, .down⟩

/-- A crash is possible in every state. -/
theorem step_crash (s : Sys Γ) (κ : CrashKind) : step Γ s (.crash κ) = some (s.crashed κ, .silent) := by
  simp only [step, Sys.crashed]

/-! ## The map the calls are about -/

/-- What a call does to the map from keys to values. A write that the length caps refuse does nothing. -/
def Call.effect (M : Key → Option Value) : Call → Key → Option Value
  | .put k v => if k.length ≤ maxKeyLen ∧ v.length ≤ maxValueLen then Function.update M k (some v) else M
  | .delete k => if k.length ≤ maxKeyLen then Function.update M k none else M
  | _ => M

/-- What a call on the map `M` replies. -/
def Call.Expects (M : Key → Option Value) : Call → List Reply → Prop
  | .put k v, rs => if k.length ≤ maxKeyLen ∧ v.length ≤ maxValueLen then rs = [.done (.ok ())] else ∃ err, rs = [.done (.error err)]
  | .delete k, rs => if k.length ≤ maxKeyLen then rs = [.done (.ok ())] else ∃ err, rs = [.done (.error err)]
  | .get k, rs => rs = [.value (.ok (M k))]
  | .flush, rs | .compact, rs | .reopen _, rs => rs = [.done (.ok ())]
  | .worker, rs => rs ≠ [] ∧ ∀ r ∈ rs, r = .done (.ok ())
  | .handover _, rs => rs = []

/-- The replies are those of a map that starts as `M` and takes the calls one after another. -/
def Refines : (Key → Option Value) → List Call → List (List Reply) → Prop
  | _, [], [] => True
  | M, c :: cs, rs :: rss => c.Expects M rs ∧ Refines (c.effect M) cs rss
  | _, _, _ => False

end LsmEngine
