import LsmEngine.Calls

/-!
# Whole calls as lists of actions

The actions of a call from its start to its return, with nothing of another call in between and no failure.
-/

namespace LsmEngine

open Transition

namespace Script

/-- `open_with_options` of a directory whose logs hold `keys` keys, in `logs` logs. -/
def openDir (options : LsmOptions) (keys logs : Nat) : List Act :=
  [.openDir options] ++ List.replicate (2 + (if keys = 0 then 0 else keys + 1) + logs + 1) (.openStep .ok)

/-- `put` or `delete` without a freeze, `sync_per_write` off. -/
def write (w : WalEntry) : List Act := [.write w .ok, .walStep .ok, .walStep .ok]

def put (k : Key) (v : Value) : List Act := write ⟨.put, k, v⟩

/-- `put` without a freeze, `sync_per_write` on. -/
def syncedPut (k : Key) (v : Value) : List Act := [.write ⟨.put, k, v⟩ .ok, .walStep .ok, .walStep .ok, .walStep .ok]

/-- `flush()` up to its wait for `flush_lock`. -/
def flushStart : List Act := [.flush] ++ List.replicate 5 (.walStep .ok)

/-- The flush pass of `flush()` over `imms` immutables. -/
def flushPass (imms : Nat) : List Act :=
  [.flushEnter 0] ++ List.replicate (1 + 6 * imms + (if imms = 0 then 0 else 5 + imms)) (.flushStep .ok)

def flush : List Act := flushStart ++ flushPass 1

/-- `compact()` of `inputs` tables that leave a key and that nothing has read yet. -/
def compact (inputs : Nat) : List Act := [.compactEnter] ++ List.replicate (2 * inputs + 1 + 4 + 1 + 4 + inputs + 1) (.flushStep .ok)

/-- `get` of a key that `asked` lookups find. -/
def get (k : Key) (asked : Nat) : List Act := [.get k] ++ List.replicate asked (.getStep 0 .ok)

end Script

/-! ## Where a script leads -/

variable {Γ : Ctx}

/-- An engine runs, and it satisfies `p`. -/
def Sys.runs (s : Sys Γ) (p : Sys Γ → Engine Γ → Bool) : Bool :=
  match s.proc with
  | .up e => p s e
  | _ => false

/-- No engine runs. -/
def Sys.isDown (s : Sys Γ) : Bool :=
  match s.proc with
  | .down => true
  | _ => false

/-- Where an engine runs with the property. -/
theorem Sys.runs_iff {s : Sys Γ} {p : Sys Γ → Engine Γ → Bool} : s.runs p = true ↔ ∃ e, s.proc = .up e ∧ p s e = true := by
  unfold Sys.runs
  cases s.proc <;> simp

/-- Where no engine runs. -/
theorem Sys.isDown_iff {s : Sys Γ} : s.isDown = true ↔ s.proc = .down := by
  unfold Sys.isDown
  cases s.proc <;> simp

/-- A running engine that satisfies `p`, where a script leads to one. -/
theorem exists_up_of_play (ok : Sys Γ → Act → Prop) [∀ s a, Decidable (ok s a)] (s : Sys Γ) (as : List Act)
    (p : Sys Γ → Engine Γ → Bool) (h : (play (restrict (step Γ) ok) as s).any (fun r => r.1.runs p) = true) :
    ∃ t e, Steps (step Γ) ok s t ∧ t.proc = .up e ∧ p t e = true := by
  obtain ⟨t, hrun, hp⟩ := exists_steps_of_play (step Γ) ok s as (fun t => t.runs p) h
  obtain ⟨e, hproc, he⟩ := Sys.runs_iff.1 hp
  exact ⟨t, e, hrun, hproc, he⟩

/-- A step or a script, with the result `x`, puts out `o` and comes to a state that satisfies `p`. -/
def leadsTo {σ ο : Type} [DecidableEq ο] (x : Option (σ × ο)) (o : ο) (p : σ → Bool) : Bool :=
  x.any (fun r => decide (r.2 = o) && p r.1)

/-- Where a step or a script leads with the output and the property. -/
theorem leadsTo_iff {σ ο : Type} [DecidableEq ο] {x : Option (σ × ο)} {o : ο} {p : σ → Bool} :
    leadsTo x o p = true ↔ ∃ t, x = some (t, o) ∧ p t = true := by
  simp only [leadsTo, Option.any_eq_true, Bool.and_eq_true, decide_eq_true_eq]
  constructor
  · rintro ⟨⟨t, o'⟩, rfl, rfl, hp⟩
    exact ⟨t, rfl, hp⟩
  · rintro ⟨t, rfl, hp⟩
    exact ⟨(t, o), rfl, rfl, hp⟩

end LsmEngine
