import LsmEngine.Lemmas.Answers
import LsmEngine.Lemmas.Counters
import LsmEngine.Script

/-!
# Reads

A `get` that returns `Ok` returns the value its key had at an instant between its snapshot and its return, whatever other calls
do in between; and while nothing fails no `get` returns an error, also when compactions remove the files of tables it has yet to
ask.
-/

namespace LsmEngine

open Transition Overlay

variable {Γ : Ctx}

/-! ## The instant of a read -/

/-- Whatever other calls do in between, in a run in which nothing fails: a `get` that returns `Ok` returns the value its key had
at an instant after its snapshot and not after its return, in the open in which it runs. It is the value that the writes applied until
then, of earlier opens and of this one, leave its key. -/
theorem reads_linearize {s t : Sys Γ} (h : Steps (step Γ) NoFailure (Sys.init Γ) s) {i : Nat} {k : Key} {since : Nat}
    {v : Option Value} (hs : step Γ s (.getStep i .ok) = some (t, .got k since (.ok v))) :
    ∃ s₀ t₀ u e, Steps (step Γ) NoFailure (Sys.init Γ) s₀ ∧ step Γ s₀ (.get k) = some (t₀, .silent) ∧
      t₀.hist.applied = since ∧ Steps (step Γ) NoFailure t₀ u ∧ Steps (step Γ) NoFailure u s ∧ SameOpen t₀ s ∧ u.proc = .up e ∧
      e.map u.disk k = v ∧ u.hist.mapAt u.hist.applied k = v := by
  obtain ⟨s₀, t₀, u, e, hs₀, hget, happ, hbefore, hafter, hsame, hp, hv⟩ := returned_seen h hs
  have ht₀ : Steps (step Γ) NoFailure (Sys.init Γ) t₀ := hs₀.tail (a := .get k) trivial hget
  have hmap := ((inOrder_of_steps (ht₀.trans hbefore)).up hp).1.map_eq
  exact ⟨s₀, t₀, u, e, hs₀, hget, happ, hbefore, hafter, hsame, hp, hv, by rw [← hv, hmap]⟩

/-- A `get` takes its snapshot after the first of two writes of its key and returns after the second. -/
theorem reads_linearize_between :
    ∃ s t : Sys Ctx.concrete, ∃ since v, step _ s (.getStep 0 .ok) = some (t, .got [1] since (.ok v)) ∧
      ∃ s₀ t₀ u e, Steps (step _) NoFailure (Sys.init _) s₀ ∧ step _ s₀ (.get [1]) = some (t₀, .silent) ∧
        t₀.hist.applied = since ∧ Steps (step _) NoFailure t₀ u ∧ Steps (step _) NoFailure u s ∧ SameOpen t₀ s ∧ u.proc = .up e ∧
        e.map u.disk [1] = v ∧ u.hist.mapAt u.hist.applied [1] = v := by
  obtain ⟨s, hrun, hp⟩ := exists_steps_of_play (step Ctx.concrete) NoFailure (Sys.init _)
    (Script.openDir ⟨0, false, 0⟩ 0 0 ++ Script.put [1] [7] ++ [.get [1]] ++ Script.put [1] [8])
    (fun s => leadsTo (step _ s (.getStep 0 .ok)) (.got [1] 1 (.ok (some [8]))) (fun _ => true)) (by decide +kernel)
  obtain ⟨t, hs, -⟩ := leadsTo_iff.1 hp
  exact ⟨s, t, 1, some [8], hs, reads_linearize hrun hs⟩

/-! ## Reads and compactions -/

/-- In a run in which nothing fails, a `get` never returns an error, whatever compactions remove; and when the file of a table is
gone, the handle that a `get` in progress holds of it has its reader. -/
theorem reads_never_fail {s : Sys Γ} (h : Steps (step Γ) NoFailure (Sys.init Γ) s) :
    (∀ a t k since r, NoFailure s a → step Γ s a = some (t, .got k since r) → ∃ v, r = .ok v) ∧
      ∀ e, s.proc = .up e → ∀ g ∈ e.gets, ∀ m ∈ g.walk.ssts, s.disk.ssts m.name = none →
        ∃ rd, e.readers m.name = some (.ok rd) := by
  have hin := inOrder_of_steps h
  constructor
  · intro a t k since r ha hs
    cases step_cases hs with
    | openStep hp hm => cases hm
    | @node _ e _ hp hm =>
      obtain ⟨hdata, hsound⟩ := hin.up hp
      cases r with
      | ok v => exact ⟨v, rfl⟩
      | error err =>
        generalize hx : (t, Out.got k since (.error err)) = x at hm
        cases hm with
        | @getStep i io r hg =>
          obtain rfl : io = .ok := ha
          exact absurd (Prod.mk.inj hx).2.symm (hg.no_error hsound.handles hsound.reading)
        | wal hw => exact absurd (Prod.mk.inj hx).2.symm (hw.not_got.1 _ _ _)
        | flushStep hf => exact absurd (Prod.mk.inj hx).2.symm (hf.not_wrote.2 _ _ _)
        | write hw => cases hw <;> simp at hx
        | _ => simp at hx
  · intro e hp g hg m hm hgone
    obtain ⟨hdata, hsound⟩ := hin.up hp
    exact hsound.handles.opened_of_gone hdata hg hm hgone

/-- A `get` holds the handle of a table that a compaction has merged away, and its file is gone. -/
theorem reads_never_fail_merged :
    ∃ (s : Sys Ctx.concrete) (e : Engine Ctx.concrete), s.proc = .up e ∧
      (∃ g ∈ e.gets, ∃ m ∈ g.walk.ssts, s.disk.ssts m.name = none ∧ ∃ rd, e.readers m.name = some (.ok rd)) := by
  obtain ⟨s, e, hrun, hproc, hp⟩ := exists_up_of_play NoFailure (Sys.init Ctx.concrete)
    (Script.openDir ⟨0, false, 0⟩ 0 0 ++ Script.put [1] [7] ++ Script.flush ++ [.get [1]] ++ Script.compact 1)
    (fun s e => e.gets.any (fun g => g.walk.ssts.any (fun m => (s.disk.ssts m.name).isNone))) (by decide +kernel)
  simp only [List.any_eq_true, Option.isNone_iff_eq_none] at hp
  obtain ⟨g, hg, m, hm, hgone⟩ := hp
  exact ⟨s, e, hproc, g, hg, m, hm, hgone, (reads_never_fail hrun).2 e hproc g hg m hm hgone⟩

end LsmEngine
