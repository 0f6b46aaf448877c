import LsmEngine.Lemmas.Tickets
import LsmEngine.Script

/-!
# Every call returns once
-/

namespace LsmEngine

open Transition

variable {Γ : Ctx}

/-- In every run without crashes, whatever fails and in whatever order the threads step: what has returned and what is still in progress
is what was in progress at the start and what has begun since. No return is lost, none comes twice and none comes unasked, through
opens, drops, freezes, passes of the worker and waits for the locks. -/
theorem every_call_returns_once {as : List Act} {s t : Sys Γ} {os : List Out} (h : play (step Γ) as s = some (t, os))
    (ha : ∀ a ∈ as, a.isCrash = false) :
    t.tickets + (os.map Out.returns).sum = s.tickets + (as.map Act.begins).sum := by
  induction as generalizing s os with
  | nil =>
    simp only [play, Option.some.injEq, Prod.mk.injEq] at h
    obtain ⟨rfl, rfl⟩ := h
    rfl
  | cons a as ih =>
    rw [play] at h
    split at h
    · simp at h
    · rename_i u o hs
      obtain ⟨⟨t', os'⟩, hrest, heq⟩ := Option.map_eq_some_iff.1 h
      obtain ⟨rfl, rfl⟩ := Prod.mk.inj heq
      have hstep := step_tickets hs (ha a List.mem_cons_self)
      have hrun := ih hrest (fun b hb => ha b (List.mem_cons_of_mem a hb))
      simp only [List.map_cons, List.sum_cons]
      calc t'.tickets + (o.returns + (os'.map Out.returns).sum)
          = (t'.tickets + (os'.map Out.returns).sum) + o.returns := by abel
        _ = (u.tickets + o.returns) + (as.map Act.begins).sum := by rw [hrun]; abel
        _ = s.tickets + (a.begins + (as.map Act.begins).sum) := by rw [hstep]; abel

/-- A `flush()` that freezes while a pass of the worker holds `flush_lock`, and a `get` that has only begun. -/
def Script.contended : List Act :=
  Script.openDir ⟨0, false, 0⟩ 0 0 ++ Script.put [1] [7] ++ [.workerEnter] ++ Script.flushStart ++ [.get [1]] ++
    List.replicate 13 (.flushStep .ok)

/-- A `flush()` and a `get` are in progress after calls that have waited for each other. -/
theorem every_call_returns_once_contended : ∃ (t : Sys Ctx.concrete) (os : List Out), t.tickets = {.flush, .get [1]} ∧
    t.tickets + (os.map Out.returns).sum = (Sys.init Ctx.concrete).tickets + (Script.contended.map Act.begins).sum := by
  have hplay : (play (step Ctx.concrete) Script.contended (Sys.init Ctx.concrete)).any
      (fun r => decide (r.1.tickets = {.flush, .get [1]})) = true := by decide +kernel
  obtain ⟨⟨t, os⟩, hrun, ht⟩ := (Option.any_eq_true _ _).1 hplay
  exact ⟨t, os, of_decide_eq_true ht, every_call_returns_once hrun (by decide)⟩

end LsmEngine
