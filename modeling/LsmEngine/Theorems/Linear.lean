import LsmEngine.Lemmas.Answers
import LsmEngine.Lemmas.Effects
import LsmEngine.Script

/-!
# Linearizability, whatever fails

A running engine is a map that changes where a write takes effect, at one step within its call, and nowhere else; and a `get` that returns
`Ok` returns what that map has at one step within its call. It takes no condition on what has failed before or fails meanwhile.
-/

namespace LsmEngine

open Transition

variable {Γ : Ctx} {ok : Sys Γ → Act → Prop} {logs : SortedMap Nat WalFile}

/-! ## Writes -/

/-- By induction on the actions: the map after them is that before with the writes that took effect, and every write is accounted for. -/
theorem effects_of_play {as : List Act} {s t : Sys Γ} {os : List Out} (hseq : SeqInv s) (htab : s.TablesOk) {e : Engine Γ}
    (hp : s.proc = .up e) (h : play (step Γ) as s = some (t, os)) (ha : ∀ a ∈ as, a.restarts = false) :
    ∃ e', t.proc = .up e' ∧ e'.map t.disk = runWrites (effects Γ as s) (e.map s.disk) ∧
      ∃ failed ≤ (os.map Out.rejected).sum,
        (effects Γ as s : Multiset WalEntry) + s.taken = (os.map Out.acknowledged).sum + failed + t.taken := by
  induction as generalizing s os e with
  | nil =>
    simp only [play, Option.some.injEq, Prod.mk.injEq] at h
    obtain ⟨rfl, rfl⟩ := h
    exact ⟨e, hp, rfl, 0, Multiset.zero_le _, by simp [effects]⟩
  | cons a as ih =>
    rw [play] at h
    split at h
    · simp at h
    · rename_i u o hs
      obtain ⟨⟨t', os'⟩, hrest, heq⟩ := Option.map_eq_some_iff.1 h
      obtain ⟨rfl, rfl⟩ := Prod.mk.inj heq
      have hno := ha a List.mem_cons_self
      rcases step_running hs hno with ⟨e₀, e', hp₀, hu, hm⟩ | ⟨op, op', hp₀, -⟩
      · obtain rfl := Proc.up.inj (hp.symm.trans hp₀)
        have hpu : u.proc = .up e' := by rw [hu]; rfl
        have hact := hs
        rw [step_up hp hno] at hact
        have hup : TablesUp ⟨s.disk, s.hist, e⟩ := by rwa [Sys.TablesOk, hp] at htab
        have hmap := act_map hup hact hu
        obtain ⟨failed, hle, hacc⟩ := act_accounts hact hu
        obtain ⟨e'', hpt, hmap', failed', hle', hacc'⟩ := ih (seqInv_step hseq hs) (step_tablesOk hseq htab hs) hpu hrest
          (fun b hb => ha b (List.mem_cons_of_mem a hb))
        have happlies : s.applies a = (Node.mk s.disk s.hist e).applies a := by rw [Sys.applies, hp]
        have hbefore : s.taken = e.wal.taken := by rw [Sys.taken, hp]
        have hbetween : u.taken = e'.wal.taken := by rw [Sys.taken, hpu]
        simp only [effects, hs, happlies, hbefore, List.map_cons, List.sum_cons, ← Multiset.coe_add]
        refine ⟨e'', hpt, ?_, failed + failed', add_le_add hle hle', ?_⟩
        · rw [hmap', runWrites_append]
          exact congrArg _ hmap
        · rw [hbetween] at hacc'
          generalize (effects Γ as u : Multiset WalEntry) = later at hacc' ⊢
          generalize ((Node.mk s.disk s.hist e).applies a : Multiset WalEntry) = now at hacc ⊢
          calc now + later + e.wal.taken = (now + e.wal.taken) + later := by abel
            _ = o.acknowledged + failed + (later + e'.wal.taken) := by rw [hacc]; abel
            _ = o.acknowledged + (os'.map Out.acknowledged).sum + (failed + failed') + t'.taken := by rw [hacc']; abel
      · rw [hp] at hp₀
        simp at hp₀

/-- Whatever has failed before and fails meanwhile, in every order of the threads' steps: what the engine stands for after a run of one
open is what it stood for before with the writes that took effect in the run; every write that was acknowledged in it has taken effect
once, and of those that were rejected some have, once each. -/
theorem writes_take_effect_once {s : Sys Γ} (hrun : Steps (step Γ) ok (Sys.ofLogs Γ logs) s) {e : Engine Γ} (hp : s.proc = .up e)
    {as : List Act} {t : Sys Γ} {os : List Out} (h : play (step Γ) as s = some (t, os)) (ha : ∀ a ∈ as, a.restarts = false) :
    ∃ e', t.proc = .up e' ∧ e'.map t.disk = runWrites (effects Γ as s) (e.map s.disk) ∧
      ∃ failed ≤ (os.map Out.rejected).sum,
        (effects Γ as s : Multiset WalEntry) + s.taken = (os.map Out.acknowledged).sum + failed + t.taken := by
  obtain ⟨hseq, htab⟩ := tablesOk_of_steps hrun
  exact effects_of_play hseq htab hp h ha

/-- A `put` whose rotation fails, and a `delete` that rotates. -/
def Script.rotationFails : List Act :=
  [.write ⟨.put, [1], [7]⟩ .ok] ++ List.replicate 3 (.walStep .ok) ++ [.walStep (.fail 0)] ++ [.write ⟨.delete, [1], []⟩ .ok] ++
    List.replicate 6 (.walStep .ok)

/-- Both take effect, and the first is rejected. -/
theorem writes_take_effect_once_rejected :
    ∃ (s t : Sys Ctx.concrete) (e e' : Engine Ctx.concrete) (w w' : WalEntry) (os : List Out), s.proc = .up e ∧
      play (step Ctx.concrete) Script.rotationFails s = some (t, os) ∧ t.proc = .up e' ∧
      (.wrote w (.error .io) ∈ os ∧ .wrote w' (.ok ()) ∈ os) ∧ effects Ctx.concrete Script.rotationFails s = [w, w'] ∧
      e'.map t.disk = runWrites [w, w'] (e.map s.disk) := by
  obtain ⟨s, e, hrun, hproc, hp⟩ := exists_up_of_play (fun _ _ => True) (Sys.ofLogs Ctx.concrete SortedMap.empty)
    (Script.openDir ⟨1, false, 0⟩ 0 0)
    (fun s _ => (play (step Ctx.concrete) Script.rotationFails s).any (fun r : Sys Ctx.concrete × List Out => decide (
      (Out.wrote ⟨.put, [1], [7]⟩ (.error .io) ∈ r.2 ∧ Out.wrote ⟨.delete, [1], []⟩ (.ok ()) ∈ r.2) ∧
      effects Ctx.concrete Script.rotationFails s = [⟨.put, [1], [7]⟩, ⟨.delete, [1], []⟩])))
    (by decide +kernel)
  obtain ⟨⟨t, os⟩, hplay, hall⟩ := (Option.any_eq_true _ _).1 hp
  obtain ⟨hout, heff⟩ := of_decide_eq_true hall
  obtain ⟨e', hproc', hmap, -⟩ := writes_take_effect_once hrun hproc hplay (by decide)
  exact ⟨s, t, e, e', _, _, os, hproc, hplay, hproc', hout, heff, heff ▸ hmap⟩

/-! ## Reads -/

variable {s t : Sys Γ} {k : Key} {since : Nat}

/-- Whatever has failed before and fails meanwhile, and whatever other calls do in between: a `get` that returns `Ok` returns the value
that its key had at an instant after its snapshot and not after its return. -/
theorem reads_linearize_whatever_fails (h : Steps (step Γ) ok (Sys.ofLogs Γ logs) s) {i : Nat} {io : Io} {v : Option Value}
    (hs : step Γ s (.getStep i io) = some (t, .got k since (.ok v))) :
    ∃ s₀ t₀ u e, Steps (step Γ) ok (Sys.ofLogs Γ logs) s₀ ∧ step Γ s₀ (.get k) = some (t₀, .silent) ∧ t₀.hist.applied = since ∧
      Steps (step Γ) ok t₀ u ∧ Steps (step Γ) ok u s ∧ SameOpen t₀ s ∧ u.proc = .up e ∧ e.map u.disk k = v :=
  returned_seen h hs

/-- A `get` takes its snapshot while a flush pass builds a table, the pass fails, and its key is written again before it looks. -/
theorem reads_linearize_whatever_fails_flush : ∃ (s t : Sys Ctx.concrete) (since : Nat),
    step _ s (.getStep 0 .ok) = some (t, .got [1] since (.ok (some [8]))) ∧
      ∃ s₀ t₀ u e, Steps (step _) (fun _ _ => True) (Sys.ofLogs _ SortedMap.empty) s₀ ∧ step _ s₀ (.get [1]) = some (t₀, .silent) ∧
        t₀.hist.applied = since ∧ Steps (step _) (fun _ _ => True) t₀ u ∧ Steps (step _) (fun _ _ => True) u s ∧ SameOpen t₀ s ∧
        u.proc = .up e ∧ e.map u.disk [1] = some [8] := by
  obtain ⟨s, hrun, hp⟩ := exists_steps_of_play (step Ctx.concrete) (fun _ _ => True) (Sys.ofLogs _ SortedMap.empty)
    (Script.openDir ⟨0, false, 0⟩ 0 0 ++ Script.put [1] [7] ++ Script.flushStart ++ [.flushEnter 0, .flushStep .ok, .get [1]] ++
      [.flushStep (.fail 0)] ++ Script.put [1] [8])
    (fun s => leadsTo (step _ s (.getStep 0 .ok)) (.got [1] 1 (.ok (some [8]))) (fun _ => true)) (by decide +kernel)
  obtain ⟨t, hs, -⟩ := leadsTo_iff.1 hp
  exact ⟨s, t, 1, hs, reads_linearize_whatever_fails hrun hs⟩

end LsmEngine
