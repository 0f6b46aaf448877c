import LsmEngine.Lemmas.Calls

/-!
# The engine is a map

Calls made one after another, with passes of the worker and reopens between them, reply as a map from keys to values does.
-/

namespace LsmEngine

open Transition

variable {Γ : Ctx}

/-- A put updates the map at its key. -/
theorem runWrites_single_put (k : Key) (v : Value) (M : Key → Option Value) :
    runWrites [⟨.put, k, v⟩] M = Function.update M k (some v) := by
  funext x
  by_cases hx : x = k
  · subst hx
    rw [Function.update_self]
    exact runWrites_snoc_self [] _ _
  · rw [Function.update_of_ne hx]
    exact runWrites_snoc_of_ne [] (Ne.symm hx) _

/-- A delete takes the key out of the map. -/
theorem runWrites_single_delete (k : Key) (M : Key → Option Value) :
    runWrites [⟨.delete, k, []⟩] M = Function.update M k none := by
  funext x
  by_cases hx : x = k
  · subst hx
    rw [Function.update_self]
    exact runWrites_snoc_self [] _ _
  · rw [Function.update_of_ne hx]
    exact runWrites_snoc_of_ne [] (Ne.symm hx) _

/-- A write, accepted or refused. -/
theorem Idle.writes {M : Key → Option Value} {s : Sys Γ} (h : Idle M s) (w : WalEntry) :
    ∃ fuel t os, (∀ k, fuel ≤ k → runAct Γ k (.write w .ok) s = some (t, os)) ∧
      Idle (if w.Valid then runWrites [w] M else M) t ∧
      if w.Valid then os.flatMap Out.reply = [.done (.ok ())] else ∃ err, os.flatMap Out.reply = [.done (.error err)] := by
  by_cases hv : w.Valid
  · obtain ⟨fuel, t, os, hrun, hidle, hout⟩ := h.write hv
    exact ⟨fuel, t, os, hrun, by rw [if_pos hv]; exact hidle, by rw [if_pos hv]; exact hout⟩
  · obtain ⟨fuel, t, os, hrun, hidle, hout⟩ := h.refused hv
    exact ⟨fuel, t, os, hrun, by rw [if_neg hv]; exact hidle, by rw [if_neg hv]; exact hout⟩

/-- A pass of the worker. -/
theorem Idle.works {M : Key → Option Value} {s : Sys Γ} (h : Idle M s) :
    ∃ fuel t os, (∀ k, fuel ≤ k → Call.worker.perform Γ k s = some (t, os)) ∧ Idle M t ∧
      os.flatMap Out.reply ≠ [] ∧ ∀ r ∈ os.flatMap Out.reply, r = .done (.ok ()) := by
  obtain ⟨fuel, t, os, hrun, hidle, hout⟩ := h.maintains (.inr (.inr rfl))
  cases hc : t.compactNeeded with
  | false =>
    refine ⟨fuel, t, os, fun k hk => ?_, hidle, by simp [hout], by simp [hout]⟩
    simp [Call.perform, hrun k hk, hc]
  | true =>
    obtain ⟨fuel', u, os', hrun', hidle', hout'⟩ := hidle.maintains (.inr (.inl rfl))
    refine ⟨max fuel fuel', u, os ++ os', fun k hk => ?_, hidle', by simp [hout], by simp [hout, hout']⟩
    simp [Call.perform, hrun k (le_of_max_le_left hk), hrun' k (le_of_max_le_right hk), hc]

/-- A drop and an open. -/
theorem Idle.reopens {M : Key → Option Value} {s : Sys Γ} (h : Idle M s) (options : LsmOptions) :
    ∃ fuel t os, (∀ k, fuel ≤ k → (Call.reopen options).perform Γ k s = some (t, os)) ∧ Idle M t ∧
      os.flatMap Out.reply = [.done (.ok ())] := by
  obtain ⟨t, hs, hin, hp, hrec⟩ := h.drop
  obtain ⟨fuel, u, os, hrun, hidle, hout⟩ := hin.opens_idle hp options
  have hdrop : ∀ k, runAct Γ k (.drop .ok) s = some (t, [.silent]) := by
    intro k
    have hend : next t = none := by simp only [next, hp]
    simp only [runAct, hs, drive_done hend, Option.map_some]
  refine ⟨fuel, u, .silent :: os, fun k hk => ?_, hrec ▸ hidle, hout⟩
  simp [Call.perform, hdrop k, hrun k hk]

/-- Every call comes to its end, replies as the map does, and leaves the engine for the map after it. -/
theorem Idle.performs {M : Key → Option Value} {s : Sys Γ} (h : Idle M s) (c : Call) :
    ∃ fuel t os, (∀ k, fuel ≤ k → c.perform Γ k s = some (t, os)) ∧ Idle (c.effect M) t ∧
      c.Expects M (os.flatMap Out.reply) := by
  cases c with
  | put k v =>
    have hv : (⟨.put, k, v⟩ : WalEntry).Valid ↔ k.length ≤ maxKeyLen ∧ v.length ≤ maxValueLen := by simp [WalEntry.Valid]
    have hw := h.writes ⟨.put, k, v⟩
    simp only [hv, runWrites_single_put] at hw
    exact hw
  | delete k =>
    have hv : (⟨.delete, k, []⟩ : WalEntry).Valid ↔ k.length ≤ maxKeyLen := by simp [WalEntry.Valid]
    have hw := h.writes ⟨.delete, k, []⟩
    simp only [hv, runWrites_single_delete] at hw
    exact hw
  | get k => exact h.get k
  | flush => exact h.maintains (.inl rfl)
  | compact => exact h.maintains (.inr (.inl rfl))
  | worker => exact h.works
  | reopen options => exact h.reopens options
  | handover k => exact h.handover k

/-- By induction on the calls: they reply as the map does. -/
theorem Idle.runCalls {M : Key → Option Value} {s : Sys Γ} (h : Idle M s) (calls : List Call) :
    ∃ fuel t rs, (∀ k, fuel ≤ k → runCalls Γ k calls s = some (t, rs)) ∧ Refines M calls rs := by
  induction calls generalizing M s with
  | nil => exact ⟨0, s, [], fun _ _ => rfl, trivial⟩
  | cons c cs ih =>
    obtain ⟨fuel, t, os, hrun, hidle, hexp⟩ := h.performs c
    obtain ⟨fuel', u, rs, hrun', href⟩ := ih hidle
    refine ⟨max fuel fuel', u, os.flatMap Out.reply :: rs, fun k hk => ?_, hexp, href⟩
    simp [LsmEngine.runCalls, hrun k (le_of_max_le_left hk), hrun' k (le_of_max_le_right hk)]

/-- An empty directory stands for the empty map. -/
theorem inOrder_init (Γ : Ctx) : InOrder (Sys.init Γ) := Regime.inv_init (Regime.undisturbed_sound Γ)

/-- Any sequence of calls on an empty directory, with passes of the worker and reopens anywhere between them, comes to its end,
the open first, and replies as the map that starts empty and takes the calls one after another. -/
theorem calls_refine_map (options : LsmOptions) (calls : List Call) :
    ∃ fuel t rs, (∀ k, fuel ≤ k → session Γ k options calls = some (t, [.done (.ok ())] :: rs)) ∧
      Refines (fun _ => none) calls rs := by
  obtain ⟨fuel, s, os, hrun, hidle, hout⟩ := (inOrder_init Γ).opens_idle rfl options
  have hrec : (Sys.init Γ).disk.recovered Γ = fun _ => none := rfl
  rw [hrec] at hidle
  obtain ⟨fuel', t, rs, hrun', href⟩ := hidle.runCalls calls
  refine ⟨max fuel fuel', t, rs, fun k hk => ?_, href⟩
  simp [session, hrun k (le_of_max_le_left hk), hrun' k (le_of_max_le_right hk), hout]

end LsmEngine
