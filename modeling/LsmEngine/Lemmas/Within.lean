import LsmEngine.Lemmas.Regimes

/-!
# Runs in which nothing fails

Every state of such a run is in order; and between two opens a run is a run of one engine.
-/

namespace LsmEngine

open Transition

variable {Γ : Ctx}

/-- The actions of a run in which nothing fails. -/
def NoFailure (_ : Sys Γ) (a : Act) : Prop := a.NoFail

instance (s : Sys Γ) (a : Act) : Decidable (NoFailure s a) := inferInstanceAs (Decidable a.NoFail)

/-- A run in which nothing fails keeps the system in order. -/
theorem inOrder_of_steps {s : Sys Γ} (h : Steps (step Γ) NoFailure (Sys.init Γ) s) :
    (Regime.undisturbed Γ).Inv s :=
  Regime.inv_of_steps (Regime.undisturbed_sound Γ) (h.mono (fun _ _ ha => Act.NoFail.harmless ha))

theorem Regime.Inv.up {s : Sys Γ} (h : (Regime.undisturbed Γ).Inv s) {e : Engine Γ} (hp : s.proc = .up e) :
    DataUp ⟨s.disk, s.hist, e⟩ ∧ Undisturbed ⟨s.disk, s.hist, e⟩ := by
  simp only [Regime.Inv, hp] at h
  exact h

/-- A system is known from the engine that runs in it. -/
theorem toSys_of_up {s : Sys Γ} {e : Engine Γ} (hp : s.proc = .up e) : s = Node.toSys ⟨s.disk, s.hist, e⟩ := by
  obtain ⟨d, h, p⟩ := s
  simp only at hp
  rw [hp]
  rfl

/-! ## Within one open -/

/-- The engine of `t` is the one of `s`, later. -/
def SameOpen (s t : Sys Γ) : Prop := t.hist.past = s.hist.past

/-- A step into a running engine is a step of that engine, or ends an open. -/
theorem step_into_up {s t : Sys Γ} {a : Act} {o : Out} (hs : step Γ s a = some (t, o)) {e : Engine Γ} (hp : t.proc = .up e) :
    (∃ e₀, s.proc = .up e₀ ∧ NodeMove ⟨s.disk, s.hist, e₀⟩ a (t, o) ∧ t.hist.past = s.hist.past) ∨
      (t.hist.past = s.hist.past ++ [s.hist.epoch] ∧ e.gets = []) := by
  cases step_cases hs with
  | crash | openDir => simp at hp
  | openStep hp' hm =>
    cases hm with
    | up =>
      right
      obtain rfl := Proc.up.inj hp
      exact ⟨rfl, rfl⟩
    | _ => simp at hp
  | @openHandover k op hp' =>
    unfold Opening.handover at hp
    split at hp
    · simp at hp
    · rw [hp'] at hp
      simp at hp
  | @node _ e₀ _ hp' hm => exact .inl ⟨e₀, hp', hm, (hm.past (toSys_of_up hp)).1⟩

/-- A step ends an open and counts it among the past ones, or leaves them. -/
theorem past_grows {s t : Sys Γ} {a : Act} {o : Out} (hs : step Γ s a = some (t, o)) :
    t.hist.past = s.hist.past ∨ t.hist.past = s.hist.past ++ [s.hist.epoch] := by
  cases step_cases hs with
  | crash | openDir => exact .inl rfl
  | openStep hp' hm =>
    cases hm with
    | up => exact .inr rfl
    | _ => exact .inl rfl
  | @openHandover k op hp' =>
    unfold Opening.handover
    split <;> exact .inl rfl
  | @node _ e₀ _ hp' hm =>
    cases hm with
    | drop => exact .inl rfl
    | write hw => exact .inl (NodeMove.past (.write hw) rfl).1
    | wal hw => exact .inl (NodeMove.past (.wal hw) rfl).1
    | flushStep hf => exact .inl (NodeMove.past (.flushStep hf) rfl).1
    | getStep hg => exact .inl (NodeMove.past (.getStep hg) rfl).1
    | _ => exact .inl rfl

/-- The past opens of a run become no fewer. -/
theorem past_length_le {ok : Sys Γ → Act → Prop} {s t : Sys Γ} (h : Steps (step Γ) ok s t) :
    s.hist.past.length ≤ t.hist.past.length := by
  induction h with
  | refl => exact Nat.le_refl _
  | tail _ _ hs ih =>
    rcases past_grows hs with hp | hp
    · rw [hp]
      exact ih
    · rw [hp, List.length_append]
      omega

/-- A run within one open, step by step: what holds of its first state and is kept by the steps of the engine holds of its
last. -/
theorem run_within {ok : Sys Γ → Act → Prop} {s t : Sys Γ} (h : Steps (step Γ) ok s t) {P : Sys Γ → Prop} (h0 : P s)
    (hstep : ∀ {u v : Sys Γ} {e₀ e : Engine Γ} {a : Act} {o : Out}, Steps (step Γ) ok s u → P u → u.proc = .up e₀ →
      ok u a → step Γ u a = some (v, o) → NodeMove ⟨u.disk, u.hist, e₀⟩ a (v, o) → v.proc = .up e → P v)
    {e : Engine Γ} (hp : t.proc = .up e) (hsame : SameOpen s t) : P t := by
  induction h generalizing e with
  | refl => exact h0
  | @tail u v a o hu hok hs ih =>
    have hle := past_length_le hu
    rcases step_into_up hs hp with ⟨e₀, hp₀, hm, hpast⟩ | ⟨hpast, -⟩
    · exact hstep hu (ih hp₀ (hpast.symm.trans hsame)) hp₀ hok hs hm hp
    · have := congrArg List.length (hpast.symm.trans hsame)
      rw [List.length_append, List.length_singleton] at this
      omega

end LsmEngine
