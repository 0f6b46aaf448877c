import Mathlib.Logic.Basic
import Mathlib.Data.List.Basic
import Mathlib.Order.WellFounded

/-!
# Runs of a machine

A machine is a function that takes a state and an action to the next state and an output, where the action is possible. A run
keeps to a condition on each action in the state where it is taken. What holds at the start of a run and is kept by every step
that meets the condition holds at its end.
-/

namespace Transition

variable {σ α ο : Type*} {step : σ → α → Option (σ × ο)} {ok ok' : σ → α → Prop} {s t u : σ}

/-- `t` is reached from `s` by steps that all meet `ok`. -/
inductive Steps (step : σ → α → Option (σ × ο)) (ok : σ → α → Prop) (s : σ) : σ → Prop where
  | refl : Steps step ok s s
  | tail {t u : σ} {a : α} {o : ο} : Steps step ok s t → ok t a → step t a = some (u, o) → Steps step ok s u

/-- A property every step keeps is kept by a run. -/
theorem Steps.invariant {P : σ → Prop} (h : Steps step ok s t) (h0 : P s)
    (hstep : ∀ {t u : σ} {a : α} {o : ο}, P t → ok t a → step t a = some (u, o) → P u) : P t := by
  induction h with
  | refl => exact h0
  | tail _ hok hs ih => exact hstep ih hok hs

/-- Runs one after another are a run. -/
theorem Steps.trans (h : Steps step ok s t) (h' : Steps step ok t u) : Steps step ok s u := by
  induction h' with
  | refl => exact h
  | tail _ hok hs ih => exact ih.tail hok hs

/-- A run under a condition is a run under a weaker one. -/
theorem Steps.mono (h : Steps step ok s t) (himp : ∀ t a, ok t a → ok' t a) : Steps step ok' s t := by
  induction h with
  | refl => exact .refl
  | tail _ hok hs ih => exact ih.tail (himp _ _ hok) hs

/-- The state and the outputs after a list of actions. -/
def play (step : σ → α → Option (σ × ο)) : List α → σ → Option (σ × List ο)
  | [], s => some (s, [])
  | a :: as, s =>
    match step s a with
    | none => none
    | some (t, o) => (play step as t).map (fun r => (r.1, o :: r.2))

/-- Playing lists of actions one after another. -/
theorem play_append (as bs : List α) (s : σ) : play step (as ++ bs) s =
    (play step as s).bind (fun r => (play step bs r.1).map (fun q => (q.1, r.2 ++ q.2))) := by
  induction as generalizing s with
  | nil => simp [play]
  | cons a as ih =>
    rw [List.cons_append, play, play]
    cases step s a with
    | none => rfl
    | some r =>
      dsimp only
      rw [ih]
      cases play step as r.1 with
      | none => rfl
      | some q => cases hb : play step bs q.1 <;> simp [hb]

/-- One run played after another. -/
theorem play_trans {as bs : List α} {os os' : List ο} (h : play step as s = some (t, os)) (h' : play step bs t = some (u, os')) :
    play step (as ++ bs) s = some (u, os ++ os') := by
  rw [play_append, h, Option.bind_some, h', Option.map_some]

/-- A machine whose every action is possible can play every list of actions. -/
theorem play_total (h : ∀ s a, ∃ r, step s a = some r) (as : List α) (s : σ) : ∃ t os, play step as s = some (t, os) := by
  induction as generalizing s with
  | nil => exact ⟨s, [], rfl⟩
  | cons a as ih =>
    obtain ⟨⟨u, o⟩, hs⟩ := h s a
    obtain ⟨t, os, ht⟩ := ih u
    exact ⟨t, o :: os, by rw [play, hs]; simp only [ht, Option.map_some]⟩

/-- Two machines whose states stay related, and that put out the same at every step, put out the same in every run. -/
theorem play_related {τ : Type*} {step' : τ → α → Option (τ × ο)} {R : σ → τ → Prop}
    (hstep : ∀ s t a, R s t → Option.Rel (fun x y => R x.1 y.1 ∧ x.2 = y.2) (step s a) (step' t a)) {s : σ} {t : τ} (h : R s t)
    (as : List α) : Option.Rel (fun x y => R x.1 y.1 ∧ x.2 = y.2) (play step as s) (play step' as t) := by
  induction as generalizing s t with
  | nil => exact .some ⟨h, rfl⟩
  | cons a as ih =>
    have hone := hstep s t a h
    rw [play, play]
    generalize step s a = x at hone ⊢
    generalize step' t a = y at hone ⊢
    cases hone with
    | none => exact .none
    | @some x y hxy =>
      obtain ⟨s', o⟩ := x
      obtain ⟨t', o'⟩ := y
      obtain ⟨hR, rfl⟩ := hxy
      have hrest := ih hR
      dsimp only
      generalize play step as s' = p at hrest ⊢
      generalize play step' as t' = q at hrest ⊢
      cases hrest with
      | none => exact .none
      | some hpq => exact .some ⟨hpq.1, congrArg (List.cons o) hpq.2⟩

/-- The machine that takes only the steps that meet `ok`. -/
def restrict (step : σ → α → Option (σ × ο)) (ok : σ → α → Prop) [∀ s a, Decidable (ok s a)] (s : σ) (a : α) : Option (σ × ο) :=
  if ok s a then step s a else none

/-- Actions that meet a condition, played one after another, are a run under it. -/
theorem steps_of_play [∀ s a, Decidable (ok s a)] {as : List α} {l : List ο}
    (h : play (restrict step ok) as s = some (t, l)) : Steps step ok s t := by
  induction as generalizing s l with
  | nil =>
    simp only [play, Option.some.injEq, Prod.mk.injEq] at h
    rw [h.1]
    exact .refl
  | cons a as ih =>
    rw [play] at h
    split at h
    · exact absurd h (by simp)
    · rename_i m o hs
      obtain ⟨r, hr, hrt⟩ := Option.map_eq_some_iff.1 h
      have ht : r.1 = t := congrArg Prod.fst hrt
      rw [restrict] at hs
      split at hs
      · rename_i hok
        refine (Steps.refl.tail hok hs).trans (ih (l := r.2) ?_)
        rw [hr, ← ht]
      · simp at hs

/-- A run played to a state with a property. -/
theorem exists_steps_of_play (step : σ → α → Option (σ × ο)) (ok : σ → α → Prop) [∀ s a, Decidable (ok s a)] (s : σ)
    (as : List α) (p : σ → Bool) (h : (play (restrict step ok) as s).any (fun r => p r.1) = true) :
    ∃ t, Steps step ok s t ∧ p t = true := by
  cases hr : play (restrict step ok) as s with
  | none => simp [hr] at h
  | some r =>
    rw [hr, Option.any_some] at h
    exact ⟨r.1, steps_of_play hr, h⟩

/-! ## Running on -/

/-- Follow `next` until it gives no action. -/
def drive (step : σ → α → Option (σ × ο)) (next : σ → Option α) : Nat → σ → Option (σ × List ο)
  | 0, s =>
    match next s with
    | none => some (s, [])
    | some _ => none
  | fuel + 1, s =>
    match next s with
    | none => some (s, [])
    | some a =>
      match step s a with
      | none => none
      | some (t, o) => (drive step next fuel t).map (fun r => (r.1, o :: r.2))

variable {next : σ → Option α}

/-- Nothing is done where there is nothing to do. -/
theorem drive_done {fuel : Nat} (h : next s = none) : drive step next fuel s = some (s, []) := by
  cases fuel <;> simp only [drive, h]

/-- One step and what comes after it. -/
theorem drive_step {fuel : Nat} {a : α} {o : ο} {r : σ × List ο} (h : next s = some a) (hs : step s a = some (t, o))
    (hr : drive step next fuel t = some r) : drive step next (fuel + 1) s = some (r.1, o :: r.2) := by
  simp only [drive, h, hs, hr, Option.map_some]

/-- More fuel changes nothing. -/
theorem drive_mono {fuel fuel' : Nat} {r : σ × List ο} (h : drive step next fuel s = some r) (hle : fuel ≤ fuel') :
    drive step next fuel' s = some r := by
  induction fuel generalizing s r fuel' with
  | zero =>
    cases hn : next s with
    | none => rw [drive_done hn] at h ⊢; exact h
    | some a =>
      simp [drive, hn] at h
  | succ fuel ih =>
    cases hn : next s with
    | none => rw [drive_done hn] at h ⊢; exact h
    | some a =>
      obtain ⟨fuel', rfl⟩ : ∃ k, fuel' = k + 1 := ⟨fuel' - 1, by omega⟩
      simp only [drive, hn] at h ⊢
      cases hs : step s a with
      | none => simp [hs] at h
      | some p =>
        obtain ⟨t, o⟩ := p
        simp only [hs] at h ⊢
        obtain ⟨r', hr', hrr⟩ := Option.map_eq_some_iff.1 h
        rw [ih hr' (by omega), ← hrr]
        rfl

/-- A machine that can always go on, keeps `P` and comes nearer to its end with every step comes to its end, and gives out on the way
what it owes at the start. -/
theorem drive_total {ι ρ : Type*} [LT ι] [WellFoundedLT ι] {P : σ → Prop} (rank : σ → ι) (emit : ο → List ρ)
    (owed : σ → List ρ)
    (hstep : ∀ s a, P s → next s = some a → ∃ t o, step s a = some (t, o) ∧ P t ∧ rank t < rank s ∧ owed s = emit o ++ owed t)
    (hend : ∀ s, P s → next s = none → owed s = []) (h : P s) :
    ∃ fuel t os, drive step next fuel s = some (t, os) ∧ P t ∧ next t = none ∧ os.flatMap emit = owed s := by
  generalize hr : rank s = r
  induction r using WellFoundedLT.induction generalizing s with
  | _ r ih =>
    cases hn : next s with
    | none => exact ⟨0, s, [], drive_done hn, h, hn, (hend s h hn).symm⟩
    | some a =>
      obtain ⟨t, o, hs, ht, hlt, howed⟩ := hstep s a h hn
      obtain ⟨fuel, u, os, hd, hu, hnu, hemit⟩ := ih (rank t) (hr ▸ hlt) ht rfl
      exact ⟨fuel + 1, u, o :: os, drive_step hn hs hd, hu, hnu, by rw [List.flatMap_cons, hemit, howed]⟩

/-- A process of the machine comes to its return, whatever the results of its actions: each action is possible, and returns with `Q`
or puts out `quiet` and leaves less to do. -/
theorem play_returns {ι : Type*} [LT ι] [WellFoundedLT ι] {P : σ → Prop} {Q : σ → ο → Prop} {A : α → Prop} (rank : σ → ι)
    (quiet : ο)
    (hstep : ∀ s a, P s → A a → ∃ t o, step s a = some (t, o) ∧ ((o = quiet ∧ P t ∧ rank t < rank s) ∨ Q t o))
    (acts : ℕ → α) (hacts : ∀ i, A (acts i)) (h : P s) :
    ∃ fuel t os o, play step ((List.range fuel).map acts) s = some (t, os ++ [o]) ∧ (∀ x ∈ os, x = quiet) ∧ Q t o := by
  generalize hr : rank s = r
  induction r using WellFoundedLT.induction generalizing s acts with
  | _ r ih =>
    obtain ⟨t, o, hs, ⟨ho, ht, hlt⟩ | hq⟩ := hstep s (acts 0) h (hacts 0)
    · rw [ho] at hs
      obtain ⟨fuel, u, os, o, hplay, hos, hq⟩ := ih (rank t) (hr ▸ hlt) (fun i => acts (i + 1)) (fun i => hacts (i + 1)) ht rfl
      refine ⟨fuel + 1, u, quiet :: os, o, ?_, by simpa using hos, hq⟩
      rw [List.range_succ_eq_map, List.map_cons, List.map_map, play, hs]
      change Option.map _ (play step ((List.range fuel).map (fun i => acts (i + 1))) t) = _
      rw [hplay]
      rfl
    · exact ⟨1, t, [], o, by simp [play, hs], by simp, hq⟩

/-! ## Whoever is scheduled -/

/-- Whoever is scheduled, the machine comes to `Q`: it is there or somebody can work, and whatever work is done next leads to a state
from which it comes to `Q`. Steps of another kind may come in between. -/
inductive Inevitable (step : σ → α → Option (σ × ο)) (works idles : α → Prop) (Q : σ → Prop) : σ → Prop where
  | intro {s : σ}
      (hnow : ∀ t, Steps step (fun _ a => idles a) s t → Q t ∨ ∃ a u o, works a ∧ step t a = some (u, o))
      (hnext : ∀ t a u o, Steps step (fun _ a => idles a) s t → works a → step t a = some (u, o) → Inevitable step works idles Q u) :
      Inevitable step works idles Q s

/-- Work that always leaves less to do, and can go on until `Q`, comes to `Q` in every order. -/
theorem inevitable_of_rank {ι : Type*} [Preorder ι] [WellFoundedLT ι] {works idles : α → Prop} {P Q : σ → Prop} (rank : σ → ι)
    (hworks : ∀ s a t o, P s → works a → step s a = some (t, o) → P t ∧ rank t < rank s)
    (hidles : ∀ s a t o, P s → idles a → step s a = some (t, o) → P t ∧ rank t ≤ rank s)
    (hgoes : ∀ s, P s → Q s ∨ ∃ a t o, works a ∧ step s a = some (t, o)) (h : P s) : Inevitable step works idles Q s := by
  generalize hr : rank s = r
  induction r using WellFoundedLT.induction generalizing s with
  | _ r ih =>
    have hbetween : ∀ t, Steps step (fun _ a => idles a) s t → P t ∧ rank t ≤ r := by
      intro t ht
      refine ht.invariant (P := fun u => P u ∧ rank u ≤ r) ⟨h, hr.le⟩ ?_
      intro u v a o hu ha hs
      obtain ⟨hv, hle⟩ := hidles u a v o hu.1 ha hs
      exact ⟨hv, hle.trans hu.2⟩
    refine .intro (fun t ht => hgoes t (hbetween t ht).1) ?_
    intro t a u o ht ha hs
    obtain ⟨hp, hle⟩ := hbetween t ht
    obtain ⟨hu, hlt⟩ := hworks t a u o hp ha hs
    exact ih (rank u) (hlt.trans_le hle) hu rfl

end Transition
