import Mathlib.Data.List.Induction
import Mathlib.Logic.Function.Basic

/-!
# Layers over a base

A store that keeps its newest data apart from its older data is a stack of layers over a base. A layer says something about
some keys and nothing about the others; the base answers every key. Laying a layer over a base (`onto`) lets the layer answer
where it can. The statements here are the algebra of that operation: two layers are one, a stack of layers answers as its layers asked
from the top down, and a layer laid twice counts once.

A log of writes is a layer too (`layerOf`): it answers the keys it writes, each with its last write.
-/

namespace Overlay

variable {κ β : Type*}

/-- What a part of a store says about each key: `none` where it says nothing. -/
abbrev Layer (κ β : Type*) := κ → Option β

/-- A base with a layer laid over it: the layer answers the keys it holds, the base the others. -/
def onto (f : Layer κ β) (b : κ → β) : κ → β := fun k => (f k).getD (b k)

/-- Two layers as one, the first over the second. -/
def atop (f g : Layer κ β) : Layer κ β := fun k => (f k).or (g k)

/-- A base with layers laid over it one after another, the first of the list lowest. -/
def ontoAll (fs : List (Layer κ β)) (b : κ → β) : κ → β := fs.foldl (fun b f => onto f b) b

/-- A layer answers the keys it holds. -/
theorem onto_of_some {f : Layer κ β} {k : κ} {x : β} (h : f k = some x) (b : κ → β) : onto f b k = x := by
  simp [onto, h]

/-- The base answers the others. -/
theorem onto_of_none {f : Layer κ β} {k : κ} (h : f k = none) (b : κ → β) : onto f b k = b k := by
  simp [onto, h]

/-- Laying one layer over another and both over a base is laying them one after the other. -/
theorem onto_atop (f g : Layer κ β) (b : κ → β) : onto (atop f g) b = onto f (onto g b) := by
  funext k
  cases hf : f k <;> simp [onto, atop, hf]

@[simp] theorem onto_empty (b : κ → β) : onto (fun _ => none) b = b := rfl

@[simp] theorem ontoAll_nil (b : κ → β) : ontoAll [] b = b := rfl

@[simp] theorem ontoAll_cons (f : Layer κ β) (fs : List (Layer κ β)) (b : κ → β) :
    ontoAll (f :: fs) b = ontoAll fs (onto f b) := rfl

/-- The last layer of a stack is on top. -/
theorem ontoAll_snoc (fs : List (Layer κ β)) (f : Layer κ β) (b : κ → β) :
    ontoAll (fs ++ [f]) b = onto f (ontoAll fs b) := by
  simp [ontoAll]

/-- The layers of a list asked one after another, the first of the list first, and the base where none of them answers. -/
def ask (fs : List (Layer κ β)) (b : κ → β) : κ → β := fs.foldr onto b

@[simp] theorem ask_nil (b : κ → β) : ask [] b = b := rfl

@[simp] theorem ask_cons (f : Layer κ β) (fs : List (Layer κ β)) (b : κ → β) : ask (f :: fs) b = onto f (ask fs b) := rfl

/-- A stack of layers answers as its layers asked from the top down. -/
theorem ontoAll_eq_ask (fs : List (Layer κ β)) (b : κ → β) : ontoAll fs b = ask fs.reverse b := by
  rw [ask, List.foldr_reverse]
  rfl

/-- A layer whose answers the base already gives changes nothing. -/
theorem onto_eq_self {f : Layer κ β} {b : κ → β} (h : ∀ k x, f k = some x → b k = x) : onto f b = b := by
  funext k
  cases hf : f k with
  | none => exact onto_of_none hf b
  | some x => rw [onto_of_some hf, h k x hf]

/-- A layer laid twice counts once. -/
@[simp] theorem onto_onto_self (f : Layer κ β) (b : κ → β) : onto f (onto f b) = onto f b :=
  onto_eq_self (fun _ _ h => onto_of_some h b)

/-! ## Logs as layers -/

section Log

variable [DecidableEq κ]

/-- The layer of a log of writes: each key with its last write. -/
def layerOf : List (κ × β) → Layer κ β
  | [] => fun _ => none
  | w :: ws => fun k => (layerOf ws k).or (if w.1 = k then some w.2 else none)

@[simp] theorem layerOf_nil : layerOf ([] : List (κ × β)) = fun _ => none := rfl

/-- A log after another lies on top of it. -/
theorem layerOf_append (us ws : List (κ × β)) : layerOf (us ++ ws) = atop (layerOf ws) (layerOf us) := by
  induction us with
  | nil => funext k; simp [atop, layerOf]
  | cons u us ih =>
    funext k
    rw [List.cons_append, layerOf, ih]
    simp only [atop, layerOf, Option.or_assoc]

/-- The last write of a log answers its key, and the log before it answers the others. -/
theorem layerOf_snoc (ws : List (κ × β)) (w : κ × β) (k : κ) :
    layerOf (ws ++ [w]) k = if w.1 = k then some w.2 else layerOf ws k := by
  rw [layerOf_append]
  by_cases h : w.1 = k <;> simp [atop, layerOf, h]

theorem onto_layerOf_append (us ws : List (κ × β)) (b : κ → β) :
    onto (layerOf (us ++ ws)) b = onto (layerOf ws) (onto (layerOf us) b) := by
  rw [layerOf_append, onto_atop]

/-- A log answers exactly the keys it writes. -/
theorem layerOf_eq_none {ws : List (κ × β)} {k : κ} : layerOf ws k = none ↔ ∀ w ∈ ws, w.1 ≠ k := by
  induction ws with
  | nil => simp
  | cons w ws ih =>
    rw [layerOf, Option.or_eq_none_iff, ih, List.forall_mem_cons]
    by_cases h : w.1 = k <;> simp [h]

/-- An answer of a log is one of its writes. -/
theorem mem_of_layerOf_eq_some {ws : List (κ × β)} {k : κ} {x : β} (h : layerOf ws k = some x) : (k, x) ∈ ws := by
  induction ws with
  | nil => simp at h
  | cons w ws ih =>
    rw [layerOf, Option.or_eq_some_iff] at h
    rcases h with h | ⟨-, h⟩
    · exact List.mem_cons_of_mem _ (ih h)
    · by_cases hw : w.1 = k
      · rw [if_pos hw, Option.some.injEq] at h
        rw [← hw, ← h]
        exact List.mem_cons_self
      · simp [hw] at h

/-- A log of which only the marked writes are left answers a key not at all, or with the write of some place: the last place
where a write of the key is left, and the answer the whole log gives up to that place. -/
theorem layerOf_marked (ms : List (Bool × κ × β)) (k : κ) :
    layerOf ((ms.filter Prod.fst).map Prod.snd) k = none ∨
      ∃ i < ms.length, ∃ x, layerOf ((ms.filter Prod.fst).map Prod.snd) k = some x ∧
        layerOf ((ms.map Prod.snd).take (i + 1)) k = some x ∧ ∀ j x', ms[j]? = some (true, k, x') → j ≤ i := by
  induction ms using List.reverseRecOn with
  | nil => exact .inl rfl
  | append_singleton ms m ih =>
    obtain ⟨b, u, v⟩ := m
    by_cases hm : b = true ∧ u = k
    · obtain ⟨rfl, rfl⟩ := hm
      have htake : ((ms ++ [(true, u, v)]).map Prod.snd).take (ms.length + 1) = ms.map Prod.snd ++ [(u, v)] := by
        rw [List.take_of_length_le (by simp)]
        simp
      refine .inr ⟨ms.length, by simp, v, ?_, ?_, ?_⟩
      · simp [layerOf_snoc]
      · rw [htake, layerOf_snoc, if_pos rfl]
      · intro j x' hj
        have := (List.getElem?_eq_some_iff.1 hj).1
        rw [List.length_append, List.length_singleton] at this
        omega
    · have hkeep : layerOf (((ms ++ [(b, u, v)]).filter Prod.fst).map Prod.snd) k =
          layerOf ((ms.filter Prod.fst).map Prod.snd) k := by
        cases b with
        | false => simp
        | true =>
          have hu : u ≠ k := fun hu => hm ⟨rfl, hu⟩
          simp [layerOf_snoc, hu]
      rw [hkeep]
      rcases ih with ih | ⟨i, hi, x, h1, h2, h3⟩
      · exact .inl ih
      · refine .inr ⟨i, by simp; omega, x, h1, ?_, ?_⟩
        · rw [List.map_append, List.take_append_of_le_length (by rw [List.length_map]; exact hi)]
          exact h2
        · intro j x' hj
          rcases Nat.lt_or_ge j ms.length with hlt | hge
          · rw [List.getElem?_append_left hlt] at hj
            exact h3 j x' hj
          · rw [List.getElem?_append_right hge] at hj
            have hlast := List.mem_of_getElem? hj
            simp only [List.mem_singleton, Prod.mk.injEq] at hlast
            exact absurd ⟨hlast.1.symm, hlast.2.1.symm⟩ hm

end Log

end Overlay
