import Mathlib.Algebra.Ring.Nat
import Mathlib.Data.List.Chain
import Mathlib.Data.List.Infix
import Mathlib.Order.Bounds.Basic

/-!
# Packing a list into bins

A list with a size for each item is cut, in order, into bins of a capacity. An item larger than the capacity has a bin of its own.
Bins that are filled one after another, each until the next item does not fit, are as few as bins can be, and two neighbours together
hold more than the capacity.
-/

namespace Packing

variable {α : Type*} (size : α → Nat) (cap : Nat)

/-- What a bin holds. -/
def load (bin : List α) : Nat := (bin.map size).sum

/-- A bin holds at most the capacity, or a single item. -/
def Fits (bin : List α) : Prop := load size bin ≤ cap ∨ bin.length = 1

/-- A list cut into bins. -/
structure Cut (l : List α) (bins : List (List α)) : Prop where
  all : bins.flatten = l
  fits : ∀ bin ∈ bins, Fits size cap bin

/-- The first item of the next bin does not fit any more. -/
def Full (bin next : List α) : Prop := ∀ a ∈ next.head?, cap < load size bin + size a

variable {size cap}

/-- The load of a bin with one more item. -/
@[simp] theorem load_cons (a : α) (bin : List α) : load size (a :: bin) = size a + load size bin := by
  simp [load]

/-- The load of two bins in one. -/
@[simp] theorem load_append (as bs : List α) : load size (as ++ bs) = load size as + load size bs := by
  simp [load]

/-- A bin that fits does not hold a full bin and the item after it. -/
theorem not_fits_full {pre bin rest : List α} {a : α} (hbin : bin ≠ []) (hfull : cap < load size bin + size a) :
    ¬Fits size cap (pre ++ (bin ++ a :: rest)) := by
  have hpos := List.length_pos_of_ne_nil hbin
  intro hfits
  rcases hfits with hload | hone
  · rw [load_append, load_append, load_cons] at hload
    omega
  · rw [List.length_append, List.length_append, List.length_cons] at hone
    omega

/-- Greedy stays ahead, one bin: what is left after a full bin is the end of what is left after a bin of a cut that starts no
later. -/
theorem suffix_of_full {bin c pre rest : List α} {bins : List (List α)} (hne : ∀ b ∈ bin :: bins, b ≠ [])
    (hfull : (bin :: bins).IsChain (Full size cap)) (hfits : Fits size cap c) (heq : pre ++ (bin ++ bins.flatten) = c ++ rest) :
    bins.flatten <:+ rest := by
  have hbins : bins.flatten <:+ c ++ rest := ⟨pre ++ bin, by rw [← heq, List.append_assoc]⟩
  rcases List.suffix_or_suffix_of_suffix hbins (List.suffix_append c rest) with h | h
  · exact h
  · -- else the bin of the cut holds the whole of `bin` and an item of the next one
    obtain ⟨t, ht⟩ := h
    have hc : c = pre ++ (bin ++ t) := by
      rw [← ht, ← List.append_assoc, ← List.append_assoc] at heq
      rw [← List.append_cancel_right heq, List.append_assoc]
    cases bins with
    | nil => exact List.nil_suffix
    | cons next bins =>
      cases t with
      | nil => rw [← ht, List.nil_append]
      | cons a t =>
        obtain ⟨b, next, rfl⟩ := List.exists_cons_of_ne_nil (hne next (by simp))
        rw [List.flatten_cons, List.cons_append, List.cons_append] at ht
        obtain ⟨rfl, -⟩ := List.cons.inj ht
        rw [hc] at hfits
        exact absurd hfits (not_fits_full (hne bin (List.mem_cons_self ..)) ((List.isChain_cons_cons.1 hfull).1 a rfl))

/-- Greedy stays ahead: bins filled one after another that hold the end of a list are at most as many as the bins of any cut. -/
theorem length_le_of_suffix {bins cut : List (List α)} (hne : ∀ bin ∈ bins, bin ≠ []) (hfull : bins.IsChain (Full size cap))
    (hcut : ∀ bin ∈ cut, Fits size cap bin) (hend : bins.flatten <:+ cut.flatten) : bins.length ≤ cut.length := by
  induction bins generalizing cut with
  | nil => exact Nat.zero_le _
  | cons bin bins ih =>
    cases cut with
    | nil =>
      rw [List.flatten_nil, List.suffix_nil, List.flatten_cons] at hend
      exact absurd (List.append_eq_nil_iff.1 hend).1 (hne bin (List.mem_cons_self ..))
    | cons c cut =>
      obtain ⟨pre, hpre⟩ := hend
      rw [List.flatten_cons, List.flatten_cons] at hpre
      have hrest : bins.flatten <:+ cut.flatten := suffix_of_full hne hfull (hcut c (List.mem_cons_self ..)) hpre
      have hle : bins.length ≤ cut.length :=
        ih (fun b hb => hne b (List.mem_cons_of_mem _ hb)) hfull.tail (fun b hb => hcut b (List.mem_cons_of_mem _ hb)) hrest
      exact Nat.succ_le_succ hle

/-- Bins filled one after another are the fewest. -/
theorem isLeast_length {l : List α} {bins : List (List α)} (hcut : Cut size cap l bins) (hne : ∀ bin ∈ bins, bin ≠ [])
    (hfull : bins.IsChain (Full size cap)) : IsLeast {n | ∃ bins, Cut size cap l bins ∧ bins.length = n} bins.length := by
  refine ⟨⟨bins, hcut, rfl⟩, ?_⟩
  rintro n ⟨cut, hother, rfl⟩
  exact length_le_of_suffix hne hfull hother.fits (by rw [hcut.all, hother.all])

/-- Neighbours hold more than the capacity together, so half the capacity is used on average. -/
theorem length_mul_le {bin : List α} {bins : List (List α)} (hne : ∀ b ∈ bins, b ≠ [])
    (hfull : (bin :: bins).IsChain (Full size cap)) : bins.length * cap + load size bin ≤ 2 * load size (bin :: bins).flatten := by
  induction bins generalizing bin with
  | nil =>
    simp only [List.length_nil, List.flatten_cons, List.flatten_nil, List.append_nil]
    omega
  | cons next bins ih =>
    obtain ⟨hhead, htail⟩ := List.isChain_cons_cons.1 hfull
    have hrest := ih (fun b hb => hne b (List.mem_cons_of_mem _ hb)) htail
    obtain ⟨a, next, rfl⟩ := List.exists_cons_of_ne_nil (hne next (List.mem_cons_self ..))
    have ha := hhead a rfl
    rw [List.flatten_cons, load_append]
    rw [load_cons] at hrest
    rw [List.length_cons, Nat.succ_mul]
    omega

end Packing
