import Mathlib.Order.Defs.LinearOrder
import Mathlib.Order.Basic
import Mathlib.Data.List.Sort
import Mathlib.Algebra.Ring.Nat

/-!
# Finite maps as sorted lists

A finite map over a linear order is a list of bindings in strictly ascending order of their keys. The order is a field, so a
value of the type has each key once and is listed in key order; two maps that answer every key alike are equal.
-/

/-- A finite map: its bindings in strictly ascending order of their keys. -/
structure SortedMap (κ ν : Type*) [LinearOrder κ] where
  toList : List (κ × ν)
  sorted : toList.Pairwise (fun a b => a.1 < b.1)

namespace SortedMap

variable {κ ν : Type*} [LinearOrder κ]

/-- The map with no binding. -/
def empty : SortedMap κ ν := ⟨[], List.Pairwise.nil⟩

/-! ## Bindings of a list -/

/-- The value of a key in a list of bindings. -/
def find (k : κ) : List (κ × ν) → Option ν
  | [] => none
  | b :: bs => if b.1 = k then some b.2 else find k bs

/-- A list of bindings with the value of a key set, in its place. -/
def place (k : κ) (v : ν) : List (κ × ν) → List (κ × ν)
  | [] => [(k, v)]
  | b :: bs => if k < b.1 then (k, v) :: b :: bs else if b.1 = k then (k, v) :: bs else b :: place k v bs

/-- A list in which a binding is placed has that binding and the others. -/
theorem mem_place {k : κ} {v : ν} {bs : List (κ × ν)} {a : κ × ν} (h : a ∈ place k v bs) : a = (k, v) ∨ a ∈ bs := by
  induction bs with
  | nil => simpa [place] using h
  | cons b bs ih =>
    simp only [place] at h
    split_ifs at h
    · rcases List.mem_cons.1 h with h | h
      · exact Or.inl h
      · exact Or.inr h
    · rcases List.mem_cons.1 h with h | h
      · exact Or.inl h
      · exact Or.inr (List.mem_cons_of_mem _ h)
    · rcases List.mem_cons.1 h with h | h
      · exact Or.inr (h ▸ List.mem_cons_self)
      · rcases ih h with h | h
        · exact Or.inl h
        · exact Or.inr (List.mem_cons_of_mem _ h)

theorem place_sorted {k : κ} {v : ν} {bs : List (κ × ν)} (hs : bs.Pairwise (fun a b => a.1 < b.1)) :
    (place k v bs).Pairwise (fun a b => a.1 < b.1) := by
  induction bs with
  | nil => simp [place]
  | cons b bs ih =>
    obtain ⟨hb, hs'⟩ := List.pairwise_cons.1 hs
    simp only [place]
    split_ifs with h1 h2
    · refine List.pairwise_cons.2 ⟨fun a ha => ?_, hs⟩
      rcases List.mem_cons.1 ha with rfl | ha
      · exact h1
      · exact h1.trans (hb a ha)
    · exact List.pairwise_cons.2 ⟨fun a ha => h2 ▸ hb a ha, hs'⟩
    · refine List.pairwise_cons.2 ⟨fun a ha => ?_, ih hs'⟩
      rcases mem_place ha with rfl | ha
      · exact lt_of_le_of_ne (not_lt.1 h1) h2
      · exact hb a ha

/-- A key is not found exactly when no binding has it. -/
theorem find_eq_none {k : κ} {bs : List (κ × ν)} : find k bs = none ↔ ∀ b ∈ bs, b.1 ≠ k := by
  induction bs with
  | nil => simp [find]
  | cons b bs ih =>
    by_cases h : b.1 = k
    · simp [find, h]
    · simp [find, h, ih]

/-- The key of a binding that was placed is found with its value, the others as before. -/
theorem find_place {k : κ} {v : ν} {bs : List (κ × ν)} (hs : bs.Pairwise (fun a b => a.1 < b.1)) (j : κ) :
    find j (place k v bs) = if k = j then some v else find j bs := by
  induction bs with
  | nil => simp [place, find]
  | cons b bs ih =>
    obtain ⟨hb, hs'⟩ := List.pairwise_cons.1 hs
    by_cases h1 : k < b.1
    · simp [place, find, h1]
    · by_cases h2 : b.1 = k
      · by_cases h3 : k = j
        · simp [place, find, h2, h3]
        · simp [place, find, h2, h3]
      · by_cases h3 : k = j
        · subst h3
          simp [place, find, h1, h2, ih hs']
        · simp [place, find, h1, h2, h3, ih hs']

/-- What is found is a binding. -/
theorem mem_of_find_eq_some {k : κ} {v : ν} {bs : List (κ × ν)} (h : find k bs = some v) : (k, v) ∈ bs := by
  induction bs with
  | nil => simp [find] at h
  | cons b bs ih =>
    simp only [find] at h
    split_ifs at h with hb
    · rw [Option.some.injEq] at h
      rw [← hb, ← h]
      exact List.mem_cons_self
    · exact List.mem_cons_of_mem _ (ih h)

/-- A binding of a sorted list is found. -/
theorem find_eq_some_of_mem {k : κ} {v : ν} {bs : List (κ × ν)} (hs : bs.Pairwise (fun a b => a.1 < b.1))
    (h : (k, v) ∈ bs) : find k bs = some v := by
  induction bs with
  | nil => simp at h
  | cons b bs ih =>
    obtain ⟨hb, hs'⟩ := List.pairwise_cons.1 hs
    rcases List.mem_cons.1 h with rfl | h
    · simp [find]
    · simp [find, (hb _ h).ne, ih hs' h]

/-- Two sorted lists of bindings that answer every key alike are the same list. -/
theorem list_ext {as bs : List (κ × ν)} (ha : as.Pairwise (fun a b => a.1 < b.1))
    (hb : bs.Pairwise (fun a b => a.1 < b.1)) (h : ∀ k, find k as = find k bs) : as = bs := by
  induction as generalizing bs with
  | nil =>
    cases bs with
    | nil => rfl
    | cons b bs => simpa [find] using h b.1
  | cons a as ih =>
    obtain ⟨ha1, ha2⟩ := List.pairwise_cons.1 ha
    cases bs with
    | nil => simpa [find] using h a.1
    | cons b bs =>
      obtain ⟨hb1, hb2⟩ := List.pairwise_cons.1 hb
      -- each head is the least key of its list, and each list holds the other's head
      have hab : (a.1, a.2) ∈ b :: bs := by
        apply mem_of_find_eq_some
        rw [← h]
        simp [find]
      have hba : (b.1, b.2) ∈ a :: as := by
        apply mem_of_find_eq_some
        rw [h]
        simp [find]
      have heq : a = b := by
        rcases List.mem_cons.1 hab with h1 | h1
        · exact h1
        · rcases List.mem_cons.1 hba with h2 | h2
          · exact h2.symm
          · exact absurd (hb1 _ h1) (lt_asymm (ha1 _ h2))
      subst heq
      congr 1
      apply ih ha2 hb2
      intro k
      by_cases hk : a.1 = k
      · subst hk
        rw [find_eq_none.2 (fun c hc => (ha1 c hc).ne'), find_eq_none.2 (fun c hc => (hb1 c hc).ne')]
      · simpa [find, hk] using h k

/-- Setting the value of a key adds at most the weight of the new binding. -/
theorem sum_place_le (weight : κ × ν → Nat) (k : κ) (v : ν) (bs : List (κ × ν)) :
    ((place k v bs).map weight).sum ≤ (bs.map weight).sum + weight (k, v) := by
  induction bs with
  | nil => simp [place]
  | cons b bs ih =>
    rw [place]
    split_ifs
    · simp only [List.map_cons, List.sum_cons]
      omega
    · simp only [List.map_cons, List.sum_cons]
      omega
    · simp only [List.map_cons, List.sum_cons]
      omega

/-! ## The operations -/

/-- The value of a key. -/
def get (m : SortedMap κ ν) (k : κ) : Option ν := find k m.toList

/-- The map with the value of a key set. -/
def insert (m : SortedMap κ ν) (k : κ) (v : ν) : SortedMap κ ν := ⟨place k v m.toList, place_sorted m.sorted⟩

/-- The map without a key. -/
def erase (m : SortedMap κ ν) (k : κ) : SortedMap κ ν :=
  ⟨m.toList.filter (fun b => b.1 ≠ k), m.sorted.filter _⟩

/-- The map with every value changed by a function. -/
def mapVal {μ : Type*} (f : ν → μ) (m : SortedMap κ ν) : SortedMap κ μ :=
  ⟨m.toList.map (fun b => (b.1, f b.2)), by rw [List.pairwise_map]; exact m.sorted⟩

/-- The keys, ascending. -/
def keys (m : SortedMap κ ν) : List κ := m.toList.map Prod.fst

/-- Whether the map has no binding. -/
def isEmpty (m : SortedMap κ ν) : Bool := m.toList.isEmpty

@[simp] theorem get_empty (k : κ) : (empty : SortedMap κ ν).get k = none := rfl

/-- A key that is inserted has its value, the others what they had. -/
theorem get_insert (m : SortedMap κ ν) (k : κ) (v : ν) (j : κ) :
    (m.insert k v).get j = if k = j then some v else m.get j :=
  find_place m.sorted j

@[simp] theorem get_insert_self (m : SortedMap κ ν) (k : κ) (v : ν) : (m.insert k v).get k = some v := by
  simp [get_insert]

/-- The bindings are the values of the keys. -/
theorem mem_toList_iff (m : SortedMap κ ν) {k : κ} {v : ν} : (k, v) ∈ m.toList ↔ m.get k = some v :=
  ⟨find_eq_some_of_mem m.sorted, mem_of_find_eq_some⟩

/-- A key without a value is no key of the map. -/
theorem get_eq_none_iff (m : SortedMap κ ν) {k : κ} : m.get k = none ↔ k ∉ m.keys := by
  simp only [get, find_eq_none, keys, List.mem_map, not_exists, not_and]

/-- The keys are those with a value. -/
theorem mem_keys_iff (m : SortedMap κ ν) {k : κ} : k ∈ m.keys ↔ ∃ v, m.get k = some v := by
  rw [← not_iff_not, ← get_eq_none_iff]
  cases m.get k <;> simp

/-- A key that is erased has no value, the others what they had. -/
theorem get_erase (m : SortedMap κ ν) (k j : κ) : (m.erase k).get j = if k = j then none else m.get j := by
  by_cases h : k = j
  · subst h
    simp [erase, get, find_eq_none]
  · rw [if_neg h]
    cases hj : m.get j with
    | none =>
      rw [get, find_eq_none] at hj ⊢
      intro b hb
      exact hj b (List.mem_of_mem_filter hb)
    | some v =>
      rw [← mem_toList_iff] at hj ⊢
      exact List.mem_filter.2 ⟨hj, by simpa using Ne.symm h⟩

/-- A function of the values, key by key. -/
theorem get_mapVal {μ : Type*} (f : ν → μ) (m : SortedMap κ ν) (k : κ) : (m.mapVal f).get k = (m.get k).map f := by
  simp only [get, mapVal]
  induction m.toList with
  | nil => rfl
  | cons b bs ih =>
    simp only [List.map_cons, find]
    split_ifs <;> simp [ih]

/-- A map is known from its values. -/
@[ext] theorem ext {m n : SortedMap κ ν} (h : ∀ k, m.get k = n.get k) : m = n := by
  cases m with
  | mk as ha =>
    cases n with
    | mk bs hb =>
      have : as = bs := list_ext ha hb h
      subst this
      rfl

/-- The keys are in order. -/
theorem keys_sorted (m : SortedMap κ ν) : m.keys.Pairwise (· < ·) := by
  rw [keys, List.pairwise_map]
  exact m.sorted

theorem keys_nodup (m : SortedMap κ ν) : m.keys.Nodup := m.keys_sorted.imp (fun h => h.ne)

@[simp] theorem keys_mapVal {μ : Type*} (f : ν → μ) (m : SortedMap κ ν) : (m.mapVal f).keys = m.keys := by
  simp [keys, mapVal]

@[simp] theorem keys_erase (m : SortedMap κ ν) (k : κ) : (m.erase k).keys = m.keys.filter (· ≠ k) := by
  simp [keys, erase, List.filter_map, Function.comp_def]

/-- Only the empty map is empty. -/
theorem isEmpty_iff (m : SortedMap κ ν) : m.isEmpty = true ↔ m = empty := by
  constructor
  · intro h
    cases m with
    | mk as ha =>
      simp only [isEmpty, List.isEmpty_iff] at h
      subst h
      rfl
  · rintro rfl
    rfl

/-- Setting the value of a key that the map has leaves its keys as they are. -/
theorem keys_insert_of_mem (m : SortedMap κ ν) {k : κ} (v : ν) (h : k ∈ m.keys) : (m.insert k v).keys = m.keys := by
  have hperm : ∀ j, j ∈ (m.insert k v).keys ↔ j ∈ m.keys := by
    intro j
    simp only [mem_keys_iff, get_insert]
    split_ifs with hj
    · subst hj
      simpa using m.mem_keys_iff.1 h
    · rfl
  exact (m.insert k v).keys_sorted.eq_of_mem_iff m.keys_sorted (fun {j} => hperm j)

/-- A key above every key of the map goes last. -/
theorem keys_insert_of_lt (m : SortedMap κ ν) {k : κ} (v : ν) (h : ∀ j ∈ m.keys, j < k) :
    (m.insert k v).keys = m.keys ++ [k] := by
  have hs : (m.keys ++ [k]).Pairwise (· < ·) :=
    List.pairwise_append.2 ⟨m.keys_sorted, List.pairwise_singleton _ _, fun a ha b hb => by
      rw [List.mem_singleton] at hb
      exact hb ▸ h a ha⟩
  refine (m.insert k v).keys_sorted.eq_of_mem_iff hs (fun {j} => ?_)
  rw [mem_keys_iff, get_insert, List.mem_append, List.mem_singleton, mem_keys_iff]
  split_ifs with hj
  · simp [hj]
  · simp [Ne.symm hj]

end SortedMap
