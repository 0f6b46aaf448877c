import LsmEngine.Lemmas.Merge

/-!
# `merge_runs` meets its specification

The output of the merge is determined by the runs alone: the live newest record of every key, in ascending order, whatever the
order in which the runs are given.
-/

namespace LsmEngine

/-- A key is in a list of sorted records exactly when a lookup finds it. -/
theorem mem_iff_find {rs : List Record} (hs : Sorted rs) {k : Key} {e : Value × Bool} :
    (k, e) ∈ rs ↔ SortedMap.find k rs = some e :=
  ⟨SortedMap.find_eq_some_of_mem hs, SortedMap.mem_of_find_eq_some⟩

/-- A key is found exactly when a record has it. -/
theorem find_ne_none_iff {rs : List Record} {k : Key} : SortedMap.find k rs ≠ none ↔ ∃ x ∈ rs, x.1 = k := by
  rw [Ne, SortedMap.find_eq_none]
  push Not
  rfl

/-- Two sorted lists of records with the same lookups are the same list. -/
theorem sorted_ext {rs rs' : List Record} (hs : Sorted rs) (hs' : Sorted rs')
    (h : ∀ k, SortedMap.find k rs = SortedMap.find k rs') : rs = rs' := SortedMap.list_ext hs hs' h

/-- What the merge emits for a key is the live record of the highest-seq run that holds the key. -/
theorem emitted_newest_iff {runs : List Run} (hd : (runs.map Run.seq).Nodup) (hs : ∀ r ∈ runs, Sorted r.records) {k : Key}
    {v : Value} {d : Bool} : emitted (newest k runs) = some (v, d) ↔ d = false ∧
      ∃ r ∈ runs, (k, v, false) ∈ r.records ∧ ∀ r' ∈ runs, (∃ x ∈ r'.records, x.1 = k) → r'.seq ≤ r.seq := by
  constructor
  · intro h
    cases hn : newest k runs with
    | none => simp [hn, emitted] at h
    | some b =>
      obtain ⟨s, v', del⟩ := b
      obtain ⟨r, hr, rfl, hf, hmax⟩ := (newest_iff hd).1 hn
      cases del with
      | true => simp [hn, emitted] at h
      | false =>
        simp only [hn, emitted, Bool.false_eq_true, if_false, Option.some.injEq, Prod.mk.injEq] at h
        obtain ⟨rfl, rfl⟩ := h
        exact ⟨rfl, r, hr, SortedMap.mem_of_find_eq_some hf, fun r' hr' hx => hmax r' hr' (find_ne_none_iff.2 hx)⟩
  · rintro ⟨rfl, r, hr, hmem, hmax⟩
    have hn : newest k runs = some (r.seq, v, false) :=
      (newest_iff hd).2 ⟨r, hr, rfl, (mem_iff_find (hs r hr)).1 hmem, fun r' hr' hf => hmax r' hr' (find_ne_none_iff.1 hf)⟩
    rw [hn]
    rfl

/-- For runs with distinct seqs, each strictly ascending by key, the merge ends without a panic. Its output is strictly
ascending, so no key comes twice; it holds exactly the records `(k, v, false)` such that the highest-seq run with a record of
`k` has `(k, v, false)`; and it is the same for every order of the runs. -/
theorem mergeRuns_correct {runs : List Run} (hd : (runs.map Run.seq).Nodup) (hs : ∀ r ∈ runs, Sorted r.records) :
    ∃ out, mergeRuns runs = some out ∧ Sorted out ∧ (out.map Prod.fst).Nodup ∧
      (∀ k v d, (k, v, d) ∈ out ↔ d = false ∧
        ∃ r ∈ runs, (k, v, false) ∈ r.records ∧ ∀ r' ∈ runs, (∃ x ∈ r'.records, x.1 = k) → r'.seq ≤ r.seq) ∧
      ∀ runs', runs.Perm runs' → mergeRuns runs' = some out := by
  obtain ⟨out, hout, hso, hfind⟩ := mergeRuns_spec hs
  refine ⟨out, hout, hso, ?_, fun k v d => ?_, fun runs' hp => ?_⟩
  · rw [List.nodup_iff_pairwise_ne, List.pairwise_map]
    exact hso.imp (fun hlt => hlt.ne)
  · rw [mem_iff_find hso, hfind, emitted_newest_iff hd hs]
  · obtain ⟨out', hout', hso', hfind'⟩ := mergeRuns_spec (fun r (hr : r ∈ runs') => hs r (hp.mem_iff.2 hr))
    rw [hout', sorted_ext hso' hso (fun k => by rw [hfind, hfind', newest_perm hd hp])]

/-- A newer tombstone hides the value of the older run and is not emitted; the other key survives. -/
theorem mergeRuns_correct_tombstone : ∃ out, mergeRuns [⟨1, [([1], [5], false)]⟩, ⟨2, [([1], [], true), ([2], [7], false)]⟩] =
    some out ∧ out = [([2], [7], false)] := by
  have hseqs : (([⟨1, [([1], [5], false)]⟩, ⟨2, [([1], [], true), ([2], [7], false)]⟩] : List Run).map Run.seq).Nodup := by decide
  obtain ⟨out, hout, -⟩ := mergeRuns_correct hseqs
    (by
      intro r hr
      simp only [List.mem_cons, List.not_mem_nil, or_false] at hr
      rcases hr with rfl | rfl
      · exact List.pairwise_singleton _ _
      · exact List.pairwise_pair.2 (by decide))
  exact ⟨out, hout, Option.some.inj (hout.symm.trans (by decide +kernel))⟩

end LsmEngine
