import LsmEngine.Merge

/-!
# What a merge emits

`mergeRuns_spec`: over runs in ascending key order, the merge ends, and its output is in ascending key order, holds no
tombstone, and has exactly the keys whose newest entry (`newest`) is a value, with that value. `newest_iff` says which entry
that is when the seqs are distinct; so it does not depend on the order of the runs (`newest_perm`).
-/

namespace LsmEngine

open Overlay

namespace MergeAux

/-! ## The smallest current key -/

/-- A run that is spent has no key. -/
theorem minKeyStep_nil {acc : Option Key} {r : Run} (h : r.records = []) : minKeyStep acc r = acc := by
  simp [minKeyStep, h]

/-- The step at a run with a current record: a key at most that record's and at most the one before. -/
theorem minKeyStep_cons {m : Option Key} {r : Run} {rec : Record} {rest : List Record} (h : r.records = rec :: rest) :
    ∃ a, minKeyStep m r = some a ∧ a ≤ rec.1 ∧ (∀ b, m = some b → a ≤ b) ∧ (a = rec.1 ∨ m = some a) := by
  simp only [minKeyStep, h]
  cases m with
  | none => exact ⟨rec.1, by simp, le_refl _, by simp, Or.inl rfl⟩
  | some b =>
    by_cases hlt : rec.1 < b
    · exact ⟨rec.1, by simp [hlt], le_refl _, by simpa using hlt.le, Or.inl rfl⟩
    · exact ⟨b, by simp [hlt], not_lt.1 hlt, by simp, Or.inr rfl⟩

/-- No key is found only where all runs are spent. -/
theorem minKey_fold_none {runs : List Run} {acc : Option Key} (h : runs.foldl minKeyStep acc = none) :
    acc = none ∧ ∀ r ∈ runs, r.records = [] := by
  induction runs generalizing acc with
  | nil => exact ⟨h, by simp⟩
  | cons r runs ih =>
    rw [List.foldl_cons] at h
    obtain ⟨h1, h2⟩ := ih h
    cases hr : r.records with
    | nil =>
      rw [minKeyStep_nil hr] at h1
      exact ⟨h1, List.forall_mem_cons.2 ⟨hr, h2⟩⟩
    | cons rec rest =>
      obtain ⟨a, ha, -⟩ := minKeyStep_cons (m := acc) hr
      rw [ha] at h1
      simp at h1

/-- The key found is the least of those at the heads. -/
theorem minKey_fold_some {runs : List Run} {acc : Option Key} {mk : Key} (h : runs.foldl minKeyStep acc = some mk) :
    (∀ a, acc = some a → mk ≤ a) ∧ (∀ r ∈ runs, ∀ rec rest, r.records = rec :: rest → mk ≤ rec.1) ∧
      (acc = some mk ∨ ∃ r ∈ runs, ∃ rec rest, r.records = rec :: rest ∧ rec.1 = mk) := by
  induction runs generalizing acc with
  | nil =>
    refine ⟨fun a ha => ?_, by simp, Or.inl h⟩
    rw [List.foldl_nil, ha, Option.some.injEq] at h
    exact h.ge
  | cons r runs ih =>
    rw [List.foldl_cons] at h
    obtain ⟨h0, hle, hex⟩ := ih h
    have hex' : (∃ x ∈ runs, ∃ rec rest, x.records = rec :: rest ∧ rec.1 = mk) →
        ∃ x ∈ r :: runs, ∃ rec rest, x.records = rec :: rest ∧ rec.1 = mk :=
      fun ⟨x, hx, hx'⟩ => ⟨x, List.mem_cons_of_mem _ hx, hx'⟩
    cases hr : r.records with
    | nil =>
      rw [minKeyStep_nil hr] at h0 hex
      refine ⟨h0, List.forall_mem_cons.2 ⟨fun rec rest hc => ?_, hle⟩, hex.imp_right hex'⟩
      rw [hr] at hc
      simp at hc
    | cons rec rest =>
      obtain ⟨a, ha, hale, hab, haor⟩ := minKeyStep_cons (m := acc) hr
      have hma := h0 a ha
      refine ⟨fun b hb => hma.trans (hab b hb), List.forall_mem_cons.2 ⟨fun rec' rest' hc => ?_, hle⟩, ?_⟩
      · rw [hr, List.cons.injEq] at hc
        rw [← hc.1]
        exact hma.trans hale
      · rcases hex with hex | hex
        · rw [ha, Option.some.injEq] at hex
          rcases haor with haor | haor
          · exact Or.inr ⟨r, List.mem_cons_self, rec, rest, hr, haor.symm.trans hex⟩
          · exact Or.inl (hex ▸ haor)
        · exact Or.inr (hex' hex)

/-- Where there is no least key, all runs are spent. -/
theorem minKeyOf_none {runs : List Run} (h : minKeyOf runs = none) : ∀ r ∈ runs, r.records = [] :=
  (minKey_fold_none h).2

/-- The least key stands at the head of a run and of none after it. -/
theorem minKeyOf_some {runs : List Run} {mk : Key} (h : minKeyOf runs = some mk) :
    (∀ r ∈ runs, ∀ rec rest, r.records = rec :: rest → mk ≤ rec.1) ∧
      ∃ r ∈ runs, ∃ rec rest, r.records = rec :: rest ∧ rec.1 = mk := by
  obtain ⟨-, hle, hex⟩ := minKey_fold_some h
  exact ⟨hle, hex.resolve_left (by simp)⟩

/-! ## The newest entry of a key -/

/-- A run without the key leaves the newest record as it is. -/
theorem newestStep_none {k : Key} {best : Option (Nat × Value × Bool)} {r : Run} (h : SortedMap.find k r.records = none) :
    newestStep k best r = best := by
  simp [newestStep, h]

/-- A run with the key replaces the newest record when its seq is higher. -/
theorem newestStep_some {k : Key} {best : Option (Nat × Value × Bool)} {r : Run} {e : Value × Bool}
    (h : SortedMap.find k r.records = some e) :
    newestStep k best r = if best.all (fun b => decide (r.seq > b.1)) then some (r.seq, e) else best := by
  simp [newestStep, h]

/-- The newest record over one more run. -/
theorem newest_snoc (k : Key) (runs : List Run) (r : Run) : newest k (runs ++ [r]) = newestStep k (newest k runs) r := by
  simp [newest]

/-- A run that holds the key makes the fold `some`, and it stays `some`. -/
theorem newestStep_ne_none {k : Key} {best : Option (Nat × Value × Bool)} {r : Run}
    (h : best ≠ none ∨ SortedMap.find k r.records ≠ none) : newestStep k best r ≠ none := by
  cases hf : SortedMap.find k r.records with
  | none =>
    rw [newestStep_none hf]
    exact h.resolve_right (fun hc => hc hf)
  | some e =>
    rw [newestStep_some hf]
    cases best with
    | none => simp
    | some b => split_ifs <;> simp

/-- A key that a run has, has a newest record. -/
theorem newest_ne_none {k : Key} {runs : List Run} (h : ∃ r ∈ runs, SortedMap.find k r.records ≠ none) :
    newest k runs ≠ none := by
  induction runs using List.reverseRecOn with
  | nil => simp at h
  | append_singleton runs r ih =>
    rw [newest_snoc]
    apply newestStep_ne_none
    obtain ⟨x, hx, hf⟩ := h
    rcases List.mem_append.1 hx with hx | hx
    · exact Or.inl (ih ⟨x, hx, hf⟩)
    · rw [List.mem_singleton] at hx
      exact Or.inr (hx ▸ hf)

/-- No run has the key: no newest entry. -/
theorem newest_none_of_forall {k : Key} {runs : List Run} (h : ∀ r ∈ runs, SortedMap.find k r.records = none) :
    newest k runs = none := by
  induction runs using List.reverseRecOn with
  | nil => rfl
  | append_singleton runs r ih =>
    rw [newest_snoc, newestStep_none (h r (by simp)), ih (fun x hx => h x (List.mem_append_left _ hx))]

/-- The newest entry of a key is an entry of one of the runs. -/
theorem newest_mem {k : Key} {runs : List Run} {b : Nat × Value × Bool} (h : newest k runs = some b) :
    ∃ r ∈ runs, SortedMap.find k r.records = some b.2 := by
  induction runs using List.reverseRecOn with
  | nil => simp [newest] at h
  | append_singleton runs r ih =>
    rw [newest_snoc] at h
    have hold : newest k runs = some b → ∃ x ∈ runs ++ [r], SortedMap.find k x.records = some b.2 := by
      intro h'
      obtain ⟨x, hx, hf⟩ := ih h'
      exact ⟨x, List.mem_append_left _ hx, hf⟩
    cases hf : SortedMap.find k r.records with
    | none =>
      rw [newestStep_none hf] at h
      exact hold h
    | some e =>
      rw [newestStep_some hf] at h
      split_ifs at h
      · rw [Option.some.injEq] at h
        exact ⟨r, by simp, by rw [hf, ← h]⟩
      · exact hold h

/-- The fold of `newest` looks at each run through its seq and its entry of the key only. -/
theorem newest_map {k : Key} {f : Run → Run} (runs : List Run)
    (h : ∀ r ∈ runs, (f r).seq = r.seq ∧ SortedMap.find k (f r).records = SortedMap.find k r.records) :
    newest k (runs.map f) = newest k runs := by
  induction runs using List.reverseRecOn with
  | nil => rfl
  | append_singleton runs r ih =>
    obtain ⟨h1, h2⟩ := h r (by simp)
    rw [List.map_append, List.map_singleton, newest_snoc, newest_snoc, ih (fun x hx => h x (List.mem_append_left _ hx))]
    simp only [newestStep, h1, h2]

/-- Spent runs do not matter to the newest record. -/
theorem newest_filter_nonempty (k : Key) (runs : List Run) :
    newest k (runs.filter (fun r => r.records ≠ [])) = newest k runs := by
  induction runs using List.reverseRecOn with
  | nil => rfl
  | append_singleton runs r ih =>
    rw [List.filter_append, newest_snoc]
    by_cases hr : r.records = []
    · rw [List.filter_cons_of_neg (by simpa using hr), List.filter_nil, List.append_nil, ih,
        newestStep_none (by rw [hr]; rfl)]
    · rw [List.filter_cons_of_pos (by simpa using hr), List.filter_nil, newest_snoc, ih]

/-! ## One round -/

/-- In an ascending run whose keys are all at least `mk`, the entry of `mk` is its current record. -/
theorem find_min {mk : Key} {rec : Record} {rest : List Record} (hs : Sorted (rec :: rest)) (hle : mk ≤ rec.1) :
    SortedMap.find mk (rec :: rest) = if rec.1 = mk then some rec.2 else none := by
  by_cases h : rec.1 = mk
  · simp [SortedMap.find, h]
  · rw [if_neg h, SortedMap.find_eq_none]
    intro b hb
    rcases List.mem_cons.1 hb with rfl | hb
    · exact h
    · exact (hle.trans_lt ((List.pairwise_cons.1 hs).1 b hb)).ne'

/-- Reading the smallest key off the current records, or looking it up in the runs, finds the same winner. -/
theorem winnerOf_eq_newest {mk : Key} {runs : List Run} (hs : ∀ r ∈ runs, Sorted r.records)
    (hle : ∀ r ∈ runs, ∀ rec rest, r.records = rec :: rest → mk ≤ rec.1) :
    winnerOf mk runs = (newest mk runs).map (fun b => (b.1, (mk, b.2))) := by
  induction runs using List.reverseRecOn with
  | nil => rfl
  | append_singleton runs r ih =>
    have hw : winnerOf mk (runs ++ [r]) = winnerStep mk (winnerOf mk runs) r := by simp [winnerOf]
    rw [hw, newest_snoc, ih (fun x hx => hs x (List.mem_append_left _ hx))
      (fun x hx => hle x (List.mem_append_left _ hx))]
    cases hr : r.records with
    | nil => simp [winnerStep, newestStep, hr, SortedMap.find]
    | cons rec rest =>
      have hfind := find_min (hr ▸ hs r (by simp)) (hle r (by simp) rec rest hr)
      by_cases hk : rec.1 = mk
      · subst hk
        rw [if_pos rfl] at hfind
        simp only [winnerStep, newestStep, hr, hfind, true_and]
        cases newest rec.1 runs with
        | none => simp
        | some b =>
          by_cases hb : r.seq > b.1 <;> simp [hb]
      · rw [if_neg hk] at hfind
        simp [winnerStep, newestStep, hr, hfind, hk]

/-- A run stays sorted when it advances. -/
theorem sorted_advance {mk : Key} {r : Run} (hs : Sorted r.records) : Sorted (advanceRun mk r).records := by
  unfold advanceRun
  cases hr : r.records with
  | nil => rwa [hr] at hs ⊢
  | cons rec rest =>
    rw [hr] at hs
    simp only []
    split_ifs
    · exact (List.pairwise_cons.1 hs).2
    · rwa [hr]

/-- A run that advances gains no record. -/
theorem mem_of_mem_advance {mk : Key} {r : Run} {x : Record} (h : x ∈ (advanceRun mk r).records) : x ∈ r.records := by
  unfold advanceRun at h
  cases hr : r.records with
  | nil => simp [hr] at h
  | cons rec rest =>
    simp only [hr] at h
    split_ifs at h
    · exact List.mem_cons_of_mem _ h
    · rwa [hr] at h

/-- After the round every key left is greater than the key consumed. -/
theorem gt_of_mem_advance {mk : Key} {r : Run} (hs : Sorted r.records)
    (hle : ∀ rec rest, r.records = rec :: rest → mk ≤ rec.1) {x : Record} (hx : x ∈ (advanceRun mk r).records) :
    mk < x.1 := by
  unfold advanceRun at hx
  cases hr : r.records with
  | nil => simp [hr] at hx
  | cons rec rest =>
    rw [hr] at hs
    simp only [hr] at hx
    split_ifs at hx with hk
    · exact hk ▸ (List.pairwise_cons.1 hs).1 x hx
    · rw [hr] at hx
      have hlt : mk < rec.1 := lt_of_le_of_ne (hle rec rest hr) (Ne.symm hk)
      rcases List.mem_cons.1 hx with rfl | hx
      · exact hlt
      · exact hlt.trans ((List.pairwise_cons.1 hs).1 x hx)

/-- The round changes the entry of no other key. -/
theorem newest_advance {mk k : Key} (hk : k ≠ mk) (runs : List Run) :
    newest k (runs.map (advanceRun mk)) = newest k runs := by
  apply newest_map
  intro r _
  unfold advanceRun
  cases hr : r.records with
  | nil => simp [hr]
  | cons rec rest =>
    simp only []
    split_ifs with hrec
    · refine ⟨rfl, ?_⟩
      rw [SortedMap.find, if_neg (fun h => hk (h.symm.trans hrec))]
    · simp [hr]

theorem advance_length_le (mk : Key) (r : Run) : (advanceRun mk r).records.length ≤ r.records.length := by
  unfold advanceRun
  cases hr : r.records with
  | nil => simp [hr]
  | cons rec rest =>
    simp only []
    split_ifs
    · simp
    · simp [hr]

/-- The records of the runs together. -/
theorem totalRecords_cons (r : Run) (runs : List Run) :
    totalRecords (r :: runs) = r.records.length + totalRecords runs := by
  simp [totalRecords]

theorem totalRecords_advance_le (mk : Key) (runs : List Run) :
    totalRecords (runs.map (advanceRun mk)) ≤ totalRecords runs := by
  induction runs with
  | nil => exact Nat.le_refl _
  | cons r runs ih =>
    have := advance_length_le mk r
    rw [List.map_cons, totalRecords_cons, totalRecords_cons]
    omega

/-- A round consumes at least one record. -/
theorem totalRecords_advance {mk : Key} {runs : List Run}
    (hex : ∃ r ∈ runs, ∃ rec rest, r.records = rec :: rest ∧ rec.1 = mk) :
    totalRecords (runs.map (advanceRun mk)) < totalRecords runs := by
  induction runs with
  | nil => simp at hex
  | cons r runs ih =>
    rw [List.map_cons, totalRecords_cons, totalRecords_cons]
    obtain ⟨x, hx, rec, rest, hxr, hk⟩ := hex
    rcases List.mem_cons.1 hx with rfl | hx
    · have h1 : (advanceRun mk x).records.length < x.records.length := by simp [advanceRun, hxr, hk]
      have h2 := totalRecords_advance_le mk runs
      omega
    · have h1 := advance_length_le mk r
      have h2 := ih ⟨x, hx, rec, rest, hxr, hk⟩
      omega

theorem totalRecords_filter_le (p : Run → Bool) (runs : List Run) : totalRecords (runs.filter p) ≤ totalRecords runs := by
  induction runs with
  | nil => exact Nat.le_refl _
  | cons r runs ih =>
    rw [totalRecords_cons]
    cases hp : p r
    · rw [List.filter_cons_of_neg (by simp [hp])]
      omega
    · rw [List.filter_cons_of_pos hp, totalRecords_cons]
      omega

/-- The loop of the merge, by induction on its rounds: what it emits is decided by the newest entries of the records that
remain. -/
theorem mergeLoop_spec (fuel : Nat) : ∀ runs : List Run, (∀ r ∈ runs, Sorted r.records) → totalRecords runs < fuel →
    ∃ out, mergeLoop fuel runs = some out ∧ Sorted out ∧ (∀ x ∈ out, ∃ r ∈ runs, ∃ y ∈ r.records, y.1 = x.1) ∧
      ∀ k, SortedMap.find k out = emitted (newest k runs) := by
  induction fuel with
  | zero => intro runs _ h; omega
  | succ fuel ih =>
    intro runs hs hf
    cases hm : minKeyOf runs with
    | none =>
      refine ⟨[], by simp [mergeLoop, hm], List.Pairwise.nil, by simp, fun k => ?_⟩
      rw [newest_none_of_forall (fun r hr => by rw [minKeyOf_none hm r hr]; rfl)]
      rfl
    | some mk =>
      obtain ⟨hle, hex⟩ := minKeyOf_some hm
      obtain ⟨out, hout, hso, hmem, hfind⟩ := ih (runs.map (advanceRun mk))
        (List.forall_mem_map.2 (fun r hr => sorted_advance (hs r hr)))
        (by have := totalRecords_advance hex; omega)
      have hout_mem : ∀ x ∈ out, ∃ r ∈ runs, ∃ y ∈ (advanceRun mk r).records, y.1 = x.1 := by
        intro x hx
        obtain ⟨r, hr, hy⟩ := hmem x hx
        obtain ⟨z, hz, rfl⟩ := List.mem_map.1 hr
        exact ⟨z, hz, hy⟩
      -- the keys still to come are greater than this round's
      have hout_gt : ∀ x ∈ out, mk < x.1 := by
        intro x hx
        obtain ⟨r, hr, y, hy, hyx⟩ := hout_mem x hx
        exact hyx ▸ gt_of_mem_advance (hs r hr) (hle r hr) hy
      have hout_mem' : ∀ x ∈ out, ∃ r ∈ runs, ∃ y ∈ r.records, y.1 = x.1 := by
        intro x hx
        obtain ⟨r, hr, y, hy, hyx⟩ := hout_mem x hx
        exact ⟨r, hr, y, mem_of_mem_advance hy, hyx⟩
      have hmem_mk : ∃ r ∈ runs, ∃ y ∈ r.records, y.1 = mk := by
        obtain ⟨r, hr, rec, rest, hrr, hk⟩ := hex
        exact ⟨r, hr, rec, by rw [hrr]; exact List.mem_cons_self, hk⟩
      have hmk : newest mk runs ≠ none := by
        apply newest_ne_none
        obtain ⟨r, hr, rec, rest, hrr, hk⟩ := hex
        exact ⟨r, hr, by rw [hrr]; simp [SortedMap.find, hk]⟩
      obtain ⟨⟨s, v, d⟩, hb⟩ := Option.ne_none_iff_exists'.1 hmk
      have hw : winnerOf mk runs = some (s, (mk, v, d)) := by
        rw [winnerOf_eq_newest hs hle, hb]
        rfl
      have hnone_out : SortedMap.find mk out = none := SortedMap.find_eq_none.2 (fun x hx => (hout_gt x hx).ne')
      cases d with
      | true =>
        refine ⟨out, by simp [mergeLoop, hm, hw, hout], hso, hout_mem', fun k => ?_⟩
        by_cases hk : k = mk
        · rw [hk, hnone_out, hb]
          rfl
        · rw [hfind, newest_advance hk]
      | false =>
        refine ⟨(mk, v, false) :: out, by simp [mergeLoop, hm, hw, hout], ?_, ?_, fun k => ?_⟩
        · exact List.pairwise_cons.2 ⟨hout_gt, hso⟩
        · exact List.forall_mem_cons.2 ⟨hmem_mk, hout_mem'⟩
        · by_cases hk : k = mk
          · rw [hk, hb]
            simp [SortedMap.find, emitted]
          · rw [SortedMap.find, if_neg (Ne.symm hk), hfind, newest_advance hk]

end MergeAux

open MergeAux

/-- The merge of runs in ascending key order ends and emits, in ascending key order, exactly the keys whose newest entry is a
value, each with that value and no tombstone flag. -/
theorem mergeRuns_spec {runs : List Run} (hs : ∀ r ∈ runs, Sorted r.records) :
    ∃ out, mergeRuns runs = some out ∧ Sorted out ∧ ∀ k, SortedMap.find k out = emitted (newest k runs) := by
  obtain ⟨out, hout, hso, -, hfind⟩ := mergeLoop_spec (totalRecords runs + 1) (runs.filter (fun r => r.records ≠ []))
    (fun r hr => hs r (List.mem_of_mem_filter hr))
    (by have := totalRecords_filter_le (fun r => decide (r.records ≠ [])) runs; omega)
  refine ⟨out, hout, hso, fun k => ?_⟩
  rw [hfind, newest_filter_nonempty]

/-- An emitted record is a value of some run. -/
theorem mem_mergeRuns {runs : List Run} (hs : ∀ r ∈ runs, Sorted r.records) {out : List Record}
    (h : mergeRuns runs = some out) {x : Record} (hx : x ∈ out) : x.2.2 = false ∧ ∃ r ∈ runs, x ∈ r.records := by
  obtain ⟨out', hout, hso, hfind⟩ := mergeRuns_spec hs
  rw [h, Option.some.injEq] at hout
  subst hout
  have hx' := hfind x.1
  rw [SortedMap.find_eq_some_of_mem hso hx] at hx'
  cases hn : newest x.1 runs with
  | none => simp [hn, emitted] at hx'
  | some b =>
    obtain ⟨s, v, d⟩ := b
    obtain ⟨r, hr, hf⟩ := newest_mem hn
    cases d with
    | true => simp [hn, emitted] at hx'
    | false =>
      simp only [hn, emitted, Bool.false_eq_true, if_false, Option.some.injEq] at hx'
      refine ⟨by rw [hx'], r, hr, ?_⟩
      have := SortedMap.mem_of_find_eq_some hf
      rwa [← hx'] at this

/-! ## The newest entry over distinct seqs -/

/-- Over runs with distinct seqs, the newest entry of a key is the entry in the run that holds it and has the greatest seq. -/
theorem newest_iff {k : Key} {runs : List Run} (hd : (runs.map Run.seq).Nodup) {s : Nat} {e : Value × Bool} :
    newest k runs = some (s, e) ↔ ∃ r ∈ runs, r.seq = s ∧ SortedMap.find k r.records = some e ∧
      ∀ r' ∈ runs, SortedMap.find k r'.records ≠ none → r'.seq ≤ s := by
  -- the newest entry is such an entry; distinct seqs leave no other
  have sound : ∀ (runs : List Run) (b : Nat × Value × Bool), newest k runs = some b →
      ∃ r ∈ runs, r.seq = b.1 ∧ SortedMap.find k r.records = some b.2 ∧
        ∀ r' ∈ runs, SortedMap.find k r'.records ≠ none → r'.seq ≤ b.1 := by
    intro runs
    induction runs using List.reverseRecOn with
    | nil => intro b h; simp [newest] at h
    | append_singleton runs r ih =>
      intro b h
      rw [newest_snoc] at h
      cases hf : SortedMap.find k r.records with
      | none =>
        rw [newestStep_none hf] at h
        obtain ⟨x, hx, hxs, hxf, hmax⟩ := ih b h
        refine ⟨x, List.mem_append_left _ hx, hxs, hxf, fun r' hr' hf' => ?_⟩
        rcases List.mem_append.1 hr' with hr' | hr'
        · exact hmax r' hr' hf'
        · rw [List.mem_singleton] at hr'
          exact absurd (hr' ▸ hf) hf'
      | some e =>
        rw [newestStep_some hf] at h
        split_ifs at h with hall
        · rw [Option.some.injEq] at h
          subst h
          refine ⟨r, by simp, rfl, hf, fun r' hr' hf' => ?_⟩
          rcases List.mem_append.1 hr' with hr' | hr'
          · cases hn : newest k runs with
            | none => exact absurd hn (newest_ne_none ⟨r', hr', hf'⟩)
            | some c =>
              obtain ⟨-, -, -, -, hmax⟩ := ih c hn
              rw [hn] at hall
              have := hmax r' hr' hf'
              have := of_decide_eq_true hall
              simp only
              omega
          · rw [List.mem_singleton] at hr'
            rw [hr']
        · obtain ⟨x, hx, hxs, hxf, hmax⟩ := ih b h
          refine ⟨x, List.mem_append_left _ hx, hxs, hxf, fun r' hr' hf' => ?_⟩
          rcases List.mem_append.1 hr' with hr' | hr'
          · exact hmax r' hr' hf'
          · rw [List.mem_singleton] at hr'
            rw [h, Option.all_some, decide_eq_true_eq] at hall
            rw [hr']
            omega
  constructor
  · exact sound runs (s, e)
  · rintro ⟨r, hr, hrs, hf, hmax⟩
    cases hn : newest k runs with
    | none => exact absurd hn (newest_ne_none ⟨r, hr, by rw [hf]; simp⟩)
    | some b =>
      obtain ⟨x, hx, hxs, hxf, hxmax⟩ := sound runs b hn
      have h1 := hmax x hx (by rw [hxf]; simp)
      have h2 := hxmax r hr (by rw [hf]; simp)
      have hseq : x.seq = r.seq := by omega
      have hxr : x = r := List.inj_on_of_nodup_map hd hx hr hseq
      subst hxr
      rw [hf, Option.some.injEq] at hxf
      rw [← hrs, hxs, hxf]

/-- The newest entry does not depend on the order of the runs. -/
theorem newest_perm {k : Key} {runs runs' : List Run} (hd : (runs.map Run.seq).Nodup) (hp : runs.Perm runs') :
    newest k runs = newest k runs' := by
  have hd' : (runs'.map Run.seq).Nodup := (hp.map Run.seq).nodup_iff.1 hd
  have hiff : ∀ b, newest k runs = some b ↔ newest k runs' = some b := by
    rintro ⟨s, e⟩
    rw [newest_iff hd, newest_iff hd']
    simp only [hp.mem_iff]
  exact Option.ext hiff

/-- Runs in ascending order of seq, laid one over the other, answer a key with its newest entry. -/
theorem ontoAll_eq_newest {runs : List Run} (hs : runs.Pairwise (fun a b => a.seq < b.seq)) (b : Key → Option Value)
    (k : Key) : ontoAll (runs.map (fun r => tableLayer r.records)) b k =
      ((newest k runs).map (fun e => visibleRecord e.2)).getD (b k) := by
  induction runs using List.reverseRecOn with
  | nil => rfl
  | append_singleton runs r ih =>
    obtain ⟨hs1, -, hs2⟩ := List.pairwise_append.1 hs
    rw [List.map_append, List.map_singleton, ontoAll_snoc, newest_snoc]
    cases hf : SortedMap.find k r.records with
    | none => rw [onto_of_none (by simp [tableLayer, hf]), ih hs1, newestStep_none hf]
    | some e =>
      have hall : (newest k runs).all (fun b => decide (r.seq > b.1)) = true := by
        cases hn : newest k runs with
        | none => rfl
        | some b =>
          have hnd : (runs.map Run.seq).Nodup := by
            rw [List.nodup_iff_pairwise_ne, List.pairwise_map]
            exact hs1.imp (fun h => h.ne)
          obtain ⟨m, hm, hms, -⟩ := (newest_iff hnd (s := b.1) (e := b.2)).1 hn
          have := hs2 m hm r (by simp)
          simp only [Option.all_some, decide_eq_true_eq]
          omega
      rw [onto_of_some (x := visibleRecord e) (by simp only [tableLayer, hf]; rfl), newestStep_some hf, if_pos hall]
      rfl

end LsmEngine
