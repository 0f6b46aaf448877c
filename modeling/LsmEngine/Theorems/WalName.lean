import LsmEngine.Lemmas.WalName
import LsmEngine.Disk

/-!
# Which files `open_with_options` takes for logs

`parse_wal_name` reads every name the engine writes back to its number. It also accepts other spellings of a number; a directory
is listed as the engine left it exactly when it holds none of them.
-/

namespace LsmEngine

/-- A name that is neither that of a log nor an alternative spelling does not parse. -/
theorem parsed_none {name : String} (hne : ∀ seq, seq < 2 ^ 64 → name ≠ walName seq) (halt : ¬ AltSpelling name) :
    parseWalName name = none := by
  by_contra h
  obtain ⟨seq, hseq⟩ := Option.ne_none_iff_exists'.1 h
  have hname : name = walName seq := (parsed_cases hseq).2 halt
  refine hne seq ?_ hname
  rwa [hname, parseWalName_walName] at hseq

/-- The names of logs parse to their numbers. -/
theorem filterMap_walName {created : List Nat} (hlt : ∀ seq ∈ created, seq < 2 ^ 64) :
    (created.map walName).filterMap (fun name => (parseWalName name).map (fun seq => (seq, name))) =
      created.map (fun seq => (seq, walName seq)) := by
  rw [List.filterMap_map, ← List.filterMap_eq_map]
  refine List.filterMap_congr fun seq hseq => ?_
  simp [(parseWalName_walName seq).2 (hlt seq hseq)]

/-- A directory in which every other file is left alone is listed as its logs, in the order of their numbers. -/
theorem walSeqs_eq {created : List Nat} {others names : List String} (hs : created.Pairwise (· < ·))
    (hlt : ∀ seq ∈ created, seq < 2 ^ 64) (ho : ∀ name ∈ others, parseWalName name = none)
    (hp : names.Perm (created.map walName ++ others)) : walSeqs names = created.map (fun seq => (seq, walName seq)) := by
  have hother : others.filterMap (fun name => (parseWalName name).map (fun seq => (seq, name))) = [] := by
    rw [List.filterMap_eq_nil_iff]
    intro name hname
    rw [ho name hname]
    rfl
  have hperm := hp.filterMap (fun name => (parseWalName name).map (fun seq => (seq, name)))
  rw [List.filterMap_append, filterMap_walName hlt, hother, List.append_nil] at hperm
  have hle : (created.map (fun seq => (seq, walName seq))).Pairwise (fun a b => a.1 ≤ b.1) :=
    List.pairwise_map.2 (hs.imp Nat.le_of_lt)
  refine List.Perm.eq_of_pairwise ?_ ?_ hle ((List.mergeSort_perm _ _).trans hperm)
  · -- Two logs of one number are one file.
    rintro ⟨a, na⟩ ⟨b, nb⟩ ha hb hab hba
    have ha' := (hperm.mem_iff (a := (a, na))).1 (List.mem_mergeSort.1 ha)
    simp only [List.mem_map, Prod.mk.injEq] at ha' hb
    obtain ⟨s, -, rfl, rfl⟩ := ha'
    obtain ⟨s', -, rfl, rfl⟩ := hb
    rw [show s = s' from Nat.le_antisymm hab hba]
  · have hsort := @List.pairwise_mergeSort _ (fun a b : Nat × String => decide (a.1 ≤ b.1))
      (fun a b c hab hbc => by simp only [decide_eq_true_eq] at hab hbc ⊢; exact hab.trans hbc)
      (fun a b => by simpa using Nat.le_total a.1 b.1)
      (names.filterMap (fun name => (parseWalName name).map (fun seq => (seq, name))))
    exact hsort.imp (by simp)

/-- `parse_wal_name` reads the name that `format!` makes of a `u64` back to the number, whatever the number. A name that parses
is the one the engine writes for the number exactly when it is not an alternative spelling: `wal_` and `.wal` around a number
below `2 ^ 64` with a plus sign, with fewer than six digits, or with zeros before more than six. So an open replays and deletes
the logs that the engine created, each once and in the order of their creation, which is that of their numbers, exactly when no
other file of the directory has such a name. -/
theorem wal_names_recognised_but_for_spellings (created : List Nat) (others names : List String) :
    (∀ seq, parseWalName (walName seq) = some seq ↔ seq < 2 ^ 64) ∧
    (∀ name, (∀ seq, parseWalName name = some seq → name = walName seq) ↔ ¬ AltSpelling name) ∧
    (created.Pairwise (· < ·) → (∀ seq ∈ created, seq < 2 ^ 64) →
      (∀ name ∈ others, ∀ seq, seq < 2 ^ 64 → name ≠ walName seq) → names.Perm (created.map walName ++ others) →
      (walSeqs names = created.map (fun seq => (seq, walName seq)) ↔ ∀ name ∈ others, ¬ AltSpelling name)) := by
  refine ⟨parseWalName_walName, fun name => ⟨fun h halt => ?_, fun halt seq h => (parsed_cases h).2 halt⟩, ?_⟩
  · obtain ⟨seq, hseq⟩ := halt.parses
    exact (parsed_cases hseq).1 (h seq hseq) halt
  · intro hs hlt hne hp
    constructor
    · intro heq name hname halt
      obtain ⟨seq, hseq⟩ := halt.parses
      have hmem : (seq, name) ∈ walSeqs names :=
        mem_walSeqs.2 ⟨hp.mem_iff.2 (List.mem_append_right _ hname), hseq⟩
      rw [heq] at hmem
      obtain ⟨s, hsc, hs⟩ := List.mem_map.1 hmem
      exact hne name hname s (hlt s hsc) (congrArg Prod.snd hs).symm
    · intro halt
      exact walSeqs_eq hs hlt (fun name hname => parsed_none (hne name hname) (halt name hname)) hp

/-- An open takes the file `wal_+7.wal` for the log 7, although the engine writes that log as `wal_000007.wal`; with both in the
directory it takes two files for that log. -/
theorem foreign_name_taken_for_log :
    parseWalName "wal_+7.wal" = some 7 ∧ "wal_+7.wal" ≠ walName 7 ∧
      walSeqs ["wal_+7.wal", walName 7] = [(7, "wal_+7.wal"), (7, "wal_000007.wal")] := by
  have hfound : ["wal_+7.wal", walName 7].filterMap (fun name => (parseWalName name).map (fun seq => (seq, name))) =
      [(7, "wal_+7.wal"), (7, "wal_000007.wal")] := by decide
  refine ⟨by decide, by decide, ?_⟩
  rw [walSeqs, hfound]
  exact List.mergeSort_of_pairwise (by decide)

end LsmEngine
