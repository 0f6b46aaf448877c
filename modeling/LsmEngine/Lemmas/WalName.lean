import LsmEngine.WalName

/-!
# What `parse_wal_name` reads

A name that parses is `wal_`, a spelling of the number and `.wal`. Each number below `2 ^ 64` has one spelling that the engine
writes and many that it does not.
-/

namespace LsmEngine

open Decimal

/-- The characters of a number with six digits at least. -/
theorem toList_pad6 (n : Nat) : (pad6 n).toList = padded 6 n := by
  rw [pad6, padded, String.toList_append, String.toList_ofList, ← String.length_toList, Nat.toString_eq_repr, Nat.toList_repr]

/-- The characters of the name of a log. -/
theorem toList_walName (seq : Nat) : (walName seq).toList = "wal_".toList ++ padded 6 seq ++ ".wal".toList := by
  rw [walName, String.toList_append, String.toList_append, toList_pad6]

/-- A step of the loop only makes the number larger. -/
theorem le_ofDigitChars (ds : List Char) (n : Nat) : n ≤ Nat.ofDigitChars 10 ds n := by
  induction ds generalizing n with
  | nil => simp
  | cons c cs ih =>
    rw [Nat.ofDigitChars_cons]
    exact Nat.le_trans (by omega) (ih _)

/-- The loop returns the number that the digits stand for, if it is a `u64`. -/
theorem parseDigits_eq_some_iff {ds : List Char} {acc n : Nat} (hacc : acc < 2 ^ 64) :
    parseDigits acc ds = some n ↔ AllDigits ds ∧ Nat.ofDigitChars 10 ds acc = n ∧ n < 2 ^ 64 := by
  induction ds generalizing acc with
  | nil =>
    simp only [parseDigits, Option.some.injEq, Nat.ofDigitChars_nil]
    refine ⟨?_, fun h => h.2.1⟩
    rintro rfl
    exact ⟨fun _ hc => absurd hc List.not_mem_nil, rfl, hacc⟩
  | cons c cs ih =>
    have hall : AllDigits (c :: cs) ↔ c.isDigit = true ∧ AllDigits cs := List.forall_mem_cons
    rw [hall, Nat.ofDigitChars_cons, Nat.mul_comm 10 acc]
    by_cases hc : c.isDigit = true
    · by_cases hlt : acc * 10 + (c.toNat - '0'.toNat) < 2 ^ 64
      · simp only [parseDigits, hc, hlt, if_true, true_and]
        exact ih hlt
      · -- The step exceeds a `u64`, and so does whatever the rest of the digits make of it.
        have hle := le_ofDigitChars cs (acc * 10 + (c.toNat - '0'.toNat))
        simp only [parseDigits, hc, hlt, if_true, if_false, reduceCtorEq, false_iff]
        rintro ⟨-, rfl, hn⟩
        exact hlt (Nat.lt_of_le_of_lt hle hn)
    · simp [parseDigits, hc]

/-- A spelling of a number that `u64::from_str` accepts. -/
def Spells (t : List Char) (n : Nat) : Prop :=
  ∃ ds, ds ≠ [] ∧ AllDigits ds ∧ value ds = n ∧ n < 2 ^ 64 ∧ (t = ds ∨ t = '+' :: ds)

/-- A plus sign is no digit. -/
theorem plus_not_digit {ds : List Char} (hd : AllDigits ('+' :: ds)) : False :=
  absurd (hd '+' (by simp)) (by decide)

/-- A number is parsed exactly from its spellings. -/
theorem parseU64_eq_some_iff {t : List Char} {n : Nat} : parseU64 t = some n ↔ Spells t n := by
  have hloop : ∀ ds, parseDigits 0 ds = some n ↔ AllDigits ds ∧ value ds = n ∧ n < 2 ^ 64 :=
    fun ds => parseDigits_eq_some_iff (by decide)
  unfold parseU64
  split
  · refine ⟨fun h => absurd h (by simp), ?_⟩
    rintro ⟨ds, hne, -, -, -, rfl | h⟩
    · exact absurd rfl hne
    · exact absurd h (by simp)
  · refine ⟨fun h => absurd h (by simp), ?_⟩
    rintro ⟨ds, hne, hd, -, -, rfl | h⟩
    · exact (plus_not_digit hd).elim
    · simp only [List.cons.injEq, true_and] at h
      exact absurd h.symm hne
  · rename_i digits hne
    rw [hloop]
    constructor
    · rintro ⟨hd, hv, hn⟩
      refine ⟨digits, ?_, hd, hv, hn, Or.inr rfl⟩
      rintro rfl
      exact hne rfl
    · rintro ⟨ds, -, hd, hv, hn, rfl | h⟩
      · exact (plus_not_digit hd).elim
      · simp only [List.cons.injEq, true_and] at h
        exact h ▸ ⟨hd, hv, hn⟩
  · rename_i hnil _ hplus
    rw [hloop]
    constructor
    · rintro ⟨hd, hv, hn⟩
      exact ⟨t, hnil, hd, hv, hn, Or.inl rfl⟩
    · rintro ⟨ds, -, hd, hv, hn, rfl | h⟩
      · exact ⟨hd, hv, hn⟩
      · exact absurd h (hplus ds)

/-- A name parses when it is `wal_`, a spelling and `.wal`. -/
theorem parseWalName_eq_some_iff {name : String} {seq : Nat} : parseWalName name = some seq ↔
    ∃ t, name.toList = "wal_".toList ++ t ++ ".wal".toList ∧ Spells t seq := by
  simp only [parseWalName, Option.bind_eq_bind, Option.bind_eq_some_iff, List.dropPrefix?_eq_some_iff,
    List.dropSuffix?_eq_some_iff, parseU64_eq_some_iff, beq_iff_eq]
  constructor
  · rintro ⟨rest, ⟨p, hname, rfl⟩, t, ⟨q, rfl, rfl⟩, ht⟩
    exact ⟨t, by rw [hname, List.append_assoc], ht⟩
  · rintro ⟨t, hname, ht⟩
    exact ⟨t ++ ".wal".toList, ⟨_, by rw [hname, List.append_assoc], rfl⟩, t, ⟨_, rfl, rfl⟩, ht⟩

/-- The name of a log is parsed to its number. -/
theorem parseWalName_walName (seq : Nat) : parseWalName (walName seq) = some seq ↔ seq < 2 ^ 64 := by
  rw [parseWalName_eq_some_iff]
  constructor
  · rintro ⟨t, -, ds, -, -, -, hlt, -⟩
    exact hlt
  · intro hlt
    exact ⟨padded 6 seq, toList_walName seq, padded 6 seq, padded_ne_nil 6 seq, allDigits_padded 6 seq, value_padded 6 seq, hlt,
      Or.inl rfl⟩

/-- A name that `parse_wal_name` accepts and `format!` never writes: the number has a plus sign, fewer than six digits, or zeros
before more than six. -/
def AltSpelling (name : String) : Prop :=
  ∃ t ds, name.toList = "wal_".toList ++ t ++ ".wal".toList ∧ ds ≠ [] ∧ AllDigits ds ∧ value ds < 2 ^ 64 ∧
    (t = '+' :: ds ∨ t = ds ∧ (ds.length < 6 ∨ 6 < ds.length ∧ ds.head? = some '0'))

/-- What a spelling says of the name it stands in. -/
theorem eq_walName_iff {name : String} {t : List Char} {seq : Nat}
    (h : name.toList = "wal_".toList ++ t ++ ".wal".toList) : name = walName seq ↔ t = padded 6 seq := by
  rw [← String.toList_inj, h, toList_walName]
  simp

/-- A name that parses is the one the engine writes for the number, or an alternative spelling of it. -/
theorem parsed_cases {name : String} {seq : Nat} (h : parseWalName name = some seq) :
    name = walName seq ↔ ¬ AltSpelling name := by
  obtain ⟨t, hname, ds, hne, hd, rfl, hlt, ht⟩ := parseWalName_eq_some_iff.1 h
  rw [eq_walName_iff hname]
  have hsame : ∀ {t'}, name.toList = "wal_".toList ++ t' ++ ".wal".toList → t' = t := by
    intro t' h'
    rw [hname] at h'
    simpa using h'.symm
  rcases ht with rfl | rfl
  · rw [eq_padded_iff (by decide) hd hne]
    constructor
    · rintro hform ⟨t', ds', hname', -, hd', -, h'⟩
      obtain rfl := hsame hname'
      rcases h' with rfl | ⟨rfl, h'⟩
      · exact plus_not_digit hd
      · rcases hform with hform | ⟨hform, hhead⟩
        · omega
        · rcases h' with h' | h'
          · omega
          · exact hhead h'.2
    · intro halt
      by_contra hform
      push Not at hform
      refine halt ⟨t, t, hname, hne, hd, hlt, Or.inr ⟨rfl, ?_⟩⟩
      rcases Nat.lt_or_ge t.length 6 with h6 | h6
      · exact Or.inl h6
      · have h6' : 6 < t.length := by omega
        exact Or.inr ⟨h6', hform.2 h6'⟩
  · refine ⟨fun hp => ?_, fun halt => absurd ⟨_, ds, hname, hne, hd, hlt, Or.inl rfl⟩ halt⟩
    exact (plus_not_digit (hp ▸ allDigits_padded 6 (value ds))).elim

/-- An alternative spelling is parsed as well. -/
theorem AltSpelling.parses {name : String} (h : AltSpelling name) : ∃ seq, parseWalName name = some seq := by
  obtain ⟨t, ds, hname, hne, hd, hlt, ht⟩ := h
  refine ⟨value ds, parseWalName_eq_some_iff.2 ⟨t, hname, ds, hne, hd, rfl, hlt, ?_⟩⟩
  rcases ht with rfl | ⟨rfl, -⟩
  · exact Or.inr rfl
  · exact Or.inl rfl

/-- The names of logs differ. -/
theorem walName_injective : Function.Injective walName := by
  intro a b h
  have hl : padded 6 a = padded 6 b := by simpa [toList_walName] using congrArg String.toList h
  simpa using congrArg value hl

/-- The logs of a directory are the names that parse. -/
theorem mem_walSeqs {names : List String} {seq : Nat} {name : String} :
    (seq, name) ∈ walSeqs names ↔ name ∈ names ∧ parseWalName name = some seq := by
  simp only [walSeqs, List.mem_mergeSort, List.mem_filterMap, Option.map_eq_some_iff, Prod.mk.injEq]
  constructor
  · rintro ⟨n, hn, s, hs, rfl, rfl⟩
    exact ⟨hn, hs⟩
  · rintro ⟨hn, hs⟩
    exact ⟨name, hn, seq, hs, rfl, rfl⟩

end LsmEngine
