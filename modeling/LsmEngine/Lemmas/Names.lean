import LsmEngine.Directory
import LsmEngine.Lemmas.WalName

/-!
# The names of the files

No two files that the engine makes have the same name: a log, a table, a MANIFEST and the temporary files of the last two differ in
their first or last letter, and within a kind the name gives back the numbers it is made from.
-/

namespace LsmEngine

open Decimal

/-- The characters of the name of a table. -/
theorem toList_sstName (name : SstName) : name.toString.toList =
    'L' :: (Nat.toDigits 10 name.level ++ '_' :: (padded 6 name.seq ++ ".sst".toList)) := by
  have h : name.toString = "L" ++ toString name.level ++ "_" ++ pad6 name.seq ++ ".sst" := rfl
  simp only [h, String.toList_append, toList_pad6, Nat.toString_eq_repr, Nat.toList_repr]
  simp

/-- Digits and what follows a character that is none. -/
theorem digits_before {as bs : List Char} (ha : AllDigits as) (hb : AllDigits bs) {xs ys : List Char}
    (h : as ++ '_' :: xs = bs ++ '_' :: ys) : as = bs ∧ xs = ys := by
  induction as generalizing bs with
  | nil =>
    cases bs with
    | nil => exact ⟨rfl, by simpa using h⟩
    | cons b bs =>
      have hd := hb b List.mem_cons_self
      rw [List.nil_append, List.cons_append, List.cons.injEq] at h
      rw [← h.1] at hd
      simp at hd
  | cons a as ih =>
    cases bs with
    | nil =>
      have hd := ha a List.mem_cons_self
      rw [List.nil_append, List.cons_append, List.cons.injEq] at h
      rw [h.1] at hd
      simp at hd
    | cons b bs =>
      rw [List.cons_append, List.cons_append, List.cons.injEq] at h
      obtain ⟨h1, h2⟩ := ih (fun c hc => ha c (List.mem_cons_of_mem a hc)) (fun c hc => hb c (List.mem_cons_of_mem b hc)) h.2
      exact ⟨by rw [h.1, h1], h2⟩

/-- The name of a table gives back its level and its number. -/
theorem sstName_injective : Function.Injective SstName.toString := by
  intro a b h
  have hl := congrArg String.toList h
  rw [toList_sstName, toList_sstName, List.cons.injEq] at hl
  obtain ⟨hlevel, hrest⟩ := digits_before (allDigits_toDigits a.level) (allDigits_toDigits b.level) hl.2
  have hseq : padded 6 a.seq = padded 6 b.seq := List.append_cancel_right hrest
  have h1 : a.level = b.level := by
    have := congrArg value hlevel
    simpa only [value, Nat.ofDigitChars_ten_toDigits] using this
  have h2 : a.seq = b.seq := by simpa using congrArg value hseq
  rcases a with ⟨level, seq⟩
  exact congrArg₂ SstName.mk h1 h2

/-! ## Kinds of names -/

/-- The first and the last letter of a name. -/
def ends (name : String) : Option Char × Option Char := (name.toList.head?, name.toList.getLast?)

/-- The ends of the names of a kind. -/
def FileId.kind : FileId → Option Char × Option Char
  | .wal _ => (some 'w', some 'l')
  | .sst _ => (some 'L', some 't')
  | .sstTmp _ => (some 'L', some 'p')
  | .manifest => (some 'M', some 'T')
  | .manifestTmp => (some 'M', some 'p')

/-- The last characters of the name of a file say of which kind it is. -/
theorem ends_name (id : FileId) : ends id.name = id.kind := by
  cases id with
  | wal seq =>
    rw [ends, FileId.name, toList_walName]
    simp [List.getLast?_cons, List.getLast?_append, FileId.kind]
  | sst name =>
    rw [ends, FileId.name, toList_sstName]
    simp [List.getLast?_cons, List.getLast?_append, FileId.kind]
  | sstTmp name =>
    rw [ends, FileId.name, String.toList_append, toList_sstName]
    simp [List.getLast?_cons, List.getLast?_append, FileId.kind]
  | manifest => decide
  | manifestTmp => decide

/-- Two files of the engine have different names. -/
theorem FileId.name_injective : Function.Injective FileId.name := by
  intro a b h
  have hkind : a.kind = b.kind := by rw [← ends_name, ← ends_name, h]
  cases a with
  | wal seq =>
    cases b with
    | wal seq' => exact congrArg FileId.wal (walName_injective h)
    | _ => simp [FileId.kind] at hkind
  | sst name =>
    cases b with
    | sst name' => exact congrArg FileId.sst (sstName_injective h)
    | _ => simp [FileId.kind] at hkind
  | sstTmp name =>
    cases b with
    | sstTmp name' => exact congrArg FileId.sstTmp (sstName_injective ((String.append_left_inj _).1 h))
    | _ => simp [FileId.kind] at hkind
  | manifest =>
    cases b with
    | manifest => rfl
    | _ => simp [FileId.kind] at hkind
  | manifestTmp =>
    cases b with
    | manifestTmp => rfl
    | _ => simp [FileId.kind] at hkind

/-- Of the files of an engine only the logs are taken for logs, each for that of its number. -/
theorem FileId.of_parseWalName {id : FileId} {seq : Nat} (h : parseWalName id.name = some seq) : id = .wal seq := by
  obtain ⟨t, ht, ds, -, -, rfl, -, hds⟩ := parseWalName_eq_some_iff.1 h
  have hends : id.kind = (some 'w', some 'l') := by
    rw [← ends_name, ends, ht]
    simp [List.getLast?_cons, List.getLast?_append]
  cases id with
  | wal seq' =>
    obtain rfl : t = padded 6 seq' := (eq_walName_iff ht).1 rfl
    rcases hds with rfl | hplus
    · rw [value_padded]
    · exact (plus_not_digit (hplus ▸ allDigits_padded 6 seq')).elim
  | _ => simp [FileId.kind] at hends

end LsmEngine
