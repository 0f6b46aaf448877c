import LsmEngine.SsTable
import Mathlib.Data.List.TakeWhile

/-!
# The MANIFEST

`manifest.rs`: which tables exist at which level, with their key ranges. Every commit rewrites the whole of it, from the
levels of the engine, by `add`. The file is kept here as the value its codec writes.
-/

namespace LsmEngine

/-- A number with leading zeros up to six digits, as `{:06}` formats it. -/
def pad6 (n : Nat) : String := String.ofList (List.replicate (6 - (toString n).length) '0') ++ toString n

/-- The name of a table file, by the level and the sequence number it is made from. -/
structure SstName where
  level : Nat
  seq : Nat
  deriving DecidableEq, Repr

def SstName.toString (n : SstName) : String := s!"L{n.level}_" ++ pad6 n.seq ++ ".sst"

structure SstMeta where
  level : Nat
  seq : Nat
  name : SstName
  min : Key
  max : Key
  deriving DecidableEq, Repr

/-- `levels[l]` lists the tables of level `l`, ascending by seq. -/
structure Manifest where
  levels : List (List SstMeta) := []
  deriving DecidableEq, Repr

/-- A table put into a level before the first one whose seq is not smaller. -/
def insertBySeq (sst : SstMeta) (l : List SstMeta) : List SstMeta :=
  l.insertIdx (partitionPoint (fun m => decide (m.seq < sst.seq)) l) sst

/-- `Manifest::add`. -/
def Manifest.add (m : Manifest) (sst : SstMeta) : Manifest :=
  let levels := m.levels ++ List.replicate (sst.level + 1 - m.levels.length) []
  ⟨levels.modify sst.level (insertBySeq sst)⟩

/-- The tables of one level added one after another. -/
def Manifest.addLevel (m : Manifest) (level : Nat) (handles : List SstMeta) : Manifest :=
  handles.foldl (fun m sst => m.add { sst with level := level }) m

/-- The manifest `write_manifest` makes of the levels from `level` on, over what it has made so far. -/
def Manifest.addLevels (m : Manifest) (level : Nat) : List (List SstMeta) → Manifest
  | [] => m
  | handles :: rest => (m.addLevel level handles).addLevels (level + 1) rest

/-- The manifest `write_manifest` makes of the levels of the engine. -/
def Manifest.ofLevels (levels : List (List SstMeta)) : Manifest := Manifest.addLevels {} 0 levels

/-- The tables of a manifest or of the engine, the one a lookup asks last first: level by level from the bottom, each level in
order of seq. -/
def stack (levels : List (List SstMeta)) : List SstMeta := levels.reverse.flatten

def AscendingBySeq (l : List SstMeta) : Prop := l.Pairwise (fun a b => a.seq < b.seq)

namespace ManifestAux

/-- A table above all others comes last. -/
theorem insertBySeq_of_lt {sst : SstMeta} {l : List SstMeta} (h : ∀ m ∈ l, m.seq < sst.seq) :
    insertBySeq sst l = l ++ [sst] := by
  have htw : l.takeWhile (fun m => decide (m.seq < sst.seq)) = l := by
    rw [List.takeWhile_eq_self_iff]
    intro m hm
    simpa using h m hm
  rw [insertBySeq, partitionPoint, htw, List.insertIdx_length_self]

/-- The change of the last element. -/
theorem modify_last {α : Type} (as : List α) (x : α) (f : α → α) {n : Nat} (hn : as.length = n) :
    (as ++ [x]).modify n f = as ++ [f x] := by
  subst hn
  induction as with
  | nil => rfl
  | cons a as ih => simpa using ih

/-- Adding the tables of a level in order to a manifest that has nothing there or above appends the level. -/
theorem addLevel_eq {ls : List (List SstMeta)} {level : Nat} (hl : ls.length ≤ level) {handles : List SstMeta}
    (hne : handles ≠ []) (hs : AscendingBySeq handles) (hlev : ∀ m ∈ handles, m.level = level) :
    Manifest.addLevel ⟨ls⟩ level handles = ⟨ls ++ List.replicate (level - ls.length) [] ++ [handles]⟩ := by
  induction handles using List.reverseRecOn with
  | nil => exact absurd rfl hne
  | append_singleton hs' sst ih =>
    obtain ⟨hs1, -, hs2⟩ := List.pairwise_append.1 hs
    have hsst : { sst with level := level } = sst := by rw [← hlev sst (by simp)]
    have hsl : sst.level = level := hlev sst (by simp)
    rw [Manifest.addLevel, List.foldl_append]
    change Manifest.add (Manifest.addLevel ⟨ls⟩ level hs') _ = _
    rw [hsst]
    have hlt : ∀ m ∈ hs', m.seq < sst.seq := fun m hm => hs2 m hm sst (by simp)
    have hlast : (ls ++ List.replicate (level - ls.length) ([] : List SstMeta)).length = level := by
      rw [List.length_append, List.length_replicate]
      omega
    rcases eq_or_ne hs' [] with rfl | hne'
    · rw [Manifest.addLevel, List.foldl_nil]
      simp only [Manifest.add, Manifest.mk.injEq, hsl]
      rw [show level + 1 - ls.length = (level - ls.length) + 1 by omega, List.replicate_succ', ← List.append_assoc,
        List.nil_append, modify_last _ _ _ hlast]
      rfl
    · rw [ih hne' hs1 (fun m hm => hlev m (List.mem_append_left _ hm))]
      simp only [Manifest.add, Manifest.mk.injEq, hsl]
      rw [List.length_append, hlast, List.length_singleton, Nat.sub_self, List.replicate_zero, List.append_nil,
        modify_last _ _ _ hlast, insertBySeq_of_lt hlt]

end ManifestAux

open ManifestAux

/-- What the levels of a manifest must be for `add` to rebuild them: each in ascending order of seq, each table carrying its
level. -/
def LevelsOrdered (levels : List (List SstMeta)) : Prop :=
  ∀ l handles, levels[l]? = some handles → AscendingBySeq handles ∧ ∀ m ∈ handles, m.level = l

namespace ManifestAux

/-- Adding the levels of an engine one after another gives these levels, up to empty ones at the end. -/
theorem addLevels_spec (rest : List (List SstMeta)) : ∀ (ls : List (List SstMeta)) (level : Nat), ls.length ≤ level →
    (∀ l handles, rest[l]? = some handles → AscendingBySeq handles ∧ ∀ m ∈ handles, m.level = level + l) →
    ∃ trail, (Manifest.addLevels ⟨ls⟩ level rest).levels ++ List.replicate trail [] =
      ls ++ List.replicate (level - ls.length) [] ++ rest := by
  induction rest with
  | nil => exact fun ls level _ _ => ⟨level - ls.length, by simp [Manifest.addLevels]⟩
  | cons handles rest ih =>
    intro ls level hl h
    obtain ⟨hs, hlev⟩ := h 0 handles rfl
    have hrest : ∀ l hh, rest[l]? = some hh → AscendingBySeq hh ∧ ∀ m ∈ hh, m.level = level + 1 + l := by
      intro l hh hget
      obtain ⟨h1, h2⟩ := h (l + 1) hh (by simpa using hget)
      exact ⟨h1, fun m hm => by rw [h2 m hm]; omega⟩
    rcases eq_or_ne handles [] with rfl | hne
    · obtain ⟨trail, ht⟩ := ih ls (level + 1) (by omega) hrest
      refine ⟨trail, ?_⟩
      rw [Manifest.addLevels, Manifest.addLevel, List.foldl_nil, ht,
        show level + 1 - ls.length = (level - ls.length) + 1 by omega, List.replicate_succ']
      simp
    · rw [Manifest.addLevels, addLevel_eq hl hne hs (fun m hm => by rw [hlev m hm]; rfl)]
      have hlen : (ls ++ List.replicate (level - ls.length) [] ++ [handles]).length = level + 1 := by
        rw [List.length_append, List.length_append, List.length_replicate, List.length_singleton]
        omega
      obtain ⟨trail, ht⟩ := ih (ls ++ List.replicate (level - ls.length) [] ++ [handles]) (level + 1) (by omega) hrest
      refine ⟨trail, ?_⟩
      rw [ht, hlen, Nat.sub_self]
      simp

end ManifestAux

/-- `write_manifest` writes the levels of the engine, but for empty levels at the end. -/
theorem ofLevels_trail {levels : List (List SstMeta)} (h : LevelsOrdered levels) :
    ∃ trail, (Manifest.ofLevels levels).levels ++ List.replicate trail [] = levels := by
  obtain ⟨trail, ht⟩ := addLevels_spec levels [] 0 (Nat.le_refl _) (fun l hh hget => by simpa using h l hh hget)
  exact ⟨trail, by simpa [Manifest.ofLevels] using ht⟩

/-- The tables the MANIFEST lists at a level are those of the engine. -/
theorem ofLevels_getD {levels : List (List SstMeta)} (h : LevelsOrdered levels) (l : Nat) :
    (Manifest.ofLevels levels).levels[l]?.getD [] = levels[l]?.getD [] := by
  obtain ⟨trail, ht⟩ := ofLevels_trail h
  conv_rhs => rw [← ht]
  by_cases hl : l < (Manifest.ofLevels levels).levels.length
  · rw [List.getElem?_append_left hl]
  · rw [List.getElem?_append_right (by omega), List.getElem?_eq_none (by omega), List.getElem?_replicate]
    split_ifs <;> rfl

/-- The MANIFEST lists the tables of the engine in the same order. -/
theorem stack_ofLevels {levels : List (List SstMeta)} (h : LevelsOrdered levels) :
    stack (Manifest.ofLevels levels).levels = stack levels := by
  obtain ⟨trail, ht⟩ := ofLevels_trail h
  conv_rhs => rw [← ht]
  rw [stack, stack, List.reverse_append, List.flatten_append, List.reverse_replicate]
  simp

/-- The stack has the tables of all levels. -/
theorem mem_stack {levels : List (List SstMeta)} {m : SstMeta} : m ∈ stack levels ↔ ∃ l ∈ levels, m ∈ l := by
  simp [stack]

end LsmEngine
