import LsmEngine.Lemmas.ManifestFile
import LsmEngine.Library.Run

/-!
# Edits of a manifest

A manifest that is edited by `add` and `remove` is a shelf: at each level and seq a pile of tables, of which `remove` takes the one added
last. A manifest is written whatever is on its shelf, and read back when no pile has two.
-/

namespace LsmEngine

namespace ManifestFile

open Transition

/-! ## What a manifest is for -/

inductive Edit where
  | add (sst : SstMeta)
  | remove (level : UInt32) (seq : UInt64)

/-- The tables at each level and seq, the one added last first. -/
abbrev Shelf := UInt32 → UInt64 → List SstMeta

/-- An edit, and whether it has found what it removes. -/
def Shelf.step (s : Shelf) : Edit → Option (Shelf × Option Bool)
  | .add sst => some (fun l q => if l = sst.level ∧ q = sst.seq then sst :: s l q else s l q, none)
  | .remove level seq => some (fun l q => if l = level ∧ q = seq then (s l q).tail else s l q, some !(s level seq).isEmpty)

/-- The same edit of a manifest. -/
def Manifest.step (m : Manifest) : Edit → Option (Manifest × Option Bool)
  | .add sst => some (m.add sst, none)
  | .remove level seq => some ((m.remove level seq).1, some (m.remove level seq).2)

/-- The levels are sorted, carry their numbers and hold the piles of the shelf. -/
structure Manifest.Holds (m : Manifest) (s : Shelf) : Prop where
  sorted : ∀ l, (m.sstsAt l).Pairwise (fun a b => a.seq ≤ b.seq)
  level : ∀ l, ∀ x ∈ m.sstsAt l, x.level.toNat = l
  pile : ∀ level seq, (m.sstsAt level.toNat).filter (fun x => x.seq = seq) = s level seq

/-- The empty manifest is the empty shelf. -/
theorem holds_empty : Manifest.Holds {} (fun _ _ => []) where
  sorted := fun l => by simp [Manifest.sstsAt]
  level := fun l x hx => by simp [Manifest.sstsAt] at hx
  pile := fun level seq => by simp [Manifest.sstsAt]

/-! ## Adding -/

/-- Putting a table in its place puts it on its pile and leaves the others. -/
theorem filter_insertBySeq (sst : SstMeta) (l : List SstMeta) (q : UInt64) :
    (insertBySeq sst l).filter (fun x => x.seq = q) =
      if q = sst.seq then sst :: l.filter (fun x => x.seq = q) else l.filter (fun x => x.seq = q) := by
  have hsplit := List.takeWhile_append_dropWhile (p := fun m : SstMeta => decide (m.seq < sst.seq)) (l := l)
  rw [insertBySeq_eq, List.filter_append, List.filter_cons]
  conv_rhs => rw [← hsplit, List.filter_append]
  by_cases hq : q = sst.seq
  · subst hq
    have hbelow : (l.takeWhile (fun m => decide (m.seq < sst.seq))).filter (fun x => x.seq = sst.seq) = [] := by
      rw [List.filter_eq_nil_iff]
      intro x hx
      have hlt : x.seq < sst.seq := by simpa using List.mem_takeWhile_imp hx
      simpa using (UInt64.ne_of_lt hlt)
    simp [hbelow]
  · have hne : ¬sst.seq = q := fun h => hq h.symm
    simp [hq, hne]

/-- A level stays sorted when a table is inserted. -/
theorem sorted_insertBySeq {l : List SstMeta} (h : l.Pairwise (fun a b => a.seq ≤ b.seq)) (sst : SstMeta) :
    (insertBySeq sst l).Pairwise (fun a b => a.seq ≤ b.seq) := by
  rw [insertBySeq_eq]
  have hsplit := h
  rw [← List.takeWhile_append_dropWhile (p := fun m => decide (m.seq < sst.seq)) (l := l)] at hsplit
  obtain ⟨h1, h2, h3⟩ := List.pairwise_append.1 hsplit
  have hbelow : ∀ x ∈ l.takeWhile (fun m => decide (m.seq < sst.seq)), x.seq ≤ sst.seq := by
    intro x hx
    have hlt : x.seq < sst.seq := by simpa using List.mem_takeWhile_imp hx
    exact UInt64.le_of_lt hlt
  have habove : ∀ x ∈ l.dropWhile (fun m => decide (m.seq < sst.seq)), sst.seq ≤ x.seq := by
    intro x hx
    cases hd : l.dropWhile (fun m => decide (m.seq < sst.seq)) with
    | nil => simp [hd] at hx
    | cons y ys =>
      have hy : sst.seq ≤ y.seq := by
        have hge : ¬y.seq < sst.seq := by
          simpa [hd] using List.head_dropWhile_not (fun m : SstMeta => decide (m.seq < sst.seq)) (l := l) (by rw [hd]; simp)
        exact UInt64.not_lt.1 hge
      rw [hd] at hx h2
      rcases List.mem_cons.1 hx with rfl | hx
      · exact hy
      · exact UInt64.le_trans hy ((List.pairwise_cons.1 h2).1 x hx)
  refine List.pairwise_append.2 ⟨h1, List.pairwise_cons.2 ⟨habove, h2⟩, fun x hx y hy => ?_⟩
  rcases List.mem_cons.1 hy with rfl | hy
  · exact hbelow x hx
  · exact h3 x hx y hy

/-- A table that is added lies on its pile. -/
theorem Manifest.Holds.add {m : Manifest} {s : Shelf} (h : m.Holds s) (sst : SstMeta) :
    (m.add sst).Holds (fun l q => if l = sst.level ∧ q = sst.seq then sst :: s l q else s l q) where
  sorted := fun l => by
    rw [sstsAt_add]
    split
    · exact sorted_insertBySeq (h.sorted _) sst
    · exact h.sorted l
  level := fun l x hx => by
    rw [sstsAt_add] at hx
    split at hx
    · rename_i hl
      rcases mem_insertBySeq.1 hx with rfl | hx
      · exact hl.symm
      · rw [hl]
        exact h.level _ x hx
    · exact h.level l x hx
  pile := fun level seq => by
    rw [sstsAt_add]
    by_cases hl : level = sst.level
    · subst hl
      rw [if_pos rfl, filter_insertBySeq, h.pile]
      simp
    · rw [if_neg (fun hc => hl (UInt32.toNat_inj.1 hc)), h.pile, if_neg (fun hc => hl hc.1)]

/-! ## Removing -/

/-- Erasing the first table of a seq takes it off its pile and leaves the others. -/
theorem filter_eraseP (l : List SstMeta) (seq q : UInt64) :
    (l.eraseP (fun x => x.seq = seq)).filter (fun x => x.seq = q) =
      if q = seq then (l.filter (fun x => x.seq = q)).tail else l.filter (fun x => x.seq = q) := by
  induction l with
  | nil => simp
  | cons x l ih =>
    by_cases hx : x.seq = seq
    · rw [List.eraseP_cons_of_pos (by simpa using hx)]
      by_cases hq : q = seq
      · simp [hq, hx]
      · simp [hq, show ¬x.seq = q from fun hc => hq (hc.symm.trans hx)]
    · rw [List.eraseP_cons_of_neg (by simpa using hx), List.filter_cons, ih, List.filter_cons]
      by_cases hq : q = seq
      · simp [hq, hx]
      · simp [hq]

/-- `remove` erases the first table of the seq at its level, where there is one. -/
theorem remove_eq (m : Manifest) (level : UInt32) (seq : UInt64) :
    (∀ l, (m.remove level seq).1.sstsAt l =
      if l = level.toNat then (m.sstsAt level.toNat).eraseP (fun x => x.seq = seq) else m.sstsAt l) ∧
      (m.remove level seq).2 = !((m.sstsAt level.toNat).filter (fun x => x.seq = seq)).isEmpty := by
  have hkeep : (m.sstsAt level.toNat).findIdx? (fun x => x.seq = seq) = none →
      (∀ l, m.sstsAt l = if l = level.toNat then (m.sstsAt level.toNat).eraseP (fun x => x.seq = seq) else m.sstsAt l) ∧
        false = !((m.sstsAt level.toNat).filter (fun x => x.seq = seq)).isEmpty := by
    intro hnone
    refine ⟨fun l => ?_, ?_⟩
    · rw [List.eraseP_eq_eraseIdx, hnone]
      split
      · rename_i hl
        rw [hl]
      · rfl
    · have hfil : (m.sstsAt level.toNat).filter (fun x => x.seq = seq) = [] :=
        List.filter_eq_nil_iff.2 (fun x hx => by simpa using List.findIdx?_eq_none_iff.1 hnone x hx)
      rw [hfil]
      rfl
  unfold Manifest.remove
  cases hlist : m.levels[level.toNat]? with
  | none => exact hkeep (by simp [Manifest.sstsAt, hlist])
  | some list =>
    have hat : m.sstsAt level.toNat = list := by simp [Manifest.sstsAt, hlist]
    dsimp only
    cases hpos : list.findIdx? (fun x => x.seq = seq) with
    | none => exact hkeep (by rw [hat, hpos])
    | some pos =>
      refine ⟨fun l => ?_, ?_⟩
      · simp only [Manifest.sstsAt, List.getElem?_modify]
        by_cases hl : level.toNat = l
        · subst hl
          simp [hlist, List.eraseP_eq_eraseIdx, hpos]
        · simp [hl, show ¬l = level.toNat from fun hc => hl hc.symm]
      · obtain ⟨x, hx, hseq⟩ : ∃ x ∈ list, x.seq = seq := by
          by_contra hno
          have hnone := List.findIdx?_eq_none_iff.2 (fun x hx => decide_eq_false (fun hc => hno ⟨x, hx, hc⟩))
          rw [hnone] at hpos
          simp at hpos
        rw [hat]
        have hmem : x ∈ list.filter (fun x => x.seq = seq) := List.mem_filter.2 ⟨hx, by simpa using hseq⟩
        cases hf : list.filter (fun x => x.seq = seq) with
        | nil => simp [hf] at hmem
        | cons y ys => rfl

/-- A removal takes the top of a pile, and says whether there was one. -/
theorem Manifest.Holds.remove {m : Manifest} {s : Shelf} (h : m.Holds s) (level : UInt32) (seq : UInt64) :
    (m.remove level seq).1.Holds (fun l q => if l = level ∧ q = seq then (s l q).tail else s l q) ∧
      (m.remove level seq).2 = !(s level seq).isEmpty := by
  obtain ⟨hat, hfound⟩ := remove_eq m level seq
  refine ⟨⟨fun l => ?_, fun l x hx => ?_, fun l q => ?_⟩, by rw [hfound, h.pile]⟩
  · rw [hat]
    split
    · exact (h.sorted _).sublist List.eraseP_sublist
    · exact h.sorted l
  · rw [hat] at hx
    split at hx
    · rename_i hl
      rw [hl]
      exact h.level _ x (List.mem_of_mem_eraseP hx)
    · exact h.level l x hx
  · rw [hat]
    by_cases hl : l = level
    · subst hl
      rw [if_pos rfl, filter_eraseP, h.pile]
      simp
    · rw [if_neg (fun hc => hl (UInt32.toNat_inj.1 hc)), h.pile, if_neg (fun hc => hl hc.1)]

/-! ## Writing and reading back -/

/-- A sorted level is strictly ascending exactly when no two of its tables have one seq. -/
theorem ascending_iff_piles {l : List SstMeta} (hs : l.Pairwise (fun a b => a.seq ≤ b.seq)) :
    Ascending l ↔ ∀ q, (l.filter (fun x => x.seq = q)).length ≤ 1 := by
  constructor
  · intro hasc q
    by_contra htwo
    have hsub := List.Pairwise.filter (fun x => decide (x.seq = q)) hasc
    have hq : ∀ x ∈ l.filter (fun x => x.seq = q), x.seq = q := fun x hx => by simpa using (List.mem_filter.1 hx).2
    cases hf : l.filter (fun x => x.seq = q) with
    | nil => simp [hf] at htwo
    | cons a rest =>
      cases rest with
      | nil => simp [hf] at htwo
      | cons b rest =>
        rw [hf] at hsub hq
        have hlt := (List.pairwise_cons.1 hsub).1 b List.mem_cons_self
        rw [hq a List.mem_cons_self, hq b (List.mem_cons_of_mem _ List.mem_cons_self)] at hlt
        exact UInt64.lt_irrefl _ hlt
  · intro hone
    induction l with
    | nil => exact List.Pairwise.nil
    | cons x l ih =>
      obtain ⟨hx, hl⟩ := List.pairwise_cons.1 hs
      refine List.pairwise_cons.2 ⟨fun y hy => ?_, ih hl (fun q => ?_)⟩
      · refine UInt64.lt_of_le_of_ne (hx y hy) (fun heq => ?_)
        have hlen := hone x.seq
        have hmem : y ∈ l.filter (fun y => y.seq = x.seq) := List.mem_filter.2 ⟨hy, by simpa using heq.symm⟩
        rw [List.filter_cons_of_pos (by simp), List.length_cons] at hlen
        exact absurd (List.length_pos_of_mem hmem) (by omega)
      · refine le_trans (List.Sublist.length_le ?_) (hone q)
        exact (List.sublist_cons_self x l).filter _

/-- A manifest whose tables fit is written, and read back with the same tables if no two share a level and a seq; if two do, the bytes are
refused. -/
theorem Manifest.Holds.reads_back {m : Manifest} {s : Shelf} (h : m.Holds s) (hfits : ∀ l, ∀ x ∈ m.sstsAt l, x.Fits) :
    ∃ bytes, encode m = some bytes ∧
      ((∀ level seq, (s level seq).length ≤ 1) → ∃ m', decode bytes = .ok m' ∧ ∀ l, m'.sstsAt l = m.sstsAt l) ∧
      ((∃ level seq, 1 < (s level seq).length) → ∃ msg, decode bytes = .error (.corruption msg)) := by
  have hf : ∀ x ∈ m.levels.flatten, x.Fits := by
    intro x hx
    obtain ⟨l, hx⟩ := mem_flatten_iff.1 hx
    exact hfits l x hx
  have hfil : ∀ l, m.levels.flatten.filter (fun x => x.level.toNat = l) = m.sstsAt l := by
    intro l
    have := filter_flatten m.levels 0 (fun i x hx => by simpa using h.level i x hx) l
    simpa [Manifest.sstsAt] using this
  refine ⟨magicManifest ++ records m.levels.flatten, putLevels_eq (fun i x hx => by simpa using h.level i x hx) hf _, ?_, ?_⟩
  · intro hone
    have hasc : ∀ l, Ascending (m.sstsAt l) := by
      intro l
      rcases (m.sstsAt l).eq_nil_or_concat with hnil | ⟨_, x, hx⟩
      · rw [hnil]
        exact List.Pairwise.nil
      · have hl : x.level.toNat = l := h.level l x (by simp [hx])
        exact (ascending_iff_piles (h.sorted l)).2 (fun q => by rw [← hl, h.pile]; exact hone _ q)
    obtain ⟨m', hpush, -, hat, -⟩ := pushAll_of_ascending m.levels.flatten (fun l => by rw [hfil]; exact hasc l)
    exact ⟨m', by rw [decode_records hf, hpush], fun l => by rw [hat, hfil]⟩
  · rintro ⟨level, seq, htwo⟩
    rw [decode_records hf]
    cases hpush : Manifest.pushAll {} m.levels.flatten with
    | error err =>
      have herr : decode (magicManifest ++ records m.levels.flatten) = .error err := by rw [decode_records hf, hpush]
      obtain ⟨msg, rfl⟩ := decode_error herr
      exact ⟨msg, rfl⟩
    | ok m' =>
      have hasc := ascending_of_pushAll hpush level.toNat
      rw [hfil] at hasc
      have hle := (ascending_iff_piles (h.sorted _)).1 hasc seq
      rw [h.pile] at hle
      exact absurd htwo (by omega)

/-! ## Every sequence of edits -/

/-- Whatever is added and removed, in whatever order: each `remove` says whether its pile had a table, the manifest holds what is on the
shelf, and it is written and read back as its piles allow. -/
theorem manifest_keeps_shelf (edits : List Edit) : ∃ m s os, play Manifest.step edits {} = some (m, os) ∧
    play Shelf.step edits (fun _ _ => []) = some (s, os) ∧ m.Holds s ∧ ((∀ l, ∀ x ∈ m.sstsAt l, x.Fits) → ∃ bytes, encode m = some bytes ∧
      ((∀ level seq, (s level seq).length ≤ 1) → ∃ m', decode bytes = .ok m' ∧ ∀ l, m'.sstsAt l = m.sstsAt l) ∧
      ((∃ level seq, 1 < (s level seq).length) → ∃ msg, decode bytes = .error (.corruption msg))) := by
  have hstep : ∀ (m : Manifest) (s : Shelf) (a : Edit), m.Holds s →
      Option.Rel (fun x y => x.1.Holds y.1 ∧ x.2 = y.2) (m.step a) (s.step a) := by
    intro m s a h
    cases a with
    | add sst => exact .some ⟨h.add sst, rfl⟩
    | remove level seq =>
      obtain ⟨hholds, hfound⟩ := h.remove level seq
      exact .some ⟨hholds, congrArg some hfound⟩
  have hrun := play_related hstep holds_empty edits
  have htotal : ∀ (s : Shelf) (a : Edit), ∃ r, s.step a = some r := by
    intro s a
    cases a <;> exact ⟨_, rfl⟩
  obtain ⟨s, os, hs⟩ := play_total htotal edits (fun _ _ => [])
  rw [hs] at hrun
  generalize hm : play Manifest.step edits {} = x at hrun
  cases hrun with
  | @some r _ h =>
    obtain ⟨m, os'⟩ := r
    obtain ⟨hholds, rfl⟩ := h
    exact ⟨m, s, os', rfl, hs, hholds, hholds.reads_back⟩

/-- Two tables of one level and seq: the one added last goes first, and until it has gone the bytes are refused. -/
example : (play Manifest.step [.add ⟨0, 3, "a.sst", [], [9]⟩, .add ⟨0, 3, "b.sst", [], [9]⟩, .remove 0 3, .remove 1 3] {}).map
    (fun r => (r.1.levels.map (List.map SstMeta.name), r.2)) = some ([["a.sst"]], [none, none, some true, some false]) := by decide

end ManifestFile

end LsmEngine
