import LsmEngine.Lemmas.ManifestFile

/-!
# The MANIFEST codec

What is encoded is decoded again; every cut of it decodes to the records before the cut or not at all; and whatever decodes is a
manifest that is encoded and decoded again. The manifests that the engine writes are among them.
-/

namespace LsmEngine

namespace ManifestFile

/-- Where the first `j` of some records end in the file. -/
def recordEnd (ms : List SstMeta) (j : Nat) : Nat := magicLen + ((ms.take j).map SstMeta.recordLen).sum

/-- What `decode` makes of the first `n` bytes of a file with the records of `ms`: where they end with a record, the manifest of the
records before; elsewhere, corruption. -/
def DecodesUpTo (ms : List SstMeta) (bytes : Bytes) (n : Nat) : Prop :=
  (∃ j ≤ ms.length, n = recordEnd ms j ∧ decode (bytes.take n) = .ok ((ms.take j).foldl Manifest.add {})) ∨
    ((∀ j ≤ ms.length, n ≠ recordEnd ms j) ∧ ∃ msg, decode (bytes.take n) = .error (.corruption msg))

/-- The records up to one end where that one ends. -/
theorem length_records (ms : List SstMeta) (j : Nat) : (magicManifest ++ records (ms.take j)).length = recordEnd ms j := by
  rw [List.length_append, records_length, recordEnd, magicLen]

/-- The first records of those that can be pushed one after another are the manifest made by adding them. -/
theorem decode_records_take {ms : List SstMeta} (hf : ∀ x ∈ ms, x.Fits) {m : Manifest} (hp : Manifest.pushAll {} ms = .ok m)
    (j : Nat) : decode (magicManifest ++ records (ms.take j)) = .ok ((ms.take j).foldl Manifest.add {}) := by
  rw [decode_records (fun x hx => hf x (List.mem_of_mem_take hx))]
  have hasc := ascending_of_pushAll hp
  obtain ⟨m', hp', -, -, hadd⟩ := pushAll_of_ascending (ms.take j) (fun l => by
    refine List.Pairwise.sublist ?_ (hasc l)
    exact (List.take_sublist j ms).filter _)
  rw [hp', hadd]

/-- Bytes cut between two records decode to those before the cut, bytes cut inside one do not decode. -/
theorem decodesUpTo_records {ms : List SstMeta} (hf : ∀ x ∈ ms, x.Fits) {m : Manifest} (hp : Manifest.pushAll {} ms = .ok m)
    {n : Nat} (hn : n ≤ (magicManifest ++ records ms).length) : DecodesUpTo ms (magicManifest ++ records ms) n := by
  -- a cut at the end of a record
  have hcut : ∀ j ≤ ms.length, n = recordEnd ms j →
      (magicManifest ++ records ms).take n = magicManifest ++ records (ms.take j) := by
    intro j hj hend
    have hsplit : magicManifest ++ records ms = (magicManifest ++ records (ms.take j)) ++ records (ms.drop j) := by
      rw [List.append_assoc, ← records_append, List.take_append_drop]
    rw [hsplit, hend, ← length_records, List.take_left]
  rcases decode_take hf n with ⟨j, hj, htake⟩ | herr
  · left
    refine ⟨j, hj, ?_, by rw [htake]; exact decode_records_take hf hp j⟩
    rw [← length_records, ← htake, List.length_take]
    omega
  · right
    refine ⟨fun j hj hend => ?_, herr⟩
    obtain ⟨msg, hmsg⟩ := herr
    rw [hcut j hj hend, decode_records_take hf hp j] at hmsg
    simp at hmsg

/-- The three properties of the codec: of every manifest made by adding tables of which no two have a level and a seq in common, its
encoding and every cut of it decode as they should; and what any byte string decodes to is ordered, and is decoded again from its
encoding. -/
theorem manifest_round_trip :
    (∀ metas : List SstMeta, (metas.map (fun x => (x.level, x.seq))).Nodup → (∀ x ∈ metas, x.Fits) →
      ∃ bytes, encode (metas.foldl Manifest.add {}) = some bytes ∧ decode bytes = .ok (metas.foldl Manifest.add {}) ∧
        ∀ n ≤ bytes.length, DecodesUpTo (metas.foldl Manifest.add {}).levels.flatten bytes n) ∧
    (∀ (bytes : Bytes) (m : Manifest), decode bytes = .ok m →
      m.Ordered ∧ ∃ bytes', encode m = some bytes' ∧ decode bytes' = .ok m) := by
  refine ⟨fun metas hnodup hfits => ?_, fun bytes m hdec => ?_⟩
  · obtain ⟨hord, hmem⟩ := addAll_ordered hnodup
    have hf : ∀ x ∈ (metas.foldl Manifest.add {}).levels.flatten, x.Fits := by
      intro x hx
      obtain ⟨l, hx⟩ := mem_flatten_iff.1 hx
      exact hfits x ((hmem l x).1 hx).1
    exact ⟨_, hord.encode hf, hord.decode hf, fun n hn => decodesUpTo_records hf hord.pushAll hn⟩
  · obtain ⟨ms, hfits, -, hpush⟩ := decode_ok hdec
    obtain ⟨m', hp', hord, hat, -⟩ := pushAll_of_ascending _ (ascending_of_pushAll hpush)
    obtain rfl : m = m' := by simpa [hpush] using hp'
    have hf : ∀ x ∈ m.levels.flatten, x.Fits := by
      intro x hx
      obtain ⟨l, hx⟩ := mem_flatten_iff.1 hx
      rw [hat] at hx
      exact hfits x (List.mem_filter.1 hx).1
    exact ⟨hord, _, hord.encode hf, hord.decode hf⟩

/-- Two tables added out of order, with an empty level between them and the file cut inside the first record; and a file that lists
its levels interleaved. -/
theorem manifest_round_trip_interleaved :
    (∃ bytes, decode bytes = .ok ⟨[[⟨0, 3, "b.sst", [], [9]⟩], [], [⟨2, 5, "a.sst", [1], [2]⟩]]⟩ ∧
      DecodesUpTo [⟨0, 3, "b.sst", [], [9]⟩, ⟨2, 5, "a.sst", [1], [2]⟩] bytes 20) ∧
    ∃ m, decode (magicManifest ++ records [⟨1, 5, "a.sst", [1], [2]⟩, ⟨0, 3, "b.sst", [], [9]⟩, ⟨1, 7, "c.sst", [1], [1]⟩]) =
      .ok m ∧ m.Ordered ∧ ∃ bytes', encode m = some bytes' ∧ decode bytes' = .ok m := by
  constructor
  · obtain ⟨bytes, henc, hdec, hcut⟩ := manifest_round_trip.1
      [⟨2, 5, "a.sst", [1], [2]⟩, ⟨0, 3, "b.sst", [], [9]⟩] (by decide) (by decide)
    have hlen : 20 ≤ bytes.length := by
      have : (encode ([⟨2, 5, "a.sst", [1], [2]⟩, ⟨0, 3, "b.sst", [], [9]⟩].foldl Manifest.add {})).any
        (fun b => decide (20 ≤ b.length)) = true := by decide +kernel
      rwa [henc, Option.any_some, decide_eq_true_eq] at this
    exact ⟨bytes, hdec, hcut 20 hlen⟩
  · have hdec : decode (magicManifest ++ records [⟨1, 5, "a.sst", [1], [2]⟩, ⟨0, 3, "b.sst", [], [9]⟩, ⟨1, 7, "c.sst", [1], [1]⟩]) =
        .ok ⟨[[⟨0, 3, "b.sst", [], [9]⟩], [⟨1, 5, "a.sst", [1], [2]⟩, ⟨1, 7, "c.sst", [1], [1]⟩]]⟩ := by
      rw [decode_records (by decide)]
      rfl
    exact ⟨_, hdec, manifest_round_trip.2 _ _ hdec⟩

end ManifestFile

/-! ## The manifests that the engine writes -/

/-- The table as the file has it. -/
def SstMeta.toFile (m : SstMeta) : ManifestFile.SstMeta :=
  ⟨UInt32.ofNat m.level, UInt64.ofNat m.seq, m.name.toString, m.min, m.max⟩

def Manifest.toFile (m : Manifest) : ManifestFile.Manifest := ⟨m.levels.map (List.map SstMeta.toFile)⟩

/-- The numbers and the lengths of a table fit their fields. -/
structure SstMeta.Storable (m : SstMeta) : Prop where
  level : m.level < 2 ^ 32
  seq : m.seq < 2 ^ 64
  fits : m.toFile.Fits

/-- The level of a table is the one written. -/
theorem SstMeta.Storable.toFile_level {m : SstMeta} (h : m.Storable) : m.toFile.level.toNat = m.level := by
  rw [SstMeta.toFile, UInt32.toNat_ofNat']
  exact Nat.mod_eq_of_lt h.level

/-- Tables are written in their order. -/
theorem SstMeta.Storable.toFile_lt {a b : SstMeta} (ha : a.Storable) (hb : b.Storable) :
    a.toFile.seq < b.toFile.seq ↔ a.seq < b.seq := by
  rw [UInt64.lt_iff_toNat_lt, SstMeta.toFile, SstMeta.toFile, UInt64.toNat_ofNat', UInt64.toNat_ofNat',
    Nat.mod_eq_of_lt ha.seq, Nat.mod_eq_of_lt hb.seq]

/-- A table is inserted in the file where it is inserted in the level. -/
theorem toFile_insertBySeq {sst : SstMeta} (h : sst.Storable) {l : List SstMeta} (hl : ∀ x ∈ l, x.Storable) :
    (insertBySeq sst l).map SstMeta.toFile = ManifestFile.insertBySeq sst.toFile (l.map SstMeta.toFile) := by
  unfold insertBySeq ManifestFile.insertBySeq partitionPoint
  induction l with
  | nil => rfl
  | cons x l ih =>
    have hlt := (hl x List.mem_cons_self).toFile_lt h
    by_cases hx : x.seq < sst.seq
    · simp [hx, hlt, ih (fun y hy => hl y (List.mem_cons_of_mem _ hy))]
    · simp [hx, hlt]

/-- A function of a list in which one place was changed. -/
theorem map_modify {α β : Type} {g : α → β} {f : α → α} {e : β → β} {l : List α} (h : ∀ x ∈ l, g (f x) = e (g x)) (k : Nat) :
    (l.modify k f).map g = (l.map g).modify k e := by
  induction l generalizing k with
  | nil => simp
  | cons a l ih =>
    cases k with
    | zero => simp [h a List.mem_cons_self]
    | succ k => simp [ih (fun x hx => h x (List.mem_cons_of_mem _ hx))]

/-- A table is added to the file as it is added to the manifest. -/
theorem toFile_add {m : Manifest} (hm : ∀ l ∈ m.levels, ∀ x ∈ l, x.Storable) {sst : SstMeta} (h : sst.Storable) :
    (m.add sst).toFile = m.toFile.add sst.toFile := by
  unfold Manifest.add ManifestFile.Manifest.add Manifest.toFile ManifestFile.Manifest.grown
  rw [h.toFile_level]
  congr 1
  rw [map_modify (e := ManifestFile.insertBySeq sst.toFile) (fun l hl => toFile_insertBySeq h (fun x hx => ?_)) sst.level]
  · rw [List.map_append, List.map_replicate, List.length_map, List.map_nil]
  · rcases List.mem_append.1 hl with hl | hl
    · exact hm l hl x hx
    · rw [List.eq_of_mem_replicate hl] at hx
      simp at hx

/-- `write_manifest` adds the tables of the engine one after another. -/
theorem addLevels_eq_foldl (levels : List (List SstMeta)) (m : Manifest) (level : Nat)
    (h : ∀ (i : Nat) (handles : List SstMeta), levels[i]? = some handles → ∀ x ∈ handles, x.level = level + i) :
    m.addLevels level levels = levels.flatten.foldl Manifest.add m := by
  induction levels generalizing m level with
  | nil => rfl
  | cons handles levels ih =>
    have hlevel : m.addLevel level handles = handles.foldl Manifest.add m := by
      refine List.foldl_ext _ _ _ (fun m' x hx => ?_)
      have := h 0 handles rfl x hx
      rw [Nat.add_zero] at this
      rw [← this]
    rw [Manifest.addLevels, hlevel, List.flatten_cons, List.foldl_append]
    refine ih _ _ (fun i hs hi x hx => ?_)
    have := h (i + 1) hs (by simpa using hi) x hx
    omega

/-- An insertion adds the table and nothing else. -/
theorem mem_insertBySeq {sst x : SstMeta} {l : List SstMeta} (h : x ∈ insertBySeq sst l) : x = sst ∨ x ∈ l := by
  have hle : partitionPoint (fun m => decide (m.seq < sst.seq)) l ≤ l.length :=
    (List.takeWhile_sublist _).length_le
  exact (List.mem_insertIdx hle).1 h

/-- Tables added one after another that can all be stored. -/
theorem toFile_addAll {ms : List SstMeta} (h : ∀ x ∈ ms, x.Storable) :
    (ms.foldl Manifest.add {}).toFile = (ms.map SstMeta.toFile).foldl ManifestFile.Manifest.add {} ∧
      ∀ l ∈ (ms.foldl Manifest.add {}).levels, ∀ x ∈ l, x.Storable := by
  induction ms using List.reverseRecOn with
  | nil => exact ⟨rfl, fun l hl => by simp at hl⟩
  | append_singleton ms sst ih =>
    obtain ⟨heq, hall⟩ := ih (fun x hx => h x (List.mem_append_left _ hx))
    have hsst : sst.Storable := h sst (by simp)
    rw [List.foldl_append, List.foldl_cons, List.foldl_nil, List.map_append, List.foldl_append]
    refine ⟨by rw [toFile_add hall hsst, heq]; rfl, fun l hl x hx => ?_⟩
    obtain ⟨i, hi⟩ := List.mem_iff_getElem?.1 hl
    rw [Manifest.add, List.getElem?_modify] at hi
    obtain ⟨l', hl', rfl⟩ := Option.map_eq_some_iff.1 hi
    have hold : ∀ y ∈ l', y.Storable := by
      intro y hy
      rcases List.mem_append.1 (List.mem_of_getElem? hl') with hmem | hmem
      · exact hall l' hmem y hy
      · rw [List.eq_of_mem_replicate hmem] at hy
        simp at hy
    split at hx
    · rcases mem_insertBySeq hx with rfl | hx
      · exact hsst
      · exact hold x hx
    · exact hold x hx

/-- The manifest that the engine writes is read back from its bytes. -/
theorem written_manifest_decodes {levels : List (List SstMeta)} (h : LevelsOrdered levels) (hs : ∀ l ∈ levels, ∀ x ∈ l, x.Storable) :
    ∃ bytes, ManifestFile.encode (Manifest.ofLevels levels).toFile = some bytes ∧
      ManifestFile.decode bytes = .ok (Manifest.ofLevels levels).toFile := by
  have hall : ∀ x ∈ levels.flatten, x.Storable := by
    intro x hx
    obtain ⟨l, hl, hxl⟩ := List.mem_flatten.1 hx
    exact hs l hl x hxl
  have hof : Manifest.ofLevels levels = levels.flatten.foldl Manifest.add {} :=
    addLevels_eq_foldl levels {} 0 (fun i handles hi x hx => by rw [Nat.zero_add]; exact (h i handles hi).2 x hx)
  -- the tables of the file, level by level
  have hfil : ∀ l, (levels.flatten.map SstMeta.toFile).filter (fun x => x.level.toNat = l) =
      (levels[l]?.getD []).map SstMeta.toFile := by
    intro l
    have hf := ManifestFile.filter_flatten (levels.map (List.map SstMeta.toFile)) 0 (fun i x hx => ?_) l
    · rw [Nat.zero_add] at hf
      rw [List.map_flatten, hf, List.getElem?_map]
      cases levels[l]? <;> rfl
    · rw [List.getElem?_map] at hx
      cases hi : levels[i]? with
      | none => simp [hi] at hx
      | some handles =>
        simp only [hi, Option.map_some, Option.getD_some, List.mem_map] at hx
        obtain ⟨y, hy, rfl⟩ := hx
        rw [(hs handles (List.mem_of_getElem? hi) y hy).toFile_level, (h i handles hi).2 y hy, Nat.zero_add]
  obtain ⟨m, -, hord, hat, hadd⟩ := ManifestFile.pushAll_of_ascending (levels.flatten.map SstMeta.toFile) (fun l => by
    rw [hfil]
    cases hl : levels[l]? with
    | none => simp [ManifestFile.Ascending]
    | some handles =>
      refine List.pairwise_map.2 ((h l handles hl).1.imp_of_mem (fun {a b} ha hb hlt => ?_))
      exact ((hs handles (List.mem_of_getElem? hl) a ha).toFile_lt (hs handles (List.mem_of_getElem? hl) b hb)).2 hlt)
  rw [hof, (toFile_addAll hall).1, ← hadd]
  have hfits : ∀ x ∈ m.levels.flatten, x.Fits := by
    intro x hx
    obtain ⟨l, hx⟩ := ManifestFile.mem_flatten_iff.1 hx
    rw [hat, List.mem_filter] at hx
    obtain ⟨y, hy, rfl⟩ := List.mem_map.1 hx.1
    exact (hall y hy).fits
  exact ⟨_, hord.encode hfits, hord.decode hfits⟩

end LsmEngine
