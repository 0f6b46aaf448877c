import LsmEngine.Lemmas.Mounted
import LsmEngine.Theorems.WalName

/-!
# What is read of the files

When the directory shows the disk and no file of others is taken for a log, `open_with_options` reads of the bytes what `recover` reads
of the disk, in whatever order the directory is listed; and a `get` that opens the table files finds what they stand for.
-/

namespace LsmEngine

open Files Overlay

variable {Γ : Ctx} {d : Disk} {dir : Dir}

/-- What has been recovered, as it stands in the files. -/
def Recovered.loaded (r : Recovered) : Loaded :=
  ⟨r.levels.map (List.map SstMeta.toFile), r.walSeqs.map (fun seq => (seq, walName seq)), r.mem⟩

/-- No file of others is taken for a log. -/
def Dir.Apart (dir : Dir) : Prop := ∀ name, (∀ id : FileId, id.name ≠ name) → dir name ≠ none → parseWalName name = none

/-- `names` is a listing of the directory. -/
structure Dir.Lists (dir : Dir) (names : List String) : Prop where
  nodup : names.Nodup
  mem : ∀ name, name ∈ names ↔ dir name ≠ none

/-- A directory with finitely many files can be listed. -/
theorem Dir.exists_lists {dir : Dir} (h : {name | dir name ≠ none}.Finite) : ∃ names, dir.Lists names :=
  ⟨h.toFinset.toList, h.toFinset.nodup_toList, fun name => by simp⟩

/-- What is related to a value is a value. -/
theorem rel_some {α β : Type} {R : α → β → Prop} {a : α} {y : Option β} (h : Option.Rel R (some a) y) : ∃ b, y = some b ∧ R a b := by
  cases h with
  | some hab => exact ⟨_, rfl, hab⟩

/-- What is related to nothing is nothing. -/
theorem rel_none {α β : Type} {R : α → β → Prop} {y : Option β} (h : Option.Rel R none y) : y = none := by
  cases h
  rfl

/-- The logs of a listing are those of the disk, in order of their numbers. -/
theorem Dir.Lists.walSeqs {names : List String} (h : dir.Lists names) (hren : Renders d (fun id => dir id.name)) (hapart : dir.Apart)
    (hkeys : ∀ w ∈ d.wals.keys, w < 2 ^ 64) : walSeqs names = d.wals.keys.map (fun seq => (seq, walName seq)) := by
  have hwal : ∀ w, dir (walName w) ≠ none ↔ w ∈ d.wals.keys := by
    intro w
    have hw : dir (walName w) = (d.wals.get w).map WalFile.toFile := hren (.wal w)
    rw [hw, SortedMap.mem_keys_iff]
    cases d.wals.get w <;> simp
  let logs := d.wals.keys.map walName
  let others := names.filter (fun name => name ∉ logs)
  refine walSeqs_eq d.wals.keys_sorted hkeys (fun name (hname : name ∈ others) => ?_) ?_
  · obtain ⟨hmem, hlog⟩ := List.mem_filter.1 hname
    rw [decide_eq_true_eq] at hlog
    have hdir := (h.mem name).1 hmem
    by_contra hparse
    obtain ⟨seq, hseq⟩ := Option.ne_none_iff_exists'.1 hparse
    by_cases hid : ∃ id : FileId, id.name = name
    · obtain ⟨id, rfl⟩ := hid
      obtain rfl := FileId.of_parseWalName hseq
      exact hlog (List.mem_map_of_mem ((hwal seq).1 hdir))
    · exact hparse (hapart name (fun id he => hid ⟨id, he⟩) hdir)
  · have hnodup : d.wals.keys.Nodup := d.wals.keys_sorted.imp Nat.ne_of_lt
    have hlogs : logs.Nodup := hnodup.map walName_injective
    have hdisj : List.Disjoint logs (names.filter (fun name => name ∉ logs)) := by
      intro name hl hf
      simpa [hl] using (List.mem_filter.1 hf).2
    refine (List.perm_ext_iff_of_nodup h.nodup (hlogs.append (h.nodup.filter _) hdisj)).2 (fun name => ?_)
    rw [List.mem_append, List.mem_filter, decide_eq_true_eq]
    constructor
    · intro hmem
      by_cases hl : name ∈ logs
      · exact .inl hl
      · exact .inr ⟨hmem, hl⟩
    · rintro (hl | ⟨hmem, -⟩)
      · obtain ⟨w, hw, rfl⟩ := List.mem_map.1 hl
        exact (h.mem _).2 ((hwal w).2 hw)
      · exact hmem

/-- The bytes of the MANIFEST decode to what the disk lists. -/
theorem Renders.loadManifest (h : Renders d (fun id => dir id.name)) (hs : Settled d.manifest) (hl : LevelsOk d.manifestLevels) :
    ∃ m, loadManifest d = .ok m ∧ dir.loadManifest = .ok m.toFile ∧ m.levels = d.manifestLevels := by
  obtain ⟨m, hm, hlevels⟩ := loadManifest_ok hs hl
  refine ⟨m, hm, ?_, hlevels⟩
  have hfile : Option.Rel (Stored.Holds ManifestBytes) d.manifest (dir FileId.manifest.name) := h .manifest
  rcases hs with hnone | ⟨m', hsome⟩
  · rw [hnone] at hfile
    have hempty : m = {} := by simpa [LsmEngine.loadManifest, hnone] using hm.symm
    rw [Dir.loadManifest, rel_none hfile, hempty]
    rfl
  · rw [hsome] at hfile
    obtain ⟨f, hf, hh⟩ := rel_some hfile
    have hmm : m' = m := by
      simp only [LsmEngine.loadManifest, hsome, bind, Except.bind, pure, Except.pure] at hm
      cases hc : checkOrder 0 m'.levels with
      | error err => simp [hc] at hm
      | ok u => simpa [hc] using hm
    rw [Dir.loadManifest, hf, ← hmm]
    exact (hh.cur m' rfl).2

/-- The bytes of the logs replay to what the disk's logs replay to. -/
theorem Renders.replayAll (h : Renders d (fun id => dir id.name)) {logs : List (Nat × WalFile)} (hl : ∀ p ∈ logs, p ∈ d.wals.toList)
    (m : MemTable) : dir.replayAll Γ (logs.map (fun p => (p.1, walName p.1))) m = replayAll Γ logs m := by
  induction logs generalizing m with
  | nil => rfl
  | cons p logs ih =>
    have hfile : dir (walName p.1) = (d.wals.get p.1).map WalFile.toFile := h (.wal p.1)
    rw [d.wals.mem_toList_iff.1 (hl p List.mem_cons_self), Option.map_some] at hfile
    rw [List.map_cons, Dir.replayAll, LsmEngine.replayAll, hfile]
    simp only [bind, Except.bind, WalFile.toFile]
    cases replayInto Γ p.2.bytes m with
    | error err => rfl
    | ok m' => exact ih (fun q hq => hl q (List.mem_cons_of_mem _ hq)) m'

/-- The file of a table that the disk has. -/
theorem Renders.table (h : Renders d (fun id => dir id.name)) {m : SstMeta} {rs : List Record} (ht : TableOf Γ d m rs) :
    ∃ sst file, dir m.toFile.name = some file ∧ TableBytes sst file.bytes ∧ Built Γ m sst rs := by
  obtain ⟨sst, hsst, hb⟩ := ht
  have hfile : Option.Rel (Stored.Holds TableBytes) (d.ssts m.name) (dir m.toFile.name) := h (.sst m.name)
  rw [hsst] at hfile
  obtain ⟨file, hf, hh⟩ := rel_some hfile
  exact ⟨sst, file, hf, hh.cur sst rfl, hb⟩

/-- `open_with_options` reads of the files what it reads of the disk. -/
theorem Renders.recover (h : Renders d (fun id => dir id.name)) (hs : Settled d.manifest) (hl : LevelsOk d.manifestLevels)
    (htab : d.HasTables Γ) (hapart : dir.Apart) (hkeys : ∀ w ∈ d.wals.keys, w < 2 ^ 64) {names : List String} (hn : dir.Lists names) :
    dir.recover Γ names = (recover Γ d).map Recovered.loaded := by
  obtain ⟨m, hm, hload, hlevels⟩ := h.loadManifest hs hl
  have hmissing : dir.missingSst m.toFile.levels = none := by
    rw [Dir.missingSst, Manifest.toFile, ← List.map_flatten, List.find?_map, Option.map_eq_none_iff, List.find?_eq_none]
    intro x hx
    rw [hlevels] at hx
    obtain ⟨l, hlm, hxl⟩ := List.mem_flatten.1 hx
    obtain ⟨rs, hrs⟩ := htab x (mem_stack.2 ⟨l, hlm, hxl⟩)
    obtain ⟨sst, file, hfile, -⟩ := h.table hrs
    simp [hfile]
  have hnone : LsmEngine.missingSst d m.levels = none := by rw [hlevels]; exact missingSst_none htab
  have hwals := hn.walSeqs h hapart hkeys
  have hreplay : dir.replayAll Γ (walSeqs names) MemTable.new = LsmEngine.replayAll Γ d.wals.toList MemTable.new := by
    rw [hwals, SortedMap.keys, List.map_map]
    exact h.replayAll (fun p hp => hp) _
  simp only [Dir.recover, LsmEngine.recover, hload, hm, hmissing, hnone, hreplay, bind, Except.bind, pure, Except.pure]
  rw [hwals]
  cases LsmEngine.replayAll Γ d.wals.toList MemTable.new with
  | error err => rfl
  | ok mem => rfl

/-- The listed levels are in order in every state of a run. -/
theorem SeqInv.listed {s : Sys Γ} (h : SeqInv s) : LevelsOk s.disk.manifestLevels := by
  unfold SeqInv at h
  cases hp : s.proc with
  | down =>
    rw [hp] at h
    exact h.listed
  | opening o =>
    rw [hp] at h
    exact h.1.listed
  | up e =>
    rw [hp] at h
    exact h.listed

/-! ## Lookups -/

/-- A lookup in the file of a table. -/
theorem Renders.openReader (h : Renders d (fun id => dir id.name)) {m : SstMeta} {rs : List Record} (ht : TableOf Γ d m rs) (key : Key) :
    ∃ rd, dir.openReader Γ m.toFile.name = .ok rd ∧ rd.get key = .ok ((SortedMap.find key rs).map SsTableAux.lookupValue) := by
  obtain ⟨sst, file, hfile, ⟨hfits, hbytes⟩, hb⟩ := h.table ht
  obtain ⟨rd, hopen, hrecords, hget⟩ := hb.reads
  have hsame : rd.file = sst := SsTableFile.openFile_file hopen
  refine ⟨SsTableFile.reader m.toFile.name rd, ?_, ?_⟩
  · rw [Dir.openReader, Dir.openTable, hfile]
    dsimp only
    rw [hbytes, SsTableFile.openFile_bytes Γ _ hfits, hopen]
    rfl
  · rw [SsTableFile.get_bytes _ (by rwa [hsame]), hget]

/-- The tables of a snapshot, asked one after another. -/
theorem Renders.getTables (h : Renders d (fun id => dir id.name)) (key : Key) {ms : List SstMeta}
    (hms : ∀ m ∈ ms, ∃ rs, TableOf Γ d m rs) : dir.getTables Γ key (ms.map SstMeta.toFile) =
      .ok (ask (ms.map (fun m => tableLayer (d.records Γ m.name))) (fun _ => none) key) := by
  induction ms with
  | nil => rfl
  | cons m ms ih =>
    obtain ⟨rs, ht⟩ := hms m List.mem_cons_self
    have hih := ih (fun m' hm' => hms m' (List.mem_cons_of_mem _ hm'))
    rw [List.map_cons, List.map_cons, Dir.getTables, ask_cons, ht.records]
    split
    · -- the table is skipped: the key is out of its range, and not in it
      rename_i hout
      obtain ⟨sst, -, hb⟩ := id ht
      have hnone : tableLayer rs key = none := by rw [tableLayer, hb.find_outside hout]; rfl
      rw [hih, onto_of_none hnone]
    · obtain ⟨rd, hopen, hget⟩ := h.openReader ht key
      simp only [hopen, hget, bind, Except.bind]
      cases hf : SortedMap.find key rs with
      | none =>
        have hnone : tableLayer rs key = none := by rw [tableLayer, hf]; rfl
        rw [onto_of_none hnone]
        exact hih
      | some x =>
        have hsome : tableLayer rs key = some (visibleRecord x) := by rw [tableLayer, hf]; rfl
        rw [onto_of_some hsome, visible_lookupValue]
        cases hx : SsTableAux.lookupValue x <;> simp [hx, LookupValue.visible, pure, Except.pure]

/-- A `get` on what has been read answers from the map that it stands for. -/
theorem Renders.get (h : Renders d (fun id => dir id.name)) {r : Recovered} (hr : ∀ m ∈ stack r.levels, ∃ rs, TableOf Γ d m rs)
    (key : Key) : r.loaded.get Γ dir key = .ok (r.map Γ d key) := by
  unfold Loaded.get
  have hmap : r.map Γ d = onto r.mem.layer (tablesMap Γ d r.levels) := rfl
  cases he : r.mem.getEntry key with
  | some entry =>
    have hsome : r.mem.layer key = some entry.visible := by rw [MemTable.layer, he]; rfl
    simp only [Recovered.loaded, he, hmap, onto_of_some hsome]
  | none =>
    have hnone : r.mem.layer key = none := by rw [MemTable.layer, he]; rfl
    have horder : r.loaded.levels.flatMap List.reverse = (lookupOrder r.levels).map SstMeta.toFile := by
      simp only [Recovered.loaded, lookupOrder, List.flatMap_map, List.map_flatMap, List.map_reverse]
    simp only [Recovered.loaded, he] at horder ⊢
    rw [horder, lookupOrder_eq, hmap, onto_of_none hnone, tablesMap, ontoAll_eq_ask, ← List.map_reverse]
    exact h.getTables key (fun m hm => hr m (List.mem_reverse.1 hm))

end LsmEngine
