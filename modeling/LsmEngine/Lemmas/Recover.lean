import LsmEngine.Invariant
import LsmEngine.Lemmas.Sequence
import LsmEngine.Lemmas.WalFrames

/-!
# Reading a directory back

What `open_with_options` reads of a directory that is in order: every log decodes, the recovered MemTable is all their entries
replayed, and the map it stands for is the logs laid over the tables of the MANIFEST. A crash leaves such a directory in order.
-/

namespace LsmEngine

open Overlay SsTableAux

variable {Γ : Ctx} {d d' : Disk}

/-! ## Tables -/

/-- A table in order lists its records. -/
theorem TableOf.records {m : SstMeta} {rs : List Record} (h : TableOf Γ d m rs) : d.records Γ m.name = rs := by
  obtain ⟨f, hf, hb⟩ := h
  obtain ⟨rd, hrd, hrs, -⟩ := hb.reads
  simp [Disk.records, hf, hrd, hrs, Except.toOption]

/-- A table is in order where its file is the same. -/
theorem TableOf.congr {m : SstMeta} {rs : List Record} (h : TableOf Γ d m rs) (heq : d'.ssts m.name = d.ssts m.name) :
    TableOf Γ d' m rs := by
  obtain ⟨f, hf, hb⟩ := h
  exact ⟨f, by rw [heq, hf], hb⟩

/-- The same file has the same records. -/
theorem records_congr {name : SstName} (h : d'.ssts name = d.ssts name) : d'.records Γ name = d.records Γ name := by
  rw [Disk.records, Disk.records, h]

/-- Tables with the same files stand for the same map. -/
theorem tablesMap_congr {levels : List (List SstMeta)} (h : ∀ m ∈ stack levels, d'.ssts m.name = d.ssts m.name) :
    tablesMap Γ d' levels = tablesMap Γ d levels := by
  unfold tablesMap
  congr 1
  apply List.map_congr_left
  intro m hm
  rw [records_congr (h m hm)]

/-- The map of the tables depends on their stack only. -/
theorem tablesMap_of_stack {levels levels' : List (List SstMeta)} (h : stack levels' = stack levels) :
    tablesMap Γ d levels' = tablesMap Γ d levels := by
  unfold tablesMap
  rw [h]

/-- A table in order survives a crash. -/
theorem TableOf.crash {m : SstMeta} {rs : List Record} (h : TableOf Γ d m rs) (κ : CrashKind) :
    TableOf Γ (d.crash κ) m rs := by
  obtain ⟨f, hf, hb⟩ := h
  refine ⟨f, ?_, hb⟩
  simp only [Disk.crash, hf, Option.map_some]
  cases κ <;> rfl

theorem tablesMap_crash {levels : List (List SstMeta)} (h : ∀ m ∈ stack levels, ∃ rs, TableOf Γ d m rs) (κ : CrashKind) :
    tablesMap Γ (d.crash κ) levels = tablesMap Γ d levels := by
  unfold tablesMap
  congr 1
  apply List.map_congr_left
  intro m hm
  obtain ⟨rs, hrs⟩ := h m hm
  rw [hrs.records, (hrs.crash κ).records]

/-! ## Logs -/

/-- A log that decodes is scanned to its entries. -/
theorem Decodes.scan {bytes : Bytes} {es : List WalEntry} (h : Decodes Γ bytes es) : scan Γ bytes = .ok es := by
  obtain ⟨hv, tail, ht, rfl⟩ := h
  exact scan_encodeAll_append Γ hv ht

theorem Decodes.entries {g : Nat} {f : WalFile} (hg : d.wals.get g = some f) {es : List WalEntry}
    (h : Decodes Γ f.bytes es) : d.entries Γ g = es := by
  simp [Disk.entries, hg, h.scan, Except.toOption]

/-- Logs with the same bytes have the same entries. -/
theorem entries_congr {g : Nat} {f f' : WalFile} (h : d.wals.get g = some f) (h' : d'.wals.get g = some f')
    (hb : f'.bytes = f.bytes) : d'.entries Γ g = d.entries Γ g := by
  simp [Disk.entries, h, h', hb]

/-- What is left of the tail of a torn frame is one. -/
theorem Torn.take {tail : Bytes} (h : Torn Γ tail) (k : Nat) : Torn Γ (tail.take k) := by
  obtain ⟨e, he, hp, hne⟩ := h
  refine ⟨e, he, (List.take_prefix k tail).trans hp, fun heq => ?_⟩
  have h1 := hp.length_le
  have h2 : tail.length ≠ (e.frame Γ).length := fun hl => hne (hp.eq_of_length hl)
  have h3 := congrArg List.length heq
  rw [List.length_take] at h3
  omega

/-- Every cut of a log that decodes decodes, to the entries whose frames lie before the cut. -/
theorem Decodes.take {bytes : Bytes} {es : List WalEntry} (h : Decodes Γ bytes es) (k : Nat) :
    ∃ j ≤ es.length, Decodes Γ (bytes.take k) (es.take j) ∧
      ∀ i ≤ es.length, (encodeAll Γ (es.take i)).length ≤ k → i ≤ j := by
  obtain ⟨hv, tail, ht, rfl⟩ := h
  have hvj : ∀ j, ∀ w ∈ es.take j, w.Valid := fun j w hw => hv w (List.mem_of_mem_take hw)
  by_cases hk : k ≤ (encodeAll Γ es).length
  · obtain ⟨j, hj, tail', ht', heq, hmax⟩ := take_encodeAll Γ hv k
    refine ⟨j, hj, ⟨hvj j, tail', ht', ?_⟩, hmax⟩
    rw [List.take_append_of_le_length hk, heq]
  · refine ⟨es.length, Nat.le_refl _, ⟨by simpa using hv, tail.take (k - (encodeAll Γ es).length), ht.take _, ?_⟩,
      fun i hi _ => hi⟩
    rw [List.take_append, List.take_of_length_le (by omega), List.take_length]

/-- Every log replayed in order is all their entries replayed. -/
theorem replayAll_eq (bs : List (Nat × WalFile)) (es : Nat → List WalEntry)
    (h : ∀ b ∈ bs, Decodes Γ b.2.bytes (es b.1)) (m : MemTable) :
    replayAll Γ bs m = .ok (replayEntries ((bs.map Prod.fst).flatMap es) m) := by
  induction bs generalizing m with
  | nil => rfl
  | cons b bs ih =>
    obtain ⟨g, f⟩ := b
    have hscan := (h (g, f) List.mem_cons_self).scan
    simp only [replayAll, replayInto, hscan, bind, Except.bind, pure, Except.pure]
    rw [ih (fun c hc => h c (List.mem_cons_of_mem _ hc)), List.map_cons, List.flatMap_cons, replayEntries_append]

/-! ## The MANIFEST -/

/-- Levels in order have no table out of order. -/
theorem outOfOrder_eq_none {l : List SstMeta} (h : AscendingBySeq l) : outOfOrder l = none := by
  induction l with
  | nil => rfl
  | cons a l ih =>
    obtain ⟨h1, h2⟩ := List.pairwise_cons.1 h
    cases l with
    | nil => rfl
    | cons b rest =>
      have := h1 b List.mem_cons_self
      rw [outOfOrder, if_neg (by omega)]
      exact ih h2

theorem checkOrder_ok {levels : List (List SstMeta)} (h : ∀ l ∈ levels, AscendingBySeq l) (level : Nat) :
    checkOrder level levels = .ok () := by
  induction levels generalizing level with
  | nil => rfl
  | cons l rest ih =>
    rw [checkOrder, outOfOrder_eq_none (h l List.mem_cons_self)]
    exact ih (fun x hx => h x (List.mem_cons_of_mem _ hx)) _

/-- A MANIFEST that is settled and in order is loaded. -/
theorem loadManifest_ok (hs : Settled d.manifest) (hl : LevelsOk d.manifestLevels) :
    ∃ m, loadManifest d = .ok m ∧ m.levels = d.manifestLevels := by
  rcases hs with hn | ⟨m, hm⟩
  · exact ⟨{}, by simp [loadManifest, hn], by simp [Disk.manifestLevels, hn]⟩
  · have hlev : d.manifestLevels = m.levels := by simp [Disk.manifestLevels, hm]
    have hasc : ∀ l ∈ m.levels, AscendingBySeq l := by
      intro l hmem
      rw [hlev] at hl
      exact (List.pairwise_flatten.1 hl.asc).1 l (List.mem_reverse.2 hmem)
    refine ⟨m, ?_, hlev.symm⟩
    simp [loadManifest, hm, checkOrder_ok hasc, bind, Except.bind, pure, Except.pure]

/-- No table that is in order is missing. -/
theorem missingSst_none (h : ∀ m ∈ stack d.manifestLevels, ∃ rs, TableOf Γ d m rs) :
    missingSst d d.manifestLevels = none := by
  unfold missingSst
  rw [List.find?_eq_none]
  intro m hm
  obtain ⟨l, hl, hml⟩ := List.mem_flatten.1 hm
  obtain ⟨rs, f, hf, -⟩ := h m (mem_stack.2 ⟨l, hl, hml⟩)
  simp [hf]

/-! ## What `open_with_options` reads -/

/-- A replay stands for the writes it replays. -/
theorem map_replay_layer (es : List WalEntry) (T : Key → Option Value) :
    onto (replayEntries es MemTable.new).layer T = runWrites es T := by
  rw [layer_replayEntries_new, runWrites]

/-- A directory in order is read, and what is read stands for the map of the directory. -/
theorem DiskOk.recover (h : DiskOk Γ d) :
    ∃ r, recover Γ d = .ok r ∧ r.levels = d.manifestLevels ∧ r.walSeqs = d.wals.keys ∧
      r.mem = replayEntries (d.wals.keys.flatMap (d.entries Γ)) MemTable.new ∧ r.mem.Stored ∧
      r.map Γ d = d.recovered Γ := by
  obtain ⟨m, hm, hlev⟩ := loadManifest_ok h.settled h.listed
  have hlogs : ∀ b ∈ d.wals.toList, Decodes Γ b.2.bytes (d.entries Γ b.1) :=
    fun b hb => h.logs b.1 b.2 (d.wals.mem_toList_iff.1 hb)
  have hreplay := replayAll_eq d.wals.toList (d.entries Γ) hlogs MemTable.new
  have hstored : (replayEntries (d.wals.keys.flatMap (d.entries Γ)) MemTable.new).Stored := by
    refine stored_replayEntries ?_ MemTable.stored_new
    intro w hw
    obtain ⟨g, hg, hwg⟩ := List.mem_flatMap.1 hw
    obtain ⟨f, hf⟩ := d.wals.mem_keys_iff.1 hg
    exact ((h.logs g f hf).1 w hwg).capped
  refine ⟨⟨d.manifestLevels, d.wals.keys, replayEntries (d.wals.keys.flatMap (d.entries Γ)) MemTable.new⟩, ?_, rfl, rfl,
    rfl, hstored, ?_⟩
  · unfold LsmEngine.recover
    simp only [hm, bind, Except.bind, hlev, missingSst_none h.tables, hreplay, pure, Except.pure]
    rfl
  · rw [Recovered.map, map_replay_layer, Disk.recovered]

/-! ## The recovered MemTable -/

/-- What a capped write keeps, a replay of logs keeps. -/
theorem replayAll_keeps {P : MemTable → Prop} (hstep : ∀ {e : WalEntry} {m : MemTable}, e.Capped → P m → P (e.applyTo m))
    {logs : List (Nat × WalFile)} {m m' : MemTable} (h : P m) (hr : replayAll Γ logs m = .ok m') : P m' := by
  have hentries : ∀ (es : List WalEntry), (∀ e ∈ es, e.Capped) → ∀ m, P m → P (replayEntries es m) := by
    intro es
    induction es with
    | nil => exact fun _ _ hm => hm
    | cons e es ih =>
      intro hes m hm
      exact ih (fun x hx => hes x (List.mem_cons_of_mem _ hx)) _ (hstep (hes e List.mem_cons_self) hm)
  induction logs generalizing m with
  | nil => exact Except.ok.inj hr ▸ h
  | cons f logs ih =>
    rw [replayAll] at hr
    obtain ⟨m₁, hm₁, hr⟩ := Fallible.bind_eq_ok.1 hr
    obtain ⟨es, hes, hm₁⟩ := Fallible.bind_eq_ok.1 hm₁
    refine ih ?_ hr
    rw [← Except.ok.inj hm₁]
    exact hentries es (scan_capped hes) m h

/-- What holds of an empty table and is kept by every entry within the caps holds of the table that an open recovers, whatever the
logs hold. -/
theorem recover_mem_keeps {P : MemTable → Prop} (h0 : P MemTable.new)
    (hstep : ∀ {e : WalEntry} {m : MemTable}, e.Capped → P m → P (e.applyTo m)) {r : Recovered} (h : recover Γ d = .ok r) :
    P r.mem := by
  obtain ⟨manifest, -, h⟩ := Fallible.bind_eq_ok.1 h
  split at h
  · exact absurd h (by simp [throw, throwThe, MonadExceptOf.throw])
  · obtain ⟨mem, hmem, h⟩ := Fallible.bind_eq_ok.1 h
    rw [← Except.ok.inj h]
    exact replayAll_keeps hstep h0 hmem

/-! ## Crashes -/

/-- A crash leaves first bytes of a log. -/
theorem WalFile.crash_bytes (κ : CrashKind) (f : WalFile) : ∃ k, (f.crash κ).bytes = f.bytes.take k := by
  cases κ with
  | kill => exact ⟨f.bytes.length, (List.take_length).symm⟩
  | powerLoss => exact ⟨f.synced, rfl⟩

/-- A log is fsynced no further than it goes, after a crash too. -/
theorem WalFile.crash_synced (κ : CrashKind) {f : WalFile} (h : f.synced ≤ f.bytes.length) :
    (f.crash κ).synced ≤ (f.crash κ).bytes.length := by
  cases κ with
  | kill => exact h
  | powerLoss => exact Nat.le_refl _

/-- A crash leaves the listed levels as they are. -/
theorem manifestLevels_crash (hs : Settled d.manifest) (κ : CrashKind) : (d.crash κ).manifestLevels = d.manifestLevels :=
  manifestLevels_congr (hs.crash κ)

/-- A crash leaves a directory in order. -/
theorem DiskOk.crash (h : DiskOk Γ d) (κ : CrashKind) : DiskOk Γ (d.crash κ) where
  settled := by
    rw [show (d.crash κ).manifest = d.manifest from h.settled.crash κ]
    exact h.settled
  listed := by
    rw [manifestLevels_crash h.settled]
    exact h.listed
  tables := by
    rw [manifestLevels_crash h.settled]
    intro m hm
    obtain ⟨rs, hrs⟩ := h.tables m hm
    exact ⟨rs, hrs.crash κ⟩
  logs := by
    intro g f' hg
    rw [Disk.get_crash] at hg
    obtain ⟨f, hf, rfl⟩ := Option.map_eq_some_iff.1 hg
    obtain ⟨k, hk⟩ := WalFile.crash_bytes κ f
    obtain ⟨j, -, hdec, -⟩ := (h.logs g f hf).take k
    rw [← hk] at hdec
    rw [hdec.entries (d := d.crash κ) (by rw [Disk.get_crash, hf]; rfl)]
    exact hdec
  synced := by
    intro g f' hg
    rw [Disk.get_crash] at hg
    obtain ⟨f, hf, rfl⟩ := Option.map_eq_some_iff.1 hg
    exact WalFile.crash_synced κ (h.synced g f hf)

end LsmEngine
