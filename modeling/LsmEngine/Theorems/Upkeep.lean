import LsmEngine.Lemmas.Upkeep
import LsmEngine.Lemmas.WalName
import LsmEngine.Script
import LsmEngine.Theorems.ManifestFile
import LsmEngine.Theorems.SsTableFile

/-!
# Nothing that is accepted stops maintenance

The limits on keys and values are checked when a write is logged, when a log is read, when a record is written, when an index is
written and when a table is opened. Whatever passes the first two passes the others: the tables of the MemTables and of every merge
are written and opened, and the MANIFEST that lists them is encoded. A flush pass therefore fails by an I/O error only.
-/

namespace LsmEngine

open Transition SsTableAux

variable {Γ : Ctx}

/-! ## Tables that can be written -/

/-- The loop over `add` accepts the records, whatever number of items is expected, `build` writes them, and the table is opened from
its sections and from its bytes and reads them back. The length of a file is a `u64`. -/
def Writable (Γ : Ctx) (rs : List Record) : Prop :=
  ∀ expected, ∃ b f, (SsTableBuilder.withExpectedItems Γ expected).addAll rs = .ok b ∧ b.build = .ok f ∧
    (∃ rd, SsTableReader.openFile Γ f = .ok rd ∧ rd.records = .ok rs) ∧
    ∃ bytes, SsTableFile.build b = .ok bytes ∧ (bytes.length < 2 ^ 64 → SsTableFile.Holds Γ bytes rs)

/-- Sorted records within the caps can be written to a table. -/
theorem writable_of_capped {rs : List Record} (hc : Capped rs) (hs : Sorted rs) : Writable Γ rs := by
  intro expected
  obtain ⟨b, f, hadd, hbuild, -, -, hreads⟩ := build_reads_back Γ expected hc hs
  obtain ⟨b', hadd', hinv⟩ := builderInv_addAll Γ expected hc hs
  obtain rfl : b' = b := Except.ok.inj (hadd'.symm.trans hadd)
  have hopens := hreads
  obtain ⟨rd, hopen, hrecords, -⟩ := hopens
  refine ⟨b', f, hadd, hbuild, ⟨rd, hopen, hrecords⟩, SsTableFile.bytes f, ?_, fun hlen => ?_⟩
  · rw [SsTableFile.build_bytes, hbuild]
    rfl
  · exact SsTableFile.holds_of_readsBack (SsTableFile.fileFits_of_build hinv hbuild hlen) hs hreads

/-! ## The MANIFEST -/

/-- The name of a table of level 0 or 1 is short. -/
theorem length_sstName_le {level seq : Nat} (hl : level ≤ 1) (hs : seq < 2 ^ 64) :
    (ManifestFile.asBytes (SstName.mk level seq).toString).length < 2 ^ 32 := by
  have hpad : (pad6 seq).toList.length ≤ 20 := by
    rw [toList_pad6]
    exact Decimal.length_padded_le (k := 20) (by decide) (hs.trans (by decide))
  have hlevel : (toString level).toList.length = 1 := by
    obtain rfl | rfl : level = 0 ∨ level = 1 := by omega
    · decide
    · decide
  have hname : (SstName.mk level seq).toString = "L" ++ toString level ++ "_" ++ pad6 seq ++ ".sst" := rfl
  have hle := ManifestFile.length_asBytes_le (SstName.mk level seq).toString
  rw [hname] at hle ⊢
  simp only [String.toList_append, List.length_append, hlevel] at hle
  have hrest : "L".toList.length = 1 ∧ "_".toList.length = 1 ∧ ".sst".toList.length = 4 := by decide
  omega

/-- The key range of a table is that of records within the caps. -/
theorem Built.bounds {m : SstMeta} {f : SstFile} {rs : List Record} (h : Built Γ m f rs) :
    m.min.length ≤ maxKeyLen ∧ m.max.length ≤ maxKeyLen := by
  obtain ⟨r, hr, hmin⟩ := Option.map_eq_some_iff.1 h.first
  obtain ⟨r', hr', hmax⟩ := Option.map_eq_some_iff.1 h.last
  rw [← hmin, ← hmax]
  exact ⟨(h.capped r (List.mem_of_mem_head? hr)).1, (h.capped r' (List.mem_of_getLast? hr')).1⟩

/-- A table of a running engine fits its record in the MANIFEST. -/
theorem TablesUp.storable {n : Node Γ} (h : TablesUp n) {l : List SstMeta} (hl : l ∈ n.eng.levels) {m : SstMeta} (hm : m ∈ l)
    (hseq : m.seq < 2 ^ 64) : m.Storable := by
  obtain ⟨i, hi, hget⟩ := List.mem_iff_getElem.1 hl
  have hlen := h.seq.levels.len
  obtain ⟨hlevel, hname⟩ := h.seq.levels.named i l (by rw [List.getElem?_eq_getElem hi, hget]) m hm
  obtain ⟨rs, f, -, hbuilt⟩ := h.tables.live m (mem_stack.2 ⟨l, hl, hm⟩)
  obtain ⟨hmin, hmax⟩ := hbuilt.bounds
  have hcap : maxKeyLen < 2 ^ 32 := by decide
  refine ⟨by omega, hseq, ?_, hmin.trans_lt hcap, hmax.trans_lt hcap⟩
  rw [SstMeta.toFile, hname]
  exact length_sstName_le (by omega) hseq

/-- The MANIFEST that is being written is encoded, and read back. The seq of a table is a `u64`. -/
theorem TablesUp.encodes {n : Node Γ} (h : TablesUp n) {after : AfterManifest} {m : Manifest} {st : Stage}
    (hf : n.eng.flush = .manifest after m st) (hseq : ∀ x ∈ stack n.eng.levels, x.seq < 2 ^ 64) :
    ∃ bytes, ManifestFile.encode m.toFile = some bytes ∧ ManifestFile.decode bytes = .ok m.toFile := by
  have hman := h.seq.manifest
  rw [hf] at hman
  rw [hman.1]
  exact written_manifest_decodes h.seq.levels.ordered
    (fun l hl x hx => h.storable hl hx (hseq x (mem_stack.2 ⟨l, hl, hx⟩)))

/-! ## Every run -/

/-- The runs that a compaction has read are of different seqs. -/
theorem TablesUp.runs_nodup {n : Node Γ} (h : TablesUp n) {inputs : List SstMeta} {runs : List Run}
    (hf : n.eng.flush = .reading inputs [] runs) : (runs.map Run.seq).Nodup := by
  have hperm : (inputsOf n.eng.levels).Perm (stack n.eng.levels) := by
    rw [inputsOf, List.take_of_length_le h.seq.levels.len]
    exact (stack_perm _).symm
  rw [h.tables.runs_read hf]
  exact ((hperm.map (runOf Γ n.disk)).map Run.seq).nodup_iff.2 (LsmEngine.runs_nodup h.seq.levels.asc n.disk)

/-- A running engine, in every state of every run, from a directory with any logs and whatever fails in it. A table of each MemTable
can be written; the runs that a compaction has read have distinct seqs and merge into a table that can be written; every table of the
levels opens; and the MANIFEST that is being written is encoded. A flush pass returns an error only when an operation of its step
fails, a compaction then or when it comes to a table whose first open has failed. The holders of the locks, when nothing fails, come
to a pass that flushes every immutable. -/
theorem nothing_blocks_maintenance {logs : SortedMap Nat WalFile} {s : Sys Γ}
    (h : Steps (step Γ) (fun _ _ => True) (Sys.ofLogs Γ logs) s) {e : Engine Γ} (hp : s.proc = .up e) :
    (∀ i, Writable Γ (e.mems i).records) ∧
    (∀ inputs runs, e.flush = .reading inputs [] runs →
      (runs.map Run.seq).Nodup ∧ ∃ rs, mergeRuns runs = some rs ∧ Writable Γ rs) ∧
    (∀ m ∈ stack e.levels, ∃ rd, openReader Γ s.disk m.name .ok = .ok rd) ∧
    (∀ after m st, e.flush = .manifest after m st → (∀ x ∈ stack e.levels, x.seq < 2 ^ 64) →
      ∃ bytes, ManifestFile.encode m.toFile = some bytes ∧ ManifestFile.decode bytes = .ok m.toFile) ∧
    (∀ a t o err, step Γ s a = some (t, o) → o.upkeepError = some err →
      (err = .io ∧ ∃ k, a = .walStep (.fail k) ∨ a = .flushStep (.fail k)) ∨
      (o = .compacted (.error err) ∧ ∃ m ∈ stack e.levels, e.readers m.name = some (.error LsmError.io.toString) ∧
        err = readerError m.name LsmError.io.toString)) ∧
    ∃ as t os e', (∀ a ∈ as, a.tends = true) ∧ play (step Γ) as s = some (t, os ++ [.passed (.ok ())]) ∧ t.proc = .up e' ∧
      e'.immutables = [] := by
  have hup := tablesUp_of_steps h hp
  refine ⟨fun i => writable_of_capped (capped_records (hup.mems.stored i)) (sorted_records _),
    fun inputs runs hf => ⟨hup.runs_nodup hf, ?_⟩, fun m hm => ?_,
    fun after m st hf hseq => hup.encodes hf hseq, fun a t o err hs ho => ?_, ?_⟩
  · obtain ⟨rs, hrs, hsorted, hcapped⟩ := hup.tables.merge_read hup.seq.levels.len hf
    exact ⟨rs, hrs, writable_of_capped hcapped hsorted⟩
  · obtain ⟨rs, htab⟩ := hup.tables.live m hm
    cases ho : openReader Γ s.disk m.name .ok with
    | ok rd => exact ⟨rd, rfl⟩
    | error err => exact absurd ho (htab.openReader_ok err)
  · cases step_cases hs with
    | node hp' hm =>
      obtain rfl := Proc.up.inj (hp.symm.trans hp')
      exact hm.upkeep_error hup ho
    | crash | openDir | openHandover => simp [Out.upkeepError] at ho
    | openStep hp' =>
      rw [hp] at hp'
      simp at hp'
  · obtain ⟨as, m, os, hacts, hplay, himm⟩ := hup.drains
    rw [toSys_of_up hp]
    exact ⟨as, m.toSys, os, m.eng, hacts, hplay, rfl, himm⟩

/-- A key is recovered from a log, frozen, and its table fails to be written. The next pass flushes it. -/
theorem nothing_blocks_maintenance_recovered : ∃ (s : Sys Ctx.concrete) (e : Engine Ctx.concrete), s.proc = .up e ∧
    e.immutables.length = 1 ∧ (∀ p ∈ e.immutables, Writable Ctx.concrete (e.mems p.mem).records) ∧
    ∃ as t os e', (∀ a ∈ as, a.tends = true) ∧ play (step Ctx.concrete) as s = some (t, os ++ [.passed (.ok ())]) ∧
      t.proc = .up e' ∧ e'.immutables = [] := by
  let logs : SortedMap Nat WalFile := SortedMap.empty.insert 4 ⟨WalEntry.frame Ctx.concrete ⟨.put, [1], [7]⟩, 0⟩
  obtain ⟨s, e, hrun, hproc, hp⟩ := exists_up_of_play (fun _ _ => True) (Sys.ofLogs Ctx.concrete logs)
    (Script.openDir ⟨0, false, 0⟩ 1 1 ++ Script.flushStart ++ [.flushEnter 0, .flushStep .ok, .flushStep (.fail 0)])
    (fun s e => decide (e.immutables.length = 1)) (by decide +kernel)
  simp only [decide_eq_true_eq] at hp
  obtain ⟨hwritable, -, -, -, -, hdrains⟩ := nothing_blocks_maintenance hrun hproc
  exact ⟨s, e, hproc, hp, fun p _ => hwritable p.mem, hdrains⟩

end LsmEngine
