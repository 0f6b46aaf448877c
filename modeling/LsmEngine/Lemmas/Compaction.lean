import LsmEngine.Lemmas.Lookup
import LsmEngine.Lemmas.Listed

/-!
# A compaction in which anything can fail

What an engine keeps through the steps of a `compact()` that runs alone, whichever of them fail. Until the commit the levels are
the old ones, from then on the merged table; the writes and the MemTables are not touched. A table whose first open fails keeps
the error in its handle, and a `get` that comes to it returns it.
-/

namespace LsmEngine

open Overlay Transition

variable {Γ : Ctx} {n n' : Node Γ}

/-! ## The steps of a compaction -/

/-- A `compact()` that finds level 0 empty. -/
theorem compactEnter_nothing (hf : n.eng.flush = .free) (hl : n.eng.levels[0]?.getD [] = []) :
    step Γ n.toSys .compactEnter = some (n.toSys, .compacted (.ok ())) := by
  have hall : n.eng.levels.head?.all List.isEmpty = true := by
    cases hlev : n.eng.levels with
    | nil => rfl
    | cons l ls => simpa [hlev] using hl
  have hsame : (n.compactEnd (.ok ())).1 = n := by
    obtain ⟨d, hh, e⟩ := n
    simp only [Node.compactEnd] at hf ⊢
    rw [← hf]
  refine step_toSys ?_
  simp only [Node.act, Node.compactEnter, hf, hall, if_true, Node.lift, Option.map_some]
  rw [hsame]
  rfl

/-- A `compact()` that takes its inputs. -/
theorem compactEnter_reads (hf : n.eng.flush = .free) (hl : n.eng.levels[0]?.getD [] ≠ []) :
    step Γ n.toSys .compactEnter =
      some (Node.toSys { n with eng.flush := .reading (inputsOf n.eng.levels) (inputsOf n.eng.levels) [] }, .silent) := by
  have hall : n.eng.levels.head?.all List.isEmpty = false := by
    cases hlev : n.eng.levels with
    | nil => simp [hlev] at hl
    | cons l ls => simpa [hlev] using hl
  refine step_toSys ?_
  simp only [Node.act, Node.compactEnter, hf, hall, Bool.false_eq_true, if_false, Node.lift, Option.map_some]
  rfl

/-- The tables of the engine are those of `n₀`, with their files. -/
structure Untouched (n₀ n : Node Γ) : Prop where
  levels : n.eng.levels = n₀.eng.levels
  files : ∀ m ∈ stack n₀.eng.levels, n.disk.ssts m.name = n₀.disk.ssts m.name

/-- What a compaction makes of tables that stand for the map `T`: no table when no key has a value, else one table, with no
tombstones, that holds exactly the keys that have one. -/
def MergedInto (Γ : Ctx) (d : Disk) (T : Key → Option Value) : Option SstMeta → Prop
  | none => ∀ k, T k = none
  | some sst => ∃ rs, TableOf Γ d sst rs ∧ (∀ x ∈ rs, x.2.2 = false) ∧ ∀ k v, (k, v, false) ∈ rs ↔ T k = some v

/-- The tables of `n₀` are merged, and nobody has read the output yet. -/
def Merged (n₀ n : Node Γ) : Prop :=
  ∃ output, n.eng.levels = Node.compactedLevels n₀.eng.levels output ∧
    MergedInto Γ n.disk (tablesMap Γ n₀.disk n₀.eng.levels) output ∧ ∀ sst, output = some sst → n.eng.readers sst.name = none

/-- Whether the output holds the merge is seen on its file alone. -/
theorem MergedInto.congr {d d' : Disk} {T : Key → Option Value} {output : Option SstMeta} (h : MergedInto Γ d T output)
    (hs : ∀ sst, output = some sst → d'.ssts sst.name = d.ssts sst.name) : MergedInto Γ d' T output := by
  cases output with
  | none => exact h
  | some sst =>
    obtain ⟨rs, ⟨f, hf, hb⟩, hrest⟩ := h
    exact ⟨rs, ⟨f, (hs sst rfl).trans hf, hb⟩, hrest⟩

/-- A table without tombstones holds the keys it has a value for. -/
theorem mem_iff_onto {rs : List Record} (hs : Sorted rs) (hlive : ∀ x ∈ rs, x.2.2 = false) (k : Key) (v : Value) :
    (k, v, false) ∈ rs ↔ onto (tableLayer rs) (fun _ => none) k = some v := by
  have hmem : (k, v, false) ∈ rs ↔ SortedMap.find k rs = some (v, false) :=
    ⟨fun hx => SortedMap.find_eq_some_of_mem hs hx, fun hx => SortedMap.mem_of_find_eq_some hx⟩
  rw [hmem]
  simp only [onto, tableLayer]
  cases hf : SortedMap.find k rs with
  | none => simp
  | some e =>
    obtain ⟨v', del⟩ := e
    obtain rfl : del = false := hlive _ (SortedMap.mem_of_find_eq_some hf)
    simp [visibleRecord]

/-- What a compaction is about to install. -/
theorem mergedInto_installing (hseq : SeqUp n) (htab : TablesOk n) {inputs : List SstMeta} {output : Option SstMeta}
    (hf : n.eng.flush = .installing inputs output) : MergedInto Γ n.disk (tablesMap Γ n.disk n.eng.levels) output := by
  have hT := tablesMap_compacted hseq htab hf
  have hstack : stack (n.commitCompaction inputs output).eng.levels = output.toList := stack_compacted hseq.levels.len output
  have hflush := htab.flush
  rw [hf] at hflush
  rw [← hT, tablesMap, hstack]
  cases output with
  | none => exact fun _ => rfl
  | some sst =>
    obtain ⟨rfl, rs, hm, hsst⟩ := hflush
    have hlive : ∀ x ∈ rs, x.2.2 = false := fun x hx =>
      (mem_mergeRuns (fun r hr => (htab.sorted_runs hseq.levels.len r hr).1) hm hx).1
    have hsorted : Sorted rs := by
      obtain ⟨f, -, hb⟩ := hsst
      exact hb.sorted
    refine ⟨rs, hsst, hlive, fun k v => ?_⟩
    rw [mem_iff_onto hsorted hlive, ← hsst.records]
    rfl

/-- How far a compaction of the tables of `n₀` has come. -/
def Progress (n₀ n : Node Γ) : FlushSection → Prop
  | .reading _ _ _ | .merging _ _ _ _ | .installing _ _ => Untouched n₀ n
  | .manifest (.removeInputs _) _ _ => Merged n₀ n
  | .unlinkInputs _ => Merged n₀ n ∧ SameLevels n.disk.manifestLevels n.eng.levels
  | _ => False

/-- What every step of a compaction that runs alone keeps. The handles that have kept an error are of tables that the compaction was
the first to open. -/
structure Compacting (n₀ n : Node Γ) : Prop where
  data : DataUp n
  log : n.hist.log = n₀.hist.log
  base : n.hist.base = n₀.hist.base
  wal : n.eng.wal = .free
  flushers : n.eng.flushers = []
  gets : n.eng.gets = []
  spoilt : ∀ m ∈ stack n.eng.levels, ∀ e, n.eng.readers m.name = some (.error e) →
    m ∈ stack n₀.eng.levels ∧ n₀.eng.readers m.name = none ∧ e = LsmError.io.toString
  unread : ∀ m ∈ stack n₀.eng.levels, n.eng.readers m.name = none → n₀.eng.readers m.name = none

/-- A compaction may fail at any of its steps. -/
theorem Progress.benign {n₀ : Node Γ} (h : Progress n₀ n n.eng.flush) (io : Io) : n.Benign (.flushStep io) := by
  right
  cases hf : n.eng.flush with
  | reading | merging | installing | unlinkInputs => rfl
  | manifest after m st =>
    rw [hf] at h
    cases after with
    | removeInputs => rfl
    | removeWals => exact h.elim
  | free | draining | building | committing | unlinkWals =>
    rw [hf] at h
    exact h.elim

/-- Levels that nobody touched stay untouched where their files stay. -/
theorem Untouched.keep {n₀ : Node Γ} (h : Untouched n₀ n) (hl : n'.eng.levels = n.eng.levels)
    (hs : ∀ m ∈ stack n.eng.levels, n'.disk.ssts m.name = n.disk.ssts m.name) : Untouched n₀ n' where
  levels := hl.trans h.levels
  files := fun m hm => (hs m (by rw [h.levels]; exact hm)).trans (h.files m hm)

/-- Levels that were merged stay merged where they, their files and the readers stay. -/
theorem Merged.keep {n₀ : Node Γ} (h : Merged n₀ n) (hlen : n₀.eng.levels.length ≤ 2) (hl : n'.eng.levels = n.eng.levels)
    (hr : n'.eng.readers = n.eng.readers) (hs : ∀ m ∈ stack n.eng.levels, n'.disk.ssts m.name = n.disk.ssts m.name) :
    Merged n₀ n' := by
  obtain ⟨output, hlev, hmerged, hnone⟩ := h
  refine ⟨output, hl.trans hlev, hmerged.congr (fun sst hsst => hs sst ?_), by rw [hr]; exact hnone⟩
  rw [hlev, stack_compacted hlen, hsst]
  simp

/-- The commit. -/
theorem Untouched.install {n₀ : Node Γ} (h : Untouched n₀ n) (hseq : SeqUp n) (htab : TablesOk n) {inputs : List SstMeta}
    {output : Option SstMeta} (hf : n.eng.flush = .installing inputs output) : Merged n₀ (n.commitCompaction inputs output) := by
  refine ⟨output, ?_, ?_, ?_⟩
  · rw [← h.levels]
    rfl
  · rw [← tablesMap_congr h.files, ← h.levels]
    exact mergedInto_installing hseq htab hf
  · rintro sst rfl
    simp [Node.commitCompaction]

/-- What a step of the compaction leaves. -/
inductive Stepped (n₀ : Node Γ) : Node Γ × Out → Prop where
  | on {n : Node Γ} (hp : Progress n₀ n n.eng.flush) : Stepped n₀ (n, .silent)
  | failed {n : Node Γ} {err : LsmError} (hf : n.eng.flush = .free) : Stepped n₀ (n, .compacted (.error err))
  | done {n : Node Γ} (hf : n.eng.flush = .free) (hm : Merged n₀ n) (hl : SameLevels n.disk.manifestLevels n.eng.levels) :
      Stepped n₀ (n, .compacted (.ok ()))

/-- A step of a compaction makes progress, ends it with the levels merged, or fails and leaves them untouched. -/
theorem Progress.step {n₀ : Node Γ} (hlen : n₀.eng.levels.length ≤ 2) (hseq : SeqUp n) (htab : TablesOk n)
    (hp : Progress n₀ n n.eng.flush) {io : Io} {r : Node Γ × Out} (hm : FlushMove n io r) : Stepped n₀ r := by
  have hnew := fun m hm => hseq.live_ne_new (m := m) hm
  cases hm with
  | nothing hf | drained hf | unbuilt hf | built hf | buildFails hf | buildStage hf | buildRename hf | commit hf
  | manifestFailsFlush hf | manifestFlush hf | flushDone hf | unlinkWal hf | unlinkWalFails hf =>
    rw [hf] at hp
    exact hp.elim
  | mergedUnbuilt | readFails | mergeFails | manifestFailsCompact => exact .failed rfl
  | mergedNone hf | merged hf | read hf =>
    rw [hf] at hp
    exact .on (hp.keep rfl (fun _ _ => rfl))
  | readOpen hf =>
    rw [hf] at hp
    refine .on ?_
    dsimp only
    rw [hf]
    exact hp.keep rfl (fun _ _ => rfl)
  | mergeStage hf hio hst =>
    rw [hf] at hp
    exact .on (hp.keep rfl (fun m _ => by rw [Disk.sstStage_ssts_of_ne _ _ _ (ne_rename_of_next hst)]))
  | mergeRename hf =>
    rw [hf] at hp hnew
    refine .on (hp.keep rfl (fun m hm => ?_))
    rw [Disk.sstStage_rename_ssts, Function.update_of_ne (hnew m hm _ rfl)]
  | install hf =>
    rw [hf] at hp
    exact .on (hp.install hseq htab hf)
  | @manifestStage after m st st' hf =>
    rw [hf] at hp
    cases after with
    | removeWals => exact hp.elim
    | removeInputs => exact .on (hp.keep hlen rfl rfl (fun _ _ => by simp))
  | manifestCompact hf =>
    rw [hf] at hp
    exact .on ⟨hp.keep hlen rfl rfl (fun _ _ => by simp), (Listed.renamed hseq hf _).current rfl rfl⟩
  | compactDone hf =>
    rw [hf] at hp
    exact .done rfl (hp.1.keep hlen rfl rfl (fun _ _ => rfl)) hp.2
  | @unlinkInput sst todo hf =>
    rw [hf] at hp
    have hgone := htab.flush
    rw [hf] at hgone
    refine .on ⟨hp.1.keep hlen rfl rfl (fun m hm => ?_), hp.2⟩
    have hne := (hgone sst List.mem_cons_self).1 m hm
    simp [Disk.removeSst, Function.update_of_ne hne]
  | unlinkInputFails hf =>
    rw [hf] at hp
    exact .on ⟨hp.1.keep hlen rfl rfl (fun _ _ => rfl), hp.2⟩

/-- A table whose first open fails keeps the error of the file system. -/
theorem openReader_error {d : Disk} {m : SstMeta} {rs : List Record} (h : TableOf Γ d m rs) {io : Io} {e : String}
    (he : openReader Γ d m.name io = .error e) : e = LsmError.io.toString := by
  cases io with
  | ok => exact absurd he (h.openReader_ok e)
  | fail k => simpa [openReader] using he.symm

/-- A step of a compaction keeps what is known of the node it began from. -/
theorem Compacting.step {n₀ : Node Γ} (h : Compacting n₀ n) (hp : Progress n₀ n n.eng.flush) {io : Io} {r : Node Γ × Out}
    (hm : FlushMove n io r) : Compacting n₀ r.1 := by
  have hdata := h.data.nodeMove (hp.benign io) (.flushStep hm) rfl
  have hs := hm.sameWrites
  have hsame := hm.same
  have hmk : (∀ m ∈ stack r.1.eng.levels, ∀ e, r.1.eng.readers m.name = some (.error e) →
      m ∈ stack n₀.eng.levels ∧ n₀.eng.readers m.name = none ∧ e = LsmError.io.toString) →
      (∀ m ∈ stack n₀.eng.levels, r.1.eng.readers m.name = none → n₀.eng.readers m.name = none) → Compacting n₀ r.1 :=
    fun h1 h2 => ⟨hdata, hs.log.trans h.log, hs.base.trans h.base, hs.wal.trans h.wal, hsame.2.trans h.flushers,
      hsame.1.trans h.gets, h1, h2⟩
  cases hm with
  | nothing hf | drained hf | unbuilt hf | built hf | buildFails hf | buildStage hf | buildRename hf | commit hf
  | manifestFailsFlush hf | manifestFlush hf | flushDone hf | unlinkWal hf | unlinkWalFails hf =>
    rw [hf] at hp
    exact hp.elim
  | @readOpen inputs todo sst runs hf hr =>
    rw [hf] at hp
    refine hmk (fun m hm e he => ?_) (fun m hm hnone => ?_)
    · dsimp only at hm he
      by_cases hname : m.name = sst.name
      · obtain ⟨rs, hrs⟩ := h.data.tables.live m hm
        rw [hname, Function.update_self, Option.some.injEq, ← hname] at he
        have hold : m ∈ stack n₀.eng.levels := by rwa [← hp.levels]
        exact ⟨hold, h.unread m hold (by rw [hname]; exact hr), openReader_error hrs he⟩
      · rw [Function.update_of_ne hname] at he
        exact h.spoilt m hm e he
    · dsimp only at hnone
      by_cases hname : m.name = sst.name
      · rw [hname, Function.update_self] at hnone
        simp at hnone
      · rw [Function.update_of_ne hname] at hnone
        exact h.unread m hm hnone
  | @install inputs output hf hl =>
    have hnew := fun m hm => h.data.seq.live_ne_new (m := m) hm
    rw [hf] at hp hnew
    have hstack : stack (n.commitCompaction inputs output).eng.levels = output.toList :=
      stack_compacted h.data.seq.levels.len output
    refine hmk (fun m hm e he => ?_) (fun m hm hnone => h.unread m hm ?_)
    · rw [hstack] at hm
      obtain rfl : output = some m := by simpa using hm
      simp [Node.commitCompaction] at he
    · cases output with
      | none => exact hnone
      | some sst =>
        have hne := hnew m (by rwa [hp.levels]) sst rfl
        simpa [Node.commitCompaction, Function.update_of_ne hne] using hnone
  | _ => exact hmk h.spoilt h.unread

/-- From any point on, with whatever results of its file-system operations, a compaction that runs alone comes to its end. -/
theorem Compacting.ends {n₀ : Node Γ} (hlen : n₀.eng.levels.length ≤ 2) (h : Compacting n₀ n) (hp : Progress n₀ n n.eng.flush)
    (io : Nat → Io) : ∃ fuel n' os r, play (LsmEngine.step Γ) ((List.range fuel).map (fun i => .flushStep (io i))) n.toSys =
      some (n'.toSys, os ++ [.compacted r]) ∧ (∀ o ∈ os, o = .silent) ∧ Compacting n₀ n' ∧ Stepped n₀ (n', .compacted r) := by
  have hgoes : ∀ m : Node Γ, Compacting n₀ m ∧ Progress n₀ m m.eng.flush →
      SeqUp m ∧ TablesOk m ∧ m.eng.wal.holdsStateLock = false ∧ m.eng.flush.busy = true := by
    rintro m ⟨hm, hpm⟩
    refine ⟨hm.data.seq, hm.data.tables, by rw [hm.wal]; rfl, ?_⟩
    cases hf : m.eng.flush with
    | free => rw [hf] at hpm; exact hpm.elim
    | _ => rfl
  have hstep : ∀ (m : Node Γ) (io : Io) (r : Node Γ × Out), Compacting n₀ m ∧ Progress n₀ m m.eng.flush → True →
      FlushMove m io r → (r.2 = .silent ∧ Compacting n₀ r.1 ∧ Progress n₀ r.1 r.1.eng.flush) ∨
        ∃ res, r.2 = .compacted res ∧ Compacting n₀ r.1 ∧ Stepped n₀ (r.1, .compacted res) := by
    rintro m io r ⟨hm, hpm⟩ - hmove
    have hnext := hm.step hpm hmove
    generalize hx : r = x at hmove
    have hstepped := hpm.step hlen hm.data.seq hm.data.tables hmove
    subst hx
    cases hstepped with
    | on hp' => exact .inl ⟨rfl, hnext, hp'⟩
    | failed hf => exact .inr ⟨_, rfl, hnext, .failed hf⟩
    | done hf hmg hl => exact .inr ⟨_, rfl, hnext, .done hf hmg hl⟩
  obtain ⟨fuel, n', os, o, hplay, hos, r, rfl, hend, hst⟩ := flush_returns (A := fun _ => True)
    (Q := fun m o => ∃ res, o = .compacted res ∧ Compacting n₀ m ∧ Stepped n₀ (m, .compacted res)) hgoes hstep io
    (fun _ => trivial) ⟨h, hp⟩
  exact ⟨fuel, n', os, r, hplay, hos, hend, hst⟩

end LsmEngine
