import LsmEngine.Lemmas.Logs
import LsmEngine.Lemmas.Merge

/-!
# The table files

The steps keep `TablesOk`: a table is renamed into place only when it is written and fsynced, its name is new, and the file of a
table is removed only when neither the levels nor the MANIFEST name it. The loops over `SsTableBuilder::add` always succeed: a
MemTable of accepted writes and a merge of tables are within the caps and in strictly ascending order.
-/

namespace LsmEngine

open Overlay SsTableAux

variable {Γ : Ctx} {n n' : Node Γ}

/-! ## Records of a MemTable -/

/-- A MemTable's records are looked up as its entries. -/
theorem find_map_records (bs : List (Key × Entry)) (k : Key) :
    SortedMap.find k (bs.map (fun b => ((b.1, b.2.value, b.2.deleted) : Record))) =
      (SortedMap.find k bs).map (fun e => (e.value, e.deleted)) := by
  induction bs with
  | nil => rfl
  | cons b bs ih =>
    obtain ⟨bk, e⟩ := b
    rw [List.map_cons, SortedMap.find, SortedMap.find]
    by_cases h : bk = k
    · simp [h]
    · rw [if_neg h, if_neg h]
      exact ih

/-- A table of the records of a MemTable says what the MemTable says. -/
theorem tableLayer_records (m : MemTable) : tableLayer m.records = m.layer := by
  funext k
  simp only [tableLayer, MemTable.records, MemTable.iter, find_map_records, MemTable.layer, MemTable.getEntry, Option.map_map]
  congr 1

/-- The records of a MemTable are sorted. -/
theorem sorted_records (m : MemTable) : Sorted m.records := by
  unfold Sorted MemTable.records MemTable.iter
  rw [List.pairwise_map]
  exact m.map.sorted

theorem capped_records {m : MemTable} (h : m.Stored) : Capped m.records := by
  intro r hr
  obtain ⟨b, hb, rfl⟩ := List.mem_map.1 hr
  obtain ⟨h1, h2, -⟩ := h b.1 b.2 (m.map.mem_toList_iff.1 hb)
  exact ⟨h1, h2⟩

/-- A MemTable that is not empty has records. -/
theorem records_ne_nil {m : MemTable} (h : m.isEmpty = false) : m.records ≠ [] := by
  intro hc
  rw [MemTable.records, List.map_eq_nil_iff] at hc
  simp [MemTable.isEmpty, SortedMap.isEmpty, MemTable.iter] at h hc
  exact h hc

/-- What a MemTable holds is seen on its map. -/
theorem stored_of_map {m m' : MemTable} (h : m'.Stored) (heq : m.map = m'.map) : m.Stored := by
  intro k e hk
  rw [heq] at hk
  exact h k e hk

/-- Every frozen MemTable holds accepted writes, some at least, and takes no more. -/
def Engine.Flushable (e : Engine Γ) : Prop :=
  ∀ p ∈ e.immutables, p.mem < e.active ∧ (e.mems p.mem).isEmpty = false ∧ (e.mems p.mem).Stored

/-- Every MemTable can be flushed. -/
theorem LogsOk.flushable (h : LogsOk n) : n.eng.Flushable := by
  intro p hp
  obtain ⟨hlt, hne, hmap⟩ := h.frozen p hp
  refine ⟨hlt, hne, stored_of_map (stored_replayEntries (fun w hw => (h.valid p.walSeq ?_ w hw).capped)
    MemTable.stored_new) hmap⟩
  exact mem_logs_of_generation _ (List.mem_append_left _ (List.mem_map.2 ⟨p, hp, rfl⟩))

/-! ## Building a table -/

/-- Records in order make a table that reads them back. -/
theorem buildSst_ok (level seq expected : Nat) {rs : List Record} (hc : Capped rs) (hs : Sorted rs) (hne : rs ≠ []) :
    ∃ sst file, buildSst Γ level seq expected rs = .ok (sst, file) ∧ Built Γ sst file rs := by
  obtain ⟨b, f, hadd, hbuild, hmin, hmax, hreads⟩ := build_reads_back Γ expected hc hs
  refine ⟨⟨level, seq, ⟨level, seq⟩, b.minKey.getD [], b.maxKey.getD []⟩, f, ?_, ?_⟩
  · simp only [buildSst, hadd, hbuild, bind, Except.bind, pure, Except.pure]
  · obtain ⟨r, rest, rfl⟩ := List.exists_cons_of_ne_nil hne
    refine ⟨hreads, hs, hc, hne, ?_, ?_⟩
    · simp [hmin]
    · have hlast : ((r :: rest).getLast?.map Prod.fst) = some (((r :: rest).getLast?.map Prod.fst).getD []) := by
        rw [List.getLast?_eq_getLast_of_ne_nil hne]
        rfl
      rw [hmax]
      exact hlast

/-- `flush_pending` never fails to build. -/
theorem Engine.Flushable.build_ok (h : n.eng.Flushable) {p : PendingImm} (hp : p ∈ n.eng.immutables) (seq expected : Nat) :
    ∃ sst file, buildSst Γ 0 seq expected (n.eng.mems p.mem).records = .ok (sst, file) ∧
      Built Γ sst file (n.eng.mems p.mem).records :=
  buildSst_ok 0 seq expected (capped_records (h p hp).2.2) (sorted_records _) (records_ne_nil (h p hp).2.1)

/-- The table of a frozen MemTable can be built. -/
theorem Engine.Flushable.build_ne_error (h : n.eng.Flushable) {p : PendingImm} (hp : p ∈ n.eng.immutables) (seq expected : Nat)
    (err : LsmError) : buildSst Γ 0 seq expected (n.eng.mems p.mem).records ≠ .error err := by
  obtain ⟨sst, file, hok, -⟩ := h.build_ok (Γ := Γ) hp seq expected
  rw [hok]
  simp

/-! ## Merging the tables -/

/-- The inputs of a compaction are the tables of all levels. -/
theorem mem_inputsOf {levels : List (List SstMeta)} (h : levels.length ≤ 2) {m : SstMeta} :
    m ∈ inputsOf levels ↔ m ∈ stack levels := by
  rw [inputsOf, List.take_of_length_le h, mem_stack, List.mem_flatten]

theorem TablesOk.sorted_runs (h : TablesOk n) (hlen : n.eng.levels.length ≤ 2) :
    ∀ r ∈ (inputsOf n.eng.levels).map (runOf Γ n.disk), Sorted r.records ∧ Capped r.records := by
  intro r hr
  obtain ⟨m, hm, rfl⟩ := List.mem_map.1 hr
  obtain ⟨rs, hrs⟩ := h.live m ((mem_inputsOf hlen).1 hm)
  have hrec : (runOf Γ n.disk m).records = rs := hrs.records
  obtain ⟨f, -, hb⟩ := hrs
  rw [hrec]
  exact ⟨hb.sorted, hb.capped⟩

/-- The merge of the live tables ends, in order and within the caps. -/
theorem TablesOk.merge (h : TablesOk n) (hlen : n.eng.levels.length ≤ 2) :
    ∃ rs, mergeRuns ((inputsOf n.eng.levels).map (runOf Γ n.disk)) = some rs ∧ Sorted rs ∧ Capped rs := by
  have hruns := h.sorted_runs hlen
  obtain ⟨rs, hrs, hs, -⟩ := mergeRuns_spec (fun r hr => (hruns r hr).1)
  refine ⟨rs, hrs, hs, fun x hx => ?_⟩
  obtain ⟨-, r, hr, hxr⟩ := mem_mergeRuns (fun r hr => (hruns r hr).1) hrs hx
  exact (hruns r hr).2 x hxr

/-! ## Frames -/

/-- Runs are the same where the files are. -/
theorem runOf_congr {d d' : Disk} {l : List SstMeta} (h : ∀ m ∈ l, d'.ssts m.name = d.ssts m.name) :
    l.map (runOf Γ d') = l.map (runOf Γ d) := by
  apply List.map_congr_left
  intro m hm
  rw [runOf, runOf, records_congr (h m hm)]

/-- The tables a stage of `flush_lock` speaks of, other than the one it makes. -/
theorem FlushTables.congr {d d' : Disk} {mems mems' : Nat → MemTable} {levels : List (List SstMeta)} {fl : FlushSection}
    (h : fl.TablesOk Γ d mems levels) (hs : d'.ssts = d.ssts) (ht : d'.sstTmps = d.sstTmps) (hm : d'.manifest = d.manifest)
    (hmem : ∀ p, fl.pending = some p → mems' p.mem = mems p.mem) : fl.TablesOk Γ d' mems' levels := by
  have hrun : ∀ l : List SstMeta, l.map (runOf Γ d') = l.map (runOf Γ d) := fun l => runOf_congr (fun m _ => by rw [hs])
  have htab : ∀ m rs, TableOf Γ d m rs → TableOf Γ d' m rs := fun m rs hm => hm.congr (by rw [hs])
  cases fl with
  | building c fl p sst file st =>
    obtain ⟨h1, h2⟩ := h
    exact ⟨by rw [hmem p rfl]; exact h1, by rw [ht]; exact h2⟩
  | committing c fl p sst =>
    change TableOf Γ d' sst (mems' p.mem).records
    rw [hmem p rfl]
    exact htab _ _ h
  | reading inputs todo runs =>
    obtain ⟨h1, read, h2, h3⟩ := h
    exact ⟨h1, read, h2, by rw [hrun]; exact h3⟩
  | merging inputs sst file st =>
    obtain ⟨h1, rs, h2, h3, h4⟩ := h
    exact ⟨h1, rs, by rw [hrun]; exact h2, h3, by rw [ht]; exact h4⟩
  | installing inputs output =>
    cases output with
    | none =>
      obtain ⟨h1, h2⟩ := h
      exact ⟨h1, by rw [hrun]; exact h2⟩
    | some sst =>
      obtain ⟨h1, rs, h2, h3⟩ := h
      exact ⟨h1, rs, by rw [hrun]; exact h2, htab _ _ h3⟩
  | manifest after m st =>
    cases after with
    | removeWals c ws => trivial
    | removeInputs inputs => exact h
  | unlinkInputs todo =>
    intro i hi
    rw [manifestLevels_congr hm]
    exact h i hi
  | _ => trivial

/-- The tables stay as they are where no table file and no level changes. -/
theorem TablesOk.same (h : TablesOk n) (hl : n'.eng.levels = n.eng.levels) (hf : n'.eng.flush = n.eng.flush)
    (hr : n'.eng.readers = n.eng.readers) (hs : n'.disk.ssts = n.disk.ssts) (ht : n'.disk.sstTmps = n.disk.sstTmps)
    (hm : n'.disk.manifest = n.disk.manifest)
    (hmem : ∀ p, n.eng.flush.pending = some p → n'.eng.mems p.mem = n.eng.mems p.mem) : TablesOk n' where
  live := by
    rw [hl]
    intro m hmm
    obtain ⟨rs, hrs⟩ := h.live m hmm
    exact ⟨rs, hrs.congr (by rw [hs])⟩
  listed := by
    rw [manifestLevels_congr hm]
    intro m hmm
    obtain ⟨rs, hrs⟩ := h.listed m hmm
    exact ⟨rs, hrs.congr (by rw [hs])⟩
  readers := by
    rw [hl, hr, hs]
    exact h.readers
  flush := by
    rw [hl, hf]
    exact FlushTables.congr h.flush hs ht hm hmem

theorem sstTmps_appendWal (d : Disk) (seq : Nat) (bs : Bytes) : (d.appendWal seq bs).sstTmps = d.sstTmps := by
  unfold Disk.appendWal
  split <;> rfl

theorem sstTmps_syncWal (d : Disk) (seq : Nat) : (d.syncWal seq).sstTmps = d.sstTmps := by
  unfold Disk.syncWal
  split <;> rfl

/-- An append keeps the tables in order. -/
theorem TablesOk.writeMove (h : TablesOk n) {w : WalEntry} {io : Io} {o : Out} (hm : WriteMove n w io n' o) : TablesOk n' := by
  cases hm with
  | refused => exact h
  | logged => exact h.same rfl rfl rfl rfl rfl rfl (fun _ _ => rfl)
  | torn =>
    refine h.same rfl rfl rfl ?_ ?_ ?_ (fun _ _ => rfl) <;> simp only [Node.tearWrite, Disk.tear] <;> split <;>
      simp [sstTmps_appendWal]

/-- A pending immutable is not the active MemTable. -/
theorem pending_ne_active (hseq : SeqUp n) (hmems : n.eng.Flushable) {p : PendingImm} (hp : n.eng.flush.pending = some p) :
    p ∈ n.eng.immutables ∧ p.mem < n.eng.active := by
  have hmem : p ∈ n.eng.immutables := List.mem_of_mem_head? (hseq.pending p hp)
  exact ⟨hmem, (hmems p hmem).1⟩

theorem TablesOk.walMove (h : TablesOk n) (hseq : SeqUp n) (hmems : n.eng.Flushable) {io : Io} {r : Node Γ × Out}
    (hm : WalMove n io r) : TablesOk r.1 := by
  have happly : ∀ w, TablesOk (n.applyWrite w) := by
    intro w
    refine h.same rfl rfl rfl rfl rfl rfl (fun p hp => ?_)
    exact Function.update_of_ne (pending_ne_active hseq hmems hp).2.ne _ _
  have hsync : ∀ next, TablesOk (n.syncActive next) := by
    intro next
    refine h.same rfl rfl rfl ?_ ?_ ?_ (fun _ _ => rfl) <;>
      simp [Node.syncActive, sstTmps_appendWal, sstTmps_syncWal]
  have hfinish : ∀ c, TablesOk (n.finish c).1 := by
    intro c
    cases c <;> exact h.same rfl rfl rfl rfl rfl rfl (fun _ _ => rfl)
  have habort : ∀ err c, TablesOk (n.abort err c).1 := by
    intro err c
    cases c <;> exact h.same rfl rfl rfl rfl rfl rfl (fun _ _ => rfl)
  cases hm with
  | sync => exact hsync _
  | syncFails | flushSyncFails | createFails => exact habort _ _
  | apply | applySynced => exact happly _
  | exceeds | takeSeq | create => exact h.same rfl rfl rfl rfl rfl rfl (fun _ _ => rfl)
  | done | nothing => exact hfinish _
  | flushSync => exact hsync _
  | swap =>
    refine h.same rfl rfl rfl rfl rfl rfl (fun p hp => ?_)
    exact Function.update_of_ne (by have := (pending_ne_active hseq hmems hp).2; omega) _ _
  | @replace c newSeq hw =>
    cases c <;> refine h.same rfl rfl rfl ?_ ?_ ?_ (fun _ _ => rfl) <;>
      simp only [Node.finish, Node.replaceWriter] <;> split <;> simp [sstTmps_appendWal]

/-! ## The steps of `flush_lock` -/

/-- The holder of `flush_lock` goes on where no file changes. -/
theorem TablesOk.setFlush (h : TablesOk n) {f : FlushSection} (hf : f.TablesOk Γ n.disk n.eng.mems n.eng.levels) :
    TablesOk { n with eng.flush := f } := { h with flush := hf }

theorem TablesOk.flushEnd (h : TablesOk n) (r : Except LsmError Unit) (c : FlushCaller) : TablesOk (n.flushEnd r c).1 := by
  have hfree := h.setFlush (f := .free) trivial
  cases c with
  | worker => exact hfree
  | flush since => exact { hfree with }

theorem TablesOk.compactEnd (h : TablesOk n) (r : Except LsmError Unit) : TablesOk (n.compactEnd r).1 :=
  h.setFlush (f := .free) trivial

/-- Table files change, but not those the levels or the MANIFEST name. -/
theorem TablesOk.setDisk (h : TablesOk n) {d : Disk} {f : FlushSection} (hm : d.manifest = n.disk.manifest)
    (hl : ∀ m ∈ stack n.eng.levels, d.ssts m.name = n.disk.ssts m.name)
    (hk : ∀ m ∈ stack n.disk.manifestLevels, d.ssts m.name = n.disk.ssts m.name)
    (hf : f.TablesOk Γ d n.eng.mems n.eng.levels) : TablesOk { n with disk := d, eng.flush := f } where
  live := by
    intro m hmm
    obtain ⟨rs, hrs⟩ := h.live m hmm
    exact ⟨rs, hrs.congr (hl m hmm)⟩
  listed := by
    rw [manifestLevels_congr hm]
    intro m hmm
    obtain ⟨rs, hrs⟩ := h.listed m hmm
    exact ⟨rs, hrs.congr (hk m hmm)⟩
  readers := by
    intro m hmm rd hrd
    rw [hl m hmm]
    exact h.readers m hmm rd hrd
  flush := hf

/-- A table that is being written has a name that no live table has. -/
theorem Fresh.name_ne_live {next level : Nat} {live listed : List (List SstMeta)} {sst : SstMeta}
    (h : Fresh next live listed level sst) (hok : LevelsOk live) : ∀ m ∈ stack live, m.name ≠ sst.name := by
  intro m hm
  refine hok.name_ne hm ?_
  rw [h.name]
  exact h.live m hm

/-- No listed table has it, either. -/
theorem Fresh.name_ne_listed {next level : Nat} {live listed : List (List SstMeta)} {sst : SstMeta}
    (h : Fresh next live listed level sst) (hok : LevelsOk listed) : ∀ m ∈ stack listed, m.name ≠ sst.name := by
  intro m hm
  refine hok.name_ne hm ?_
  rw [h.name]
  exact h.listed m hm

/-- One stage of writing a table that does not rename it. -/
theorem TablesOk.stage (h : TablesOk n) {fl : FlushSection} {name : SstName} {file : SstFile} {st : Stage}
    (hst : st ≠ .rename) (hf : fl.TablesOk Γ (n.disk.sstStage name file st) n.eng.mems n.eng.levels) :
    TablesOk { n with disk := n.disk.sstStage name file st, eng.flush := fl } :=
  h.setDisk (by simp) (fun m _ => by rw [Disk.sstStage_ssts_of_ne _ _ _ hst])
    (fun m _ => by rw [Disk.sstStage_ssts_of_ne _ _ _ hst]) hf

/-- A table is renamed into place under a name that is new. -/
theorem TablesOk.rename (h : TablesOk n) (hseq : SeqUp n) {fl : FlushSection} {sst : SstMeta} {file : SstFile} {level : Nat}
    (hfresh : Fresh n.eng.nextSeq n.eng.levels n.disk.manifestLevels level sst)
    (hf : fl.TablesOk Γ (n.disk.sstStage sst.name file .rename) n.eng.mems n.eng.levels) :
    TablesOk { n with disk := n.disk.sstStage sst.name file .rename, eng.flush := fl } := by
  refine h.setDisk (by simp) (fun m hm => ?_) (fun m hm => ?_) hf
  · rw [Disk.sstStage_rename_ssts, Function.update_of_ne (hfresh.name_ne_live hseq.levels m hm)]
  · rw [Disk.sstStage_rename_ssts, Function.update_of_ne (hfresh.name_ne_listed hseq.listed m hm)]

/-- A table that has been built and renamed is in order. -/
theorem tableOf_renamed {d : Disk} {sst : SstMeta} {file : SstFile} {rs : List Record} (hb : Built Γ sst file rs)
    (ht : d.sstTmps sst.name = some ⟨some file, some file⟩) : TableOf Γ (d.sstStage sst.name file .rename) sst rs :=
  ⟨file, by rw [Disk.sstStage_rename_ssts, Function.update_self, ht], hb⟩

/-- A flush commits. -/
theorem TablesOk.commitFlush (h : TablesOk n) (hseq : SeqUp n) {c : FlushCaller} {fl : List Nat} {p : PendingImm}
    {sst : SstMeta} (hf : n.eng.flush = .committing c fl p sst) : TablesOk (n.commitFlush c fl p sst) := by
  have hfresh : Fresh n.eng.nextSeq n.eng.levels n.disk.manifestLevels 0 sst := by
    have := hseq.newSst sst (by rw [hf]; rfl)
    rwa [hf] at this
  have htab : TableOf Γ n.disk sst (n.eng.mems p.mem).records := by
    have := h.flush
    rwa [hf] at this
  have hstack : stack (n.commitFlush c fl p sst).eng.levels = stack n.eng.levels ++ [sst] :=
    stack_flushedLevels hfresh.live
  exact {
    live := by
      rw [hstack]
      intro m hm
      rcases List.mem_append.1 hm with hm | hm
      · exact h.live m hm
      · rw [List.mem_singleton.1 hm]
        exact ⟨_, htab⟩
    listed := h.listed
    readers := by
      rw [hstack]
      intro m hm rd hrd
      rcases List.mem_append.1 hm with hm | hm
      · simp only [Node.commitFlush, Function.update_of_ne (hfresh.name_ne_live hseq.levels m hm)] at hrd
        exact h.readers m hm rd hrd
      · rw [List.mem_singleton.1 hm] at hrd
        simp [Node.commitFlush] at hrd
    flush := trivial }

/-- A compaction commits. -/
theorem TablesOk.commitCompaction (h : TablesOk n) (hseq : SeqUp n) {inputs : List SstMeta} {output : Option SstMeta}
    (hf : n.eng.flush = .installing inputs output) : TablesOk (n.commitCompaction inputs output) := by
  have hfresh : ∀ sst, output = some sst → Fresh n.eng.nextSeq n.eng.levels n.disk.manifestLevels 1 sst := by
    intro sst ho
    have := hseq.newSst sst (by rw [hf]; exact ho)
    rwa [hf] at this
  have hstack : stack (n.commitCompaction inputs output).eng.levels = output.toList := stack_compacted hseq.levels.len output
  have hflush := h.flush
  rw [hf] at hflush
  have hin : inputs = inputsOf n.eng.levels := by
    cases output with
    | none => exact hflush.1
    | some sst => exact hflush.1
  exact {
    live := by
      rw [hstack]
      intro m hm
      obtain rfl : output = some m := by simpa using hm
      obtain ⟨-, rs, -, htab⟩ := hflush
      exact ⟨rs, htab⟩
    listed := h.listed
    readers := by
      rw [hstack]
      intro m hm rd hrd
      obtain rfl : output = some m := by simpa using hm
      simp [Node.commitCompaction] at hrd
    flush := by
      intro i hi m hm
      rw [hstack] at hm
      obtain rfl : output = some m := by simpa using hm
      rw [hin, mem_inputsOf hseq.levels.len] at hi
      exact ((hfresh m rfl).name_ne_live hseq.levels i hi).symm }

/-- A reader is opened, by a compaction or by a `get`. -/
theorem TablesOk.openReader (h : TablesOk n) (name : SstName) (io : Io) :
    TablesOk { n with eng.readers := Function.update n.eng.readers name (some (openReader Γ n.disk name io)) } :=
  { h with
    readers := by
      intro m hm rd hrd
      by_cases heq : m.name = name
      · subst heq
        simp only [Function.update_self, Option.some.injEq] at hrd
        unfold LsmEngine.openReader at hrd
        split at hrd
        · rename_i f hf
          refine ⟨f, hf, ?_⟩
          cases ho : SsTableReader.openFile Γ f with
          | ok rd' =>
            simp only [ho, Except.mapError, Except.ok.injEq] at hrd
            rw [hrd]
          | error e => simp [ho, Except.mapError] at hrd
        · simp at hrd
      · simp only [Function.update_of_ne heq] at hrd
        exact h.readers m hm rd hrd }

/-- A reader of a live table reads its records. -/
theorem TablesOk.reads (h : TablesOk n) {m : SstMeta} (hm : m ∈ stack n.eng.levels) {rd : SsTableReader Γ}
    (hrd : n.eng.readers m.name = some (.ok rd)) : rd.records = .ok (n.disk.records Γ m.name) ∧
      ∀ k, rd.get k = .ok ((SortedMap.find k (n.disk.records Γ m.name)).map lookupValue) := by
  obtain ⟨f, hf, hopen⟩ := h.readers m hm rd hrd
  obtain ⟨rs, htab⟩ := h.live m hm
  have hrs := htab.records
  obtain ⟨f', hf', hb⟩ := htab
  obtain ⟨rd', hopen', hrec, hget⟩ := hb.reads
  obtain rfl : f' = f := by simpa [hf'] using hf
  obtain rfl : rd' = rd := by simpa [hopen] using hopen'.symm
  rw [hrs]
  exact ⟨hrec, hget⟩

/-- The MANIFEST is renamed into place: it lists the live tables. -/
theorem TablesOk.manifestRename (h : TablesOk n) (hseq : SeqUp n) {after : AfterManifest} {m : Manifest}
    (hf : n.eng.flush = .manifest after m .rename) {f : FlushSection}
    (hfl : f.TablesOk Γ (n.disk.manifestStage m .rename) n.eng.mems n.eng.levels) :
    TablesOk { n with disk := n.disk.manifestStage m .rename, eng.flush := f } := by
  obtain ⟨hmeq, htmp⟩ : m = Manifest.ofLevels n.eng.levels ∧ n.disk.manifestTmp = some ⟨some m, some m⟩ := by
    have := hseq.manifest
    rwa [hf] at this
  have hlev : (n.disk.manifestStage m .rename).manifestLevels = m.levels := by
    rw [Disk.manifestLevels, Disk.manifestStage_rename_manifest, htmp]
    rfl
  have hstack : stack m.levels = stack n.eng.levels := by rw [hmeq, stack_ofLevels hseq.levels.ordered]
  exact {
    live := fun x hx => by
      obtain ⟨rs, hrs⟩ := h.live x hx
      exact ⟨rs, hrs.congr (by simp)⟩
    listed := by
      rw [hlev, hstack]
      intro x hx
      obtain ⟨rs, hrs⟩ := h.live x hx
      exact ⟨rs, hrs.congr (by simp)⟩
    readers := by
      rw [Disk.manifestStage_ssts]
      exact h.readers
    flush := hfl }

theorem manifestStage_sstTmps (d : Disk) (m : Manifest) (st : Stage) : (d.manifestStage m st).sstTmps = d.sstTmps := by
  unfold Disk.manifestStage
  split <;> rfl

/-- Every step of the holder of `flush_lock` keeps the tables in order. -/
theorem TablesOk.flushMove (h : TablesOk n) (hseq : SeqUp n) (hmems : n.eng.Flushable) {io : Io} {r : Node Γ × Out}
    (hm : FlushMove n io r) : TablesOk r.1 := by
  have hflush := h.flush
  cases hm with
  | nothing | buildFails | flushDone => exact h.flushEnd _ _
  | drained => exact h.setFlush trivial
  | unbuilt =>
    have hb : TablesOk { n with eng.nextSeq := n.eng.nextSeq + 1 } := { h with }
    exact hb.flushEnd _ _
  | @built c fl p rest sst file hf hi hb =>
    have hp : p ∈ n.eng.immutables := by rw [hi]; exact List.mem_cons_self
    obtain ⟨sst', file', hok, hbuilt⟩ := hmems.build_ok (Γ := Γ) hp n.eng.nextSeq (n.eng.mems p.mem).len
    rw [hok] at hb
    simp only [Except.ok.injEq, Prod.mk.injEq] at hb
    obtain ⟨rfl, rfl⟩ := hb
    have hn : TablesOk { n with eng.nextSeq := n.eng.nextSeq + 1 } := { h with }
    exact hn.setFlush (f := .building c fl p sst' file' .create) ⟨hbuilt, trivial⟩
  | @buildStage c fl p sst file st st' hf hio hst =>
    rw [hf] at hflush
    obtain ⟨h1, h2⟩ := hflush
    have hne : st ≠ .rename := by
      rintro rfl
      simp [Stage.next] at hst
    refine h.stage hne ⟨h1, ?_⟩
    rw [Disk.sstStage_sstTmps]
    exact h2.next hst
  | @buildRename c fl p sst file hf hio =>
    rw [hf] at hflush
    obtain ⟨h1, h2⟩ := hflush
    have hfresh := hseq.newSst sst (by rw [hf]; rfl)
    exact h.rename hseq hfresh (tableOf_renamed h1 h2)
  | commit hf => exact h.commitFlush hseq hf
  | @mergedNone inputs runs hf hm =>
    rw [hf] at hflush
    obtain ⟨h1, read, h2, h3⟩ := hflush
    rw [List.append_nil] at h2
    exact h.setFlush ⟨h1, by rw [h2, ← h3]; exact hm⟩
  | mergedUnbuilt =>
    have hb : TablesOk { n with eng.nextSeq := n.eng.nextSeq + 1 } := { h with }
    exact hb.compactEnd _
  | @merged inputs runs rs sst file hf hm hne hb =>
    rw [hf] at hflush
    obtain ⟨h1, read, h2, h3⟩ := hflush
    rw [List.append_nil] at h2
    obtain ⟨rs', hrs', hs, hc⟩ := h.merge hseq.levels.len
    rw [← h1, h2, ← h3, hm, Option.some.injEq] at hrs'
    subst hrs'
    obtain ⟨sst', file', hok, hbuilt⟩ := buildSst_ok (Γ := Γ) 1 n.eng.nextSeq rs.length hc hs hne
    rw [hok] at hb
    simp only [Except.ok.injEq, Prod.mk.injEq] at hb
    obtain ⟨rfl, rfl⟩ := hb
    have hn : TablesOk { n with eng.nextSeq := n.eng.nextSeq + 1 } := { h with }
    exact hn.setFlush (f := .merging inputs sst' file' .create) ⟨h1, rs, by rw [h2, ← h3]; exact hm, hbuilt, trivial⟩
  | readOpen => exact h.openReader _ _
  | readFails | compactDone => exact h.compactEnd _
  | @read inputs todo sst runs rd records hf hr hio hrs =>
    rw [hf] at hflush
    obtain ⟨h1, done, h2, h3⟩ := hflush
    have hlive : sst ∈ stack n.eng.levels := by
      rw [← mem_inputsOf hseq.levels.len, ← h1, h2]
      simp
    refine h.setFlush ⟨h1, done ++ [sst], by rw [h2]; simp, ?_⟩
    have hrec := (h.reads hlive hr).1
    rw [hrs, Except.ok.injEq] at hrec
    rw [List.map_append, ← h3, hrec]
    rfl
  | @mergeFails inputs sst file st k hf hio =>
    have hb : TablesOk { n with disk := n.disk.removeSstTmp sst.name, eng.flush := .free } :=
      h.setDisk rfl (fun _ _ => rfl) (fun _ _ => rfl) trivial
    exact hb.compactEnd _
  | @mergeStage inputs sst file st st' hf hio hst =>
    rw [hf] at hflush
    obtain ⟨h1, rs, h2, h3, h4⟩ := hflush
    have hne : st ≠ .rename := by
      rintro rfl
      simp [Stage.next] at hst
    refine h.stage hne ⟨h1, rs, ?_, h3, ?_⟩
    · rw [runOf_congr (d := n.disk) (fun m _ => by rw [Disk.sstStage_ssts_of_ne _ _ _ hne])]
      exact h2
    · rw [Disk.sstStage_sstTmps]
      exact h4.next hst
  | @mergeRename inputs sst file hf hio =>
    rw [hf] at hflush
    obtain ⟨h1, rs, h2, h3, h4⟩ := hflush
    have hfresh := hseq.newSst sst (by rw [hf]; rfl)
    refine h.rename hseq hfresh ⟨h1, rs, ?_, tableOf_renamed h3 h4⟩
    rw [runOf_congr (d := n.disk) (fun m hm => ?_)]
    · exact h2
    · rw [h1, mem_inputsOf hseq.levels.len] at hm
      rw [Disk.sstStage_rename_ssts, Function.update_of_ne (hfresh.name_ne_live hseq.levels m hm)]
  | install hf hl => exact h.commitCompaction hseq hf
  | @manifestFailsFlush c ws m st k hf hio =>
    have hb : TablesOk { n with disk := n.disk.removeManifestTmp, eng.flush := .free } :=
      h.setDisk rfl (fun _ _ => rfl) (fun _ _ => rfl) trivial
    have hs : TablesOk { n with disk := n.disk.removeManifestTmp, hist.stale := true, eng.flush := .free } := { hb with }
    exact hs.flushEnd _ c
  | manifestFailsCompact =>
    exact { h.setDisk (d := n.disk.removeManifestTmp) (f := .free) rfl (fun _ _ => rfl) (fun _ _ => rfl) trivial with }
  | @manifestStage after m st st' hf hio hst =>
    have hne : st ≠ .rename := by
      rintro rfl
      simp [Stage.next] at hst
    refine h.setDisk (Disk.manifestStage_manifest_of_ne _ _ hne) (by simp) (by simp) ?_
    rw [hf] at hflush
    cases after <;> exact hflush
  | @manifestFlush c ws m hf => exact { h.manifestRename hseq hf (f := .unlinkWals c ws) trivial with }
  | @manifestCompact inputs m hf hio =>
    rw [hf] at hflush
    obtain ⟨hmeq, htmp⟩ : m = Manifest.ofLevels n.eng.levels ∧ n.disk.manifestTmp = some ⟨some m, some m⟩ := by
      have := hseq.manifest
      rwa [hf] at this
    refine { h.manifestRename hseq hf (f := .unlinkInputs inputs) (fun i hi => ⟨hflush i hi, ?_⟩) with }
    rw [Disk.manifestLevels, Disk.manifestStage_rename_manifest, htmp]
    change ∀ x ∈ stack m.levels, _
    rw [hmeq, stack_ofLevels hseq.levels.ordered]
    exact hflush i hi
  | unlinkWal => exact h.setDisk rfl (fun _ _ => rfl) (fun _ _ => rfl) trivial
  | unlinkWalFails => exact h.setFlush trivial
  | @unlinkInput sst todo hf hio =>
    rw [hf] at hflush
    obtain ⟨h1, h2⟩ := hflush sst List.mem_cons_self
    refine h.setDisk rfl (fun m hm => ?_) (fun m hm => ?_) (fun i hi => hflush i (List.mem_cons_of_mem _ hi))
    · exact Function.update_of_ne (h1 m hm) _ _
    · exact Function.update_of_ne (h2 m hm) _ _
  | unlinkInputFails hf =>
    rw [hf] at hflush
    exact h.setFlush (fun i hi => hflush i (List.mem_cons_of_mem _ hi))

/-- Every step of a running engine keeps the tables, whatever fails in it. -/
theorem TablesOk.nodeMove (h : TablesOk n) (hseq : SeqUp n) (hmems : n.eng.Flushable) {a : Act} {x : Sys Γ × Out}
    (hm : NodeMove n a x) (hx : x.1 = n'.toSys) : TablesOk n' := by
  have hto : ∀ {m : Node Γ}, m.toSys = n'.toSys → m = n' := toSys_inj
  cases hm with
  | write hw =>
    obtain rfl := hto hx
    exact h.writeMove hw
  | wal hw =>
    obtain rfl := hto hx
    exact h.walMove hseq hmems hw
  | @flushEnter i since hf hi =>
    obtain rfl := hto hx
    exact { h.setFlush (f := .draining (.flush since) []) trivial with }
  | workerEnter =>
    obtain rfl := hto hx
    exact h.setFlush trivial
  | compactNothing =>
    obtain rfl := hto hx
    exact h.compactEnd _
  | compactEnter =>
    obtain rfl := hto hx
    exact h.setFlush ⟨rfl, [], rfl, rfl⟩
  | flushStep hw =>
    obtain rfl := hto hx
    exact h.flushMove hseq hmems hw
  | flush | get =>
    obtain rfl := hto hx
    exact { h with }
  | getStep hw =>
    obtain rfl := hto hx
    cases hw with
    | openTable => exact h.openReader _ _
    | _ => exact { h with }
  | handover =>
    obtain rfl := hto hx
    refine h.same rfl rfl rfl ?_ ?_ ?_ (fun _ _ => rfl) <;> simp [Node.handover, sstTmps_appendWal]
  | drop => simp [Node.drop, Node.toSys] at hx

end LsmEngine
