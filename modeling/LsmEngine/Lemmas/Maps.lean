import LsmEngine.Lemmas.Tables

/-!
# What the tables stand for

The steps keep `MapsOk`: a flush lays the writes of the oldest generation over the tables, a compaction changes nothing, the
MANIFEST follows the levels, and the log of a generation is removed only when the tables of the MANIFEST hold its writes.
-/

namespace LsmEngine

open Overlay SsTableAux MergeAux

variable {Γ : Ctx} {n n' : Node Γ} {gone : List WalEntry}

/-! ## Writes twice -/

/-- Writes laid twice count once. -/
theorem runWrites_self (es : List WalEntry) (b : Key → Option Value) : runWrites es (runWrites es b) = runWrites es b :=
  onto_onto_self _ _

/-! ## The merge keeps the map -/

/-- The stack is the levels in another order. -/
theorem stack_perm (levels : List (List SstMeta)) : (stack levels).Perm levels.flatten :=
  (List.reverse_perm levels).flatten

/-- Tables in order of seq are runs with distinct seqs. -/
theorem runs_nodup {l : List SstMeta} (h : AscendingBySeq l) (d : Disk) : ((l.map (runOf Γ d)).map Run.seq).Nodup := by
  rw [List.map_map]
  exact (List.pairwise_map.2 (h.imp (fun hlt => hlt))).imp (fun hlt => hlt.ne)

/-- The tables stand for the newest record of each key. -/
theorem tablesMap_eq_newest {levels : List (List SstMeta)} (h : AscendingBySeq (stack levels)) (d : Disk) (k : Key) :
    tablesMap Γ d levels k = ((newest k ((stack levels).map (runOf Γ d))).map (fun e => visibleRecord e.2)).getD none := by
  have hasc : ((stack levels).map (runOf Γ d)).Pairwise (fun a b => a.seq < b.seq) :=
    List.pairwise_map.2 (h.imp (fun hlt => hlt))
  have := ontoAll_eq_newest hasc (fun _ => none) k
  rw [List.map_map] at this
  exact this

/-- What is left when the tables of the levels are merged stands for the same map. -/
theorem merge_keeps_map {levels : List (List SstMeta)} (hok : LevelsOk levels) {d : Disk}
    (hs : ∀ r ∈ (inputsOf levels).map (runOf Γ d), Sorted r.records) {rs : List Record}
    (hm : mergeRuns ((inputsOf levels).map (runOf Γ d)) = some rs) :
    onto (tableLayer rs) (fun _ => none) = tablesMap Γ d levels := by
  obtain ⟨out, hout, -, hfind⟩ := mergeRuns_spec hs
  rw [hm, Option.some.injEq] at hout
  subst hout
  have hperm : ((stack levels).map (runOf Γ d)).Perm ((inputsOf levels).map (runOf Γ d)) := by
    rw [inputsOf, List.take_of_length_le hok.len]
    exact (stack_perm levels).map _
  funext k
  rw [tablesMap_eq_newest hok.asc, newest_perm (runs_nodup hok.asc d) hperm]
  simp only [onto, tableLayer, hfind]
  cases hn : newest k ((inputsOf levels).map (runOf Γ d)) with
  | none => rfl
  | some b =>
    obtain ⟨s, v, del⟩ := b
    cases del <;> rfl

/-! ## Frames -/

/-- The state moves on where neither the tables nor the writes do. -/
theorem MapsOk.same (h : MapsOk n gone)
    (hT : tablesMap Γ n'.disk n'.eng.levels = tablesMap Γ n.disk n.eng.levels)
    (hD : tablesMap Γ n'.disk n'.disk.manifestLevels = tablesMap Γ n.disk n.disk.manifestLevels)
    (hlogs : n'.eng.logs = n.eng.logs) (hf : n'.eng.flush.flushed = n.eng.flush.flushed)
    (hu : n'.eng.flush.unlisted = n.eng.flush.unlisted)
    (hlog : n'.hist.log = n.hist.log) (hsegs : n'.hist.segs = n.hist.segs) (hbase : n'.hist.base = n.hist.base)
    (ho : n'.hist.opened = n.hist.opened) (hc : n'.hist.carried = n.hist.carried)
    (ha : n'.hist.flushAck ≤ gone.length)
    (hdr : ∀ since, n'.eng.flush.drained = some (.flush since) →
      since ≤ gone.length + (n.eng.flush.flushed.flatMap n.hist.segs).length) : MapsOk n' gone := by
  have hci : n'.hist.carriedIn n.eng.logs = n.hist.carriedIn n.eng.logs := by rw [Hist.carriedIn, Hist.carriedIn, ho, hc]
  exact {
    log := by rw [hlog, hlogs, hsegs]; exact h.log
    first := by rw [ho, hlogs]; exact h.first
    base := by rw [hc, hbase]; exact h.base
    tables := by rw [hf, hlogs, hci, hT, hbase]; exact h.tables
    tables' := by rw [hf, hT, hsegs, hbase]; exact h.tables'
    listed := by rw [hu, hD, hT]; exact h.listed
    listed' := by rw [hu, hlogs, hci, hD, hbase]; exact h.listed'
    flushAck := ha
    drained := by rw [hf, hsegs]; exact hdr }

/-! ## The steps of the wal mutex -/

/-- A write in the log and not applied changes no map. -/
theorem MapsOk.logWrite (h : MapsOk n gone) (hlogs : LogsOk n) (hw : n.eng.wal = .free) (w : WalEntry) :
    MapsOk (n.logWrite w (w.frame Γ)) gone := by
  have hg : n.eng.generation = n.eng.walSeq := generation_of_not_swapped (by rw [hw]; rfl)
  have hl : n.eng.logs = (n.eng.flush.flushed ++ n.eng.immutables.map PendingImm.walSeq) ++ [n.eng.walSeq] := by
    simp [Engine.logs, Engine.generations, hg, hw, WalSection.spare]
  have hl' : (n.logWrite w (w.frame Γ)).eng.logs = n.eng.logs := by
    rw [hl]
    simp [Engine.logs, Engine.generations, Node.logWrite, Engine.generation, WalSection.spare]
  have hnodup : n.eng.logs.Nodup := by
    rw [← hlogs.keys]
    exact n.disk.wals.keys_nodup
  rw [hl, List.nodup_append] at hnodup
  have hne : ∀ g ∈ n.eng.flush.flushed ++ n.eng.immutables.map PendingImm.walSeq, g ≠ n.eng.walSeq :=
    fun g hgm => hnodup.2.2 g hgm _ (List.mem_singleton_self _)
  have hfl : n.eng.flush.flushed.flatMap (Function.update n.hist.segs n.eng.walSeq (n.hist.segs n.eng.walSeq ++ [w])) =
      n.eng.flush.flushed.flatMap n.hist.segs := by
    apply List.flatMap_congr
    intro g hgm
    exact Function.update_of_ne (hne g (List.mem_append_left _ hgm)) _ _
  exact {
    log := by
      rw [hl', hl]
      simp only [Node.logWrite]
      rw [List.flatMap_append, List.flatMap_congr (fun g hgm => Function.update_of_ne (hne g hgm) _ _), h.log, hl]
      simp
    first := by rw [hl']; exact h.first
    base := h.base
    tables := by rw [hl']; exact h.tables
    tables' := by
      intro hc
      change _ = runWrites (gone ++ n.eng.flush.flushed.flatMap (Function.update n.hist.segs _ _)) _
      rw [hfl]
      exact h.tables' hc
    listed := h.listed
    listed' := by rw [hl']; exact h.listed'
    flushAck := h.flushAck
    drained := by
      intro since hc
      change since ≤ gone.length + (n.eng.flush.flushed.flatMap (Function.update n.hist.segs _ _)).length
      rw [hfl]
      exact h.drained since hc }

/-- An append changes no map. -/
theorem MapsOk.writeMove (h : MapsOk n gone) (hlogs : LogsOk n) {w : WalEntry} {io : Io} {o : Out}
    (hm : WriteMove n w io n' o) : MapsOk n' gone := by
  cases hm with
  | refused => exact h
  | logged hw => exact h.logWrite hlogs hw w
  | torn hw =>
    have hs : ∀ k, (n.tearWrite (w.frame Γ) k).disk.ssts = n.disk.ssts := by
      intro k
      simp only [Node.tearWrite, Disk.tear]
      split <;> simp
    have hm : ∀ k, (n.tearWrite (w.frame Γ) k).disk.manifestLevels = n.disk.manifestLevels := fun k =>
      manifestLevels_congr (tear_manifest _ _ _ _)
    refine h.same (tablesMap_congr (fun m _ => by rw [hs])) ?_ rfl rfl rfl rfl rfl rfl rfl rfl h.flushAck h.drained
    rw [hm]
    exact tablesMap_congr (fun m _ => by rw [hs])

/-- The logs are the same where the call in progress holds no other lock. -/
theorem logs_setWal {v : WalSection} (h : n.eng.wal.holdsStateLock = false) (h' : v.holdsStateLock = false)
    (hs : v.spare = n.eng.wal.spare) : Engine.logs { n.eng with wal := v } = n.eng.logs := by
  have hg : Engine.generation { n.eng with wal := v } = n.eng.generation := by
    rw [generation_of_not_swapped h, generation_of_not_swapped (e := { n.eng with wal := v }) h']
  simp only [Engine.logs, Engine.generations, hg, hs]

/-- The steps of the wal mutex after the append leave the tables alone and keep the list of logs, or add an empty one. -/
theorem MapsOk.walMove (h : MapsOk n gone) (hseq : SeqUp n) (hlogs : LogsOk n) {io : Io} {r : Node Γ × Out}
    (hm : WalMove n io r) : MapsOk r.1 gone := by
  have hfinish : ∀ c, n.eng.wal.holdsStateLock = false → n.eng.wal.spare = [] → MapsOk (n.finish c).1 gone := by
    intro c h1 h2
    cases c <;> exact h.same rfl rfl (logs_setWal (v := .free) h1 rfl h2.symm) rfl rfl rfl rfl rfl rfl rfl h.flushAck h.drained
  have habort : ∀ err c, n.eng.wal.holdsStateLock = false → n.eng.wal.spare = [] → MapsOk (n.abort err c).1 gone := by
    intro err c h1 h2
    cases c <;> exact h.same rfl rfl (logs_setWal (v := .free) h1 rfl h2.symm) rfl rfl rfl rfl rfl rfl rfl h.flushAck h.drained
  have hsync : ∀ next, n.eng.wal.holdsStateLock = false → next.holdsStateLock = false → next.spare = n.eng.wal.spare →
      MapsOk (n.syncActive next) gone := by
    intro next h1 h2 h3
    have hs : (n.syncActive next).disk.ssts = n.disk.ssts := by simp [Node.syncActive]
    have hml : (n.syncActive next).disk.manifestLevels = n.disk.manifestLevels :=
      manifestLevels_congr (by simp [Node.syncActive])
    refine h.same (tablesMap_congr (fun m _ => by rw [hs])) ?_ (logs_setWal h1 h2 h3) rfl rfl rfl rfl rfl rfl rfl h.flushAck
      h.drained
    rw [hml]
    exact tablesMap_congr (fun m _ => by rw [hs])
  cases hm with
  | sync hw => exact hsync _ (by rw [hw]; rfl) rfl (by rw [hw]; rfl)
  | syncFails hw => exact habort _ _ (by rw [hw]; rfl) (by rw [hw]; rfl)
  | @apply w hw =>
    exact h.same rfl rfl (logs_setWal (v := .applied w) (by rw [hw]; rfl) rfl (by rw [hw]; rfl)) rfl rfl rfl rfl rfl rfl rfl
      h.flushAck h.drained
  | @applySynced w hw =>
    exact h.same rfl rfl (logs_setWal (v := .applied w) (by rw [hw]; rfl) rfl (by rw [hw]; rfl)) rfl rfl rfl rfl rfl rfl rfl
      h.flushAck h.drained
  | @exceeds w hw =>
    exact h.same rfl rfl (logs_setWal (v := .freezing (.write w)) (by rw [hw]; rfl) rfl (by rw [hw]; rfl)) rfl rfl rfl rfl rfl
      rfl rfl h.flushAck h.drained
  | done hw | nothing hw => exact hfinish _ (by rw [hw]; rfl) (by rw [hw]; rfl)
  | flushSync hw => exact hsync _ (by rw [hw]; rfl) rfl (by rw [hw]; rfl)
  | flushSyncFails hw | createFails hw => exact habort _ _ (by rw [hw]; rfl) (by rw [hw]; rfl)
  | @takeSeq c hw he =>
    refine h.same rfl rfl ?_ rfl rfl rfl rfl rfl rfl rfl h.flushAck h.drained
    exact logs_setWal (v := .rotating c n.eng.nextSeq) (by rw [hw]; rfl) rfl (by rw [hw]; rfl)
  | @create c newSeq hw hio =>
    have hwal := hseq.wal
    rw [hw] at hwal
    obtain ⟨-, habove⟩ := hwal
    have hg : n.eng.generation = n.eng.walSeq := generation_of_not_swapped (by rw [hw]; rfl)
    have hl : Engine.logs { n.eng with wal := .created c newSeq } = n.eng.logs ++ [newSeq] := by
      have hg' : Engine.generation { n.eng with wal := .created c newSeq } = n.eng.generation := by rw [hg]; rfl
      simp [Engine.logs, Engine.generations, hg', hw, WalSection.spare]
    have hnew : n.hist.segs newSeq = [] := by
      refine hlogs.unused newSeq (habove _ ?_)
      rw [hlogs.keys]
      exact generation_mem_logs n.eng
    have hopened : n.hist.opened ≠ newSeq := by
      have h1 := hlogs.opened _ hlogs.walSeq_mem
      have h2 := habove n.eng.walSeq (hlogs.keys ▸ hlogs.walSeq_mem)
      omega
    have hmem : n.hist.opened ∈ n.eng.logs ++ [newSeq] ↔ n.hist.opened ∈ n.eng.logs := by simp [hopened]
    have hci : n.hist.carriedIn (n.eng.logs ++ [newSeq]) = n.hist.carriedIn n.eng.logs := by
      simp only [Hist.carriedIn, hmem]
    exact { h with
      log := by
        dsimp only
        rw [hl, List.flatMap_append, h.log]
        simp [hnew]
      first := by
        dsimp only
        rw [hl, hmem]
        exact h.first
      tables := by
        dsimp only
        rw [hl, hci]
        exact h.tables
      listed' := by
        dsimp only
        rw [hl, hci]
        exact h.listed' }
  | @swap c newSeq hw =>
    have hg : n.eng.generation = n.eng.walSeq := generation_of_not_swapped (by rw [hw]; rfl)
    refine h.same rfl rfl ?_ rfl rfl rfl rfl rfl rfl rfl h.flushAck h.drained
    simp only [Engine.logs, Engine.generations, hg, hw]
    simp [Node.swapActive, WalSection.spare, Engine.generation]
  | @replace c newSeq hw =>
    have hg : n.eng.generation = newSeq := by simp [Engine.generation, hw]
    have hd : (n.replaceWriter newSeq io).disk.ssts = n.disk.ssts := by
      simp only [Node.replaceWriter]
      split <;> simp
    have hml : (n.replaceWriter newSeq io).disk.manifestLevels = n.disk.manifestLevels := by
      refine manifestLevels_congr ?_
      simp only [Node.replaceWriter]
      split <;> simp
    have hl : Engine.logs { n.eng with walBuf := [], walSeq := newSeq, wal := .free } = n.eng.logs := by
      simp only [Engine.logs, Engine.generations, hg, hw]
      rfl
    have hT : ∀ levels, tablesMap Γ (n.replaceWriter newSeq io).disk levels = tablesMap Γ n.disk levels :=
      fun levels => tablesMap_congr (fun m _ => by rw [hd])
    have hD : tablesMap Γ (n.replaceWriter newSeq io).disk (n.replaceWriter newSeq io).disk.manifestLevels =
        tablesMap Γ n.disk n.disk.manifestLevels := by rw [hml, hT]
    cases c with
    | write w => exact h.same (hT _) hD hl rfl rfl rfl rfl rfl rfl rfl h.flushAck h.drained
    | flush since => exact h.same (hT _) hD hl rfl rfl rfl rfl rfl rfl rfl h.flushAck h.drained

/-! ## The steps of `flush_lock` -/

/-- The logs are in order of their numbers. -/
theorem logs_sorted (hlogs : LogsOk n) : n.eng.logs.Pairwise (· < ·) := by
  rw [← hlogs.keys]
  exact n.disk.wals.keys_sorted

/-- When no immutable is left, the writes outside the active generation are those whose log is gone or about to go. -/
theorem MapsOk.rotated_eq (h : MapsOk n gone) (hseq : SeqUp n) (hlogs : LogsOk n) (hcounts : CountsOk n)
    (hi : n.eng.immutables = []) : n.hist.rotated = gone.length + (n.eng.flush.flushed.flatMap n.hist.segs).length := by
  have hlock : n.eng.wal.holdsStateLock = false := by
    cases hw : n.eng.wal <;> try rfl
    obtain ⟨-, p, hp, -⟩ := hlogs.swapped _ _ hw
    simp [hi] at hp
  have hg : n.eng.generation = n.eng.walSeq := generation_of_not_swapped hlock
  have hspare : n.eng.wal.spare.flatMap n.hist.segs = [] := by
    have hwal := hseq.wal
    cases hw : n.eng.wal with
    | created c newSeq =>
      rw [hw] at hwal
      have := hlogs.unused newSeq (hwal.2 _ (by simp [Engine.generations]))
      simp [WalSection.spare, this]
    | _ => rfl
  have hlog := congrArg List.length h.log
  simp only [Engine.logs, Engine.generations, hi, hg, List.map_nil, List.nil_append, List.flatMap_append, hspare,
    List.append_nil, List.length_append, List.flatMap_singleton] at hlog
  have := hcounts.rotated
  omega

/-- The flush pass returns with nothing flushed that still has a log. -/
theorem MapsOk.flushEnd (h : MapsOk n gone) (hf : n.eng.flush.flushed = []) (hu : n.eng.flush.unlisted = false)
    (r : Except LsmError Unit) {c : FlushCaller} (hc : ∀ since, c = .flush since → r.isOk = true → since ≤ gone.length) :
    MapsOk (n.flushEnd r c).1 gone := by
  have hlogs : Engine.logs { n.eng with flush := .free } = n.eng.logs := by
    simp only [Engine.logs, hf]
    rfl
  have hdr : ∀ since, FlushSection.free.drained = some (.flush since) →
      since ≤ gone.length + (n.eng.flush.flushed.flatMap n.hist.segs).length := fun since hd => by
    simp [FlushSection.drained] at hd
  cases c with
  | worker => exact h.same rfl rfl hlogs hf.symm hu.symm rfl rfl rfl rfl rfl h.flushAck hdr
  | flush since =>
    refine h.same rfl rfl hlogs hf.symm hu.symm rfl rfl rfl rfl rfl ?_ hdr
    dsimp only [Node.flushEnd]
    split
    · rename_i hr
      exact max_le h.flushAck (hc since rfl hr)
    · exact h.flushAck

/-- The holder of `flush_lock` goes on where the tables of the levels and of the MANIFEST stay. -/
theorem MapsOk.setFlush (h : MapsOk n gone) {d : Disk} {e : Engine Γ} (hlev : e.levels = n.eng.levels)
    (himm : e.immutables = n.eng.immutables) (hwal : e.wal = n.eng.wal) (hwseq : e.walSeq = n.eng.walSeq)
    (hm : d.manifest = n.disk.manifest)
    (hl : ∀ m ∈ stack n.eng.levels, d.ssts m.name = n.disk.ssts m.name)
    (hk : ∀ m ∈ stack n.disk.manifestLevels, d.ssts m.name = n.disk.ssts m.name)
    (hf : e.flush.flushed = n.eng.flush.flushed) (hu : e.flush.unlisted = n.eng.flush.unlisted)
    (hdr : ∀ since, e.flush.drained = some (.flush since) →
      since ≤ gone.length + (n.eng.flush.flushed.flatMap n.hist.segs).length) : MapsOk ⟨d, n.hist, e⟩ gone := by
  have hlogs : e.logs = n.eng.logs := by
    simp only [Engine.logs, Engine.generations, Engine.generation, hf, himm, hwal, hwseq]
  refine h.same ?_ ?_ hlogs hf hu rfl rfl rfl rfl rfl h.flushAck hdr
  · dsimp only
    rw [hlev]
    exact tablesMap_congr hl
  · rw [manifestLevels_congr hm]
    exact tablesMap_congr hk

/-- A flush commits: the table lays what its MemTable holds over the others. -/
theorem tablesMap_flushed (hseq : SeqUp n) (htab : TablesOk n) {c : FlushCaller} {fl : List Nat} {p : PendingImm} {sst : SstMeta}
    (hf : n.eng.flush = .committing c fl p sst) : tablesMap Γ n.disk (n.commitFlush c fl p sst).eng.levels =
      onto (n.eng.mems p.mem).layer (tablesMap Γ n.disk n.eng.levels) := by
  have hfresh := hseq.newSst sst (by rw [hf]; rfl)
  have hsst : TableOf Γ n.disk sst (n.eng.mems p.mem).records := by
    have := htab.flush
    rwa [hf] at this
  have hstack : stack (n.commitFlush c fl p sst).eng.levels = stack n.eng.levels ++ [sst] := stack_flushedLevels hfresh.live
  rw [tablesMap, hstack, List.map_append, List.map_singleton, ontoAll_snoc, hsst.records, tableLayer_records]
  rfl

/-- The table that a flush commits lays the writes of the oldest generation over the others. -/
theorem MapsOk.commitFlush (h : MapsOk n gone) (hseq : SeqUp n) (htab : TablesOk n) (hlogs : LogsOk n) {c : FlushCaller}
    {fl : List Nat} {p : PendingImm} {sst : SstMeta} (hf : n.eng.flush = .committing c fl p sst) :
    MapsOk (n.commitFlush c fl p sst) gone := by
  have hfresh : Fresh n.eng.nextSeq n.eng.levels n.disk.manifestLevels 0 sst := by
    have := hseq.newSst sst (by rw [hf]; rfl)
    rwa [hf] at this
  have hsst : TableOf Γ n.disk sst (n.eng.mems p.mem).records := by
    have := htab.flush
    rwa [hf] at this
  obtain ⟨rest, himm, himms⟩ := hseq.commits hf
  have hl : (n.commitFlush c fl p sst).eng.logs = n.eng.logs := by
    simp only [Engine.logs, Engine.generations, himms, himm, hf]
    simp [Node.commitFlush, FlushSection.flushed]
    rfl
  obtain ⟨later, hcons⟩ : ∃ later, n.eng.logs = fl ++ p.walSeq :: later :=
    ⟨rest.map PendingImm.walSeq ++ [n.eng.generation] ++ n.eng.wal.spare, by
      simp [Engine.logs, Engine.generations, himm, hf, FlushSection.flushed]⟩
  have hsorted := logs_sorted hlogs
  rw [hcons, List.pairwise_append] at hsorted
  obtain ⟨-, hs2, hs3⟩ := hsorted
  have hpmem : p.walSeq ∈ n.eng.logs := by rw [hcons]; simp
  have hT : tablesMap Γ n.disk (n.commitFlush c fl p sst).eng.levels =
      runWrites (n.hist.entries p.walSeq) (tablesMap Γ n.disk n.eng.levels) := by
    have hfrozen := (hlogs.frozen p (by rw [himm]; exact List.mem_cons_self)).2.2
    rw [tablesMap_flushed hseq htab hf, MemTable.layer_congr hfrozen, map_replay_layer]
  -- the generation the open created, where it still has its log, is the oldest
  have hT' : tablesMap Γ n.disk (n.commitFlush c fl p sst).eng.levels =
      runWrites (gone ++ (fl ++ [p.walSeq]).flatMap n.hist.segs) n.hist.base := by
    rw [hT]
    rcases eq_or_ne fl [] with rfl | hne
    · have hc : n.hist.carriedIn n.eng.logs = if p.walSeq = n.hist.opened then n.hist.carried else [] := by
        simp only [Hist.carriedIn]
        refine if_congr ⟨fun hmem => ?_, fun heq => heq ▸ hpmem⟩ rfl rfl
        rw [hcons, List.nil_append, List.mem_cons] at hmem
        rcases hmem with heq | hmem
        · exact heq.symm
        · have h1 := (List.pairwise_cons.1 hs2).1 _ hmem
          have h2 := hlogs.opened _ hpmem
          omega
      have := h.tables (by rw [hf]; rfl)
      rw [hc] at this
      rw [Hist.entries, runWrites_append, this, List.nil_append, List.flatMap_singleton, runWrites_append]
    · obtain ⟨t, ht⟩ := List.exists_mem_of_ne_nil fl hne
      have hne' : p.walSeq ≠ n.hist.opened := by
        have h1 := hs3 t ht p.walSeq List.mem_cons_self
        have h2 := hlogs.opened t (by rw [hcons]; exact List.mem_append_left _ ht)
        omega
      have := h.tables' (by rw [hf]; exact hne)
      rw [hf] at this
      rw [this, Hist.entries, if_neg hne', List.nil_append, List.flatMap_append, List.flatMap_singleton, ← List.append_assoc,
        runWrites_append (gone ++ _)]
      rfl
  exact {
    log := by rw [hl]; exact h.log
    first := by rw [hl]; exact h.first
    base := h.base
    tables := fun hc => by simp [Node.commitFlush, FlushSection.flushed] at hc
    tables' := fun _ => hT'
    listed := fun hc => by simp [Node.commitFlush, FlushSection.unlisted] at hc
    listed' := by
      intro _
      rw [hl]
      rcases eq_or_ne fl [] with rfl | hne
      · have hlisted := h.listed (by rw [hf]; rfl)
        have := h.tables (by rw [hf]; rfl)
        rw [← hlisted] at this
        exact this
      · exact h.listed' (by rw [hf]; simpa [FlushSection.unlisted] using hne)
    flushAck := h.flushAck
    drained := fun since hc => by simp [Node.commitFlush, FlushSection.drained] at hc }

/-- The output of a compaction that commits stands for the same map as its inputs. -/
theorem tablesMap_compacted (hseq : SeqUp n) (htab : TablesOk n) {inputs : List SstMeta} {output : Option SstMeta}
    (hf : n.eng.flush = .installing inputs output) :
    tablesMap Γ n.disk (n.commitCompaction inputs output).eng.levels = tablesMap Γ n.disk n.eng.levels := by
  have hsorted : ∀ r ∈ (inputsOf n.eng.levels).map (runOf Γ n.disk), Sorted r.records :=
    fun r hr => (htab.sorted_runs hseq.levels.len r hr).1
  have hstack : stack (n.commitCompaction inputs output).eng.levels = output.toList := stack_compacted hseq.levels.len output
  have hflush := htab.flush
  rw [hf] at hflush
  rw [tablesMap, hstack]
  cases output with
  | none =>
    obtain ⟨rfl, hm⟩ := hflush
    rw [← merge_keeps_map hseq.levels hsorted hm]
    rfl
  | some sst =>
    obtain ⟨rfl, rs, hm, hsst⟩ := hflush
    rw [← merge_keeps_map hseq.levels hsorted hm, ← hsst.records]
    rfl

/-- A compaction commits: its output stands for the same map. -/
theorem MapsOk.commitCompaction (h : MapsOk n gone) (hseq : SeqUp n) (htab : TablesOk n) {inputs : List SstMeta}
    {output : Option SstMeta} (hf : n.eng.flush = .installing inputs output) : MapsOk (n.commitCompaction inputs output) gone := by
  have hT := tablesMap_compacted hseq htab hf
  have hfl : (n.commitCompaction inputs output).eng.flush.flushed = n.eng.flush.flushed := by rw [hf]; rfl
  have hl : (n.commitCompaction inputs output).eng.logs = n.eng.logs := by
    simp only [Engine.logs, hfl]
    rfl
  refine h.same hT rfl hl hfl (by rw [hf]; rfl) rfl rfl rfl rfl rfl h.flushAck (fun since hc => ?_)
  simp [Node.commitCompaction, FlushSection.drained] at hc

/-- The MANIFEST is renamed into place. -/
theorem MapsOk.manifestRename (h : MapsOk n gone) (hseq : SeqUp n) {after : AfterManifest} {m : Manifest}
    (hf : n.eng.flush = .manifest after m .rename) {f : FlushSection} (hfl : f.flushed = n.eng.flush.flushed)
    (hu : f.unlisted = false) (hdr : ∀ since, f.drained = some (.flush since) →
      since ≤ gone.length + (n.eng.flush.flushed.flatMap n.hist.segs).length) :
    MapsOk { n with disk := n.disk.manifestStage m .rename, eng.flush := f } gone := by
  obtain ⟨hmeq, htmp⟩ : m = Manifest.ofLevels n.eng.levels ∧ n.disk.manifestTmp = some ⟨some m, some m⟩ := by
    have := hseq.manifest
    rwa [hf] at this
  have hlev : (n.disk.manifestStage m .rename).manifestLevels = m.levels := by
    rw [Disk.manifestLevels, Disk.manifestStage_rename_manifest, htmp]
    rfl
  have hT : ∀ levels, tablesMap Γ (n.disk.manifestStage m .rename) levels = tablesMap Γ n.disk levels :=
    fun levels => tablesMap_congr (fun x _ => by simp)
  have hl : Engine.logs { n.eng with flush := f } = n.eng.logs := by
    simp only [Engine.logs, hfl]
    rfl
  exact {
    log := by dsimp only; rw [hl]; exact h.log
    first := by dsimp only; rw [hl]; exact h.first
    base := h.base
    tables := by dsimp only; rw [hl, hT, hfl]; exact h.tables
    tables' := by dsimp only; rw [hT, hfl]; exact h.tables'
    listed := by
      intro _
      dsimp only
      rw [hT, hT, hlev, hmeq]
      exact tablesMap_of_stack (stack_ofLevels hseq.levels.ordered)
    listed' := fun hc => by simp [hu] at hc
    flushAck := h.flushAck
    drained := by dsimp only; rw [hfl]; exact hdr }

/-- The oldest log is removed: its writes are in the tables of the MANIFEST. -/
theorem MapsOk.removeWal (h : MapsOk n gone) (hlogs : LogsOk n) {c : FlushCaller} {w : Nat} {todo : List Nat}
    (hf : n.eng.flush = .unlinkWals c (w :: todo)) :
    MapsOk { n with disk := n.disk.removeWal w, eng.flush := .unlinkWals c todo } (gone ++ n.hist.segs w) := by
  have hl : n.eng.logs = w :: Engine.logs { n.eng with flush := .unlinkWals c todo } := by
    simp only [Engine.logs, hf]
    rfl
  have hout : n.hist.opened ∉ Engine.logs { n.eng with flush := .unlinkWals c todo } := by
    intro hmem
    have hs := logs_sorted hlogs
    rw [hl] at hs
    have h1 := (List.pairwise_cons.1 hs).1 _ hmem
    have h2 := hlogs.opened w (by rw [hl]; exact List.mem_cons_self)
    omega
  have hT : ∀ levels, tablesMap Γ (n.disk.removeWal w) levels = tablesMap Γ n.disk levels :=
    fun levels => tablesMap_congr (fun x _ => rfl)
  have htab := h.tables' (by rw [hf]; simp [FlushSection.flushed])
  rw [hf] at htab
  simp only [FlushSection.flushed, List.flatMap_cons] at htab
  exact {
    log := by
      rw [h.log, hl]
      simp
    first := fun hc => absurd hc hout
    base := h.base
    tables := by
      intro hnil
      dsimp only
      rw [hT, Hist.carriedIn, if_neg hout, htab, show todo = [] from hnil]
      simp
    tables' := by
      intro _
      dsimp only
      rw [hT, htab, List.append_assoc]
      rfl
    listed := by
      intro _
      dsimp only
      rw [hT, hT]
      exact h.listed (by rw [hf]; rfl)
    listed' := fun hc => by simp [FlushSection.unlisted] at hc
    flushAck := h.flushAck.trans (by simp)
    drained := by
      intro since hd
      have := h.drained since (by rw [hf]; exact hd)
      rw [hf] at this
      simp only [FlushSection.flushed, List.flatMap_cons, List.length_append] at this ⊢
      omega }

/-- A stage that has a next one is not the rename. -/
theorem ne_rename_of_next {st st' : Stage} (h : st.next = some st') : st ≠ .rename := by
  rintro rfl
  simp [Stage.next] at h

/-- A benign step of the holder of `flush_lock` keeps the tables standing for the generations that are gone. -/
theorem MapsOk.flushMove (h : MapsOk n gone) (hseq : SeqUp n) (htab : TablesOk n) (hlogs : LogsOk n) (hcounts : CountsOk n)
    {io : Io} (hb : n.Benign (.flushStep io)) {r : Node Γ × Out} (hm : FlushMove n io r) : ∃ gone', MapsOk r.1 gone' := by
  cases hm with
  | @nothing c hf hi =>
    refine ⟨gone, h.flushEnd (by rw [hf]; rfl) (by rw [hf]; rfl) _ ?_⟩
    rintro since rfl -
    have h1 := hcounts.caller since (by rw [hf]; rfl)
    have h2 := h.rotated_eq hseq hlogs hcounts hi
    rw [hf] at h2
    simpa [FlushSection.flushed] using h1.trans h2.le
  | @drained c fl hf hi hne =>
    refine ⟨gone, h.setFlush rfl rfl rfl rfl rfl (fun _ _ => rfl) (fun _ _ => rfl) (by rw [hf]; rfl) (by rw [hf]; rfl) ?_⟩
    intro since hc
    have hcal : c = .flush since := Option.some.inj hc
    exact (hcounts.caller since (by rw [hf, hcal]; rfl)).trans (h.rotated_eq hseq hlogs hcounts hi).le
  | unbuilt hf hi he => exact absurd he (hlogs.flushable.build_ne_error (by rw [hi]; exact List.mem_cons_self) _ _ _)
  | built hf =>
    exact ⟨gone, h.setFlush rfl rfl rfl rfl rfl (fun _ _ => rfl) (fun _ _ => rfl) (by rw [hf]; rfl) (by rw [hf]; rfl)
      (fun since hc => by simp [FlushSection.drained] at hc)⟩
  | buildFails hf hio =>
    have := flushed_nil_of_fail hb hf hio
    subst this
    exact ⟨gone, h.flushEnd (by rw [hf]; rfl) (by rw [hf]; rfl) _ (fun _ _ hr => by simp [Except.isOk, Except.toBool] at hr)⟩
  | buildStage hf hio hst =>
    have hne := ne_rename_of_next hst
    exact ⟨gone, h.setFlush rfl rfl rfl rfl (by simp) (fun m _ => by rw [Disk.sstStage_ssts_of_ne _ _ _ hne])
      (fun m _ => by rw [Disk.sstStage_ssts_of_ne _ _ _ hne]) (by rw [hf]; rfl) (by rw [hf]; rfl)
      (fun since hc => by simp [FlushSection.drained] at hc)⟩
  | @buildRename c fl p sst file hf hio =>
    have hfresh := hseq.newSst sst (by rw [hf]; rfl)
    refine ⟨gone, h.setFlush rfl rfl rfl rfl (by simp) (fun m hm => ?_) (fun m hm => ?_) (by rw [hf]; rfl) (by rw [hf]; rfl)
      (fun since hc => by simp [FlushSection.drained] at hc)⟩
    · rw [Disk.sstStage_rename_ssts, Function.update_of_ne (hfresh.name_ne_live hseq.levels m hm)]
    · rw [Disk.sstStage_rename_ssts, Function.update_of_ne (hfresh.name_ne_listed hseq.listed m hm)]
  | commit hf hl => exact ⟨gone, h.commitFlush hseq htab hlogs hf⟩
  | mergedNone hf | merged hf | read hf | unlinkInputFails hf | mergedUnbuilt hf | readFails hf | compactDone hf
  | mergeFails hf =>
    exact ⟨gone, h.setFlush rfl rfl rfl rfl rfl (fun _ _ => rfl) (fun _ _ => rfl) (by rw [hf]; rfl) (by rw [hf]; rfl)
      (fun since hc => by simp [FlushSection.drained] at hc)⟩
  | readOpen hf =>
    exact ⟨gone, h.setFlush rfl rfl rfl rfl rfl (fun _ _ => rfl) (fun _ _ => rfl) rfl rfl h.drained⟩
  | @manifestFailsCompact inputs m st k hf =>
    have := h.setFlush (d := n.disk.removeManifestTmp) (e := { n.eng with flush := .free }) rfl rfl rfl rfl rfl (fun _ _ => rfl)
      (fun _ _ => rfl) (by rw [hf]; rfl) (by rw [hf]; rfl) (fun since hc => by simp [FlushSection.drained] at hc)
    exact ⟨gone, { this with }⟩
  | mergeStage hf hio hst =>
    have hne := ne_rename_of_next hst
    exact ⟨gone, h.setFlush rfl rfl rfl rfl (by simp) (fun m _ => by rw [Disk.sstStage_ssts_of_ne _ _ _ hne])
      (fun m _ => by rw [Disk.sstStage_ssts_of_ne _ _ _ hne]) (by rw [hf]; rfl) (by rw [hf]; rfl)
      (fun since hc => by simp [FlushSection.drained] at hc)⟩
  | @mergeRename inputs sst file hf hio =>
    have hfresh := hseq.newSst sst (by rw [hf]; rfl)
    refine ⟨gone, h.setFlush rfl rfl rfl rfl (by simp) (fun m hm => ?_) (fun m hm => ?_) (by rw [hf]; rfl) (by rw [hf]; rfl)
      (fun since hc => by simp [FlushSection.drained] at hc)⟩
    · rw [Disk.sstStage_rename_ssts, Function.update_of_ne (hfresh.name_ne_live hseq.levels m hm)]
    · rw [Disk.sstStage_rename_ssts, Function.update_of_ne (hfresh.name_ne_listed hseq.listed m hm)]
  | install hf hl => exact ⟨gone, h.commitCompaction hseq htab hf⟩
  | manifestFailsFlush hf hio =>
    rcases hb with hb | hb
    · simp [hio] at hb
    · simp [hf, FlushSection.failsSafely] at hb
  | @manifestStage after m st st' hf hio hst =>
    have hne := ne_rename_of_next hst
    refine ⟨gone, h.setFlush rfl rfl rfl rfl (Disk.manifestStage_manifest_of_ne _ _ hne) (by simp) (by simp)
      (by rw [hf]; cases after <;> rfl) (by rw [hf]; cases after <;> rfl) (fun since hc => h.drained since ?_)⟩
    rw [hf]
    cases after <;> exact hc
  | @manifestFlush c ws m hf hio =>
    exact ⟨gone, { h.manifestRename hseq hf (f := .unlinkWals c ws) (by rw [hf]; rfl) rfl
      (fun since hc => h.drained since (by rw [hf]; exact hc)) with }⟩
  | @manifestCompact inputs m hf hio =>
    exact ⟨gone, { h.manifestRename hseq hf (f := .unlinkInputs inputs) (by rw [hf]; rfl) rfl
      (fun since hc => by simp [FlushSection.drained] at hc) with }⟩
  | @flushDone c hf =>
    refine ⟨gone, h.flushEnd (by rw [hf]; rfl) (by rw [hf]; rfl) _ ?_⟩
    rintro since rfl -
    have := h.drained since (by rw [hf]; rfl)
    rw [hf] at this
    simpa [FlushSection.flushed] using this
  | unlinkWal hf hio => exact ⟨_, h.removeWal hlogs hf⟩
  | unlinkWalFails hf hio =>
    rcases hb with hb | hb
    · simp [hio] at hb
    · simp [hf, FlushSection.failsSafely] at hb
  | @unlinkInput sst todo hf hio =>
    have hflush := htab.flush
    rw [hf] at hflush
    obtain ⟨h1, h2⟩ := hflush sst List.mem_cons_self
    exact ⟨gone, h.setFlush rfl rfl rfl rfl rfl (fun m hm => Function.update_of_ne (h1 m hm) _ _)
      (fun m hm => Function.update_of_ne (h2 m hm) _ _) (by rw [hf]; rfl) (by rw [hf]; rfl)
      (fun since hc => by simp [FlushSection.drained] at hc)⟩

end LsmEngine
