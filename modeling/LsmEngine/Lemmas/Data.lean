import LsmEngine.Lemmas.Maps

/-!
# The invariant of a running engine

`DataUp` holds again after every step that loses nothing.
-/

namespace LsmEngine

open Overlay

variable {Γ : Ctx} {n n' : Node Γ}

/-- Neither the logs nor the tables see a `get`. -/
theorem DataUp.getMove (h : DataUp n) {i : Nat} {io : Io} {r : Node Γ × Out} (hm : GetMove n i io r) : DataUp r.1 := by
  obtain ⟨gone, hmaps⟩ := h.maps
  have hgets : ∀ gets, DataUp { n with eng.gets := gets } := fun gets =>
    ⟨{ h.seq with }, { h.tables with }, { h.logs with }, { h.counts with }, gone, { hmaps with }⟩
  cases hm with
  | openTable =>
    exact ⟨{ h.seq with }, h.tables.openReader _ _, { h.logs with }, { h.counts with }, gone, { hmaps with }⟩
  | activeHit | activeMiss | immHit | immMiss | immEnd | tablesEnd | skip | fails | tableHit | tableMiss => exact hgets _

/-- A hand-over of buffered bytes keeps the data in order. -/
theorem DataUp.handover (h : DataUp n) (k : Nat) : DataUp (n.handover k) := by
  obtain ⟨gone, hmaps⟩ := h.maps
  have hs : (n.handover k).disk.ssts = n.disk.ssts := by simp [Node.handover]
  have hm : (n.handover k).disk.manifest = n.disk.manifest := by simp [Node.handover]
  refine ⟨h.seq.handover k, h.tables.same rfl rfl rfl hs ?_ hm (fun _ _ => rfl), h.logs.appendBuf k, { h.counts with }, gone, ?_⟩
  · simp [Node.handover, sstTmps_appendWal]
  · exact hmaps.setFlush rfl rfl rfl rfl hm (fun m _ => by simp) (fun m _ => by simp) rfl rfl hmaps.drained

/-- `flush()` takes the wal mutex. -/
theorem DataUp.flushCall (h : DataUp n) (hw : n.eng.wal = .free) : DataUp { n with eng.wal := .syncing n.hist.completed } := by
  obtain ⟨gone, hmaps⟩ := h.maps
  have hseq : SeqUp { n with eng.wal := .syncing n.hist.completed } :=
    seqInv_nodeMove h.seq (NodeMove.flush hw)
  refine ⟨hseq, { h.tables with }, ?_, ?_, gone, ?_⟩
  · exact h.logs.setWal (by rw [hw]; rfl) rfl (by rw [hw]; rfl) (by rw [hw]; rfl) (fun hc => by simp [WalSection.rotates] at hc)
  · have h1 := h.counts.applied
    have h2 := h.counts.idle (by rw [hw]; rfl)
    rw [hw] at h1
    exact { h.counts with
      applied := h1
      idle := fun _ => h2
      inWal := by
        intro since hs
        have : n.hist.completed = since := by simpa [WalSection.flusher] using hs
        dsimp only
        omega }
  · refine hmaps.same rfl rfl ?_ rfl rfl rfl rfl rfl rfl rfl hmaps.flushAck hmaps.drained
    exact logs_setWal (v := .syncing n.hist.completed) (by rw [hw]; rfl) rfl (by rw [hw]; rfl)

/-- A call takes `flush_lock`. -/
theorem DataUp.enter (h : DataUp n) (hf : n.eng.flush = .free) {f : FlushSection} {flushers : List Nat}
    (hfl : f.flushed = []) (hu : f.unlisted = false) (hd : f.drained = none)
    (hseq : SeqUp { n with eng.flush := f, eng.flushers := flushers })
    (ht : f.TablesOk Γ n.disk n.eng.mems n.eng.levels) (hq : ∀ since ∈ flushers, since ∈ n.eng.flushers)
    (hc : ∀ since, f.caller = some (.flush since) → since ∈ n.eng.flushers) :
    DataUp { n with eng.flush := f, eng.flushers := flushers } := by
  obtain ⟨gone, hmaps⟩ := h.maps
  have hlogs := h.logs.setFlush (f := f) (by rw [hf]; exact hfl)
  refine ⟨hseq, { h.tables.setFlush ht with }, { hlogs with }, ?_, gone, ?_⟩
  · exact { h.counts with
      flushers := fun since hs => h.counts.flushers since (hq since hs)
      caller := fun since hs => h.counts.flushers since (hc since hs) }
  · refine hmaps.setFlush rfl rfl rfl rfl rfl (fun _ _ => rfl) (fun _ _ => rfl) (by rw [hf]; exact hfl) (by rw [hf]; exact hu) ?_
    intro since hs
    simp [hd] at hs

/-- Every step that loses nothing keeps the invariant of a running engine. -/
theorem DataUp.nodeMove (h : DataUp n) {a : Act} (hb : n.Benign a) {x : Sys Γ × Out} (hm : NodeMove n a x)
    {n' : Node Γ} (hx : x.1 = n'.toSys) : DataUp n' := by
  obtain ⟨gone, hmaps⟩ := h.maps
  have hto : ∀ {m : Node Γ}, m.toSys = n'.toSys → m = n' := toSys_inj
  have hinv : SeqInv n'.toSys := hx ▸ seqInv_nodeMove h.seq hm
  have htab : TablesOk n' := h.tables.nodeMove h.seq h.logs.flushable hm hx
  cases hm with
  | write hw =>
    obtain rfl := hto hx
    exact ⟨hinv, htab, h.logs.writeMove h.seq hb hw, h.counts.writeMove hw, gone, hmaps.writeMove h.logs hw⟩
  | flush hw =>
    obtain rfl := hto hx
    exact h.flushCall hw
  | wal hw =>
    obtain rfl := hto hx
    exact ⟨hinv, htab, h.logs.walMove h.seq hb hw, h.counts.walMove h.logs hb hw, gone,
      hmaps.walMove h.seq h.logs hw⟩
  | @flushEnter i since hf hi =>
    obtain rfl := hto hx
    refine h.enter hf rfl rfl rfl hinv trivial (fun _ => List.mem_of_mem_eraseIdx) ?_
    intro s hs
    obtain rfl : since = s := by simpa [FlushSection.caller] using hs
    exact List.mem_of_getElem? hi
  | workerEnter hf =>
    obtain rfl := hto hx
    exact h.enter hf rfl rfl rfl hinv trivial (fun _ hs => hs) (fun s hs => by simp [FlushSection.caller] at hs)
  | compactNothing hf =>
    obtain rfl := hto hx
    exact h.enter hf (f := .free) rfl rfl rfl hinv trivial (fun _ hs => hs) (fun s hs => by simp [FlushSection.caller] at hs)
  | compactEnter hf =>
    obtain rfl := hto hx
    exact h.enter hf rfl rfl rfl hinv ⟨rfl, [], rfl, rfl⟩ (fun _ hs => hs) (fun s hs => by simp [FlushSection.caller] at hs)
  | flushStep hw =>
    obtain rfl := hto hx
    exact ⟨hinv, htab, h.logs.flushMove h.seq hb (fun p hp err => h.logs.flushable.build_ne_error hp _ _ err) hw,
      h.counts.flushMove hw, hmaps.flushMove h.seq h.tables h.logs h.counts hb hw⟩
  | get =>
    obtain rfl := hto hx
    exact ⟨hinv, { h.tables with }, { h.logs with }, { h.counts with }, gone, { hmaps with }⟩
  | getStep hw =>
    obtain rfl := hto hx
    exact h.getMove hw
  | handover =>
    obtain rfl := hto hx
    exact h.handover _
  | drop => simp [Node.drop, Node.toSys] at hx

/-! ## The map of a running engine -/

/-- Frozen MemTables stand for the writes of their logs. -/
theorem map_immutables (hlogs : LogsOk n) (imms : List PendingImm) (hi : ∀ p ∈ imms, p ∈ n.eng.immutables)
    (T : Key → Option Value) : ontoAll (imms.map (fun p => (n.eng.mems p.mem).layer)) T =
      runWrites ((imms.map PendingImm.walSeq).flatMap n.hist.entries) T := by
  induction imms generalizing T with
  | nil => rfl
  | cons p imms ih =>
    have hp := (hlogs.frozen p (hi p List.mem_cons_self)).2.2
    rw [List.map_cons, ontoAll_cons, List.map_cons, List.flatMap_cons, runWrites_append,
      ih (fun q hq => hi q (List.mem_cons_of_mem _ hq)), MemTable.layer_congr hp, map_replay_layer]

/-- The entries an open carried over stand at the front of the oldest log that can hold them. -/
theorem flatMap_carried (hh : Hist) {l : List Nat} (hs : l.Pairwise (· < ·)) (ho : ∀ g ∈ l, hh.opened ≤ g)
    (segs : Nat → List WalEntry) : l.flatMap (fun g => (if g = hh.opened then hh.carried else []) ++ segs g) =
      hh.carriedIn l ++ l.flatMap segs := by
  have hrest : ∀ l : List Nat, (∀ g ∈ l, g ≠ hh.opened) →
      l.flatMap (fun g => (if g = hh.opened then hh.carried else []) ++ segs g) = l.flatMap segs := by
    intro l hl
    apply List.flatMap_congr
    intro g hg
    rw [if_neg (hl g hg), List.nil_append]
  cases l with
  | nil => simp [Hist.carriedIn]
  | cons w rest =>
    obtain ⟨h1, -⟩ := List.pairwise_cons.1 hs
    have hne : ∀ g ∈ rest, g ≠ hh.opened := by
      intro g hg heq
      have := h1 g hg
      have := ho w List.mem_cons_self
      omega
    rw [List.flatMap_cons, List.flatMap_cons, hrest rest hne, Hist.carriedIn]
    by_cases heq : w = hh.opened
    · rw [if_pos heq, if_pos (by rw [← heq]; exact List.mem_cons_self), List.append_assoc]
    · have : hh.opened ∉ w :: rest := by
        intro hm
        rcases List.mem_cons.1 hm with hm | hm
        · exact heq hm.symm
        · exact hne _ hm rfl
      rw [if_neg heq, if_neg this]
      rfl

/-- The write under way is the last of its generation. -/
theorem segs_inflight (hlogs : LogsOk n) (hcounts : CountsOk n) :
    ∃ es, n.hist.segs n.eng.generation = es ++ n.eng.wal.inflight ∧
      (n.eng.mems n.eng.active).map = (replayEntries
        ((if n.eng.generation = n.hist.opened then n.hist.carried else []) ++ es) MemTable.new).map := by
  obtain ⟨es, hes, hm⟩ := hlogs.active
  rw [Hist.entries] at hes
  by_cases hi : n.eng.wal.inflight = []
  · rw [hi, List.append_nil] at hes
    exact ⟨n.hist.segs n.eng.generation, by rw [hi, List.append_nil], by rw [hes]; exact hm⟩
  · obtain ⟨w, hin, hgen⟩ : ∃ w, n.eng.wal.inflight = [w] ∧ n.eng.generation = n.eng.walSeq := by
      cases hwal : n.eng.wal <;> simp [hwal, WalSection.inflight, Engine.generation] at hi ⊢
    have h1 := hcounts.applied
    have h2 := hcounts.rotated
    have h3 := hcounts.frozen
    rw [hin, List.length_singleton] at h1
    have hne : n.hist.segs n.eng.generation ≠ [] := by
      rw [hgen]
      intro hnil
      rw [hnil, List.length_nil] at h2
      omega
    obtain ⟨es', x, hseg⟩ := List.eq_nil_or_concat (n.hist.segs n.eng.generation) |>.resolve_left hne
    rw [List.concat_eq_append] at hseg
    rw [hseg, hin, ← List.append_assoc] at hes
    obtain ⟨h4, h5⟩ := List.append_inj' hes rfl
    refine ⟨es', by rw [hseg, hin, h5], by rw [h4]; exact hm⟩

/-- A running engine stands for the map after the writes it has applied. -/
theorem DataUp.map_eq (h : DataUp n) : n.eng.map n.disk = n.hist.mapAt n.hist.applied := by
  obtain ⟨gone, hmaps⟩ := h.maps
  obtain ⟨es, hseg, hactive⟩ := segs_inflight h.logs h.counts
  have hlogs : n.eng.logs = (n.eng.flush.flushed ++ n.eng.immutables.map PendingImm.walSeq) ++ [n.eng.generation] ++
      n.eng.wal.spare := by simp [Engine.logs, Engine.generations]
  have hspare : n.eng.wal.spare.flatMap n.hist.segs = [] := by
    have hwal := h.seq.wal
    cases hw : n.eng.wal with
    | created c newSeq =>
      rw [hw] at hwal
      have := h.logs.unused newSeq (hwal.2 _ (by simp [Engine.generations]))
      simp [WalSection.spare, this]
    | _ => rfl
  have htake : n.hist.log.take n.hist.applied = gone ++ n.eng.flush.flushed.flatMap n.hist.segs ++
      ((n.eng.immutables.map PendingImm.walSeq).flatMap n.hist.segs ++ es) := by
    have hlog : n.hist.log = (gone ++ n.eng.flush.flushed.flatMap n.hist.segs ++
        ((n.eng.immutables.map PendingImm.walSeq).flatMap n.hist.segs ++ es)) ++ n.eng.wal.inflight := by
      rw [hmaps.log, hlogs]
      simp only [List.flatMap_append, List.flatMap_singleton, hspare, hseg, List.append_nil, List.append_assoc]
    have := h.counts.applied
    rw [hlog, List.take_left']
    rw [hlog, List.length_append] at this
    omega
  have hsorted := logs_sorted h.logs
  have hgens : (n.eng.immutables.map PendingImm.walSeq ++ [n.eng.generation]).Pairwise (· < ·) := by
    obtain ⟨F, -, hasc, -⟩ := h.seq.order
    exact (List.pairwise_append.1 hasc).2.1
  have hent : (n.eng.immutables.map PendingImm.walSeq).flatMap n.hist.entries ++
      ((if n.eng.generation = n.hist.opened then n.hist.carried else []) ++ es) =
      n.hist.carriedIn n.eng.generations ++ ((n.eng.immutables.map PendingImm.walSeq).flatMap n.hist.segs ++ es) := by
    have hne : ∀ g ∈ n.eng.immutables.map PendingImm.walSeq, g ≠ n.eng.generation :=
      fun g hg => ((List.pairwise_append.1 hgens).2.2 g hg _ (List.mem_singleton_self _)).ne
    have hsegs : (n.eng.immutables.map PendingImm.walSeq).flatMap (Function.update n.hist.segs n.eng.generation es) =
        (n.eng.immutables.map PendingImm.walSeq).flatMap n.hist.segs :=
      List.flatMap_congr (fun g hg => Function.update_of_ne (hne g hg) _ _)
    have hentries : (n.eng.immutables.map PendingImm.walSeq).flatMap (fun g =>
        (if g = n.hist.opened then n.hist.carried else []) ++ Function.update n.hist.segs n.eng.generation es g) =
        (n.eng.immutables.map PendingImm.walSeq).flatMap n.hist.entries :=
      List.flatMap_congr (fun g hg => by rw [Function.update_of_ne (hne g hg)]; rfl)
    have := flatMap_carried n.hist hgens
      (fun g hg => h.logs.opened g (mem_logs_of_generation n.eng hg)) (Function.update n.hist.segs n.eng.generation es)
    rw [List.flatMap_append, List.flatMap_append, List.flatMap_singleton, List.flatMap_singleton, Function.update_self,
      hsegs, hentries] at this
    exact this
  rw [Engine.map, MemTable.layer_congr hactive, map_replay_layer, map_immutables h.logs _ (fun _ hp => hp), Hist.mapAt, htake,
    ← runWrites_append, hent, runWrites_append, runWrites_append (gone ++ _)]
  congr 1
  rcases eq_or_ne n.eng.flush.flushed [] with hf | hf
  · -- the log the open created, if it is there, belongs to a generation of the engine
    have hci : n.hist.carriedIn n.eng.generations = n.hist.carriedIn n.eng.logs := by
      have hiff : n.hist.opened ∈ n.eng.generations ↔ n.hist.opened ∈ n.eng.logs := by
        refine ⟨mem_logs_of_generation n.eng, fun hm => ?_⟩
        rw [Engine.logs, hf, List.nil_append, List.mem_append] at hm
        rcases hm with hm | hm
        · exact hm
        · rw [Engine.logs, List.pairwise_append] at hsorted
          have h1 := hsorted.2.2 n.eng.generation (by simp [Engine.generations]) _ hm
          have h2 := h.logs.opened _ (generation_mem_logs n.eng)
          omega
      simp only [Hist.carriedIn, hiff]
    rw [hci, hmaps.tables hf, hf, List.flatMap_nil, List.append_nil]
  · obtain ⟨t, ht⟩ := List.exists_mem_of_ne_nil _ hf
    have hout : n.hist.opened ∉ n.eng.generations := by
      intro hm
      have h1 := h.seq.flushedLt t ht _ hm
      have h2 := h.logs.opened t (by rw [Engine.logs]; simp [ht])
      omega
    rw [Hist.carriedIn, if_neg hout, runWrites_nil, hmaps.tables' hf]

end LsmEngine
