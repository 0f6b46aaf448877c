import LsmEngine.Lemmas.Data

/-!
# What a running engine leaves behind

The directory a running engine leaves when it ends, by a crash or by a drop of its last handle: every log is cut somewhere, the
tables of the MANIFEST are whole. What is recovered from it is what is left of the logs laid over these tables. When only the
log of the active writer is cut, that is the map after the first writes, up to some write; however the logs are cut, every key
has the value one of its writes gave it, or the one it had when the oldest log was opened.
-/

namespace LsmEngine

open Overlay

variable {Γ : Ctx} {n : Node Γ} {d : Disk} {upTo : Nat → Nat} {gone : List WalEntry}

/-! ## Cut logs -/

/-- The directory `d` is that of the engine with the log of each generation `g` cut after `upTo g` bytes. -/
structure Cut (n : Node Γ) (upTo : Nat → Nat) (d : Disk) : Prop where
  keys : d.wals.keys = n.disk.wals.keys
  bytes : ∀ g f, d.wals.get g = some f → f.bytes = (walStream n.disk n.eng g).take (upTo g) ∧ f.synced ≤ f.bytes.length
  manifest : d.manifest = n.disk.manifest
  tables : ∀ m rs, TableOf Γ n.disk m rs → TableOf Γ d m rs

/-- How much of the log of a generation is in its file, or fsynced, when the process ends. -/
def Node.kept (n : Node Γ) (κ : CrashKind) (g : Nat) : Nat :=
  match n.disk.wals.get g, κ with
  | none, _ => 0
  | some f, .kill => f.bytes.length
  | some f, .powerLoss => f.synced

/-- A crash cuts every log where its file keeps it. -/
theorem cut_crash (hseq : SeqUp n) (hlogs : LogsOk n) (κ : CrashKind) : Cut n (n.kept κ) (n.disk.crash κ) where
  keys := Disk.keys_crash _ _
  bytes := by
    intro g f' hg
    rw [Disk.get_crash] at hg
    obtain ⟨f, hf, rfl⟩ := Option.map_eq_some_iff.1 hg
    have hs := hlogs.synced g f hf
    refine ⟨?_, WalFile.crash_synced κ hs⟩
    have htake : ∀ k ≤ f.bytes.length, (walStream n.disk n.eng g).take k = f.bytes.take k := by
      intro k hk
      simp only [walStream, hf, Option.map_some, Option.getD_some]
      rw [List.take_append_of_le_length hk]
    cases κ with
    | kill =>
      simp only [Node.kept, hf, htake _ (Nat.le_refl _), List.take_length]
      rfl
    | powerLoss =>
      simp only [Node.kept, hf, htake _ hs]
      rfl
  manifest := hseq.settled.crash κ
  tables := fun _ _ h => h.crash κ

/-- A drop hands the buffer of the writer over: no log is cut. -/
theorem cut_drop (hlogs : LogsOk n) : Cut n (fun g => (walStream n.disk n.eng g).length) (n.drop .ok).disk where
  keys := by simp [Node.drop]
  bytes := by
    intro g f' hg
    rw [List.take_length]
    simp only [Node.drop, if_true, Disk.get_syncWal, Disk.get_appendWal] at hg
    split at hg
    · rename_i heq
      subst heq
      obtain ⟨f, hf, rfl⟩ := Option.map_eq_some_iff.1 hg
      obtain ⟨f0, hf0, rfl⟩ := Option.map_eq_some_iff.1 hf
      exact ⟨(walStream_self hf0).symm, Nat.le_refl _⟩
    · rename_i hne
      exact ⟨(walStream_of_ne hg (Ne.symm hne)).symm, hlogs.synced g f' hg⟩
  manifest := by simp [Node.drop]
  tables := fun m rs h => h.congr (by simp [Node.drop])

/-- The entries that are left of each log. -/
theorem Cut.entries (h : Cut n upTo d) (hlogs : LogsOk n) :
    ∃ c : Nat → Nat, ∀ g ∈ n.eng.logs, ∀ f, d.wals.get g = some f →
      Decodes Γ f.bytes ((n.hist.entries g).take (c g)) ∧ c g ≤ (n.hist.entries g).length ∧
      ∀ i ≤ (n.hist.entries g).length, (encodeAll Γ ((n.hist.entries g).take i)).length ≤ upTo g → i ≤ c g := by
  have hex : ∀ g, ∃ c, g ∈ n.eng.logs → ∀ f, d.wals.get g = some f →
      Decodes Γ f.bytes ((n.hist.entries g).take c) ∧ c ≤ (n.hist.entries g).length ∧
      ∀ i ≤ (n.hist.entries g).length, (encodeAll Γ ((n.hist.entries g).take i)).length ≤ upTo g → i ≤ c := by
    intro g
    by_cases hg : g ∈ n.eng.logs
    · obtain ⟨tail, ht, hst⟩ := hlogs.stream g hg
      have hdec : Decodes Γ (walStream n.disk n.eng g) (n.hist.entries g) := ⟨hlogs.valid g hg, tail, ht, hst⟩
      obtain ⟨j, hj, hcut, hmax⟩ := hdec.take (upTo g)
      refine ⟨j, fun _ f hf => ⟨?_, hj, hmax⟩⟩
      rw [(h.bytes g f hf).1]
      exact hcut
    · exact ⟨0, fun hc => absurd hc hg⟩
  choose c hc using hex
  exact ⟨c, hc⟩

/-- What is recovered from a directory with cut logs: the entries the open carried over, which are fsynced, and what is left of
the writes of each generation, over the tables of the MANIFEST. -/
theorem Cut.recovered (h : Cut n upTo d) (hdata : DataUp n)
    (hcar : n.hist.opened ∈ n.eng.logs → (encodeAll Γ n.hist.carried).length ≤ upTo n.hist.opened) :
    DiskOk Γ d ∧ ∃ c : Nat → Nat,
      d.recovered Γ = runWrites (n.hist.carriedIn n.eng.logs ++ n.eng.logs.flatMap (fun g => (n.hist.segs g).take (c g)))
        (tablesMap Γ n.disk n.disk.manifestLevels) ∧
      ∀ g ∈ n.eng.logs, ∀ i ≤ (n.hist.segs g).length,
        (encodeAll Γ ((if g = n.hist.opened then n.hist.carried else []) ++ (n.hist.segs g).take i)).length ≤ upTo g → i ≤ c g := by
  obtain ⟨c, hc⟩ := h.entries hdata.logs
  have hkeys : d.wals.keys = n.eng.logs := by rw [h.keys, hdata.logs.keys]
  have hml : d.manifestLevels = n.disk.manifestLevels := manifestLevels_congr h.manifest
  have hfile : ∀ g ∈ n.eng.logs, ∃ f, d.wals.get g = some f := by
    intro g hg
    rw [← hkeys] at hg
    exact d.wals.mem_keys_iff.1 hg
  have hmem : ∀ g f, d.wals.get g = some f → g ∈ n.eng.logs := by
    intro g f hf
    rw [← hkeys]
    exact d.wals.mem_keys_iff.2 ⟨f, hf⟩
  have hent : ∀ g ∈ n.eng.logs, d.entries Γ g = (n.hist.entries g).take (c g) := by
    intro g hg
    obtain ⟨f, hf⟩ := hfile g hg
    exact (hc g hg f hf).1.entries hf
  refine ⟨?_, fun g => c g - (if g = n.hist.opened then n.hist.carried else []).length, ?_, ?_⟩
  · exact {
      settled := by rw [h.manifest]; exact hdata.seq.settled
      listed := by rw [hml]; exact hdata.seq.listed
      tables := by
        rw [hml]
        intro m hm
        obtain ⟨rs, hrs⟩ := hdata.tables.listed m hm
        exact ⟨rs, h.tables m rs hrs⟩
      logs := by
        intro g f hf
        rw [hent g (hmem g f hf)]
        exact (hc g (hmem g f hf) f hf).1
      synced := fun g f hf => (h.bytes g f hf).2 }
  · have htab : tablesMap Γ d d.manifestLevels = tablesMap Γ n.disk n.disk.manifestLevels := by
      rw [hml]
      unfold tablesMap
      congr 1
      apply List.map_congr_left
      intro m hm
      obtain ⟨rs, hrs⟩ := hdata.tables.listed m hm
      rw [hrs.records, (h.tables m rs hrs).records]
    rw [Disk.recovered, htab, hkeys, ← flatMap_carried n.hist (logs_sorted hdata.logs) hdata.logs.opened]
    congr 1
    apply List.flatMap_congr
    intro g hg
    rw [hent g hg, Hist.entries, List.take_append]
    congr 1
    rw [List.take_of_length_le]
    split
    · rename_i heq
      obtain ⟨f, hf⟩ := hfile g hg
      refine (hc g hg f hf).2.2 _ (by simp [Hist.entries, heq]) ?_
      rw [Hist.entries, if_pos heq, List.take_left]
      subst heq
      exact hcar hg
    · exact Nat.zero_le _
  · intro g hg i hi hle
    obtain ⟨f, hf⟩ := hfile g hg
    have := (hc g hg f hf).2.2 ((if g = n.hist.opened then n.hist.carried else []).length + i)
      (by rw [Hist.entries, List.length_append]; omega)
      (by rw [Hist.entries, List.take_length_add_append]; exact hle)
    dsimp only
    omega

/-! ## The first writes -/

/-- Writes that change nothing, and writes that are already there, change nothing together. -/
theorem runWrites_again {es fs : List WalEntry} {b : Key → Option Value} (h : runWrites es b = b) :
    runWrites (es ++ fs) (runWrites fs b) = runWrites fs b := by
  funext k
  have hk := congrFun h k
  simp only [runWrites, onto] at hk
  rw [runWrites_append]
  simp only [runWrites, onto]
  cases layerOf (fs.map WalEntry.write) k with
  | some x => rfl
  | none => exact hk

/-- Logs that are whole where they were flushed, over the tables of the MANIFEST, stand for the writes that are gone and what is
left in the logs. -/
theorem MapsOk.recovered (h : MapsOk n gone) {S : Nat → List WalEntry} (hS : ∀ g ∈ n.eng.flush.flushed, S g = n.hist.segs g) :
    runWrites (n.hist.carriedIn n.eng.logs ++ n.eng.logs.flatMap S) (tablesMap Γ n.disk n.disk.manifestLevels) =
      runWrites (gone ++ n.eng.logs.flatMap S) n.hist.base := by
  rw [runWrites_append, runWrites_append gone]
  cases hu : n.eng.flush.unlisted with
  | true => rw [h.listed' hu]
  | false =>
    rw [h.listed hu]
    rcases eq_or_ne n.eng.flush.flushed [] with hf | hf
    · rw [h.tables hf]
    · -- the tables hold the flushed generations, whose logs are replayed over them once more
      rw [h.tables' hf]
      have hsplit : n.eng.logs.flatMap S = n.eng.flush.flushed.flatMap n.hist.segs ++
          (n.eng.generations ++ n.eng.wal.spare).flatMap S := by
        rw [Engine.logs, List.append_assoc, List.flatMap_append, List.flatMap_congr hS]
      rw [hsplit, runWrites_append (n.eng.flush.flushed.flatMap n.hist.segs), runWrites_append (n.eng.flush.flushed.flatMap _)]
      congr 1
      rw [← runWrites_append]
      by_cases ho : n.hist.opened ∈ n.eng.logs
      · rw [Hist.carriedIn, if_pos ho, h.first ho, List.nil_append, runWrites_nil]
        exact runWrites_again h.base
      · rw [Hist.carriedIn, if_neg ho, List.nil_append, runWrites_append, runWrites_self]

/-- Only the generation of the writer and those before it have writes. -/
theorem segs_after (hlogs : LogsOk n) {g : Nat} (hg : g ∈ n.eng.logs) (hlt : n.eng.walSeq < g) :
    n.hist.segs g = [] := by
  by_cases hgen : n.eng.generation < g
  · exact hlogs.unused g hgen
  · cases hl : n.eng.wal.holdsStateLock with
    | false =>
      rw [generation_of_not_swapped hl] at hgen
      exact absurd hlt hgen
    | true =>
      cases hw : n.eng.wal <;> simp [hw, WalSection.holdsStateLock] at hl
      rename_i c newSeq
      obtain ⟨hempty, p, hp, hps⟩ := hlogs.swapped _ _ hw
      have hgeneq : n.eng.generation = newSeq := by simp [Engine.generation, hw]
      have heq : g = newSeq := by
        obtain ⟨init, hinit⟩ : ∃ init, n.eng.immutables = init ++ [p] := List.getLast?_eq_some_iff.1 hp
        have hL : n.eng.logs = (n.eng.flush.flushed ++ init.map PendingImm.walSeq) ++ [n.eng.walSeq, newSeq] := by
          simp [Engine.logs, Engine.generations, hinit, hps, hgeneq, hw, WalSection.spare]
        have hs := logs_sorted hlogs
        rw [hL, List.pairwise_append] at hs
        rw [hL, List.mem_append] at hg
        rcases hg with hg | hg
        · have := hs.2.2 g hg n.eng.walSeq (by simp)
          omega
        · simp only [List.mem_cons, List.not_mem_nil, or_false] at hg
          omega
      rw [heq]
      simp only [Hist.entries, List.append_eq_nil_iff] at hempty
      exact hempty.2

/-- Where only the log of the writer is cut, what is left are the first writes. -/
theorem MapsOk.firstWrites (h : MapsOk n gone) (hlogs : LogsOk n) (hcounts : CountsOk n) {c : Nat → Nat}
    (hc : ∀ g ∈ n.eng.logs, g ≠ n.eng.walSeq → (n.hist.segs g).length ≤ c g) :
    gone ++ n.eng.logs.flatMap (fun g => (n.hist.segs g).take (c g)) = n.hist.log.take (n.hist.rotated + c n.eng.walSeq) := by
  obtain ⟨pre, post, hL⟩ := List.append_of_mem hlogs.walSeq_mem
  have hs := logs_sorted hlogs
  rw [hL, List.pairwise_append] at hs
  obtain ⟨-, hs2, hs3⟩ := hs
  have hpre : pre.flatMap (fun g => (n.hist.segs g).take (c g)) = pre.flatMap n.hist.segs := by
    apply List.flatMap_congr
    intro g hg
    exact List.take_of_length_le (hc g (by rw [hL]; simp [hg]) (hs3 g hg _ List.mem_cons_self).ne)
  have hpost : ∀ g ∈ post, n.hist.segs g = [] := by
    intro g hg
    exact segs_after hlogs (by rw [hL]; simp [hg]) ((List.pairwise_cons.1 hs2).1 g hg)
  have hpost1 : post.flatMap n.hist.segs = [] := List.flatMap_eq_nil_iff.2 hpost
  have hpost2 : post.flatMap (fun g => (n.hist.segs g).take (c g)) = [] :=
    List.flatMap_eq_nil_iff.2 (fun g hg => by rw [hpost g hg, List.take_nil])
  have hlog : n.hist.log = (gone ++ pre.flatMap n.hist.segs) ++ n.hist.segs n.eng.walSeq := by
    rw [h.log, hL, List.flatMap_append, List.flatMap_cons, hpost1, List.append_nil, List.append_assoc]
  have hrot : n.hist.rotated = (gone ++ pre.flatMap n.hist.segs).length := by
    have h1 := hcounts.rotated
    have h2 := congrArg List.length hlog
    rw [List.length_append] at h2
    omega
  rw [hL, List.flatMap_append, List.flatMap_cons, hpre, hpost2, List.append_nil, hlog, hrot, List.take_length_add_append,
    List.append_assoc]

/-- A flushed generation is not the one of the writer. -/
theorem flushed_ne_walSeq (hseq : SeqUp n) (hlogs : LogsOk n) {g : Nat} (hg : g ∈ n.eng.flush.flushed) : g ≠ n.eng.walSeq := by
  have hlt := hseq.flushedLt g hg
  cases hl : n.eng.wal.holdsStateLock with
  | false =>
    have := hlt n.eng.generation (by simp [Engine.generations])
    rw [generation_of_not_swapped hl] at this
    exact this.ne
  | true =>
    cases hw : n.eng.wal <;> simp [hw, WalSection.holdsStateLock] at hl
    obtain ⟨-, p, hp, hps⟩ := hlogs.swapped _ _ hw
    have hmem : n.eng.walSeq ∈ n.eng.generations := by
      rw [← hps]
      exact List.mem_append_left _ (List.mem_map_of_mem (List.mem_of_getLast? hp))
    exact (hlt _ hmem).ne

/-- Where only the log of the writer is cut, what is recovered is the map after the first writes: all but those that the cut
takes, and at least the rotated ones. -/
theorem Cut.firstWrites (h : Cut n upTo d) (hdata : DataUp n)
    (hold : ∀ g ∈ n.eng.logs, g ≠ n.eng.walSeq → (encodeAll Γ (n.hist.entries g)).length ≤ upTo g)
    (hcar : n.hist.opened ∈ n.eng.logs → (encodeAll Γ n.hist.carried).length ≤ upTo n.hist.opened) :
    DiskOk Γ d ∧ ∃ j, n.hist.rotated ≤ j ∧ j ≤ n.hist.log.length ∧ d.recovered Γ = n.hist.mapAt j ∧
      ∀ es rest, n.hist.entries n.eng.walSeq = es ++ rest → (encodeAll Γ es).length ≤ upTo n.eng.walSeq →
        n.hist.log.length ≤ j + rest.length := by
  obtain ⟨gone, hmaps⟩ := hdata.maps
  obtain ⟨hdisk, c, hrec, hc⟩ := h.recovered hdata hcar
  have hwhole : ∀ g ∈ n.eng.logs, g ≠ n.eng.walSeq → (n.hist.segs g).length ≤ c g := by
    intro g hg hne
    refine hc g hg _ (Nat.le_refl _) ?_
    rw [List.take_length]
    exact hold g hg hne
  have hcount := hdata.counts.rotated
  refine ⟨hdisk, min (n.hist.rotated + c n.eng.walSeq) n.hist.log.length, by omega, by omega, ?_, ?_⟩
  · have hS : ∀ g ∈ n.eng.flush.flushed, (n.hist.segs g).take (c g) = n.hist.segs g := by
      intro g hg
      exact List.take_of_length_le (hwhole g (by simp [Engine.logs, hg]) (flushed_ne_walSeq hdata.seq hdata.logs hg))
    rw [hrec, hmaps.recovered hS, hmaps.firstWrites hdata.logs hdata.counts hwhole, Hist.mapAt, ← List.take_eq_take_min]
  · intro es rest hsplit hle
    rw [Hist.entries] at hsplit
    rcases Nat.lt_or_ge es.length (if n.eng.walSeq = n.hist.opened then n.hist.carried else []).length with hlt | hge
    · have := congrArg List.length hsplit
      rw [List.length_append, List.length_append] at this
      omega
    · have hlen := congrArg List.length hsplit
      rw [List.length_append, List.length_append] at hlen
      have hes : es = (if n.eng.walSeq = n.hist.opened then n.hist.carried else []) ++
          (n.hist.segs n.eng.walSeq).take
            (es.length - (if n.eng.walSeq = n.hist.opened then n.hist.carried else []).length) := by
        have htake : es = (es ++ rest).take es.length := List.take_left.symm
        rw [← hsplit, List.take_append, List.take_of_length_le hge] at htake
        exact htake
      have := hc n.eng.walSeq hdata.logs.walSeq_mem
        (es.length - (if n.eng.walSeq = n.hist.opened then n.hist.carried else []).length) (by omega) (by rw [← hes]; exact hle)
      omega

/-- What the logs hold when the active one is synced stands for all the writes in them. -/
theorem DataUp.synced_recovered (h : DataUp n) :
    DiskOk Γ (n.drop .ok).disk ∧ (n.drop .ok).disk.recovered Γ = n.hist.mapAt n.hist.log.length := by
  have hfull : ∀ g ∈ n.eng.logs, (encodeAll Γ (n.hist.entries g)).length ≤ (walStream n.disk n.eng g).length := by
    intro g hg
    obtain ⟨tail, -, hst⟩ := h.logs.stream g hg
    rw [hst, List.length_append]
    omega
  obtain ⟨hdisk, j, -, hj, hrec, hall⟩ := (cut_drop h.logs).firstWrites h (fun g hg _ => hfull g hg) (fun ho => by
    refine Nat.le_trans ?_ (hfull _ ho)
    rw [Hist.entries, if_pos rfl, encodeAll_append, List.length_append]
    omega)
  have hlen := hall (n.hist.entries n.eng.walSeq) [] (List.append_nil _).symm (hfull _ h.logs.walSeq_mem)
  obtain rfl : j = n.hist.log.length := by
    rw [List.length_nil] at hlen
    omega
  exact ⟨hdisk, hrec⟩

/-- The drop of an engine that nobody writes to leaves the map it stands for. -/
theorem DataUp.dropped (h : DataUp n) (hw : n.eng.wal = .free) :
    DiskOk Γ (n.drop .ok).disk ∧ (n.drop .ok).disk.recovered Γ = n.hist.mapAt n.hist.log.length ∧
      n.eng.map n.disk = n.hist.mapAt n.hist.log.length := by
  obtain ⟨hdisk, hrec⟩ := h.synced_recovered
  have happ := h.counts.applied
  rw [hw, show WalSection.free.inflight.length = 0 from rfl, Nat.add_zero] at happ
  exact ⟨hdisk, hrec, by rw [h.map_eq, happ]⟩

/-- The log of the writer is fsynced by a drop, the others as far as they were. -/
theorem cut_drop_crash (hseq : SeqUp n) (hlogs : LogsOk n) :
    Cut n (fun g => if g = n.eng.walSeq then (walStream n.disk n.eng g).length else n.kept .powerLoss g)
      ((n.drop .ok).disk.crash .powerLoss) where
  keys := by rw [Disk.keys_crash]; exact (cut_drop hlogs).keys
  bytes := by
    intro g f' hg
    rw [Disk.get_crash] at hg
    obtain ⟨f, hf, rfl⟩ := Option.map_eq_some_iff.1 hg
    obtain ⟨hbytes, hsync⟩ := (cut_drop hlogs).bytes g f hf
    rw [List.take_length] at hbytes
    refine ⟨?_, WalFile.crash_synced .powerLoss hsync⟩
    simp only [Node.drop, if_true, Disk.get_syncWal, Disk.get_appendWal] at hf
    split at hf
    · rename_i heq
      subst heq
      obtain ⟨f1, hf1, rfl⟩ := Option.map_eq_some_iff.1 hf
      simp only at hbytes
      simp only [WalFile.crash, if_pos, hbytes, List.take_length]
    · rename_i hne
      simp only [WalFile.crash, if_neg (Ne.symm hne), Node.kept, hf, hbytes]
  manifest := by
    have := hseq.settled.crash .powerLoss
    rw [← this]
    simp [Disk.crash, Node.drop]
  tables := fun m rs h => ((cut_drop hlogs).tables m rs h).crash .powerLoss

/-! ## Key by key -/

/-- The write of place `i` is in the log of a generation, among the first `c` of it. -/
def Held (n : Node Γ) (gone : List WalEntry) (c : Nat → Nat) (i : Nat) : Prop :=
  ∃ pre g post o, n.eng.logs = pre ++ g :: post ∧ i = gone.length + (pre.flatMap n.hist.segs).length + o ∧
    o < (n.hist.segs g).length ∧ o < c g

/-- The writes of the logs, each marked as left or not. -/
def marks (segs : Nat → List WalEntry) (c : Nat → Nat) (logs : List Nat) : List (Bool × Key × Option Value) :=
  logs.flatMap (fun g => ((segs g).take (c g)).map (fun w => (true, w.write)) ++
    ((segs g).drop (c g)).map (fun w => (false, w.write)))

/-- The marked writes are those that are kept of each log. -/
theorem marks_kept (segs : Nat → List WalEntry) (c : Nat → Nat) (logs : List Nat) :
    ((marks segs c logs).filter Prod.fst).map Prod.snd =
      (logs.flatMap (fun g => (segs g).take (c g))).map WalEntry.write := by
  induction logs with
  | nil => rfl
  | cons g logs ih =>
    have htrue : ∀ ws : List WalEntry, (ws.map (fun w => (true, w.write))).filter Prod.fst = ws.map (fun w => (true, w.write)) :=
      fun ws => List.filter_eq_self.2 (by simp)
    have hfalse : ∀ ws : List WalEntry, (ws.map (fun w => (false, w.write))).filter Prod.fst = [] :=
      fun ws => List.filter_eq_nil_iff.2 (by simp)
    simp only [marks, List.flatMap_cons, List.filter_append, List.map_append, htrue, hfalse] at ih ⊢
    rw [ih]
    simp [Function.comp_def]

/-- All writes of the marks are those of the logs. -/
theorem marks_all (segs : Nat → List WalEntry) (c : Nat → Nat) (logs : List Nat) :
    (marks segs c logs).map Prod.snd = (logs.flatMap segs).map WalEntry.write := by
  induction logs with
  | nil => rfl
  | cons g logs ih =>
    simp only [marks, List.flatMap_cons, List.map_append] at ih ⊢
    rw [ih]
    conv_rhs => rw [← List.take_append_drop (c g) (segs g)]
    simp [Function.comp_def]

/-- A write that is left is marked. -/
theorem Held.mark (h : MapsOk n gone) {c : Nat → Nat} {i : Nat} (hi : Held n gone c i) {w : WalEntry}
    (hw : n.hist.log[i]? = some w) : ∃ j, i = gone.length + j ∧ (marks n.hist.segs c n.eng.logs)[j]? = some (true, w.write) := by
  obtain ⟨pre, g, post, o, hL, rfl, ho, hoc⟩ := hi
  refine ⟨(pre.flatMap n.hist.segs).length + o, Nat.add_assoc _ _ _, ?_⟩
  have hlen : (marks n.hist.segs c pre).length = (pre.flatMap n.hist.segs).length := by
    simpa using congrArg List.length (marks_all n.hist.segs c pre)
  have hseg : (n.hist.segs g)[o]? = some w := by
    rw [h.log, hL, List.flatMap_append, List.flatMap_cons, Nat.add_assoc, List.getElem?_append_right (by omega),
      Nat.add_sub_cancel_left, List.getElem?_append_right (by omega), Nat.add_sub_cancel_left,
      List.getElem?_append_left ho] at hw
    exact hw
  rw [hL, marks, List.flatMap_append, List.flatMap_cons]
  change (marks n.hist.segs c pre ++ _)[_]? = _
  rw [List.getElem?_append_right (by omega), hlen, Nat.add_sub_cancel_left, List.append_assoc,
    List.getElem?_append_left (by simp; omega), List.getElem?_map, List.getElem?_take, if_pos hoc, hseg]
  rfl

/-- However the logs are cut, a key has the value it had after some write: not before the writes whose log is gone, and not
before any write of it that is left. -/
theorem MapsOk.key_value (h : MapsOk n gone) (c : Nat → Nat) (k : Key) :
    ∃ j, gone.length ≤ j ∧ j ≤ n.hist.log.length ∧
      runWrites (n.hist.carriedIn n.eng.logs ++ n.eng.logs.flatMap (fun g => (n.hist.segs g).take (c g)))
        (tablesMap Γ n.disk n.disk.manifestLevels) k = n.hist.mapAt j k ∧
      ∀ i, Held n gone c i → ∀ w, n.hist.log[i]? = some w → w.key = k → i < j := by
  have hlen : n.hist.log.length = gone.length + (n.eng.logs.flatMap n.hist.segs).length := by rw [h.log, List.length_append]
  have hmap : ∀ j, n.hist.mapAt (gone.length + j) = runWrites (gone ++ (n.eng.logs.flatMap n.hist.segs).take j) n.hist.base := by
    intro j
    rw [Hist.mapAt, h.log, List.take_length_add_append]
  have hmark := layerOf_marked (marks n.hist.segs c n.eng.logs) k
  rw [marks_kept, marks_all] at hmark
  rcases hmark with hnone | ⟨i, hi, x, hx, hfull, hlast⟩
  · -- no write of the key is left
    have hno : ∀ i, Held n gone c i → ∀ w, n.hist.log[i]? = some w → w.key ≠ k := by
      intro i hi w hw hk
      obtain ⟨j, -, hj⟩ := hi.mark h hw
      rw [← marks_kept, layerOf_eq_none] at hnone
      refine hnone w.write (List.mem_map.2 ⟨_, List.mem_filter.2 ⟨List.mem_of_getElem? hj, rfl⟩, rfl⟩) hk
    have hval : runWrites (n.hist.carriedIn n.eng.logs ++ n.eng.logs.flatMap (fun g => (n.hist.segs g).take (c g)))
        (tablesMap Γ n.disk n.disk.manifestLevels) k =
        runWrites (n.hist.carriedIn n.eng.logs) (tablesMap Γ n.disk n.disk.manifestLevels) k := by
      rw [runWrites_append]
      exact onto_of_none hnone _
    have hgone : ∀ y, y = runWrites gone n.hist.base k → ∃ j, gone.length ≤ j ∧ j ≤ n.hist.log.length ∧ y = n.hist.mapAt j k ∧
        ∀ i, Held n gone c i → ∀ w, n.hist.log[i]? = some w → w.key = k → i < j := by
      rintro y rfl
      refine ⟨gone.length, Nat.le_refl _, by omega, ?_, fun i hi w hw hk => absurd hk (hno i hi w hw)⟩
      have := hmap 0
      rw [Nat.add_zero, List.take_zero, List.append_nil] at this
      rw [this]
    rw [hval]
    cases hu : n.eng.flush.unlisted with
    | true => exact hgone _ (congrFun (h.listed' hu) k)
    | false =>
      rw [h.listed hu]
      rcases eq_or_ne n.eng.flush.flushed [] with hf | hf
      · exact hgone _ (congrFun (h.tables hf) k)
      · -- the tables hold the flushed generations: the key has the value they gave it, or the one carried over
        cases hcar : layerOf ((n.hist.carriedIn n.eng.logs).map WalEntry.write) k with
        | some x =>
          have ho : n.hist.opened ∈ n.eng.logs := by
            by_contra hne
            rw [Hist.carriedIn, if_neg hne] at hcar
            simp at hcar
          refine hgone _ ?_
          rw [h.first ho, runWrites_nil, ← h.base]
          rw [Hist.carriedIn, if_pos ho] at hcar ⊢
          simp only [runWrites, onto_of_some hcar]
        | none =>
          have hfl : (n.eng.logs.flatMap n.hist.segs).take (n.eng.flush.flushed.flatMap n.hist.segs).length =
              n.eng.flush.flushed.flatMap n.hist.segs := by
            rw [Engine.logs, List.append_assoc, List.flatMap_append, List.take_left]
          refine ⟨gone.length + (n.eng.flush.flushed.flatMap n.hist.segs).length, by omega, ?_, ?_,
            fun i hi w hw hk => absurd hk (hno i hi w hw)⟩
          · rw [hlen, Engine.logs, List.append_assoc, List.flatMap_append, List.length_append]
            omega
          · rw [hmap, hfl, ← h.tables' hf]
            exact onto_of_none hcar _
  · have hil : i < (n.eng.logs.flatMap n.hist.segs).length := by
      have := congrArg List.length (marks_all n.hist.segs c n.eng.logs)
      rw [List.length_map, List.length_map] at this
      omega
    refine ⟨gone.length + (i + 1), by omega, by omega, ?_, ?_⟩
    · rw [hmap, runWrites_append, runWrites_append]
      rw [← List.map_take] at hfull
      simp only [runWrites] at hx hfull ⊢
      rw [onto_of_some hx, onto_of_some hfull]
    · intro i' hi' w hw hk
      obtain ⟨j, rfl, hj⟩ := hi'.mark h hw
      have := hlast j w.write.2 (by rw [hj, ← hk]; rfl)
      omega

end LsmEngine
