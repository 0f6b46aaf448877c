import LsmEngine.Lemmas.Compaction
import LsmEngine.Lemmas.Within

/-!
# What maintenance rests on

The facts that a flush pass and a compaction need, in every run and whatever fails in it: the MemTables hold accepted writes, every
table of the levels and of the MANIFEST has its file, and a handle that keeps an error keeps one of the file system. The logs a run
starts with may hold any bytes.
-/

namespace LsmEngine

open Transition

variable {Γ : Ctx} {n n' : Node Γ}

/-! ## The MemTables -/

/-- The MemTables hold accepted writes; a frozen one holds some and takes no more. -/
structure MemsOk (e : Engine Γ) : Prop where
  stored : ∀ i, (e.mems i).Stored
  inflight : ∀ w ∈ e.wal.inflight, w.Valid
  frozen : ∀ p ∈ e.immutables, p.mem < e.active ∧ (e.mems p.mem).isEmpty = false
  full : e.wal.rotates = true → (e.mems e.active).isEmpty = false

/-- MemTables in order can be flushed. -/
theorem MemsOk.flushable {e : Engine Γ} (h : MemsOk e) : e.Flushable :=
  fun p hp => ⟨(h.frozen p hp).1, (h.frozen p hp).2, h.stored p.mem⟩

/-- MemTables stay in order when one in order takes the place of another. -/
theorem stored_update {mems : Nat → MemTable} (h : ∀ i, (mems i).Stored) {m : MemTable} (hm : m.Stored) (j : Nat) :
    ∀ i, (Function.update mems j m i).Stored := by
  intro i
  rw [Function.update_apply]
  split_ifs
  · exact hm
  · exact h i

/-- The MemTables stay, and the wal mutex is where it asks nothing of them. -/
theorem MemsOk.setWal {e e' : Engine Γ} (h : MemsOk e) (hm : e'.mems = e.mems) (ha : e'.active = e.active)
    (hi : e'.immutables = e.immutables) (hw : ∀ w ∈ e'.wal.inflight, w.Valid)
    (hf : e'.wal.rotates = true → (e.mems e.active).isEmpty = false) : MemsOk e' := by
  refine ⟨?_, hw, ?_, ?_⟩
  · rw [hm]
    exact h.stored
  · rw [hm, ha, hi]
    exact h.frozen
  · rw [hm, ha]
    exact hf

/-- An append touches no MemTable. -/
theorem MemsOk.writeMove (h : MemsOk n.eng) {w : WalEntry} {io : Io} {o : Out} (hm : WriteMove n w io n' o) : MemsOk n'.eng := by
  cases hm with
  | refused => exact h
  | logged _ hv =>
    refine h.setWal rfl rfl rfl (fun x hx => ?_) (fun hf => absurd hf (by simp [Node.logWrite, WalSection.rotates]))
    rw [List.mem_singleton.1 hx]
    exact hv
  | torn => exact ⟨h.stored, h.inflight, h.frozen, h.full⟩

/-- A write of the log goes into the active MemTable. -/
theorem MemsOk.applyWrite (h : MemsOk n.eng) {w : WalEntry} (hv : w.Valid) : MemsOk (n.applyWrite w).eng := by
  refine ⟨stored_update h.stored (stored_applyTo hv.capped (h.stored _)) _, fun x hx => absurd hx List.not_mem_nil,
    fun p hp => ⟨(h.frozen p hp).1, ?_⟩, fun hf => absurd hf (by simp [Node.applyWrite, WalSection.rotates])⟩
  change (Function.update n.eng.mems n.eng.active _ p.mem).isEmpty = false
  rw [Function.update_of_ne (h.frozen p hp).1.ne]
  exact (h.frozen p hp).2

/-- The active MemTable freezes; it is not empty. -/
theorem MemsOk.swapActive (h : MemsOk n.eng) (hne : (n.eng.mems n.eng.active).isEmpty = false) (c : WalCaller) (newSeq : Nat) :
    MemsOk (n.swapActive c newSeq).eng := by
  refine ⟨stored_update h.stored MemTable.stored_new _, fun x hx => absurd hx List.not_mem_nil, fun p hp => ?_,
    fun hf => absurd hf (by simp [Node.swapActive, WalSection.rotates])⟩
  have hp' : p.mem < n.eng.active + 1 ∧ (n.eng.mems p.mem).isEmpty = false := by
    rcases List.mem_append.1 hp with hp | hp
    · exact ⟨(h.frozen p hp).1.trans (Nat.lt_succ_self _), (h.frozen p hp).2⟩
    · rw [List.mem_singleton.1 hp]
      exact ⟨Nat.lt_succ_self _, hne⟩
  refine ⟨hp'.1, ?_⟩
  change (Function.update n.eng.mems (n.eng.active + 1) MemTable.new p.mem).isEmpty = false
  rw [Function.update_of_ne hp'.1.ne]
  exact hp'.2

/-- A step under the wal mutex keeps the MemTables in order. -/
theorem MemsOk.walMove (h : MemsOk n.eng) {io : Io} {r : Node Γ × Out} (hm : WalMove n io r) : MemsOk r.1.eng := by
  have hfree : ∀ {e : Engine Γ}, e.mems = n.eng.mems → e.active = n.eng.active → e.immutables = n.eng.immutables →
      e.wal = .free → MemsOk e := by
    intro e h1 h2 h3 h4
    refine h.setWal h1 h2 h3 ?_ ?_ <;> rw [h4] <;> simp [WalSection.inflight, WalSection.rotates]
  have hin := h.inflight
  have hfull := h.full
  cases hm with
  | sync hw =>
    rw [hw] at hin
    exact h.setWal rfl rfl rfl hin (fun hf => absurd hf (by simp [Node.syncActive, WalSection.rotates]))
  | apply hw | applySynced hw =>
    rw [hw] at hin
    exact h.applyWrite (hin _ (List.mem_singleton_self _))
  | exceeds | flushSync =>
    exact h.setWal rfl rfl rfl (fun x hx => absurd hx List.not_mem_nil)
      (fun hf => absurd hf (by simp [Node.syncActive, WalSection.rotates]))
  | takeSeq _ he => exact h.setWal rfl rfl rfl (fun x hx => absurd hx List.not_mem_nil) (fun _ => he)
  | create hw =>
    rw [hw] at hfull
    exact h.setWal rfl rfl rfl (fun x hx => absurd hx List.not_mem_nil) (fun _ => hfull rfl)
  | swap hw =>
    rw [hw] at hfull
    exact h.swapActive (hfull rfl) _ _
  | syncFails | flushSyncFails | done => exact hfree rfl rfl rfl rfl
  | @nothing c | @createFails c | @replace c => cases c <;> exact hfree rfl rfl rfl rfl

/-- Only a freeze adds to the immutables. -/
theorem NodeMove.immutables_subset {a : Act} {x : Sys Γ × Out} (hm : NodeMove n a x) (ha : a.writes = false)
    (hx : x.1 = n'.toSys) : ∀ p ∈ n'.eng.immutables, p ∈ n.eng.immutables := by
  have hto : ∀ {m : Node Γ}, m.toSys = n'.toSys → m = n' := toSys_inj
  cases hm with
  | write | flush | wal | handover => simp [Act.writes] at ha
  | drop => simp [Node.drop, Node.toSys] at hx
  | flushStep hf =>
    obtain rfl := hto hx
    cases hf with
    | commit => exact fun p hp => (List.mem_filter.1 hp).1
    | @nothing c | @unbuilt c | @buildFails c | @manifestFailsFlush c | @flushDone c => cases c <;> exact fun p hp => hp
    | _ => exact fun p hp => hp
  | getStep hg =>
    obtain rfl := hto hx
    cases hg <;> exact fun p hp => hp
  | flushEnter | workerEnter | compactNothing | compactEnter | get =>
    obtain rfl := hto hx
    exact fun p hp => hp

theorem MemsOk.nodeMove (h : MemsOk n.eng) {a : Act} {x : Sys Γ × Out} (hm : NodeMove n a x) (hx : x.1 = n'.toSys) :
    MemsOk n'.eng := by
  by_cases ha : a.writes = false
  · have hsame := hm.sameWrites ha hx
    have hsub := hm.immutables_subset ha hx
    refine ⟨?_, ?_, fun p hp => ?_, ?_⟩
    · rw [hsame.mems]
      exact h.stored
    · rw [hsame.wal]
      exact h.inflight
    · rw [hsame.mems, hsame.active]
      exact h.frozen p (hsub p hp)
    · rw [hsame.wal, hsame.mems, hsame.active]
      exact h.full
  cases hm with
  | write hm =>
    obtain rfl := toSys_inj hx
    exact h.writeMove hm
  | wal hm =>
    obtain rfl := toSys_inj hx
    exact h.walMove hm
  | flush =>
    obtain rfl := toSys_inj hx
    exact h.setWal rfl rfl rfl (fun w hw => absurd hw List.not_mem_nil) (fun hf => absurd hf (by simp [WalSection.rotates]))
  | handover =>
    obtain rfl := toSys_inj hx
    exact ⟨h.stored, h.inflight, h.frozen, h.full⟩
  | _ => exact absurd rfl ha

/-! ## Every run -/

/-- Every table that the MANIFEST lists has its file. -/
def Disk.HasTables (Γ : Ctx) (d : Disk) : Prop := ∀ m ∈ stack d.manifestLevels, ∃ rs, TableOf Γ d m rs

/-- The listed tables are in order where MANIFEST and tables are the same. -/
theorem Disk.HasTables.congr {d d' : Disk} (h : d.HasTables Γ) (hs : d'.ssts = d.ssts) (hm : d'.manifest = d.manifest) :
    d'.HasTables Γ := by
  rw [HasTables, manifestLevels_congr hm]
  intro m hmm
  obtain ⟨rs, hrs⟩ := h m hmm
  exact ⟨rs, hrs.of_ssts hs⟩

theorem Disk.HasTables.crash {d : Disk} (h : d.HasTables Γ) (hs : Settled d.manifest) (κ : CrashKind) : (d.crash κ).HasTables Γ := by
  rw [HasTables, manifestLevels_crash hs]
  intro m hm
  obtain ⟨rs, hrs⟩ := h m hm
  exact ⟨rs, hrs.crash κ⟩

/-- A running engine whose maintenance can only fail by an I/O error. -/
structure TablesUp (n : Node Γ) : Prop where
  seq : SeqUp n
  tables : TablesOk n
  mems : MemsOk n.eng
  spoilt : ∀ m ∈ stack n.eng.levels, ∀ err, n.eng.readers m.name = some (.error err) → err = LsmError.io.toString

/-- What maintenance rests on, in whatever the process is doing. -/
def Sys.TablesOk (s : Sys Γ) : Prop :=
  match s.proc with
  | .down => s.disk.HasTables Γ
  | .opening o => s.disk.HasTables Γ ∧ ∀ r, o.stage.read = some r → r.mem.Stored
  | .up e => TablesUp ⟨s.disk, s.hist, e⟩

/-- Every action, whatever fails, keeps tables and MemTables in order. -/
theorem TablesUp.nodeMove (h : TablesUp n) {a : Act} {x : Sys Γ × Out} (hm : NodeMove n a x) (hx : x.1 = n'.toSys) :
    TablesUp n' where
  seq := by
    have hseq := seqInv_nodeMove h.seq hm
    rwa [hx] at hseq
  tables := h.tables.nodeMove h.seq h.mems.flushable hm hx
  mems := h.mems.nodeMove hm hx
  spoilt := by
    intro m hlive err he
    obtain ⟨hlive, hold | ⟨io, -, ho, -⟩⟩ := hm.spoils h.seq hx hlive he
    · exact h.spoilt m hlive err hold
    · obtain ⟨rs, htab⟩ := h.tables.live m hlive
      exact openReader_error htab ho

/-- What a running engine leaves behind. -/
theorem NodeMove.drop_files {a : Act} {x : Sys Γ × Out} (hm : NodeMove n a x) (hx : x.1.proc = .down) :
    x.1.disk.ssts = n.disk.ssts ∧ x.1.disk.manifest = n.disk.manifest := by
  cases hm with
  | @drop io =>
    simp only [Node.drop]
    split <;> simp
  | _ => exact absurd hx (by simp [Node.toSys])

/-- An open writes and removes logs only. -/
theorem OpenMove.files {s : Sys Γ} {o : Opening} {io : Io} {x : Sys Γ × Out} (hm : OpenMove s o io x) :
    x.1.disk.ssts = s.disk.ssts ∧ x.1.disk.manifest = s.disk.manifest := by
  cases hm with
  | torn =>
    simp only [Sys.openFails, Disk.tear]
    split <;> simp
  | sync => simp
  | _ => exact ⟨rfl, rfl⟩

/-- A MemTable that recovery has filled is in order. -/
theorem stored_recover {d : Disk} {r : Recovered} (h : recover Γ d = .ok r) : r.mem.Stored :=
  recover_mem_keeps MemTable.stored_new (fun he hm => stored_applyTo he hm) h

/-- The engine at the end of an open. -/
theorem tablesUp_engine {d : Disk} {hh : Hist} {r : Recovered} {options : LsmOptions} {buf : Bytes} (htab : d.HasTables Γ)
    (hlev : r.levels = d.manifestLevels) (hmem : r.mem.Stored) (hseq : SeqUp ⟨d, hh, r.engine Γ options buf⟩) :
    TablesUp ⟨d, hh, r.engine Γ options buf⟩ where
  seq := hseq
  tables :=
    { live := by
        change ∀ m ∈ stack r.levels, _
        rw [hlev]
        exact htab
      listed := htab
      readers := fun m _ rd hr => absurd hr (by simp [Recovered.engine])
      flush := trivial }
  mems := ⟨stored_update (fun _ => MemTable.stored_new) hmem 0, fun w hw => absurd hw List.not_mem_nil,
    fun p hp => absurd hp List.not_mem_nil, fun hf => absurd hf (by simp [Recovered.engine, WalSection.rotates])⟩
  spoilt := fun m _ err he => absurd he (by simp [Recovered.engine])

/-- A step of an open keeps the tables in order. -/
theorem OpenMove.tablesOk {s : Sys Γ} {o : Opening} {io : Io} {x : Sys Γ × Out} (hm : OpenMove s o io x) (hseq : SeqInv x.1)
    (hst : o.stage.SeqOk s.disk s.hist) (htab : s.disk.HasTables Γ) (hread : ∀ r, o.stage.read = some r → r.mem.Stored) :
    x.1.TablesOk := by
  have htab' : x.1.disk.HasTables Γ := htab.congr hm.files.1 hm.files.2
  have hstage : ∀ {r : Recovered}, o.stage.read = some r → ∀ r', some r = some r' → r'.mem.Stored :=
    fun hr r' hr' => Option.some.inj hr' ▸ hread _ hr
  cases hm with
  | loadFails | createFails | refused | torn | syncFails | runtimeFails => exact htab'
  | loaded _ _ hr => exact ⟨htab', fun r' hr' => Option.some.inj hr' ▸ stored_recover hr⟩
  | createdEmpty hst | created hst | append hst | sync hst | remove hst | removeFails hst =>
    exact ⟨htab', hstage (by rw [hst]; rfl)⟩
  | up hst' =>
    rw [hst'] at hst
    exact tablesUp_engine htab hst.1 (hread _ (by rw [hst']; rfl)) hseq

/-- The listed tables of a state are in order. -/
theorem Sys.TablesOk.hasTables {s : Sys Γ} (h : s.TablesOk) : s.disk.HasTables Γ := by
  unfold Sys.TablesOk at h
  cases hp : s.proc with
  | down => rwa [hp] at h
  | opening o =>
    rw [hp] at h
    exact h.1
  | up e =>
    rw [hp] at h
    exact h.tables.listed

/-- The MANIFEST of a state is settled. -/
theorem SeqInv.settled {s : Sys Γ} (h : SeqInv s) : Settled s.disk.manifest := by
  unfold SeqInv at h
  cases hp : s.proc with
  | down =>
    rw [hp] at h
    exact h.settled
  | opening o =>
    rw [hp] at h
    exact h.1.settled
  | up e =>
    rw [hp] at h
    exact h.settled

/-- Every step keeps what maintenance rests on, whatever fails in it. -/
theorem step_tablesOk {s t : Sys Γ} {a : Act} {o : Out} (hseq : SeqInv s) (h : s.TablesOk) (hs : step Γ s a = some (t, o)) :
    t.TablesOk := by
  have hseq' : SeqInv t := seqInv_step hseq hs
  have htab := h.hasTables
  unfold Sys.TablesOk at h
  cases step_cases hs with
  | crash => exact htab.crash hseq.settled _
  | openDir => exact ⟨htab, fun r hr => absurd hr (by simp [OpenStage.read])⟩
  | openStep hp hm =>
    rw [hp] at h
    rw [SeqInv, hp] at hseq
    exact hm.tablesOk hseq' hseq.2 h.1 h.2
  | @openHandover k op hp =>
    rw [hp] at h
    unfold Opening.handover
    split
    · exact ⟨h.1.congr (by simp) (by simp), h.2⟩
    · rw [Sys.TablesOk, hp]
      exact h
  | @node _ e _ hp hm =>
    rw [hp] at h
    unfold Sys.TablesOk
    cases ht : t.proc with
    | down =>
      obtain ⟨hssts, hman⟩ := hm.drop_files ht
      exact htab.congr hssts hman
    | opening op => cases hm <;> exact absurd ht (by simp [Node.toSys, Node.drop])
    | up e' => exact h.nodeMove hm (toSys_of_up ht)

/-- No process, and a directory with some logs in it and nothing else. -/
def Sys.ofLogs (Γ : Ctx) (logs : SortedMap Nat WalFile) : Sys Γ := ⟨{ Disk.empty with wals := logs }, {}, .down⟩

/-- A directory that holds just logs has its numbers in order. -/
theorem seqInv_ofLogs (logs : SortedMap Nat WalFile) : SeqInv (Sys.ofLogs Γ logs) :=
  ⟨.inl rfl, levelsOk_nil, List.Pairwise.nil, List.nil_sublist _, fun f hf => absurd hf (by simp [Sys.ofLogs])⟩

/-- In every state of a run from any logs, whatever fails, numbers and tables are in order. -/
theorem tablesOk_of_steps {ok : Sys Γ → Act → Prop} {logs : SortedMap Nat WalFile} {s : Sys Γ}
    (h : Steps (step Γ) ok (Sys.ofLogs Γ logs) s) : SeqInv s ∧ s.TablesOk :=
  h.invariant (P := fun u => SeqInv u ∧ u.TablesOk) ⟨seqInv_ofLogs logs, fun _ hm => absurd hm List.not_mem_nil⟩
    (fun hi _ hs => ⟨seqInv_step hi.1 hs, step_tablesOk hi.1 hi.2 hs⟩)

/-- A running engine, whatever has failed before. -/
theorem tablesUp_of_steps {ok : Sys Γ → Act → Prop} {logs : SortedMap Nat WalFile} {s : Sys Γ}
    (h : Steps (step Γ) ok (Sys.ofLogs Γ logs) s) {e : Engine Γ} (hp : s.proc = .up e) : TablesUp ⟨s.disk, s.hist, e⟩ := by
  have hup := (tablesOk_of_steps h).2
  rwa [Sys.TablesOk, hp] at hup

theorem tablesUp_of_init {ok : Sys Γ → Act → Prop} {s : Sys Γ} (h : Steps (step Γ) ok (Sys.init Γ) s) {e : Engine Γ}
    (hp : s.proc = .up e) : TablesUp ⟨s.disk, s.hist, e⟩ := by
  have hlogs : Steps (step Γ) ok (Sys.ofLogs Γ SortedMap.empty) s := h
  exact tablesUp_of_steps hlogs hp

/-! ## What stops maintenance -/

/-- The error that a flush pass or a compaction returns. -/
def Out.upkeepError : Out → Option LsmError
  | .flushed _ (.error err) | .passed (.error err) | .compacted (.error err) => some err
  | _ => none

/-- An error of maintenance is what its caller is told. -/
theorem reply_of_upkeepError {o : Out} {err : LsmError} (h : o.upkeepError = some err) : o.reply = [.done (.error err)] := by
  cases o with
  | flushed since r | passed r | compacted r =>
    cases r with
    | ok => simp [Out.upkeepError] at h
    | error e =>
      obtain rfl : e = err := by simpa [Out.upkeepError] using h
      rfl
  | _ => simp [Out.upkeepError] at h

/-- While the inputs are read it is a compaction that returns. -/
theorem FlushMove.reading_out {inputs todo : List SstMeta} {runs : List Run} (hf : n.eng.flush = .reading inputs todo runs) {io : Io}
    {r : Node Γ × Out} (hm : FlushMove n io r) : r.2 = .silent ∨ ∃ res, r.2 = .compacted res := by
  cases hm with
  | mergedNone | merged | readOpen | read => exact .inl rfl
  | mergedUnbuilt | readFails => exact .inr ⟨_, rfl⟩
  | nothing hf' | drained hf' | unbuilt hf' | built hf' | buildFails hf' | buildStage hf' | buildRename hf' | commit hf'
  | mergeFails hf' | mergeStage hf' | mergeRename hf' | install hf' | manifestFailsFlush hf' | manifestFailsCompact hf'
  | manifestStage hf' | manifestFlush hf' | manifestCompact hf' | flushDone hf' | unlinkWal hf' | unlinkWalFails hf'
  | compactDone hf' | unlinkInput hf' | unlinkInputFails hf' =>
    rw [hf] at hf'
    exact absurd hf' (by simp)

/-- A flush pass returns an error when an operation of its step fails, and for no other reason; a compaction does so as well when it
comes to a table whose first open has failed. -/
theorem NodeMove.upkeep_error (h : TablesUp n) {a : Act} {x : Sys Γ × Out} (hm : NodeMove n a x) {err : LsmError}
    (ho : x.2.upkeepError = some err) : (err = .io ∧ ∃ k, a = .walStep (.fail k) ∨ a = .flushStep (.fail k)) ∨
      (x.2 = .compacted (.error err) ∧ ∃ m ∈ stack n.eng.levels, n.eng.readers m.name = some (.error LsmError.io.toString) ∧
        err = readerError m.name LsmError.io.toString) := by
  cases hm with
  | @flushStep io r hf =>
    rcases hf.error_cases h.tables h.seq.levels.len h.mems.flushable (reply_of_upkeepError ho) with
      ⟨rfl, k, rfl⟩ | ⟨inputs, todo, sst, runs, e, hread, hlive, hr, rfl⟩
    · exact .inl ⟨rfl, k, .inr rfl⟩
    · obtain rfl := h.spoilt sst hlive e hr
      refine .inr ⟨?_, sst, hlive, hr, rfl⟩
      rcases hf.reading_out hread with hs | ⟨res, hs⟩
      · simp [hs, Out.upkeepError] at ho
      · dsimp only at ho ⊢
        rw [hs] at ho ⊢
        cases res with
        | ok => simp [Out.upkeepError] at ho
        | error e =>
          rw [Option.some.inj ho]
  | wal hw =>
    cases hw with
    | @flushSyncFails since k _ hio =>
      obtain rfl : LsmError.io = err := by simpa [Node.abort, Out.upkeepError] using ho
      exact .inl ⟨rfl, k, .inl (by rw [hio])⟩
    | @createFails c newSeq k _ hio =>
      refine .inl ⟨?_, k, .inl (by rw [hio])⟩
      cases c <;> simp [Node.abort, Out.upkeepError] at ho
      exact ho.symm
    | syncFails | done => simp [Node.abort, Node.finish, Out.upkeepError] at ho
    | @nothing c | @replace c => cases c <;> simp [Node.finish, Out.upkeepError] at ho
    | _ => simp [Out.upkeepError] at ho
  | write hw => cases hw <;> simp [Out.upkeepError] at ho
  | getStep hg => cases hg <;> simp [Out.upkeepError, Node.answer, Node.walkOn] at ho
  | _ => simp [Out.upkeepError] at ho

/-! ## A pass that nothing disturbs -/

/-- A pass of the worker, with no immutable left once it writes the MANIFEST. -/
structure Passing (n : Node Γ) : Prop where
  caller : n.eng.flush.caller = some .worker
  drained : n.eng.flush.drained ≠ none → n.eng.immutables = []

/-- A pass that has a caller is in progress. -/
theorem busy_of_caller {f : FlushSection} {c : FlushCaller} (h : f.caller = some c) : f.busy = true := by
  cases f with
  | free => simp [FlushSection.caller] at h
  | _ => rfl

/-- A step that does not fail brings the pass on, or is its last. -/
theorem FlushMove.passing (h : TablesUp n) (hp : Passing n) {r : Node Γ × Out} (hm : FlushMove n .ok r) :
    (r.2 = .silent ∧ Passing r.1) ∨ (r.2 = .passed (.ok ()) ∧ r.1.eng.immutables = []) := by
  obtain ⟨hc, hd⟩ := hp
  cases hm with
  | nothing hf hi =>
    rw [hf] at hc
    obtain rfl := Option.some.inj hc
    exact .inr ⟨rfl, hi⟩
  | drained hf hi =>
    rw [hf] at hc
    exact .inl ⟨rfl, hc, fun _ => hi⟩
  | unbuilt hf hi hb => exact absurd hb (h.mems.flushable.build_ne_error (by rw [hi]; exact List.mem_cons_self) _ _ _)
  | built hf | buildStage hf | buildRename hf | commit hf =>
    rw [hf] at hc
    exact .inl ⟨rfl, hc, fun hne => absurd rfl hne⟩
  | @manifestStage after m st st' hf =>
    rw [hf] at hc hd
    cases after with
    | removeWals c ws => exact .inl ⟨rfl, hc, hd⟩
    | removeInputs => simp [FlushSection.caller] at hc
  | manifestFlush hf | unlinkWal hf =>
    rw [hf] at hc hd
    exact .inl ⟨rfl, hc, hd⟩
  | flushDone hf =>
    rw [hf] at hc hd
    obtain rfl := Option.some.inj hc
    exact .inr ⟨rfl, hd (by simp [FlushSection.drained])⟩
  | buildFails _ hio | mergeFails _ hio | manifestFailsFlush _ hio | manifestFailsCompact _ hio | unlinkWalFails _ hio
  | unlinkInputFails _ hio => simp at hio
  | mergedNone hf | mergedUnbuilt hf | merged hf | readOpen hf | readFails hf | read hf | mergeStage hf | mergeRename hf
  | install hf | manifestCompact hf | compactDone hf | unlinkInput hf =>
    rw [hf] at hc
    simp [FlushSection.caller] at hc

/-- The holder of `flush_lock` goes on, or leaves it. -/
theorem FlushMove.leaves {io : Io} {r : Node Γ × Out} (hm : FlushMove n io r) :
    (r.2 = .silent ∧ r.1.eng.flush.busy = true) ∨ r.1.eng.flush = .free := by
  cases hm with
  | readOpen hf =>
    refine .inl ⟨rfl, ?_⟩
    dsimp only
    rw [hf]
    rfl
  | @nothing c | @unbuilt c | @buildFails c | @manifestFailsFlush c | @flushDone c => cases c <;> exact .inr rfl
  | mergedUnbuilt | readFails | mergeFails | manifestFailsCompact | compactDone => exact .inr rfl
  | _ => exact .inl ⟨rfl, rfl⟩

/-- What the holders of the locks and the worker do when nothing fails. -/
def Act.tends : Act → Bool
  | .walStep .ok | .flushStep .ok | .workerEnter => true
  | _ => false

/-- An engine that may flush: nobody holds `state_lock`. -/
def Unlocked (n : Node Γ) : Prop := TablesUp n ∧ n.eng.wal.holdsStateLock = false

/-- A step of a pass that holds no other lock takes none. -/
theorem Unlocked.flushMove (h : Unlocked n) {io : Io} {r : Node Γ × Out} (hm : FlushMove n io r) : Unlocked r.1 :=
  ⟨h.1.nodeMove (.flushStep hm) rfl, by rw [hm.sameWrites.wal]; exact h.2⟩

/-- Whoever holds `state_lock` leaves it with the next step. -/
theorem TablesUp.unlocks (h : TablesUp n) : ∃ as m os, (∀ a ∈ as, a.tends = true) ∧
    play (step Γ) as n.toSys = some (m.toSys, os) ∧ Unlocked m := by
  by_cases hl : n.eng.wal.holdsStateLock = false
  · exact ⟨[], n, [], fun a ha => absurd ha List.not_mem_nil, rfl, h, hl⟩
  cases hw : n.eng.wal with
  | swapped c newSeq =>
    obtain ⟨r, hr⟩ := walStep_goes (n := n) (by simp [hw])
    have hs : step Γ n.toSys (.walStep .ok) = some (r.1.toSys, r.2) := by
      simp only [step, Node.toSys, Node.act, Node.lift, hr, Option.map_some]
    refine ⟨[.walStep .ok], r.1, [r.2], by simp [Act.tends], by simp only [play, hs, Option.map_some],
      h.nodeMove (.wal (walStep_cases hr)) rfl, ?_⟩
    simp only [Node.walStep, hw, Option.some.injEq] at hr
    rw [← hr]
    cases c <;> rfl
  | _ => exact absurd (by rw [hw]; rfl) hl

/-- Whoever holds `flush_lock` leaves it. -/
theorem Unlocked.releases (h : Unlocked n) : ∃ as m os, (∀ a ∈ as, a.tends = true) ∧
    play (step Γ) as n.toSys = some (m.toSys, os) ∧ Unlocked m ∧ m.eng.flush = .free := by
  by_cases hb : n.eng.flush.busy = true
  · obtain ⟨fuel, m, os, o, hplay, -, hm, hfree⟩ := flush_returns (n := n) (P := fun m => Unlocked m ∧ m.eng.flush.busy = true)
      (Q := fun m _ => Unlocked m ∧ m.eng.flush = .free) (A := fun io => io = .ok)
      (fun m hm => ⟨hm.1.1.seq, hm.1.1.tables, hm.1.2, hm.2⟩)
      (fun m io r hm _ hmove => hmove.leaves.imp (fun hs => ⟨hs.1, hm.1.flushMove hmove, hs.2⟩)
        (fun hf => ⟨hm.1.flushMove hmove, hf⟩)) (fun _ => .ok) (fun _ => rfl) ⟨h, hb⟩
    exact ⟨_, m, _, by simp [Act.tends], hplay, hm, hfree⟩
  · refine ⟨[], n, [], fun a ha => absurd ha List.not_mem_nil, rfl, h, ?_⟩
    cases hf : n.eng.flush with
    | free => rfl
    | _ => exact absurd (by rw [hf]; rfl) hb

/-- The worker takes `flush_lock` and flushes every immutable. -/
theorem Unlocked.passes (h : Unlocked n) (hf : n.eng.flush = .free) : ∃ (as : List Act) (m : Node Γ) (os : List Out), (∀ a ∈ as, a.tends = true) ∧
    play (step Γ) as n.toSys = some (m.toSys, os ++ [.passed (.ok ())]) ∧ m.eng.immutables = [] := by
  have hmove : NodeMove n .workerEnter (Node.toSys { n with eng.flush := .draining .worker [] }, .silent) := .workerEnter hf
  have hs : step Γ n.toSys .workerEnter = some (Node.toSys { n with eng.flush := .draining .worker [] }, .silent) := by
    simp only [step, Node.toSys, Node.act, Node.lift, Node.workerEnter, hf, Option.map_some]
  have hstart : Unlocked { n with eng.flush := .draining .worker [] } := ⟨h.1.nodeMove hmove rfl, h.2⟩
  have hplay₀ : play (step Γ) [.workerEnter] n.toSys = some (Node.toSys { n with eng.flush := .draining .worker [] }, [.silent]) := by
    simp only [play, hs, Option.map_some]
  obtain ⟨fuel, m, os, o, hplay, -, ho, himm⟩ := flush_returns (n := { n with eng.flush := .draining .worker [] })
    (P := fun m => Unlocked m ∧ Passing m) (Q := fun m o => o = .passed (.ok ()) ∧ m.eng.immutables = []) (A := fun io => io = .ok)
    (fun m hm => ⟨hm.1.1.seq, hm.1.1.tables, hm.1.2, busy_of_caller hm.2.caller⟩)
    (fun m io r hm hio hmove => by
      subst hio
      exact (hmove.passing hm.1.1 hm.2).imp_left (fun hs => ⟨hs.1, hm.1.flushMove hmove, hs.2⟩))
    (fun _ => .ok) (fun _ => rfl) ⟨hstart, rfl, fun hne => absurd rfl hne⟩
  subst ho
  refine ⟨[.workerEnter] ++ (List.range fuel).map (fun _ => .flushStep .ok), m, [.silent] ++ os, by simp [Act.tends], ?_, himm⟩
  rw [List.append_assoc]
  exact play_trans hplay₀ hplay

/-- The holders of the locks finish, and a pass then flushes every immutable. -/
theorem TablesUp.drains (h : TablesUp n) : ∃ (as : List Act) (m : Node Γ) (os : List Out), (∀ a ∈ as, a.tends = true) ∧
    play (step Γ) as n.toSys = some (m.toSys, os ++ [.passed (.ok ())]) ∧ m.eng.immutables = [] := by
  obtain ⟨as₁, m₁, os₁, hacts₁, hplay₁, hu₁⟩ := h.unlocks
  obtain ⟨as₂, m₂, os₂, hacts₂, hplay₂, hu₂, hfree⟩ := hu₁.releases
  obtain ⟨as₃, m₃, os₃, hacts₃, hplay₃, himm⟩ := hu₂.passes hfree
  refine ⟨as₁ ++ (as₂ ++ as₃), m₃, os₁ ++ (os₂ ++ os₃), ?_, ?_, himm⟩
  · intro a ha
    rcases List.mem_append.1 ha with ha | ha
    · exact hacts₁ a ha
    · rcases List.mem_append.1 ha with ha | ha
      · exact hacts₂ a ha
      · exact hacts₃ a ha
  · rw [List.append_assoc, List.append_assoc]
    exact play_trans hplay₁ (play_trans hplay₂ hplay₃)

end LsmEngine
