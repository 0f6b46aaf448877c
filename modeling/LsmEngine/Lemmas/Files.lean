import LsmEngine.Lemmas.Listed
import LsmEngine.Lemmas.Within

/-!
# Which files there are

Every table file in the directory is of a table in the levels, or the holder of `flush_lock` has just put it there or is about to
remove it; a temporary file is there only while it is being written. This is so in runs without crashes and failures: a flush pass
that fails leaves its temporary file behind.
-/

namespace LsmEngine

open Transition

variable {Γ : Ctx} {n n' : Node Γ}

/-- The table files beside those of the levels: the table that is in place and not committed, or the inputs of a compaction that has
committed. -/
def FlushSection.beside : FlushSection → List SstMeta
  | .committing _ _ _ sst => [sst]
  | .installing _ output => output.toList
  | .manifest (.removeInputs inputs) _ _ => inputs
  | .unlinkInputs todo => todo
  | _ => []

/-- The table that is being written under its temporary name. -/
def FlushSection.staged : FlushSection → Option SstMeta
  | .building _ _ _ sst _ _ | .merging _ sst _ _ => some sst
  | _ => none

/-- The MANIFEST is being written under its temporary name. -/
def FlushSection.writesManifest : FlushSection → Bool
  | .manifest _ _ _ => true
  | _ => false

/-- The table files are of `tables`, and the only temporary files are of `staged` and, if `manifest`, of the MANIFEST. -/
structure Tidy (d : Disk) (tables : List SstMeta) (staged : Option SstMeta) (manifest : Bool) : Prop where
  ssts : ∀ name, d.ssts name ≠ none → ∃ m ∈ tables, m.name = name
  sstTmps : ∀ name, d.sstTmps name ≠ none → ∃ sst, staged = some sst ∧ sst.name = name
  manifestTmp : d.manifestTmp ≠ none → manifest = true

/-- A running engine has its files in order. -/
def Node.Tidy (n : Node Γ) : Prop :=
  LsmEngine.Tidy n.disk (stack n.eng.levels ++ n.eng.flush.beside) n.eng.flush.staged n.eng.flush.writesManifest

/-- The directory of a run without crashes and failures. -/
def Sys.Tidy (s : Sys Γ) : Prop :=
  match s.proc with
  | .up e => (Node.mk s.disk s.hist e).Tidy ∧ s.hist.stale = false
  | _ => LsmEngine.Tidy s.disk (stack s.disk.manifestLevels) none false

section Files

variable {d d' : Disk} {tables tables' : List SstMeta} {staged staged' : Option SstMeta} {manifest manifest' : Bool}

/-- The files stay, and more of them are accounted for. -/
theorem Tidy.weaken (h : Tidy d tables staged manifest) (ht : ∀ m ∈ tables, m ∈ tables')
    (hs : ∀ sst, staged = some sst → staged' = some sst) (hm : manifest = true → manifest' = true) :
    Tidy d tables' staged' manifest' where
  ssts := fun name hn => by
    obtain ⟨m, hmem, rfl⟩ := h.ssts name hn
    exact ⟨m, ht m hmem, rfl⟩
  sstTmps := fun name hn => by
    obtain ⟨sst, hsst, rfl⟩ := h.sstTmps name hn
    exact ⟨sst, hs sst hsst, rfl⟩
  manifestTmp := fun hn => hm (h.manifestTmp hn)

/-- The files that count stay as they are. -/
theorem Tidy.congr (h : Tidy d tables staged manifest) (h1 : d'.ssts = d.ssts) (h2 : d'.sstTmps = d.sstTmps)
    (h3 : d'.manifestTmp = d.manifestTmp) : Tidy d' tables staged manifest := by
  refine ⟨?_, ?_, ?_⟩
  · rw [h1]
    exact h.ssts
  · rw [h2]
    exact h.sstTmps
  · rw [h3]
    exact h.manifestTmp

/-- A stage of writing a table that does not rename it. -/
theorem Tidy.sstStage {sst : SstMeta} (h : Tidy d tables (some sst) manifest) (file : SstFile) {st : Stage} (hst : st ≠ .rename) :
    Tidy (d.sstStage sst.name file st) tables (some sst) manifest := by
  rw [Disk.sstStage, if_neg hst]
  refine ⟨h.ssts, fun name hn => ?_, h.manifestTmp⟩
  dsimp only at hn
  by_cases hname : name = sst.name
  · exact ⟨sst, rfl, hname.symm⟩
  · rw [Function.update_of_ne hname] at hn
    exact h.sstTmps name hn

/-- A table is renamed into place. -/
theorem Tidy.sstRename {sst : SstMeta} (h : Tidy d tables (some sst) manifest) (file : SstFile) :
    Tidy (d.sstStage sst.name file .rename) (tables ++ [sst]) none manifest := by
  rw [Disk.sstStage, if_pos rfl]
  refine ⟨fun name hn => ?_, fun name hn => ?_, h.manifestTmp⟩
  · dsimp only at hn
    by_cases hname : name = sst.name
    · exact ⟨sst, by simp, hname.symm⟩
    · rw [Function.update_of_ne hname] at hn
      obtain ⟨m, hm, rfl⟩ := h.ssts name hn
      exact ⟨m, List.mem_append_left _ hm, rfl⟩
  · dsimp only at hn
    by_cases hname : name = sst.name
    · rw [hname, Function.update_self] at hn
      exact absurd rfl hn
    · rw [Function.update_of_ne hname] at hn
      obtain ⟨sst', hsst', rfl⟩ := h.sstTmps name hn
      exact absurd (congrArg SstMeta.name (Option.some.inj hsst')).symm hname

/-- A table is removed. -/
theorem Tidy.removeSst {sst : SstMeta} {rest : List SstMeta} (h : Tidy d (tables ++ sst :: rest) staged manifest) :
    Tidy (d.removeSst sst.name) (tables ++ rest) staged manifest := by
  refine ⟨fun name hn => ?_, h.sstTmps, h.manifestTmp⟩
  by_cases hname : name = sst.name
  · simp [Disk.removeSst, hname] at hn
  · simp only [Disk.removeSst, Function.update_of_ne hname] at hn
    obtain ⟨m, hm, rfl⟩ := h.ssts name hn
    refine ⟨m, ?_, rfl⟩
    rcases List.mem_append.1 hm with hm | hm
    · exact List.mem_append_left _ hm
    · rcases List.mem_cons.1 hm with rfl | hm
      · exact absurd rfl hname
      · exact List.mem_append_right _ hm

/-- A stage of writing the MANIFEST. -/
theorem Tidy.manifestStage (h : Tidy d tables staged manifest) (m : Manifest) (st : Stage) :
    Tidy (d.manifestStage m st) tables staged (st.next.isSome) := by
  refine ⟨?_, ?_, fun hn => ?_⟩
  · rw [Disk.manifestStage_ssts]
    exact h.ssts
  · rw [manifestStage_sstTmps]
    exact h.sstTmps
  · rw [Disk.manifestStage_manifestTmp] at hn
    cases st with
    | rename => exact absurd rfl hn
    | _ => rfl

end Files

/-- The same levels have the same tables. -/
theorem SameLevels.mem_stack {a b : List (List SstMeta)} (h : SameLevels a b) {m : SstMeta} (hm : m ∈ stack a) : m ∈ stack b := by
  obtain ⟨l, hl, hml⟩ := LsmEngine.mem_stack.1 hm
  obtain ⟨i, hi⟩ := List.mem_iff_getElem?.1 hl
  have hb := h i
  rw [hi, Option.getD_some] at hb
  rw [hb] at hml
  cases hbi : b[i]? with
  | none => simp [hbi] at hml
  | some l' =>
    rw [hbi, Option.getD_some] at hml
    exact LsmEngine.mem_stack.2 ⟨l', List.mem_of_getElem? hbi, hml⟩

/-! ## Steps -/

/-- The holder of `flush_lock` moves on and touches no file that counts. -/
theorem Node.Tidy.move (h : n.Tidy) (h1 : n'.disk.ssts = n.disk.ssts) (h2 : n'.disk.sstTmps = n.disk.sstTmps)
    (h3 : n'.disk.manifestTmp = n.disk.manifestTmp)
    (hb : ∀ m ∈ stack n.eng.levels ++ n.eng.flush.beside, m ∈ stack n'.eng.levels ++ n'.eng.flush.beside)
    (hs : ∀ sst, n.eng.flush.staged = some sst → n'.eng.flush.staged = some sst)
    (hm : n.eng.flush.writesManifest = true → n'.eng.flush.writesManifest = true) : n'.Tidy :=
  (LsmEngine.Tidy.congr h h1 h2 h3).weaken hb hs hm

/-- A step of the holder of `flush_lock` leaves no file behind. -/
theorem Node.Tidy.flushMove (h : n.Tidy) (hdata : DataUp n) {r : Node Γ × Out} (hm : FlushMove n .ok r) : r.1.Tidy := by
  have hh := h
  unfold Node.Tidy at hh
  cases hm with
  | @nothing c hf | @unbuilt c _ _ _ _ hf | @flushDone c hf =>
    cases c <;> exact h.move rfl rfl rfl (by simp [Node.flushEnd, hf, FlushSection.beside])
      (by simp [hf, FlushSection.staged]) (by simp [hf, FlushSection.writesManifest])
  | drained hf | built hf | mergedNone hf | merged hf | read hf | unlinkWal hf =>
    exact h.move rfl rfl rfl (by simp [hf, FlushSection.beside]) (by simp [hf, FlushSection.staged])
      (by simp [hf, FlushSection.writesManifest])
  | readOpen hf => exact h.move rfl rfl rfl (fun _ h => h) (fun _ h => h) (fun h => h)
  | mergedUnbuilt hf | readFails hf | compactDone hf =>
    exact h.move rfl rfl rfl (by simp [Node.compactEnd, hf, FlushSection.beside]) (by simp [hf, FlushSection.staged])
      (by simp [hf, FlushSection.writesManifest])
  | buildStage hf hio hst =>
    rw [hf] at hh
    exact hh.sstStage _ (ne_rename_of_next hst)
  | mergeStage hf hio hst =>
    rw [hf] at hh
    exact hh.sstStage _ (ne_rename_of_next hst)
  | buildRename hf =>
    rw [hf] at hh
    exact (hh.sstRename _).weaken (by simp [FlushSection.beside]) (fun _ h => h) (fun h => h)
  | mergeRename hf =>
    rw [hf] at hh
    exact (hh.sstRename _).weaken (by simp [FlushSection.beside]) (fun _ h => h) (fun h => h)
  | @commit c fl p sst hf hl =>
    have hfresh : Fresh n.eng.nextSeq n.eng.levels n.disk.manifestLevels 0 sst := by
      have := hdata.seq.newSst sst (by rw [hf]; rfl)
      rwa [hf] at this
    have hstack : stack (n.commitFlush c fl p sst).eng.levels = stack n.eng.levels ++ [sst] := stack_flushedLevels hfresh.live
    refine h.move rfl rfl rfl (fun m hm => ?_) (by simp [hf, FlushSection.staged]) (by simp [hf, FlushSection.writesManifest])
    rw [hstack]
    rw [hf] at hm
    exact List.mem_append_left _ hm
  | @install inputs output hf hl =>
    have hstack : stack (n.commitCompaction inputs output).eng.levels = output.toList :=
      stack_compacted hdata.seq.levels.len output
    refine h.move rfl rfl rfl (fun m hm => ?_) (by simp [hf, FlushSection.staged]) (by simp [hf, FlushSection.writesManifest])
    rw [hstack]
    rw [hf] at hm
    rcases List.mem_append.1 hm with hm | hm
    · exact List.mem_append_right _ ((hdata.tables.inputs_live hdata.seq.levels.len (.inr (.inr ⟨_, hf⟩))).2 hm)
    · exact List.mem_append_left _ hm
  | @manifestStage after m st st' hf hio hst =>
    rw [hf] at hh
    refine (hh.manifestStage m st).weaken (fun _ h => ?_) (fun _ h => h) (fun _ => rfl)
    cases after <;> exact h
  | manifestFlush hf =>
    rw [hf] at hh
    exact hh.manifestStage _ .rename
  | manifestCompact hf =>
    rw [hf] at hh
    exact hh.manifestStage _ .rename
  | unlinkInput hf =>
    rw [hf] at hh
    exact hh.removeSst
  | buildFails _ hio | mergeFails _ hio | manifestFailsFlush _ hio | manifestFailsCompact _ hio | unlinkWalFails _ hio
  | unlinkInputFails _ hio => simp at hio

/-- The directories differ in their logs only. -/
structure LogsApart (d d' : Disk) : Prop where
  ssts : d'.ssts = d.ssts
  sstTmps : d'.sstTmps = d.sstTmps
  manifest : d'.manifest = d.manifest
  manifestTmp : d'.manifestTmp = d.manifestTmp

namespace LogsApart

variable (d : Disk)

theorem refl : LogsApart d d := ⟨rfl, rfl, rfl, rfl⟩

/-- Changes of the logs one after another are a change of the logs. -/
theorem trans {d d' d'' : Disk} (h : LogsApart d d') (h' : LogsApart d' d'') : LogsApart d d'' :=
  ⟨h'.ssts.trans h.ssts, h'.sstTmps.trans h.sstTmps, h'.manifest.trans h.manifest, h'.manifestTmp.trans h.manifestTmp⟩

theorem createWal (seq : Nat) : LogsApart d (d.createWal seq) := ⟨rfl, rfl, rfl, rfl⟩

theorem removeWal (seq : Nat) : LogsApart d (d.removeWal seq) := ⟨rfl, rfl, rfl, rfl⟩

/-- An append is a change of the logs. -/
theorem appendWal (seq : Nat) (bs : Bytes) : LogsApart d (d.appendWal seq bs) := by
  unfold Disk.appendWal
  split <;> exact ⟨rfl, rfl, rfl, rfl⟩

theorem syncWal (seq : Nat) : LogsApart d (d.syncWal seq) := by
  unfold Disk.syncWal
  split <;> exact ⟨rfl, rfl, rfl, rfl⟩

theorem tear (seq : Nat) (buf frame : Bytes) (k : Nat) : LogsApart d (d.tear seq buf frame k) := by
  unfold Disk.tear
  split
  · exact refl d
  · exact appendWal d _ _

end LogsApart

/-- An append of the engine changes nothing but logs. -/
theorem WriteMove.logsApart {w : WalEntry} {io : Io} {o : Out} (hm : WriteMove n w io n' o) : LogsApart n.disk n'.disk := by
  cases hm with
  | refused | logged => exact .refl _
  | torn => exact .tear _ _ _ _ _

theorem WalMove.logsApart {io : Io} {r : Node Γ × Out} (hm : WalMove n io r) : LogsApart n.disk r.1.disk := by
  cases hm with
  | sync | flushSync => exact (LogsApart.appendWal _ _ _).trans (.syncWal _ _)
  | create => exact .createWal _ _
  | @nothing c | @createFails c => cases c <;> exact .refl _
  | @replace c newSeq hw =>
    have hrep : LogsApart n.disk (n.replaceWriter newSeq io).disk := by
      unfold Node.replaceWriter
      dsimp only
      split
      · exact .appendWal _ _ _
      · exact .refl _
    cases c <;> exact hrep
  | _ => exact .refl _

/-- The holder of the wal mutex leaves alone what `flush_lock` guards. -/
theorem WalMove.leaves {io : Io} {r : Node Γ × Out} (hm : WalMove n io r) :
    r.1.eng.levels = n.eng.levels ∧ r.1.eng.flush = n.eng.flush ∧ r.1.hist.stale = n.hist.stale := by
  cases hm with
  | @nothing c | @createFails c | @replace c => cases c <;> exact ⟨rfl, rfl, rfl⟩
  | _ => exact ⟨rfl, rfl, rfl⟩

theorem OpenMove.logsApart {s : Sys Γ} {o : Opening} {io : Io} {x : Sys Γ × Out} (hm : OpenMove s o io x) :
    LogsApart s.disk x.1.disk := by
  cases hm with
  | createdEmpty | created => exact .createWal _ _
  | torn => exact .tear _ _ _ _ _
  | sync => exact (LogsApart.appendWal _ _ _).trans (.syncWal _ _)
  | remove => exact .removeWal _ _
  | _ => exact .refl _

/-- A step of a running engine that is not one of the holder of `flush_lock` changes no table file. -/
theorem Node.Tidy.apart (h : n.Tidy) (ha : LogsApart n.disk n'.disk) (hl : n'.eng.levels = n.eng.levels)
    (hf : n'.eng.flush = n.eng.flush) : n'.Tidy :=
  h.move ha.ssts ha.sstTmps ha.manifestTmp (by rw [hl, hf]; exact fun _ h => h) (by rw [hf]; exact fun _ h => h)
    (by rw [hf]; exact fun h => h)

/-- The MANIFEST is current as long as no write of it fails. -/
theorem FlushMove.stale {r : Node Γ × Out} (hm : FlushMove n .ok r) (h : n.hist.stale = false) : r.1.hist.stale = false := by
  cases hm with
  | manifestFlush | manifestCompact => rfl
  | @nothing c | @unbuilt c | @flushDone c => cases c <;> exact h
  | buildFails _ hio | mergeFails _ hio | manifestFailsFlush _ hio | manifestFailsCompact _ hio | unlinkWalFails _ hio
  | unlinkInputFails _ hio => simp at hio
  | _ => exact h

/-- An action that does not fail leaves no file behind. -/
theorem Node.Tidy.nodeMove (h : n.Tidy) (hs : n.hist.stale = false) (hdata : DataUp n) {a : Act} (ha : a.NoFail)
    {x : Sys Γ × Out} (hm : NodeMove n a x) (hx : x.1 = n'.toSys) : n'.Tidy ∧ n'.hist.stale = false := by
  have hto : ∀ {m : Node Γ}, m.toSys = n'.toSys → m = n' := toSys_inj
  cases hm with
  | flushStep hf =>
    obtain rfl := hto hx
    obtain rfl : _ = Io.ok := ha
    exact ⟨h.flushMove hdata hf, hf.stale hs⟩
  | write hw =>
    obtain rfl := hto hx
    refine ⟨h.apart hw.logsApart ?_ ?_, ?_⟩ <;> cases hw <;> first | rfl | exact hs
  | wal hw =>
    obtain rfl := hto hx
    obtain ⟨hlev, hflush, hstale⟩ := hw.leaves
    exact ⟨h.apart hw.logsApart hlev hflush, hstale.trans hs⟩
  | flushEnter hf | workerEnter hf | compactEnter hf | compactNothing hf =>
    obtain rfl := hto hx
    exact ⟨h.move rfl rfl rfl (by simp [Node.compactEnd, hf, FlushSection.beside]) (by simp [hf, FlushSection.staged])
      (by simp [hf, FlushSection.writesManifest]), hs⟩
  | getStep hg =>
    obtain rfl := hto hx
    cases hg <;> exact ⟨h.apart (.refl _) rfl rfl, hs⟩
  | flush | get =>
    obtain rfl := hto hx
    exact ⟨h.apart (.refl _) rfl rfl, hs⟩
  | handover =>
    obtain rfl := hto hx
    exact ⟨h.apart (.appendWal _ _ _) rfl rfl, hs⟩
  | drop => simp [Node.drop, Node.toSys] at hx

/-! ## Runs -/

/-- The actions of a run without crashes and failures. -/
def Smooth (_ : Sys Γ) (a : Act) : Prop := a.NoFail ∧ a.isCrash = false

instance (s : Sys Γ) (a : Act) : Decidable (Smooth s a) := inferInstanceAs (Decidable (_ ∧ _))

/-- A smooth run is one in which maintenance does not fail. -/
theorem Smooth.maintained {s : Sys Γ} {a : Act} (h : Smooth s a) : (Regime.maintained Γ).ok s a := ⟨h.2, h.1.harmless⟩

/-- A directory that only differs in its logs. -/
theorem Tidy.apart {d d' : Disk} (h : Tidy d (stack d.manifestLevels) none false) (ha : LogsApart d d') :
    Tidy d' (stack d'.manifestLevels) none false := by
  rw [manifestLevels_congr ha.manifest]
  exact h.congr ha.ssts ha.sstTmps ha.manifestTmp

/-- A smooth step leaves no file behind. -/
theorem Sys.Tidy.step {s t : Sys Γ} {a : Act} {o : Out} (h : s.Tidy) (hinv : (Regime.maintained Γ).Inv s) (ha : Smooth s a)
    (hs : LsmEngine.step Γ s a = some (t, o)) : t.Tidy := by
  cases step_cases hs with
  | crash => simp [Smooth, Act.isCrash] at ha
  | openDir hp => simpa only [Sys.Tidy, hp] using h
  | @openStep io op x hp hm =>
    simp only [Sys.Tidy, hp] at h
    have hapart := h.apart hm.logsApart
    cases hm with
    | @up r hst hio =>
      simp only [Regime.Inv, hp] at hinv
      have hlev : r.levels = s.disk.manifestLevels := by
        have hstage := hinv.2.1.stage
        rw [hst] at hstage
        exact hstage.2.1
      refine ⟨?_, rfl⟩
      unfold Node.Tidy
      simpa [Recovered.engine, hlev, FlushSection.beside, FlushSection.staged, FlushSection.writesManifest] using h
    | _ => exact hapart
  | @openHandover k op hp =>
    simp only [Sys.Tidy, hp] at h
    unfold Opening.handover
    split
    · exact h.apart (.appendWal _ _ _)
    · simpa only [Sys.Tidy, hp] using h
  | @node a e x hp hm =>
    simp only [Sys.Tidy, hp] at h
    simp only [Regime.Inv, hp] at hinv
    obtain ⟨hdata, -, ⟨-, hlisted, -⟩, -⟩ := hinv
    cases hpt : t.proc with
    | up e' =>
      simp only [Sys.Tidy, hpt]
      exact h.1.nodeMove h.2 hdata ha.1 hm (toSys_of_up hpt)
    | opening o' => cases hm <;> simp [Node.toSys, Node.drop] at hpt
    | down =>
      cases hm with
      | @drop io hw hf hq hg =>
        obtain rfl : io = .ok := ha.1
        -- the MANIFEST lists the levels
        have hsame := hlisted.current h.2 (by rw [hf]; rfl)
        have htidy := h.1
        unfold Node.Tidy at htidy
        rw [hf] at htidy
        have hdown : LsmEngine.Tidy s.disk (stack s.disk.manifestLevels) none false := by
          refine htidy.weaken (fun m hm => ?_) (fun _ h => h) (fun h => h)
          refine SameLevels.mem_stack (fun l => (hsame l).symm) ?_
          simpa [FlushSection.beside] using hm
        simp only [Sys.Tidy, Node.drop]
        exact hdown.apart ((LogsApart.appendWal _ _ _).trans (.syncWal _ _))
      | _ => simp [Node.toSys] at hpt

/-- The directory is in order throughout a run without crashes and failures. -/
theorem tidy_of_steps {s : Sys Γ} (h : Steps (step Γ) Smooth (Sys.init Γ) s) : s.Tidy ∧ (Regime.maintained Γ).Inv s := by
  refine h.invariant (P := fun s => s.Tidy ∧ (Regime.maintained Γ).Inv s) ⟨?_, Regime.inv_init (Regime.maintained_sound Γ)⟩ ?_
  · exact ⟨by simp [Sys.init, Disk.empty], by simp [Sys.init, Disk.empty], by simp [Sys.init, Disk.empty]⟩
  · intro t u a o ht ha hs
    exact ⟨ht.1.step ht.2 ha hs, Regime.inv_step (Regime.maintained_sound Γ).toStable ht.2 ha.maintained hs⟩

end LsmEngine
