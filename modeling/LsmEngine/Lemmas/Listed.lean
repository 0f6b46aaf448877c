import LsmEngine.Lemmas.Regimes

/-!
# The MANIFEST and the levels

Between two passes of the holder of `flush_lock` the MANIFEST lists the levels of the engine, unless the last write of it has
failed. The kind of run this is used for has no crashes, and nothing that fails in it leaves a trace.
-/

namespace LsmEngine

open Overlay

variable {Γ : Ctx} {n n' : Node Γ}

/-- The holder of `flush_lock` has changed the levels and not written the MANIFEST yet. -/
def FlushSection.behind : FlushSection → Bool
  | .draining _ flushed | .building _ flushed _ _ _ _ | .committing _ flushed _ _ => !flushed.isEmpty
  | .manifest _ _ _ => true
  | _ => false

/-- Two lists of levels are the same but for empty levels at the end. -/
def SameLevels (a b : List (List SstMeta)) : Prop := ∀ l : Nat, a[l]?.getD [] = b[l]?.getD []

structure Listed (n : Node Γ) : Prop where
  current : n.hist.stale = false → n.eng.flush.behind = false → SameLevels n.disk.manifestLevels n.eng.levels
  written : ∀ c todo, n.eng.flush = .unlinkWals c todo → n.hist.stale = false

/-- The levels and the MANIFEST stay as they are. -/
theorem Listed.keep (h : Listed n) (hlev : n'.eng.levels = n.eng.levels) (hman : n'.disk.manifest = n.disk.manifest)
    (hstale : n'.hist.stale = n.hist.stale)
    (hbehind : n'.eng.flush.behind = false → n.eng.flush.behind = false)
    (hunlink : ∀ c todo, n'.eng.flush = .unlinkWals c todo → ∃ c todo, n.eng.flush = .unlinkWals c todo) : Listed n' where
  current := fun hs hb => by
    rw [manifestLevels_congr hman, hlev]
    exact h.current (hstale ▸ hs) (hbehind hb)
  written := fun c todo hf => by
    obtain ⟨c', todo', hf'⟩ := hunlink c todo hf
    rw [hstale]
    exact h.written c' todo' hf'

/-- The holder of `flush_lock` has the MANIFEST to write. -/
theorem Listed.of_behind (h : n.eng.flush.behind = true) : Listed n where
  current := fun _ hb => by simp [h] at hb
  written := fun c todo hf => by simp [hf, FlushSection.behind] at h

/-- The MANIFEST is renamed into place. -/
theorem Listed.renamed (hseq : SeqUp n) {after : AfterManifest} {m : Manifest} (hf : n.eng.flush = .manifest after m .rename)
    (fl : FlushSection) :
    Listed { n with disk := n.disk.manifestStage m .rename, eng.flush := fl, hist.stale := false } where
  current := by
    intro _ _ l
    obtain ⟨hmeq, htmp⟩ : m = Manifest.ofLevels n.eng.levels ∧ n.disk.manifestTmp = some ⟨some m, some m⟩ := by
      have := hseq.manifest
      rwa [hf] at this
    rw [Disk.manifestLevels, Disk.manifestStage_rename_manifest, htmp]
    simp only [Option.bind_some, Option.map_some, Option.getD_some]
    rw [hmeq, ofLevels_getD hseq.levels.ordered]
  written := fun _ _ _ => rfl

/-- A write of the MANIFEST has failed. -/
theorem Listed.of_stale (h : n.hist.stale = true) (hf : n.eng.flush = .free) : Listed n where
  current := fun hs _ => by simp [h] at hs
  written := fun c todo hc => by simp [hf] at hc

/-- A step of the holder of `flush_lock` keeps every generation that is flushed in the listed tables. -/
theorem Listed.flushMove (h : Listed n) (hseq : SeqUp n) (hlogs : LogsOk n) {io : Io} (hb : n.Benign (.flushStep io))
    {r : Node Γ × Out} (hm : FlushMove n io r) : Listed r.1 := by
  cases hm with
  | @nothing c hf hi =>
    cases c <;> exact h.keep rfl rfl rfl (fun _ => by rw [hf]; rfl) (fun _ _ hc => by simp [Node.flushEnd] at hc)
  | drained | commit | install | manifestStage =>
    apply Listed.of_behind
    simp [Node.commitFlush, Node.commitCompaction, FlushSection.behind, *]
  | unbuilt hf hi he => exact absurd he (hlogs.flushable.build_ne_error (by rw [hi]; exact List.mem_cons_self) _ _ _)
  | built hf => exact h.keep rfl rfl rfl (fun hc => by rw [hf]; exact hc) (fun _ _ hc => by simp at hc)
  | @buildFails c fl p sst file st k hf hio =>
    have hfl : fl = [] := by simpa [Node.Benign, hio, hf, FlushSection.failsSafely] using hb
    cases c <;>
      exact h.keep rfl rfl rfl (fun _ => by rw [hf, hfl]; rfl) (fun _ _ hc => by simp [Node.flushEnd] at hc)
  | buildStage hf | buildRename hf =>
    exact h.keep rfl (by simp) rfl (fun hc => by rw [hf]; exact hc) (fun _ _ hc => by simp at hc)
  | mergedNone hf | merged hf | readOpen hf | read hf =>
    exact h.keep rfl rfl rfl (fun _ => by rw [hf]; rfl) (fun _ _ hc => by simp [hf] at hc)
  | mergedUnbuilt hf | readFails hf | mergeFails hf | compactDone hf =>
    exact h.keep rfl (by simp [Node.compactEnd]) rfl (fun _ => by rw [hf]; rfl) (fun _ _ hc => by simp [Node.compactEnd] at hc)
  | mergeStage hf | mergeRename hf =>
    exact h.keep rfl (by simp) rfl (fun _ => by rw [hf]; rfl) (fun _ _ hc => by simp at hc)
  | @manifestFailsFlush c => cases c <;> exact Listed.of_stale rfl rfl
  | manifestFailsCompact => exact Listed.of_stale rfl rfl
  | manifestFlush hf | manifestCompact hf => exact Listed.renamed hseq hf _
  | @flushDone c hf =>
    cases c <;> exact h.keep rfl rfl rfl (fun _ => by rw [hf]; rfl) (fun _ _ hc => by simp [Node.flushEnd] at hc)
  | unlinkWal hf | unlinkWalFails hf =>
    exact h.keep rfl (by simp) rfl (fun _ => by rw [hf]; rfl) (fun _ _ _ => ⟨_, _, hf⟩)
  | unlinkInput hf | unlinkInputFails hf =>
    exact h.keep rfl (by simp) rfl (fun _ => by rw [hf]; rfl) (fun _ _ hc => by simp at hc)

theorem Listed.nodeMove (h : Listed n) (hdata : DataUp n) {a : Act} (hb : n.Benign a) {x : Sys Γ × Out} (hm : NodeMove n a x)
    (hx : x.1 = n'.toSys) : Listed n' := by
  have hto : ∀ {m : Node Γ}, m.toSys = n'.toSys → m = n' := toSys_inj
  -- every step but one of the holder of `flush_lock`
  have hsame : n'.eng.levels = n.eng.levels → n'.disk.manifest = n.disk.manifest → n'.hist.stale = n.hist.stale →
      n'.eng.flush = n.eng.flush → Listed n' :=
    fun h1 h2 h3 h4 => h.keep h1 h2 h3 (fun hc => h4 ▸ hc) (fun c todo hc => ⟨c, todo, h4 ▸ hc⟩)
  cases hm with
  | flushStep hf =>
    obtain rfl := hto hx
    exact h.flushMove hdata.seq hdata.logs hb hf
  | flushEnter hf | workerEnter hf | compactEnter hf | compactNothing hf =>
    obtain rfl := hto hx
    exact h.keep rfl rfl rfl (fun _ => by rw [hf]; rfl) (fun _ _ hc => by simp [Node.compactEnd] at hc)
  | getStep hg =>
    obtain rfl := hto hx
    cases hg <;> exact hsame rfl rfl rfl rfl
  | write hw =>
    obtain rfl := hto hx
    cases hw <;> exact hsame rfl (by simp [Node.tearWrite, tear_manifest, Node.logWrite]) rfl rfl
  | wal hw =>
    obtain rfl := hto hx
    cases hw with
    | @nothing c | @createFails c => cases c <;> exact hsame rfl rfl rfl rfl
    | @replace c newSeq hw =>
      cases c <;> exact hsame rfl (by simp only [Node.finish, Node.replaceWriter]; split <;> simp) rfl rfl
    | _ => exact hsame rfl (by simp [Node.syncActive, Node.abort, Node.applyWrite, Node.finish, Node.swapActive]) rfl rfl
  | flush | get | handover =>
    obtain rfl := hto hx
    exact hsame rfl (by simp [Node.get, Node.handover]) rfl rfl
  | drop => simp [Node.drop, Node.toSys] at hx

/-! ## Runs without crashes -/

/-- The writes of the earlier opens. -/
def Hist.earlier (h : Hist) : List WalEntry := h.past.flatMap Epoch.log

/-- A fresh open has flushed nothing that is not listed. -/
theorem Listed.fresh {d : Disk} {h : Hist} {o : Opening} (hopen : OpenOk Γ d o) {r : Recovered}
    (hst : o.stage = .removing r []) :
    Listed (Γ := Γ) ⟨d, h.reopen (r.map Γ d) r.walSeq (reappended r.mem), r.engine Γ o.options o.buf⟩ where
  current := fun _ _ l => by
    have hs := hopen.stage
    rw [hst] at hs
    rw [show (r.engine Γ o.options o.buf).levels = d.manifestLevels from hs.2.1]
  written := fun c todo hc => by simp [Recovered.engine] at hc

/-- The writes of all opens. -/
def Hist.writes (h : Hist) : List WalEntry := h.earlier ++ h.log

/-- Runs without crashes in which no failure leaves a trace, after the writes `W`, which have left the map `M`. `extra` is what more is
known of a running engine. -/
def Regime.since (W : List WalEntry) (M : Key → Option Value) (extra : Node Γ → Prop) : Regime Γ where
  ok := fun s a => a.isCrash = false ∧ Harmless s a
  options := fun _ => True
  crashes := fun _ => False
  up := fun n => Undisturbed n ∧ extra n ∧ ∃ ws, n.hist.writes = W ++ ws ∧ runWrites n.hist.log n.hist.base = runWrites ws M
  holds := fun h N => ∃ ws, h.writes = W ++ ws ∧ N = runWrites ws M

/-- The writes of all opens grow at the end, as those of this open do. -/
theorem NodeMove.writes (hcounts : CountsOk n) {a : Act} {x : Sys Γ × Out} (hm : NodeMove n a x) (hx : x.1 = n'.toSys) :
    ∃ ws, n'.hist.log = n.hist.log ++ ws ∧ n'.hist.writes = n.hist.writes ++ ws ∧ n'.hist.base = n.hist.base := by
  obtain ⟨h1, h2⟩ := hm.past hx
  obtain ⟨ws, hws⟩ := (hm.readStep hcounts hx).log
  refine ⟨ws, hws.symm, ?_, h2⟩
  rw [Hist.writes, Hist.writes, Hist.earlier, h1, ← hws, List.append_assoc]
  rfl

/-- Runs that are followed from a point on keep the map of that point with the writes since, through opens. -/
theorem Regime.since_stable {W : List WalEntry} {M : Key → Option Value} {extra : Node Γ → Prop}
    (hfresh : ∀ {d : Disk} {h : Hist} {o : Opening} {r : Recovered} {ws : List WalEntry}, OpenOk Γ d o →
      o.stage = .removing r [] → h.writes = W ++ ws → r.map Γ d = runWrites ws M →
      DataUp ⟨d, h.reopen (r.map Γ d) r.walSeq (reappended r.mem), r.engine Γ o.options o.buf⟩ →
      extra ⟨d, h.reopen (r.map Γ d) r.walSeq (reappended r.mem), r.engine Γ o.options o.buf⟩)
    (hstep : ∀ {n n' : Node Γ} {a : Act} {x : Sys Γ × Out}, DataUp n → extra n → n.Benign a → NodeMove n a x →
      x.1 = n'.toSys → DataUp n' → extra n') :
    (Regime.since W M extra).Stable where
  openDir := fun _ => trivial
  openStep := fun hp h => by simpa only [Harmless, hp] using h.2
  crash := fun h => by simp [Regime.since, Act.isCrash] at h
  benign := fun hdata hup ha => hup.1.benign hdata ha.2
  fresh := fun {d h o r} _ hopen hst hM hdata => by
    obtain ⟨ws, hws, hmap⟩ := hM
    refine ⟨Undisturbed.fresh hopen hst hdata, hfresh hopen hst hws hmap hdata, ws, ?_, hmap⟩
    rw [← hws]
    simp [Hist.writes, Hist.earlier, Hist.reopen, Hist.epoch]
  step := fun {n n' a x} hdata hup ha hm hx hdata' => by
    obtain ⟨hun, hextra, ws, hws, hmap⟩ := hup
    obtain ⟨vs, hlog, hwrites, hbase⟩ := hm.writes hdata.counts hx
    refine ⟨hun.nodeMove hdata hdata' ha.2 hm hx, hstep hdata hextra (hun.benign hdata ha.2) hm hx hdata', ws ++ vs, ?_, ?_⟩
    · rw [hwrites, hws, List.append_assoc]
    · rw [hlog, hbase, runWrites_append, runWrites_append, hmap]
  crashed := fun _ _ hκ => hκ.elim
  dropped := fun {n} hdata hup hw => by
    obtain ⟨-, -, ws, hws, hmap⟩ := hup
    refine ⟨⟨ws, hws, ?_⟩, fun hp => hp.elim⟩
    rw [(hdata.dropped hw).2.1, Hist.mapAt, List.take_length, hmap]

/-- Runs without crashes in which no failure leaves a trace, from an empty directory. -/
def Regime.maintained (Γ : Ctx) : Regime Γ :=
  Regime.since [] (fun _ => none)
    (fun n : Node Γ => Secured n ∧ Listed n ∧ n.hist.base = runWrites n.hist.earlier (fun _ => none))

/-- Harmless runs without crashes keep all writes. -/
theorem Regime.maintained_sound (Γ : Ctx) : (Regime.maintained Γ).Sound where
  init := ⟨[], rfl, rfl⟩
  toStable := by
    refine Regime.since_stable ?_ ?_
    · intro d h o r ws hopen hst hws hmap hdata
      refine ⟨Secured.fresh hopen hst hdata, Listed.fresh hopen hst, ?_⟩
      have hearlier : (h.reopen (r.map Γ d) r.walSeq (reappended r.mem)).earlier = h.writes := by
        simp [Hist.writes, Hist.earlier, Hist.reopen, Hist.epoch]
      rw [hearlier, hws]
      exact hmap
    · intro n n' a x hdata h hb hm hx hdata'
      obtain ⟨h1, h2⟩ := hm.past hx
      refine ⟨h.1.nodeMove hdata hb hm hx hdata', h.2.1.nodeMove hdata hb hm hx, ?_⟩
      rw [h2, Hist.earlier, h1]
      exact h.2.2

end LsmEngine
