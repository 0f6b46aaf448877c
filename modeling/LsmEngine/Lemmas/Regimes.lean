import LsmEngine.Lemmas.Handles
import LsmEngine.Lemmas.Synced

/-!
# Kinds of runs

The kinds of runs the main results are about: runs in which nothing fails, the same with every write fsynced and the same
without power losses, where what is recovered is a prefix of the writes; and runs in which file-system operations fail where
that loses no log.
-/

namespace LsmEngine

open Overlay

variable {Γ : Ctx} {n n' : Node Γ}

/-! ## Nothing fails -/

/-- What is known of a running engine when nothing that has failed since it was opened has left a trace. -/
structure Undisturbed (n : Node Γ) : Prop where
  whole : Whole n
  reading : Reading n
  handles : HandlesOk n

/-- An action that is harmless to an undisturbed engine is benign. -/
theorem Undisturbed.benign (h : Undisturbed n) (hdata : DataUp n) {a : Act} (ha : n.Harmless a) : n.Benign a := by
  cases a with
  | write => exact h.whole.intact hdata.logs
  | walStep => exact ha
  | flushStep => exact ha.imp_right And.left
  | drop => exact ha
  | _ => trivial

/-- A harmless action keeps an engine undisturbed. -/
theorem Undisturbed.nodeMove (h : Undisturbed n) (hdata : DataUp n) (hdata' : DataUp n') {a : Act} (ha : n.Harmless a)
    {x : Sys Γ × Out} (hm : NodeMove n a x) (hx : x.1 = n'.toSys) : Undisturbed n' where
  whole := h.whole.nodeMove hdata ha (h.benign hdata ha) hm hx
  reading := h.reading.nodeMove hdata hdata' hm hx
  handles := h.handles.nodeMove hdata h.reading ha hm hx

/-- The only log of an engine that has just been opened is the copy the open made. -/
theorem fresh_log {d : Disk} {o : Opening} (h : OpenOk Γ d o) {r : Recovered} (hst : o.stage = .removing r []) {hh : Hist}
    (hdata : DataUp ⟨d, hh, r.engine Γ o.options o.buf⟩) {g : Nat} {f : WalFile} (hg : d.wals.get g = some f) :
    g = r.walSeq ∧ f.bytes = encodeAll Γ (reappended r.mem) ∧ f.synced = f.bytes.length := by
  have hs := h.stage
  rw [hst] at hs
  obtain ⟨-, -, -, -, -, f', hf', hbytes, hsync⟩ := hs
  have hkeys : d.wals.keys = [r.walSeq] := hdata.logs.keys
  have hmem : g ∈ d.wals.keys := d.wals.mem_keys_iff.2 ⟨f, hg⟩
  rw [hkeys, List.mem_singleton] at hmem
  subst hmem
  obtain rfl : f' = f := by simpa [hg] using hf'.symm
  exact ⟨rfl, hbytes, hsync⟩

/-- The fresh log of an open has the entries that were appended to it again. -/
theorem reopen_entries (h : Hist) (base : Key → Option Value) (opened : Nat) (carried : List WalEntry) :
    (h.reopen base opened carried).entries opened = carried := by
  simp [Hist.entries, Hist.reopen]

/-- An engine that has just been opened is undisturbed. -/
theorem Undisturbed.fresh {d : Disk} {h : Hist} {o : Opening} (hopen : OpenOk Γ d o) {r : Recovered}
    (hst : o.stage = .removing r [])
    (hdata : DataUp ⟨d, h.reopen (r.map Γ d) r.walSeq (reappended r.mem), r.engine Γ o.options o.buf⟩) :
    Undisturbed (Γ := Γ) ⟨d, h.reopen (r.map Γ d) r.walSeq (reappended r.mem), r.engine Γ o.options o.buf⟩ where
  whole := by
    intro g f hg
    obtain ⟨rfl, hbytes, -⟩ := fresh_log hopen hst hdata hg
    have hbuf : o.buf = [] := by
      have hs := hopen.stage
      rw [hst] at hs
      exact hs.1
    dsimp only at hg
    dsimp only
    rw [reopen_entries, ← hbytes]
    simp [walStream, hg, Recovered.engine, hbuf]
  reading := fun g hg => by simp [Recovered.engine] at hg
  handles := ⟨fun m _ e hc => by simp [Recovered.engine] at hc, trivial, fun g hg => by simp [Recovered.engine] at hg⟩

/-- Runs in which no failure leaves a trace, with crashes. -/
def Regime.undisturbed (Γ : Ctx) : Regime Γ where
  ok := Harmless
  options := fun _ => True
  crashes := fun _ => True
  up := Undisturbed
  holds := fun _ _ => True

/-- Harmless runs keep the engine undisturbed, through crashes and opens. -/
theorem Regime.undisturbed_sound (Γ : Ctx) : (Regime.undisturbed Γ).Sound where
  init := trivial
  openDir := fun _ => trivial
  openStep := fun hp h => by simpa only [Regime.undisturbed, Harmless, hp] using h
  crash := fun _ => trivial
  benign := fun hdata hup ha => hup.benign hdata ha
  fresh := fun _ hopen hst _ hdata => Undisturbed.fresh hopen hst hdata
  step := fun hdata hup ha hm hx hdata' => hup.nodeMove hdata hdata' ha hm hx
  crashed := fun _ _ _ => trivial
  dropped := fun _ _ _ => ⟨trivial, fun _ => trivial⟩

/-! ## Prefixes of the writes -/

/-- The map that some first writes of every open give, one open after another; `ok` says which first writes of an open can be
left. -/
inductive Prefixes (ok : Epoch → Nat → Prop) : List Epoch → (Key → Option Value) → Prop where
  | nil : Prefixes ok [] (fun _ => none)
  | snoc {es : List Epoch} {m : Key → Option Value} {e : Epoch} {j : Nat} (h : Prefixes ok es m) (hj : ok e j) :
      Prefixes ok (es ++ [e]) (runWrites (e.log.take j) m)

/-- Runs in which nothing fails and a crash leaves the first writes since the last open, as many as `cut` allows, over the map that open
has read. `extra` is what more is known of a running engine. -/
def Regime.prefixes (Γ : Ctx) (options : LsmOptions → Prop) (crashes : CrashKind → Prop) (cut : Epoch → Nat → Prop)
    (extra : Node Γ → Prop) : Regime Γ where
  ok := fun _ a => a.NoFail ∧ (∀ o, a = .openDir o → options o) ∧ ∀ κ, a = .crash κ → crashes κ
  options := options
  crashes := crashes
  up := fun n => Undisturbed n ∧ extra n ∧ Prefixes cut n.hist.past n.hist.base
  holds := fun h M => Prefixes cut h.past h.base ∧ ∃ j, cut h.epoch j ∧ M = h.mapAt j

/-- A running engine keeps the earlier opens and the map it started from. -/
theorem NodeMove.past {a : Act} {x : Sys Γ × Out} (hm : NodeMove n a x) (hx : x.1 = n'.toSys) :
    n'.hist.past = n.hist.past ∧ n'.hist.base = n.hist.base := by
  have hto : ∀ {m : Node Γ}, m.toSys = n'.toSys → m = n' := toSys_inj
  cases hm with
  | flushStep hf =>
    obtain rfl := hto hx
    cases hf with
    | @nothing c | @unbuilt c | @buildFails c | @manifestFailsFlush c | @flushDone c => cases c <;> exact ⟨rfl, rfl⟩
    | _ => exact ⟨rfl, rfl⟩
  | getStep hg =>
    obtain rfl := hto hx
    cases hg <;> exact ⟨rfl, rfl⟩
  | write hw =>
    obtain rfl := hto hx
    cases hw <;> exact ⟨rfl, rfl⟩
  | wal hw =>
    obtain rfl := hto hx
    cases hw with
    | @nothing c => cases c <;> exact ⟨rfl, rfl⟩
    | @createFails c => cases c <;> exact ⟨rfl, rfl⟩
    | @replace c => cases c <;> exact ⟨rfl, rfl⟩
    | _ => exact ⟨rfl, rfl⟩
  | flush | flushEnter | workerEnter | compactNothing | compactEnter | get | handover =>
    obtain rfl := hto hx
    exact ⟨rfl, rfl⟩
  | drop => simp [Node.drop, Node.toSys] at hx

/-- Runs without failures of which each crash leaves a prefix the cut allows, where the start and each open meet what is asked of an engine.
-/
theorem Regime.prefixes_sound {options : LsmOptions → Prop} {crashes : CrashKind → Prop} {cut : Epoch → Nat → Prop}
    {extra : Node Γ → Prop} (hzero : cut ⟨[], 0, 0, 0, 0⟩ 0)
    (hfresh : ∀ {d : Disk} {h : Hist} {o : Opening} {r : Recovered}, options o.options → OpenOk Γ d o →
      o.stage = .removing r [] →
      DataUp ⟨d, h.reopen (r.map Γ d) r.walSeq (reappended r.mem), r.engine Γ o.options o.buf⟩ →
      extra ⟨d, h.reopen (r.map Γ d) r.walSeq (reappended r.mem), r.engine Γ o.options o.buf⟩)
    (hstep : ∀ {n n' : Node Γ} {a : Act} {x : Sys Γ × Out}, DataUp n → extra n → a.NoFail → NodeMove n a x →
      x.1 = n'.toSys → extra n')
    (hcrash : ∀ {n : Node Γ} {κ : CrashKind}, DataUp n → Whole n → extra n → crashes κ →
      ∃ j, cut n.hist.epoch j ∧ (n.disk.crash κ).recovered Γ = n.hist.mapAt j)
    (hdrop : ∀ {n : Node Γ}, DataUp n → cut n.hist.epoch n.hist.log.length)
    (hdropCrash : ∀ {n : Node Γ}, DataUp n → extra n → crashes .powerLoss → n.eng.wal = .free →
      ((n.drop .ok).disk.crash .powerLoss).recovered Γ = n.hist.mapAt n.hist.log.length) :
    (Regime.prefixes Γ options crashes cut extra).Sound where
  init := ⟨.nil, 0, hzero, rfl⟩
  openDir := fun h => h.2.1 _ rfl
  openStep := fun _ h => .inl h.1
  crash := fun h => h.2.2 _ rfl
  benign := fun hdata hup ha => hup.1.benign hdata ha.1.harmless_node
  fresh := fun ho hopen hst hM hdata => by
    obtain ⟨hpast, j, hj, hmap⟩ := hM
    refine ⟨Undisturbed.fresh hopen hst hdata, hfresh ho hopen hst hdata, ?_⟩
    dsimp only [Hist.reopen]
    rw [hmap]
    exact hpast.snoc hj
  step := fun hdata hup ha hm hx hdata' => by
    obtain ⟨h1, h2⟩ := hm.past hx
    exact ⟨hup.1.nodeMove hdata hdata' ha.1.harmless_node hm hx, hstep hdata hup.2.1 ha.1 hm hx, by rw [h1, h2]; exact hup.2.2⟩
  crashed := fun hdata hup hκ => by
    obtain ⟨j, hj, hrec⟩ := hcrash hdata hup.1.whole hup.2.1 hκ
    exact ⟨hup.2.2, j, hj, hrec⟩
  dropped := fun hdata hup hw =>
    ⟨⟨hup.2.2, _, hdrop hdata, (hdata.dropped hw).2.1⟩,
      fun hp => ⟨hup.2.2, _, hdrop hdata, hdropCrash hdata hup.2.1 hp hw⟩⟩

/-! ### What the next open reads -/

/-- The history after the process has ended with the history `H` and a directory that stands for `N`: nothing more is written before the
next open is complete, and that open has read `N`. -/
structure Hist.Follows (H : Hist) (N : Key → Option Value) (h : Hist) : Prop where
  length : H.past.length ≤ h.past.length
  same : h.past.length = H.past.length → h = H
  base : h.past = H.past ++ [H.epoch] → h.base = N

/-- Nothing has happened since. -/
theorem Hist.Follows.refl (H : Hist) (N : Key → Option Value) : H.Follows N H where
  length := Nat.le_refl _
  same := fun _ => rfl
  base := fun h => by simp at h

/-- Runs in which no failure leaves a trace, after the process has ended. -/
def Regime.left (Γ : Ctx) (crashes : CrashKind → Prop) (H : Hist) (N : Key → Option Value) : Regime Γ where
  ok := fun s a => Harmless s a ∧ ∀ κ, a = .crash κ → crashes κ
  options := fun _ => True
  crashes := crashes
  up := fun n => Undisturbed n ∧ H.past.length < n.hist.past.length ∧ H.Follows N n.hist
  holds := fun h M => H.Follows N h ∧ (h.past.length = H.past.length → M = N)

/-- What was left when the process ended stays the base of the next open. -/
theorem Regime.left_stable (crashes : CrashKind → Prop) (H : Hist) (N : Key → Option Value) :
    (Regime.left Γ crashes H N).Stable where
  openDir := fun _ => trivial
  openStep := fun hp h => by simpa only [Harmless, hp] using h.1
  crash := fun h => h.2 _ rfl
  benign := fun hdata hup ha => hup.1.benign hdata ha.1
  fresh := fun {d h o r} _ hopen hst hM hdata => by
    obtain ⟨hf, hmap⟩ := hM
    have hlen : (h.past ++ [h.epoch]).length = h.past.length + 1 := by rw [List.length_append, List.length_singleton]
    have hle := hf.length
    refine ⟨Undisturbed.fresh hopen hst hdata, ?_, ?_, ?_, ?_⟩
    · dsimp only [Hist.reopen]
      omega
    · dsimp only [Hist.reopen]
      omega
    · dsimp only [Hist.reopen]
      omega
    · dsimp only [Hist.reopen]
      intro heq
      refine hmap ?_
      have := congrArg List.length heq
      rw [hlen, List.length_append, List.length_singleton] at this
      omega
  step := fun hdata hup ha hm hx hdata' => by
    obtain ⟨h1, h2⟩ := hm.past hx
    obtain ⟨hun, hlt, hf⟩ := hup
    refine ⟨hun.nodeMove hdata hdata' ha.1 hm hx, by rwa [h1], ?_, ?_, ?_⟩
    · rw [h1]
      exact hf.length
    · rw [h1]
      intro heq
      omega
    · rw [h1, h2]
      exact hf.base
  crashed := fun _ hup _ => ⟨hup.2.2, fun heq => absurd heq hup.2.1.ne'⟩
  dropped := fun _ hup _ => ⟨⟨hup.2.2, fun heq => absurd heq hup.2.1.ne'⟩, fun _ => ⟨hup.2.2, fun heq => absurd heq hup.2.1.ne'⟩⟩

/-- The next open that is complete has read what the directory stood for when the process ended. -/
theorem Regime.base_of_left {crashes : CrashKind → Prop} {s u : Sys Γ} {N : Key → Option Value} (hp : s.proc = .down) (hseq : SeqInv s)
    (hdisk : DiskOk Γ s.disk) (hrec : s.disk.recovered Γ = N)
    (hcrash : crashes .powerLoss → (s.disk.crash .powerLoss).recovered Γ = N)
    (h : Transition.Steps (LsmEngine.step Γ) (fun _ a => a.NoFail ∧ ∀ κ, a = .crash κ → crashes κ) s u)
    (hnext : u.hist.past = s.hist.past ++ [s.hist.epoch]) : u.hist.base = N := by
  have hstart : (Regime.left Γ crashes s.hist N).Inv s := by
    simp only [Regime.Inv, hp]
    exact ⟨hseq, hdisk, ⟨.refl _ _, fun _ => hrec⟩, fun hpl => ⟨.refl _ _, fun _ => hcrash hpl⟩⟩
  have hinv := Regime.inv_steps (Regime.left_stable crashes s.hist N) hstart (h.mono (fun _ _ ha => ⟨ha.1.harmless, ha.2⟩))
  unfold Regime.Inv at hinv
  cases hpu : u.proc with
  | down =>
    simp only [hpu] at hinv
    exact hinv.2.2.1.1.base hnext
  | opening o =>
    simp only [hpu] at hinv
    exact hinv.2.2.2.2.1.1.base hnext
  | up e =>
    simp only [hpu] at hinv
    exact hinv.2.2.2.base hnext

/-! ### Every write is fsynced -/

/-- The first writes that can be left when every write is fsynced: those whose call has left the wal mutex and those that have been
applied, and at most one more than those whose call has left the wal mutex. -/
def SyncedCut (e : Epoch) (j : Nat) : Prop := e.completed ≤ j ∧ e.applied ≤ j ∧ j ≤ e.completed + 1 ∧ j ≤ e.log.length

/-- Runs with `sync_per_write` in which nothing fails. -/
def Regime.synced (Γ : Ctx) : Regime Γ :=
  Regime.prefixes Γ (fun o => o.syncPerWrite = true) (fun _ => True) SyncedCut SyncedOk

/-- A crash keeps what was fsynced. -/
theorem kept_of_synced (hlogs : LogsOk n) {g : Nat} {f : WalFile} (hg : n.disk.wals.get g = some f) (κ : CrashKind) :
    f.synced ≤ n.kept κ g := by
  have := hlogs.synced g f hg
  cases κ <;> simp only [Node.kept, hg] <;> omega

/-- With every write fsynced, a crash keeps the logs of the frozen MemTables whole. -/
theorem SyncedOk.old_kept (h : SyncedOk n) (hlogs : LogsOk n) (κ : CrashKind) {g : Nat} (hg : g ∈ n.eng.logs)
    (hne : g ≠ n.eng.walSeq) : (encodeAll Γ (n.hist.entries g)).length ≤ n.kept κ g := by
  obtain ⟨f, hf⟩ := hlogs.file hg
  obtain ⟨es, hes, hlen⟩ := h.logs g f hf
  rw [if_neg hne, List.append_nil] at hes
  rw [hes]
  exact hlen.trans (kept_of_synced hlogs hf κ)

/-- When every log but the active one is fsynced, a power loss after a drop takes nothing. -/
theorem DataUp.dropped_powerLoss (hdata : DataUp n)
    (hkept : ∀ g ∈ n.eng.logs, g ≠ n.eng.walSeq → (encodeAll Γ (n.hist.entries g)).length ≤ n.kept .powerLoss g) :
    ((n.drop .ok).disk.crash .powerLoss).recovered Γ = n.hist.mapAt n.hist.log.length := by
  have hfull : (encodeAll Γ (n.hist.entries n.eng.walSeq)).length ≤ (walStream n.disk n.eng n.eng.walSeq).length := by
    obtain ⟨tail, -, hst⟩ := hdata.logs.stream _ hdata.logs.walSeq_mem
    rw [hst, List.length_append]
    omega
  obtain ⟨-, j, -, hj, hrec, hall⟩ := (cut_drop_crash hdata.seq hdata.logs).firstWrites hdata
    (fun g hg hne => by rw [if_neg hne]; exact hkept g hg hne)
    (fun ho => by
      split
      · rename_i heq
        refine Nat.le_trans ?_ (heq ▸ hfull)
        rw [Hist.entries, if_pos rfl, encodeAll_append, List.length_append]
        omega
      · exact Regime.carried_kept hdata .powerLoss ho)
  have hlen := hall (n.hist.entries n.eng.walSeq) [] (List.append_nil _).symm (by rw [if_pos rfl]; exact hfull)
  rw [hrec]
  congr 1
  rw [List.length_nil] at hlen
  omega

/-- A write that is not fsynced is in progress. -/
theorem unsynced_le_inflight (w : WalSection) : w.unsynced.length ≤ w.inflight.length := by
  cases w <;> simp [WalSection.unsynced, WalSection.inflight]

/-- Runs in which every write is fsynced lose at most the write in progress. -/
theorem Regime.synced_sound (Γ : Ctx) : (Regime.synced Γ).Sound := by
  refine Regime.prefixes_sound ⟨Nat.le_refl _, Nat.le_refl _, Nat.zero_le _, Nat.le_refl _⟩ ?_ ?_ ?_ ?_ ?_
  · intro d h o r ho hopen hst hdata
    refine ⟨ho, fun g f hg => ?_⟩
    obtain ⟨rfl, hbytes, hsync⟩ := fresh_log hopen hst hdata hg
    refine ⟨reappended r.mem, ?_, by rw [hsync, hbytes]⟩
    dsimp only
    rw [reopen_entries]
    simp [Recovered.engine, WalSection.unsynced]
  · intro n n' a x hdata h ha hm hx
    exact h.nodeMove hdata ha hm hx
  · intro n κ hdata hwhole h _
    obtain ⟨-, j, hrot, hj, hrec, hall⟩ := (cut_crash hdata.seq hdata.logs κ).firstWrites hdata
      (fun g hg hne => h.old_kept hdata.logs κ hg hne) (carried_kept hdata κ)
    obtain ⟨f, hf⟩ := hdata.logs.file hdata.logs.walSeq_mem
    obtain ⟨es, hes, hlen⟩ := h.logs _ f hf
    rw [if_pos rfl] at hes
    have h1 := hall es _ hes (hlen.trans (kept_of_synced hdata.logs hf κ))
    have h2 := unsynced_le_inflight n.eng.wal
    have h3 := hdata.counts.applied
    have h4 := hdata.counts.atMostOne
    have h5 := hdata.counts.completed
    exact ⟨j, ⟨by simp only [Hist.epoch]; omega, by simp only [Hist.epoch]; omega, by simp only [Hist.epoch]; omega, hj⟩, hrec⟩
  · intro n hdata
    have h3 := hdata.counts.applied
    have h4 := hdata.counts.atMostOne
    have h5 := hdata.counts.completed
    exact ⟨by simp only [Hist.epoch]; omega, by simp only [Hist.epoch]; omega, h4, Nat.le_refl _⟩
  · intro n hdata h _ hw
    exact hdata.dropped_powerLoss (fun g hg hne => h.old_kept hdata.logs .powerLoss hg hne)

/-! ### Only the process ends -/

/-- The first writes that can be left when only what a process buffers is lost: those of the generations that are rotated and
those that a `flush()` has made durable. -/
def KilledCut (e : Epoch) (j : Nat) : Prop := e.rotated ≤ j ∧ e.flushAck ≤ j ∧ j ≤ e.log.length

/-- Runs in which nothing fails and the process can be killed. -/
def Regime.killed (Γ : Ctx) : Regime Γ :=
  Regime.prefixes Γ (fun _ => True) (fun κ => κ = .kill) KilledCut (fun _ => True)

/-- The writes whose log is gone belong to rotated generations. -/
theorem MapsOk.gone_le_rotated {gone : List WalEntry} (h : MapsOk n gone) (hlogs : LogsOk n) (hcounts : CountsOk n) :
    gone.length ≤ n.hist.rotated := by
  have hpre := h.firstWrites hlogs hcounts (c := fun g => if g = n.eng.walSeq then 0 else (n.hist.segs g).length)
    (fun g _ hne => by rw [if_neg hne])
  have := congrArg List.length hpre
  rw [List.length_append, if_pos rfl, Nat.add_zero, List.length_take] at this
  omega

/-- Runs in which the process is only killed lose no generation whose rotation is complete. -/
theorem Regime.killed_sound (Γ : Ctx) : (Regime.killed Γ).Sound := by
  refine Regime.prefixes_sound ⟨Nat.le_refl _, Nat.le_refl _, Nat.le_refl _⟩ (fun _ _ _ _ => trivial)
    (fun _ _ _ _ _ => trivial) ?_ ?_ (fun _ _ hp => by simp at hp)
  · intro n κ hdata hwhole _ hκ
    subst hκ
    obtain ⟨gone, hmaps⟩ := hdata.maps
    obtain ⟨-, j, hrot, hj, hrec, -⟩ := (cut_crash hdata.seq hdata.logs .kill).firstWrites hdata
      (fun g hg hne => by
        obtain ⟨f, hf⟩ := hdata.logs.file hg
        rw [← hwhole g f hf, walStream_of_ne hf hne]
        simp only [Node.kept, hf]
        exact Nat.le_refl _) (carried_kept hdata .kill)
    have h1 := hmaps.flushAck
    have h2 := hmaps.gone_le_rotated hdata.logs hdata.counts
    exact ⟨j, ⟨hrot, by simp only [Hist.epoch]; omega, hj⟩, hrec⟩
  · intro n hdata
    obtain ⟨gone, hmaps⟩ := hdata.maps
    have h1 := hmaps.flushAck
    have h2 := hmaps.gone_le_rotated hdata.logs hdata.counts
    have h3 := hdata.counts.rotated
    exact ⟨by simp only [Hist.epoch]; omega, by simp only [Hist.epoch]; omega, Nat.le_refl _⟩

/-! ## Failures that lose no log -/

/-- What a run that loses no log keeps of the writes: each key has a value it has had, not from before the last durable flush
nor from before any write of it that was in a log when the log was fsynced. -/
def KeepsWrites (h : Hist) (M : Key → Option Value) : Prop :=
  ∀ k, ∃ j, h.flushAck ≤ j ∧ j ≤ h.log.length ∧ M k = h.mapAt j k ∧
    ∀ i, h.secured i = true → ∀ w, h.log[i]? = some w → w.key = k → i < j

/-- Runs in which what fails loses no log. -/
def Regime.benign (Γ : Ctx) : Regime Γ where
  ok := Benign
  options := fun _ => True
  crashes := fun _ => True
  up := fun n => Secured n ∧ Reading n
  holds := KeepsWrites

/-- Every key has a value it has had, not from before a write that was secured, where a crash keeps what was fsynced. -/
theorem Secured.keeps {d : Disk} {upTo : Nat → Nat} (h : Secured n) (hdata : DataUp n) (hcut : Cut n upTo d)
    (hsync : ∀ g f, n.disk.wals.get g = some f → f.synced ≤ upTo g) : KeepsWrites n.hist (d.recovered Γ) := by
  obtain ⟨gone, c, hmaps, hsec⟩ := h
  obtain ⟨-, c', hrec, hc'⟩ := hcut.recovered hdata (fun ho => by
    obtain ⟨f, hf⟩ := hdata.logs.file ho
    exact (hdata.logs.carried f hf).trans (hsync _ f hf))
  intro k
  obtain ⟨j, hgone, hj, hval, hheld⟩ := hmaps.key_value c' k
  refine ⟨j, hmaps.flushAck.trans hgone, hj, by rw [hrec]; exact hval, ?_⟩
  intro i hi w hw hk
  obtain ⟨-, hlt | hh⟩ := hsec.held i hi
  · omega
  · refine hheld i ?_ w hw hk
    obtain ⟨pre, g, post, o, hL, hio, ho, hoc⟩ := hh
    have hg : g ∈ n.eng.logs := by rw [hL]; simp
    obtain ⟨f, hf⟩ := hdata.logs.file hg
    refine ⟨pre, g, post, o, hL, hio, ho, hoc.trans_le ?_⟩
    exact hc' g hg _ (hsec.len g) ((hsec.synced g f hf).trans (hsync g f hf))

/-- What an open appends to its fresh log again is secured. -/
theorem Secured.fresh {d : Disk} {h : Hist} {o : Opening} (hopen : OpenOk Γ d o) {r : Recovered}
    (hst : o.stage = .removing r [])
    (hdata : DataUp ⟨d, h.reopen (r.map Γ d) r.walSeq (reappended r.mem), r.engine Γ o.options o.buf⟩) :
    Secured (Γ := Γ) ⟨d, h.reopen (r.map Γ d) r.walSeq (reappended r.mem), r.engine Γ o.options o.buf⟩ := by
  obtain ⟨gone, hmaps⟩ := hdata.maps
  refine ⟨gone, fun _ => 0, hmaps, fun g => Nat.zero_le _, fun g f hg => ?_, fun i hi => by simp [Hist.reopen] at hi⟩
  obtain ⟨rfl, hbytes, hsync⟩ := fresh_log hopen hst hdata hg
  rw [hsync, hbytes]
  simp [Hist.reopen]

/-- Benign runs keep what was secured, through crashes and opens. -/
theorem Regime.benign_sound (Γ : Ctx) : (Regime.benign Γ).Sound where
  init := fun k => ⟨0, Nat.le_refl _, Nat.le_refl _, rfl, fun i hi => by simp at hi⟩
  openDir := fun _ => trivial
  openStep := fun hp h => by simpa only [Regime.benign, Benign, hp] using h
  crash := fun _ => trivial
  benign := fun _ _ h => h
  fresh := fun _ hopen hst _ hdata => ⟨Secured.fresh hopen hst hdata, fun g hg => by simp [Recovered.engine] at hg⟩
  step := fun hdata hup hb hm hx hdata' => ⟨hup.1.nodeMove hdata hb hm hx hdata', hup.2.nodeMove hdata hdata' hm hx⟩
  crashed := fun {n κ} hdata hup _ => hup.1.keeps hdata (cut_crash hdata.seq hdata.logs κ)
    (fun g f hf => kept_of_synced hdata.logs hf κ)
  dropped := fun {n} hdata hup hw => by
    refine ⟨hup.1.keeps hdata (cut_drop hdata.logs) (fun g f hf => ?_), fun _ =>
      hup.1.keeps hdata (cut_drop_crash hdata.seq hdata.logs) (fun g f hf => ?_)⟩
    · have := hdata.logs.synced g f hf
      simp only [walStream, hf, Option.map_some, Option.getD_some, List.length_append]
      omega
    · split
      · have := hdata.logs.synced g f hf
        simp only [walStream, hf, Option.map_some, Option.getD_some, List.length_append]
        omega
      · exact kept_of_synced hdata.logs hf .powerLoss

end LsmEngine
