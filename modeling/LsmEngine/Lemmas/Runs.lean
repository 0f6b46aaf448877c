import LsmEngine.Lemmas.Open
import LsmEngine.Library.Run

/-!
# Whole runs

An invariant of every run in which nothing is lost: a running engine is in order, and a directory no engine has open stands for
a map that is right for the writes taken so far. Which maps are right, which crashes can happen and what more is known of a
running engine differs from one kind of run to another; a `Regime` says it, and `Regime.Sound` what must be shown of it.
-/

namespace LsmEngine

open Overlay

variable {Γ : Ctx}

/-- A kind of run. -/
structure Regime (Γ : Ctx) where
  /-- the actions that can happen -/
  ok : Sys Γ → Act → Prop
  /-- the options an engine can be opened with -/
  options : LsmOptions → Prop
  /-- the ways in which the process can end -/
  crashes : CrashKind → Prop
  /-- what more is known of a running engine -/
  up : Node Γ → Prop
  /-- the maps that can be recovered after a history -/
  holds : Hist → (Key → Option Value) → Prop

namespace Regime

variable (R : Regime Γ)

/-- The directory stands for a map that is right for the history, also after a power loss where there can be one. -/
def Kept (h : Hist) (d : Disk) : Prop :=
  R.holds h (d.recovered Γ) ∧ (R.crashes .powerLoss → R.holds h ((d.crash .powerLoss).recovered Γ))

def Inv (s : Sys Γ) : Prop :=
  match s.proc with
  | .down => SeqInv s ∧ DiskOk Γ s.disk ∧ R.Kept s.hist s.disk
  | .opening o => SeqInv s ∧ OpenOk Γ s.disk o ∧ o.stage.Clean s.disk ∧ R.options o.options ∧ R.Kept s.hist s.disk
  | .up e => DataUp ⟨s.disk, s.hist, e⟩ ∧ R.up ⟨s.disk, s.hist, e⟩

/-- What must be shown of a kind of run: that nothing is lost, what an open establishes and the steps of a running engine keep, and
what the engine leaves behind. -/
structure Stable : Prop where
  openDir : ∀ {s : Sys Γ} {options : LsmOptions}, R.ok s (.openDir options) → R.options options
  openStep : ∀ {s : Sys Γ} {o : Opening} {io : Io}, s.proc = .opening o → R.ok s (.openStep io) →
    io = .ok ∨ o.stage.failsSafely = true
  crash : ∀ {s : Sys Γ} {κ : CrashKind}, R.ok s (.crash κ) → R.crashes κ
  benign : ∀ {n : Node Γ} {a : Act}, DataUp n → R.up n → R.ok n.toSys a → n.Benign a
  fresh : ∀ {d : Disk} {h : Hist} {o : Opening} {r : Recovered}, R.options o.options → OpenOk Γ d o →
    o.stage = .removing r [] → R.holds h (r.map Γ d) →
    DataUp ⟨d, h.reopen (r.map Γ d) r.walSeq (reappended r.mem), r.engine Γ o.options o.buf⟩ →
    R.up ⟨d, h.reopen (r.map Γ d) r.walSeq (reappended r.mem), r.engine Γ o.options o.buf⟩
  step : ∀ {n n' : Node Γ} {a : Act} {x : Sys Γ × Out}, DataUp n → R.up n → R.ok n.toSys a → NodeMove n a x →
    x.1 = n'.toSys → DataUp n' → R.up n'
  crashed : ∀ {n : Node Γ} {κ : CrashKind}, DataUp n → R.up n → R.crashes κ →
    R.holds n.hist ((n.disk.crash κ).recovered Γ)
  dropped : ∀ {n : Node Γ}, DataUp n → R.up n → n.eng.wal = .free → R.Kept n.hist (n.drop .ok).disk

/-- The same, and the start. -/
structure Sound : Prop extends R.Stable where
  init : R.holds {} (fun _ => none)

variable {R}

/-- What is kept of a directory stays kept while it recovers to the same map. -/
theorem Kept.of_sameMap {h : Hist} {d d' : Disk} (hk : R.Kept h d) (hs : SameMap Γ d d') : R.Kept h d' := by
  refine ⟨by rw [hs.recovered]; exact hk.1, fun hp => ?_⟩
  rcases hs.crashed with hc | hc
  · rw [hc]
    exact hk.2 hp
  · rw [hc]
    exact hk.1

theorem Kept.crash {h : Hist} {d : Disk} (hk : R.Kept h d) {κ : CrashKind} (hκ : R.crashes κ) : R.Kept h (d.crash κ) := by
  refine ⟨?_, fun hp => by rw [Disk.crash_crash]; exact hk.2 hp⟩
  cases κ with
  | kill => rw [Disk.crash_kill]; exact hk.1
  | powerLoss => exact hk.2 hκ

/-- The directory a drop leaves is in order. -/
theorem diskOk_drop {n : Node Γ} (h : DataUp n) : DiskOk Γ (n.drop .ok).disk := by
  refine ((cut_drop h.logs).recovered h (fun ho => ?_)).1
  obtain ⟨f, hf⟩ := h.logs.file ho
  refine ((h.logs.carried f hf).trans (h.logs.synced _ f hf)).trans ?_
  simp [walStream, hf]

/-- A crash keeps what an open has appended to its log again. -/
theorem carried_kept {n : Node Γ} (h : DataUp n) (κ : CrashKind) (ho : n.hist.opened ∈ n.eng.logs) :
    (encodeAll Γ n.hist.carried).length ≤ n.kept κ n.hist.opened := by
  obtain ⟨f, hf⟩ := h.logs.file ho
  have h1 := h.logs.carried f hf
  have h2 := h.logs.synced _ f hf
  cases κ <;> simp only [Node.kept, hf] <;> omega

/-- A crash of a running engine leaves a directory in order. -/
theorem diskOk_crash {n : Node Γ} (h : DataUp n) (κ : CrashKind) : DiskOk Γ (n.disk.crash κ) :=
  ((cut_crash h.seq h.logs κ).recovered h (carried_kept h κ)).1

/-- A step of a run of a stable kind keeps its invariant. -/
theorem inv_step (hR : R.Stable) {s s' : Sys Γ} {a : Act} {o : Out} (h : R.Inv s) (hok : R.ok s a)
    (hs : step Γ s a = some (s', o)) : R.Inv s' := by
  have hseq : SeqInv s := by
    unfold Inv at h
    cases hp : s.proc with
    | down => simp only [hp] at h; exact h.1
    | opening o => simp only [hp] at h; exact h.1
    | up e =>
      simp only [hp] at h
      simp only [SeqInv, hp]
      exact h.1.seq
  have hseq' : SeqInv s' := seqInv_step hseq hs
  have hm := step_cases hs
  unfold Inv at h
  cases hm with
  | @crash κ =>
    have hκ := hR.crash hok
    cases hp : s.proc with
    | down =>
      simp only [hp] at h
      exact ⟨hseq', h.2.1.crash κ, h.2.2.crash hκ⟩
    | opening o =>
      simp only [hp] at h
      exact ⟨hseq', h.2.1.disk.crash κ, h.2.2.2.2.crash hκ⟩
    | up e =>
      simp only [hp] at h
      refine ⟨hseq', diskOk_crash h.1 κ, hR.crashed h.1 h.2 hκ, fun hpl => ?_⟩
      dsimp only
      rw [Disk.crash_crash]
      exact hR.crashed h.1 h.2 hpl
  | openDir hp =>
    simp only [hp] at h
    exact ⟨hseq', ⟨h.2.1, rfl⟩, trivial, hR.openDir hok, h.2.2⟩
  | @openStep io op x hp hm =>
    simp only [hp] at h
    obtain ⟨-, hopen, hclean, hopt, hkept⟩ := h
    obtain ⟨hsame, hnext⟩ := hopen.move hm
    have hkept' : R.Kept s.hist s'.disk := hkept.of_sameMap hsame
    have hb := hR.openStep hp hok
    unfold Inv
    cases hp' : s'.proc with
    | down =>
      have hh : s'.hist = s.hist := by cases hm <;> first | rfl | simp at hp'
      exact ⟨hseq', hsame.disk, by rw [hh]; exact hkept'⟩
    | opening o' =>
      have hh : s'.hist = s.hist := by cases hm <;> first | rfl | simp at hp'
      have ho : o'.options = op.options := by
        cases hm <;> first
          | rw [← Proc.opening.inj hp']
          | simp at hp'
      exact ⟨hseq', hnext o' hp', hclean.move hopen hb hm hp', by rw [ho]; exact hopt, by rw [hh]; exact hkept'⟩
    | up e =>
      cases hm with
      | loadFails | createFails | refused | syncFails | runtimeFails | torn => simp at hp'
      | loaded | created | append | createdEmpty | sync | remove | removeFails => simp at hp'
      | @up r hst hio =>
        obtain rfl := Proc.up.inj hp'
        have hdata := hopen.up hst hclean ⟨s.hist, rfl⟩ hseq'
        have hrec : s.disk.recovered Γ = r.map Γ s.disk := hopen.recovered (by rw [hst]; rfl)
        exact ⟨hdata, hR.fresh hopt hopen hst (by rw [← hrec]; exact hkept.1) hdata⟩
  | @openHandover k op hp =>
    simp only [hp] at h
    obtain ⟨-, hopen, hclean, hopt, hkept⟩ := h
    obtain ⟨hsame, o', hp', hnext⟩ := hopen.handover hp k
    have hh : (op.handover s k).hist = s.hist ∧ o'.options = op.options ∧ o'.stage.Clean (op.handover s k).disk := by
      unfold Opening.handover at hp' ⊢
      split at hp'
      · rename_i r todo hst
        obtain rfl := Proc.opening.inj hp'
        refine ⟨rfl, rfl, ?_⟩
        simp only [hst]
        trivial
      · rw [hp] at hp'
        obtain rfl := Proc.opening.inj hp'
        exact ⟨rfl, rfl, hclean⟩
    simp only [Inv, hp']
    exact ⟨hseq', hnext, hh.2.2, by rw [hh.2.1]; exact hopt, by rw [hh.1]; exact hkept.of_sameMap hsame⟩
  | @node a e x hp hm =>
    simp only [hp] at h
    obtain ⟨hdata, hup⟩ := h
    have hsys : s = Node.toSys ⟨s.disk, s.hist, e⟩ := by
      cases s
      simp only at hp
      rw [hp]
      rfl
    rw [hsys] at hok
    have hb := hR.benign hdata hup hok
    unfold Inv
    cases hp' : s'.proc with
    | opening o' => cases hm <;> simp [Node.toSys, Node.drop] at hp'
    | up e' =>
      have hx : s' = Node.toSys ⟨s'.disk, s'.hist, e'⟩ := by
        cases s'
        simp only at hp'
        rw [hp']
        rfl
      have hdata' := hdata.nodeMove hb hm hx
      exact ⟨hdata', hR.step hdata hup hok hm hx hdata'⟩
    | down =>
      cases hm with
      | @drop io hw hf hq hg =>
        obtain rfl : io = .ok := hb
        exact ⟨hseq', diskOk_drop hdata, hR.dropped hdata hup hw⟩
      | _ => simp [Node.toSys] at hp'

/-- The start of a sound kind of run has its invariant. -/
theorem inv_init (hR : R.Sound) : R.Inv (Sys.init Γ) := by
  have hrec : (Disk.empty.recovered Γ : Key → Option Value) = fun _ => none := rfl
  have hcrash : ((Disk.empty.crash .powerLoss).recovered Γ : Key → Option Value) = fun _ => none := rfl
  refine ⟨seqInv_init, ?_, by rw [Sys.init, hrec]; exact hR.init, fun _ => by rw [Sys.init, hcrash]; exact hR.init⟩
  exact {
    settled := .inl rfl
    listed := levelsOk_nil
    tables := fun m hm => by simp [Sys.init, Disk.empty, Disk.manifestLevels, stack] at hm
    logs := fun g f hf => by simp [Sys.init, Disk.empty] at hf
    synced := fun g f hf => by simp [Sys.init, Disk.empty] at hf }

/-- The invariant is kept by every run of a kind. -/
theorem inv_steps (hR : R.Stable) {s t : Sys Γ} (hinv : R.Inv s) (h : Transition.Steps (LsmEngine.step Γ) R.ok s t) :
    R.Inv t :=
  h.invariant hinv (fun hinv hok hs => inv_step hR hinv hok hs)

/-- The invariant of every run of a kind. -/
theorem inv_of_steps (hR : R.Sound) {s : Sys Γ} (h : Transition.Steps (LsmEngine.step Γ) R.ok (Sys.init Γ) s) :
    R.Inv s :=
  inv_steps hR.toStable (inv_init hR) h

end Regime

end LsmEngine
