import LsmEngine.Lemmas.Within
import LsmEngine.Script

/-!
# Logs and MemTables agree

Whenever the wal mutex is free, the bytes appended to the log of a generation replay into the MemTable of that generation, and a
MemTable that is frozen never changes again.
-/

namespace LsmEngine

open Transition

variable {Γ : Ctx} {n : Node Γ}

/-- The bytes appended to the log `seq` replay into a table that holds what `m` holds. -/
def ReplaysTo (d : Disk) (e : Engine Γ) (seq : Nat) (m : MemTable) : Prop :=
  ∃ m', replayInto Γ (walStream d e seq) MemTable.new = .ok m' ∧ m'.map = m.map

/-- A log that is whole replays to the MemTable of its generation. -/
theorem Whole.replays (h : Whole n) (hlogs : LogsOk n) {g : Nat} (hg : g ∈ n.eng.logs) {m : MemTable}
    (hm : m.map = (replayEntries (n.hist.entries g) MemTable.new).map) : ReplaysTo n.disk n.eng g m := by
  obtain ⟨f, hf⟩ := hlogs.file hg
  refine ⟨_, ?_, hm.symm⟩
  rw [h g f hf, replayInto, scan_encodeAll Γ (hlogs.valid g hg)]
  rfl

/-- What holds of the generations of a running engine. -/
structure GenerationsAgree (s : Sys Γ) (e : Engine Γ) : Prop where
  active : e.wal = .free → ReplaysTo s.disk e e.walSeq (e.mems e.active)
  pending : e.wal = .free → ∀ p ∈ e.immutables, ReplaysTo s.disk e p.walSeq (e.mems p.mem)
  /-- the numbers of the logs increase in the order of freeze -/
  ordered : e.generations.Pairwise (· < ·)
  /-- the MemTables that are frozen, those of the immutables among them -/
  frozen : ∀ p ∈ e.immutables, p.mem < e.active
  /-- never change while the engine runs -/
  fixed : ∀ t e', Steps (step Γ) NoFailure s t → t.proc = .up e' → SameOpen s t →
    e.active ≤ e'.active ∧ ∀ i < e.active, e'.mems i = e.mems i

/-- A MemTable that is frozen stays as it is in its open. -/
theorem frozen_fixed {s t : Sys Γ} (hs : Steps (step Γ) NoFailure (Sys.init Γ) s) (h : Steps (step Γ) NoFailure s t)
    {e e' : Engine Γ} (hp : s.proc = .up e) (hp' : t.proc = .up e') (hsame : SameOpen s t) :
    e.active ≤ e'.active ∧ ∀ i < e.active, e'.mems i = e.mems i := by
  have hall := run_within h (P := fun t => ∀ e', t.proc = .up e' → e.active ≤ e'.active ∧ ∀ i < e.active, e'.mems i = e.mems i)
    (fun e' he => by
      obtain rfl := Proc.up.inj (hp.symm.trans he)
      exact ⟨Nat.le_refl _, fun _ _ => rfl⟩) ?_ hp' hsame
  · exact hall e' hp'
  · intro u v e₀ e₁ a o hu ih hp₀ _ _ hm hpv e₂ hp₂
    obtain rfl := Proc.up.inj (hpv.symm.trans hp₂)
    have hread := hm.readStep ((inOrder_of_steps (hs.trans hu)).up hp₀).1.counts (toSys_of_up hpv)
    obtain ⟨h1, h2⟩ := ih e₀ hp₀
    have hle : e₀.active ≤ e₁.active := hread.active
    exact ⟨h1.trans hle, fun i hi => (hread.frozen i (by dsimp only; omega)).trans (h2 i hi)⟩

/-- In a run in which nothing fails, at every point where the wal mutex is free, the log of every generation replays into its
MemTable; the generations are numbered in the order of freeze, and a frozen MemTable never changes. -/
theorem logs_agree_with_memtables {s : Sys Γ} (h : Steps (step Γ) NoFailure (Sys.init Γ) s) {e : Engine Γ}
    (hp : s.proc = .up e) : GenerationsAgree s e := by
  obtain ⟨hdata, hsound⟩ := (inOrder_of_steps h).up hp
  have hgen : ∀ {p : PendingImm}, p ∈ e.immutables → p.walSeq ∈ (Node.mk s.disk s.hist e).eng.logs := by
    intro p hpm
    exact mem_logs_of_generation _ (List.mem_append_left _ (List.mem_map.2 ⟨p, hpm, rfl⟩))
  obtain ⟨F, -, hasc, -⟩ := hdata.seq.order
  refine ⟨fun hw => ?_, fun _ p hpm => ?_, (List.pairwise_append.1 hasc).2.1, fun p hpm => (hdata.logs.frozen p hpm).1,
    fun t e' hrun hp' hsame => frozen_fixed h hrun hp hp' hsame⟩
  · obtain ⟨es, hes, hmap⟩ := hdata.logs.active
    have hg : e.generation = e.walSeq := by simp [Engine.generation, hw]
    simp only [hg, hw, WalSection.inflight, List.append_nil] at hes hmap
    exact hsound.whole.replays hdata.logs hdata.logs.walSeq_mem (by rw [hmap, hes])
  · exact hsound.whole.replays hdata.logs (hgen hpm) (hdata.logs.frozen p hpm).2.2

/-- An engine with one frozen MemTable that waits for its flush, and a write after the freeze. -/
theorem logs_agree_with_memtables_frozen :
    ∃ (s : Sys Ctx.concrete) (e : Engine Ctx.concrete), s.proc = .up e ∧ e.wal = .free ∧ e.immutables.length = 1 ∧
      (e.mems e.active).isEmpty = false ∧ GenerationsAgree s e := by
  obtain ⟨s, e, hrun, hproc, hp⟩ := exists_up_of_play NoFailure (Sys.init Ctx.concrete)
    (Script.openDir ⟨0, false, 0⟩ 0 0 ++ Script.put [1] [7] ++ Script.flushStart ++ Script.put [2] [8])
    (fun s e => decide (e.wal = .free ∧ e.immutables.length = 1 ∧ (e.mems e.active).isEmpty = false)) (by decide +kernel)
  simp only [decide_eq_true_eq] at hp
  exact ⟨s, e, hproc, hp.1, hp.2.1, hp.2.2, logs_agree_with_memtables hrun hproc⟩

end LsmEngine
