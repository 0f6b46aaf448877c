import LsmEngine.Lemmas.Calls
import LsmEngine.Lemmas.Files
import LsmEngine.Script

/-!
# Every file is accounted for

In a run without crashes and failures, whenever neither `flush_lock` nor the wal mutex is held, the directory holds the logs of the
generations that are not flushed, the tables of the levels and the MANIFEST that lists them, and nothing else.
-/

namespace LsmEngine

open Transition SsTableAux

variable {Γ : Ctx}

/-- The file of the table `m` opens and reads as records in ascending order of their keys, the first and the last of which are those
that `m` gives; and a key that `get` takes to be out of the range of `m` is not in it. -/
def TableInOrder (Γ : Ctx) (d : Disk) (m : SstMeta) : Prop :=
  ∃ f rd rs, (d.ssts m.name).bind Stored.cur = some f ∧ SsTableReader.openFile Γ f = .ok rd ∧ rd.records = .ok rs ∧
    rs ≠ [] ∧ Sorted rs ∧ rs.head?.map Prod.fst = some m.min ∧ rs.getLast?.map Prod.fst = some m.max ∧
    ∀ k, k < m.min ∨ m.max < k → ∀ x ∈ rs, x.1 ≠ k

/-- The files of a running engine are those it knows of. -/
structure FilesAgree (s : Sys Γ) (e : Engine Γ) : Prop where
  wals : s.disk.wals.keys = e.immutables.map PendingImm.walSeq ++ [e.walSeq]
  ssts : ∀ name, s.disk.ssts name ≠ none ↔ ∃ m ∈ stack e.levels, m.name = name
  distinct : ((stack e.levels).map SstMeta.name).Nodup
  manifest : ∃ m, loadManifest s.disk = .ok m ∧ SameLevels m.levels e.levels
  sstTmps : ∀ name, s.disk.sstTmps name = none
  manifestTmp : s.disk.manifestTmp = none
  tables : ∀ m ∈ stack e.levels, TableInOrder Γ s.disk m

/-- A table with its records has them in the order of its format. -/
theorem TableOf.inOrder {d : Disk} {m : SstMeta} {rs : List Record} (h : TableOf Γ d m rs) : TableInOrder Γ d m := by
  obtain ⟨f, hf, hb⟩ := h
  obtain ⟨rd, hopen, hrec, -⟩ := hb.reads
  refine ⟨f, rd, rs, by rw [hf]; rfl, hopen, hrec, hb.nonempty, hb.sorted, hb.first, hb.last, fun k hk x hx hxk => ?_⟩
  have hnone := hb.find_outside hk
  rw [← hxk, SortedMap.find_eq_some_of_mem hb.sorted hx] at hnone
  simp at hnone

/-- No two tables have one name. -/
theorem LevelsOk.nodup_names {levels : List (List SstMeta)} (h : LevelsOk levels) : ((stack levels).map SstMeta.name).Nodup := by
  refine List.pairwise_map.2 (h.asc.imp_of_mem (fun {a b} ha hb hlt heq => ?_))
  have hseq : ∀ {m : SstMeta}, m ∈ stack levels → m.name.seq = m.seq := by
    intro m hm
    obtain ⟨l, hl, hml⟩ := mem_stack.1 hm
    obtain ⟨i, hi⟩ := List.mem_iff_getElem?.1 hl
    rw [(h.named i l hi m hml).2]
  have := hseq ha
  have := hseq hb
  rw [heq] at *
  omega

/-- In a run without crashes and failures, at every point where neither `flush_lock` nor the wal mutex is held, the files of the
directory are those that the engine knows of. -/
theorem files_are_accounted {s : Sys Γ} (h : Steps (step Γ) Smooth (Sys.init Γ) s) {e : Engine Γ} (hp : s.proc = .up e)
    (hw : e.wal = .free) (hf : e.flush = .free) : FilesAgree s e := by
  obtain ⟨htidy, hinv⟩ := tidy_of_steps h
  simp only [Sys.Tidy, hp] at htidy
  simp only [Regime.Inv, hp] at hinv
  obtain ⟨hdata, -, ⟨-, hlisted, -⟩, -⟩ := hinv
  obtain ⟨⟨hssts, htmps, hmtmp⟩, hstale⟩ := htidy
  dsimp only at hssts htmps hmtmp
  rw [hf] at hssts htmps hmtmp
  refine ⟨?_, fun name => ⟨fun hn => ?_, ?_⟩, hdata.seq.levels.nodup_names, ?_, fun name => ?_, ?_, fun m hm => ?_⟩
  · rw [hdata.logs.keys, Engine.logs, Engine.generations, Engine.generation]
    simp only [hw, hf, FlushSection.flushed, WalSection.spare, List.nil_append, List.append_nil]
  · simpa [FlushSection.beside] using hssts name hn
  · rintro ⟨m, hm, rfl⟩
    obtain ⟨rs, f, hfile, -⟩ := hdata.tables.live m hm
    rw [show s.disk.ssts m.name = _ from hfile]
    simp
  · obtain ⟨m, hload, hm⟩ := loadManifest_ok hdata.seq.settled hdata.seq.listed
    refine ⟨m, hload, ?_⟩
    rw [hm]
    exact hlisted.current hstale (by dsimp only; rw [hf]; rfl)
  · by_contra hne
    obtain ⟨sst, hsst, -⟩ := htmps name hne
    simp [FlushSection.staged] at hsst
  · by_contra hne
    simpa [FlushSection.writesManifest] using hmtmp hne
  · obtain ⟨rs, hrs⟩ := hdata.tables.live m hm
    exact hrs.inOrder

/-- A drop and a reopen, a table in each level and a frozen MemTable that waits for its flush. -/
theorem files_are_accounted_reopened :
    ∃ (s : Sys Ctx.concrete) (e : Engine Ctx.concrete), s.proc = .up e ∧ (stack e.levels).length = 2 ∧ e.immutables.length = 1 ∧
      FilesAgree s e := by
  obtain ⟨s, e, hrun, hproc, hp⟩ := exists_up_of_play Smooth (Sys.init Ctx.concrete)
    (Script.openDir ⟨0, false, 0⟩ 0 0 ++ Script.put [1] [7] ++ Script.flush ++ Script.compact 1 ++ [.drop .ok] ++
      Script.openDir ⟨0, false, 0⟩ 0 1 ++ Script.put [2] [8] ++ Script.flush ++ Script.put [1] [9] ++ Script.flushStart)
    (fun _ e => decide (e.wal = .free) && !e.flush.busy && decide ((stack e.levels).length = 2 ∧ e.immutables.length = 1))
    (by decide +kernel)
  simp only [Bool.and_eq_true, decide_eq_true_eq, Bool.not_eq_true', FlushSection.not_busy] at hp
  obtain ⟨⟨hw, hf⟩, htwo, hone⟩ := hp
  exact ⟨s, e, hproc, htwo, hone, files_are_accounted hrun hproc hw hf⟩

end LsmEngine
