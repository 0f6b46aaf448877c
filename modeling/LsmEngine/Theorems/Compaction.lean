import LsmEngine.Lemmas.Compaction
import LsmEngine.Lemmas.Within
import LsmEngine.Script

/-!
# Compaction and what it keeps

A `compact()` may fail at any of its steps. What the engine reads and what a reopen reads stay the same, with one exception: a
table handle keeps the result of its first open, so a table that the compaction was the first to open, and could not, answers
every later `get` that comes to it with that error, until the directory is opened again.
-/

namespace LsmEngine

open Transition

variable {Γ : Ctx}

/-- `compact()`, with these results of its file-system operations one after another, returns `r`. -/
def CompactReturns (io : Nat → Io) (s t : Sys Γ) (r : Except LsmError Unit) : Prop :=
  ∃ fuel os, play (step Γ) (.compactEnter :: (List.range fuel).map (fun i => .flushStep (io i))) s =
    some (t, os ++ [.compacted r]) ∧ ∀ o ∈ os, o = .silent

/-- A `get` that runs alone returns `r`. -/
def Gets (s : Sys Γ) (k : Key) (r : Except LsmError (Option Value)) : Prop :=
  ∃ fuel t os, runAct Γ fuel (.get k) s = some (t, os) ∧ os.flatMap Out.reply = [.value r]

/-- After a clean drop the directory opens and reads as the map says. -/
def DropReopens (s : Sys Γ) (M : Key → Option Value) : Prop :=
  ∃ t, step Γ s (.drop .ok) = some (t, .silent) ∧ Reopens t M

/-- `m` is a table of both engines that the first had not opened, and its handle in the second keeps the error of an open. -/
def FirstOpenFailed (e e' : Engine Γ) (m : SstMeta) : Prop :=
  m ∈ stack e.levels ∧ m ∈ stack e'.levels ∧ e.readers m.name = none ∧
    e'.readers m.name = some (.error LsmError.io.toString)

/-- A `get` on `t` returns what the map says; or it returns the error of the first open of a table whose range holds the key. -/
def ReadsUnlessUnopened (e e' : Engine Γ) (t : Sys Γ) (M : Key → Option Value) : Prop :=
  ∀ k, Gets t k (.ok (M k)) ∨ ∃ m, FirstOpenFailed e e' m ∧ ¬(k < m.min ∨ m.max < k) ∧
    Gets t k (.error (readerError m.name LsmError.io.toString))

/-- Level 0 is empty, level 1 is the table that the merge of the old tables makes, if it makes one, and the MANIFEST lists that. -/
def LevelsMerged (s t : Sys Γ) (e e' : Engine Γ) : Prop :=
  ∃ output : Option SstMeta, SameLevels e'.levels [[], output.toList] ∧
    MergedInto Γ t.disk (tablesMap Γ s.disk e.levels) output ∧
    ∃ m, loadManifest t.disk = .ok m ∧ SameLevels m.levels [[], output.toList]

/-- What a `compact()` that has returned `r` leaves. -/
structure ContentKept (M : Key → Option Value) (s t : Sys Γ) (e e' : Engine Γ) (r : Except LsmError Unit) : Prop where
  gets : ReadsUnlessUnopened e e' t M
  drops : DropReopens t M
  ok : r = .ok () → Reads t M
  nothing : e.levels[0]?.getD [] = [] → t = s ∧ r = .ok ()
  merged : e.levels[0]?.getD [] ≠ [] → r = .ok () → LevelsMerged s t e e'
  again : r = .ok () → step Γ t .compactEnter = some (t, .compacted (.ok ()))

/-- A quiet engine in order that is dropped reopens to its map. -/
theorem DataUp.drop_reopens {n : Node Γ} (h : DataUp n) (hq : n.quiet = true) :
    DropReopens n.toSys (runWrites n.hist.log n.hist.base) := by
  have hs : step Γ n.toSys (.drop .ok) = some (n.drop .ok, .silent) := step_toSys (by simp only [Node.act, hq, if_true])
  obtain ⟨hdisk, hrec⟩ := h.synced_recovered
  have hseq : SeqInv (n.drop .ok) := seqInv_step (s := n.toSys) h.seq hs
  refine ⟨_, hs, ?_⟩
  have hre := (InOrder.down rfl hseq hdisk).reopens rfl
  rwa [hrec, Hist.mapAt, List.take_length] at hre

/-- An engine in which nobody holds a lock, waits or reads is quiet. -/
theorem quiet_of_parts {n : Node Γ} (hw : n.eng.wal = .free) (hf : n.eng.flush = .free) (hfl : n.eng.flushers = [])
    (hg : n.eng.gets = []) : n.quiet = true := by
  simp [Node.quiet, hw, hf, hfl, hg]

/-- After a compaction level 1 has its output, and the output stands for what the tables stood for. -/
theorem Merged.levels {n₀ n : Node Γ} (h : Merged n₀ n) (hlen : n₀.eng.levels.length ≤ 2) :
    ∃ output : Option SstMeta, SameLevels n.eng.levels [[], output.toList] ∧ stack n.eng.levels = output.toList ∧
      MergedInto Γ n.disk (tablesMap Γ n₀.disk n₀.eng.levels) output ∧ ∀ sst, output = some sst → n.eng.readers sst.name = none := by
  obtain ⟨output, hlev, hmerged, hnone⟩ := h
  refine ⟨output, ?_, by rw [hlev, stack_compacted hlen], hmerged, hnone⟩
  rw [hlev]
  cases output with
  | none =>
    rw [compactedLevels_none]
    intro l
    match l with
    | 0 => rfl
    | 1 => rfl
    | l + 2 => rfl
  | some sst =>
    rw [compactedLevels_some hlen]
    exact fun _ => rfl

/-- What a compaction that has taken tables in leaves. -/
theorem Compacting.kept {n₀ n : Node Γ} {r : Except LsmError Unit} (hlen : n₀.eng.levels.length ≤ 2) (h : Compacting n₀ n)
    (hne : n₀.eng.levels[0]?.getD [] ≠ []) (hst : Stepped n₀ (n, .compacted r)) :
    ContentKept (runWrites n₀.hist.log n₀.hist.base) n₀.toSys n.toSys n₀.eng n.eng r := by
  have hfree : n.eng.flush = .free := by
    cases hst with
    | failed hf => exact hf
    | done hf => exact hf
  have hmerged : r = .ok () → Merged n₀ n ∧ SameLevels n.disk.manifestLevels n.eng.levels := by
    rintro rfl
    cases hst with
    | done _ hm hl => exact ⟨hm, hl⟩
  have hq := quiet_of_parts h.wal hfree h.flushers h.gets
  have hget := h.data.get_answers hq
  simp only [Node.Answers, h.log, h.base] at hget
  refine ⟨fun k => ?_, ?_, fun hok k => ?_, fun hnil => absurd hnil hne, fun _ hok => ?_, fun hok => ?_⟩
  · obtain ⟨fuel, t, os, res, hrun, hout, hans⟩ := hget k
    rcases hans with rfl | ⟨m, hm, hin, err, herr, rfl⟩
    · exact .inl ⟨fuel, t, os, hrun, hout⟩
    · obtain ⟨hold, hnone, rfl⟩ := h.spoilt m hm err herr
      exact .inr ⟨m, ⟨hold, hm, hnone, herr⟩, hin, fuel, t, os, hrun, hout⟩
  · rw [← h.log, ← h.base]
    exact h.data.drop_reopens hq
  · obtain ⟨output, -, hstack, -, hnone⟩ := (hmerged hok).1.levels hlen
    obtain ⟨fuel, t, os, res, hrun, hout, hans⟩ := hget k
    rcases hans with rfl | ⟨m, hm, -, err, herr, -⟩
    · exact ⟨fuel, t, os, hrun, hout⟩
    · -- nobody has opened the output yet
      rw [hstack] at hm
      rw [hnone m (by simpa using hm)] at herr
      simp at herr
  · obtain ⟨output, hlev, -, hmi, -⟩ := (hmerged hok).1.levels hlen
    obtain ⟨m, hload, hm⟩ := loadManifest_ok h.data.seq.settled h.data.seq.listed
    refine ⟨output, hlev, hmi, m, hload, fun l => ?_⟩
    rw [hm, (hmerged hok).2 l, hlev l]
  · obtain ⟨output, hlev, -⟩ := (hmerged hok).1.levels hlen
    exact compactEnter_nothing hfree (hlev 0)

/-- Whatever fails in it, a `compact()` on an engine that nobody else uses comes to its end. What a `get` returns is unchanged, but
for the keys in the range of a table that it was the first to open and could not; and what a reopen reads is unchanged. When it
returns `Ok`, the tables are merged into one and a second `compact()` finds nothing to do. -/
theorem compaction_keeps_content {s : Sys Γ} {e : Engine Γ} (h : Steps (step Γ) NoFailure (Sys.init Γ) s) (hp : s.proc = .up e)
    (hq : (Node.mk s.disk s.hist e).quiet = true) :
    ∃ M, Reads s M ∧ DropReopens s M ∧ ∀ io : Nat → Io, ∃ t e' r, CompactReturns io s t r ∧ t.proc = .up e' ∧
      ContentKept M s t e e' r := by
  have hin : InOrder s := inOrder_of_steps h
  obtain ⟨hdata, hsound⟩ := hin.up hp
  have hs : s = (Node.mk s.disk s.hist e).toSys := by rw [Node.toSys, ← hp]
  generalize hn : Node.mk s.disk s.hist e = n at hdata hsound hq hs
  obtain rfl : e = n.eng := by rw [← hn]
  subst hs
  obtain ⟨hw, hf, hfl, hg⟩ := quiet_parts hq
  have hreads := (hin.idle rfl hq).reads
  rw [show n.eng.map n.toSys.disk = _ from hdata.map_of_free hw] at hreads
  refine ⟨_, hreads, hdata.drop_reopens hq, fun io => ?_⟩
  by_cases hl : n.eng.levels[0]?.getD [] = []
  · have hstep := compactEnter_nothing hf hl
    refine ⟨n.toSys, n.eng, .ok (), ⟨0, [], by simp [play, hstep], by simp⟩, rfl, ?_⟩
    exact ⟨fun k => .inl (hreads k), hdata.drop_reopens hq, fun _ => hreads, fun _ => ⟨rfl, rfl⟩, fun hne => absurd hl hne,
      fun _ => hstep⟩
  · have hstep := compactEnter_reads hf hl
    have hdata' : DataUp { n with eng.flush := .reading (inputsOf n.eng.levels) (inputsOf n.eng.levels) [] } :=
      hdata.nodeMove (a := .compactEnter) trivial (.compactEnter hf hl) rfl
    have hstart : Compacting n { n with eng.flush := .reading (inputsOf n.eng.levels) (inputsOf n.eng.levels) [] } := by
      refine ⟨hdata', rfl, rfl, hw, hfl, hg, fun m hm err herr => ?_, fun m hm hnone => hnone⟩
      exact absurd herr (hsound.handles.live m hm err)
    obtain ⟨fuel, n', os, r, hplay, hos, hend, hst⟩ := hstart.ends hdata.seq.levels.len ⟨rfl, fun _ _ => rfl⟩ io
    refine ⟨n'.toSys, n'.eng, r, ⟨fuel, .silent :: os, ?_, ?_⟩, rfl, hend.kept hdata.seq.levels.len hl hst⟩
    · rw [play, hstep]
      simp only [hplay, Option.map_some, List.cons_append]
    · simpa using hos

/-- A compaction cannot open a table that nobody has read since its flush, and the next `get` returns the error that its handle
keeps. -/
theorem failed_open_is_kept :
    ¬∀ (s t : Sys Ctx.concrete) (e : Engine Ctx.concrete) (io : Nat → Io) (r : Except LsmError Unit),
      Steps (step Ctx.concrete) NoFailure (Sys.init _) s → s.proc = .up e → (Node.mk s.disk s.hist e).quiet = true →
      CompactReturns io s t r → ∃ M, Reads s M ∧ Reads t M := by
  intro hall
  obtain ⟨s, e, hrun, hproc, hp⟩ := exists_up_of_play NoFailure (Sys.init Ctx.concrete)
    (Script.openDir ⟨0, false, 0⟩ 0 0 ++ Script.put [1] [7] ++ Script.flush)
    (fun s e => (Node.mk s.disk s.hist e).quiet &&
      leadsTo (play (step _) [.compactEnter, .flushStep (.fail 0), .flushStep (.fail 0)] s)
        [.silent, .silent, .compacted (.error (readerError ⟨0, 3⟩ LsmError.io.toString))]
        (fun t => decide (replies _ 20 (.get [1]) t = some [.value (.error (readerError ⟨0, 3⟩ LsmError.io.toString))])))
    (by decide +kernel)
  simp only [Bool.and_eq_true] at hp
  obtain ⟨hq, hcompact⟩ := hp
  obtain ⟨t, hplay, hreply⟩ := leadsTo_iff.1 hcompact
  obtain ⟨M, -, hM⟩ := hall s t e (fun _ => .fail 0) _ hrun hproc hq ⟨2, [.silent, .silent], hplay, by simp⟩
  have := hM.replied (of_decide_eq_true hreply)
  simp at this

/-- A write over a flushed one, frozen and not flushed, and a compaction of the table under it. -/
theorem compaction_keeps_content_shadowed :
    ∃ (s : Sys Ctx.concrete) (e : Engine Ctx.concrete), s.proc = .up e ∧ e.levels[0]?.getD [] ≠ [] ∧ e.immutables ≠ [] ∧
      ∃ M, Reads s M ∧ DropReopens s M ∧ ∀ io : Nat → Io, ∃ t e' r, CompactReturns io s t r ∧ t.proc = .up e' ∧
        ContentKept M s t e e' r := by
  obtain ⟨s, e, hrun, hproc, hp⟩ := exists_up_of_play NoFailure (Sys.init Ctx.concrete)
    (Script.openDir ⟨1, false, 0⟩ 0 0 ++ [.write ⟨.put, [1], [7]⟩ .ok] ++ List.replicate 6 (.walStep .ok) ++ [.workerEnter] ++
      List.replicate 13 (.flushStep .ok) ++ [.write ⟨.put, [1], [8]⟩ .ok] ++ List.replicate 6 (.walStep .ok))
    (fun s e => (Node.mk s.disk s.hist e).quiet && decide (e.levels[0]?.getD [] ≠ []) && decide (e.immutables ≠ []))
    (by decide +kernel)
  simp only [Bool.and_eq_true, decide_eq_true_eq] at hp
  exact ⟨s, e, hproc, hp.1.2, hp.2, compaction_keeps_content hrun hproc hp.1.1⟩

end LsmEngine
