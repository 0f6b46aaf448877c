import LsmEngine.Theorems.Compaction
import LsmEngine.Lemmas.Spoilt
import LsmEngine.Script

/-!
# A table that cannot be opened

The handle of a table keeps the result of its first open, an error too. So a `get` or a compaction that cannot open a table returns an
error and leaves the engine as it was, but for the handle of that table; and until the directory is opened again, this table answers
every `get` that comes to it, and every compaction, with that error.
-/

namespace LsmEngine

open Transition

variable {Γ : Ctx}

/-- A call that reads tables: the `get` in place `i`, or the compaction. -/
inductive ReadCall where
  | get (i : Nat)
  | compact

/-- The next step of the call. -/
def ReadCall.act : ReadCall → Io → Act
  | .get i, io => .getStep i io
  | .compact, io => .flushStep io

/-- The table that the call needs next. -/
def Engine.comesTo (e : Engine Γ) : ReadCall → Option SstMeta
  | .get i =>
    match e.gets[i]? with
    | some ⟨k, _, .tables (m :: _)⟩ => if k < m.min ∨ m.max < k then none else some m
    | _ => none
  | .compact =>
    match e.flush with
    | .reading _ (m :: _) _ => some m
    | _ => none

/-- The first open of a table has failed. -/
def Engine.spoil (e : Engine Γ) (m : SstMeta) (err : String) : Engine Γ :=
  { e with readers := Function.update e.readers m.name (some (.error err)) }

/-- The call has ended. -/
def Engine.without (e : Engine Γ) : ReadCall → Engine Γ
  | .get i => { e with gets := e.gets.eraseIdx i }
  | .compact => { e with flush := .free }

/-- The call returns an error. -/
def Engine.refusal (e : Engine Γ) (err : LsmError) : ReadCall → Out
  | .get i => ((e.gets[i]?).map (fun g => .got g.key g.since (.error err))).getD .silent
  | .compact => .compacted (.error err)

/-- The tables that `compact()` needs: none when it finds level 0 empty. -/
def Engine.compactsFrom (e : Engine Γ) : List SstMeta := if e.levels[0]?.getD [] = [] then [] else inputsOf e.levels

/-- A `get` that begins and moves on while nobody else does returns `r`. -/
def GetsAmong (s : Sys Γ) (k : Key) (r : Except LsmError (Option Value)) : Prop :=
  ∃ fuel i since t os, play (step Γ) (.get k :: List.replicate fuel (.getStep i .ok)) s = some (t, os ++ [.got k since r]) ∧
    ∀ o ∈ os, o = .silent

/-- `get(k)` on an engine that nobody else uses, with these results of its file-system operations one after another, returns `r`. -/
def GetReturns (io : Nat → Io) (s t : Sys Γ) (k : Key) (r : Except LsmError (Option Value)) : Prop :=
  ∃ fuel since os, play (step Γ) (.get k :: (List.range fuel).map (fun i => .getStep 0 (io i))) s =
    some (t, os ++ [.got k since r]) ∧ ∀ o ∈ os, o = .silent

/-- `e'` is `e` but for the handles and the calls that read tables. -/
def SameButReaders (e e' : Engine Γ) : Prop := e' = { e with
  readers := e'.readers
  gets := e'.gets
  flush := e'.flush }

/-- What tables that cannot be opened are to a running engine. -/
structure Contained (s : Sys Γ) (e : Engine Γ) : Prop where
  /-- a call cannot open the table it comes to, and returns the error with its next step -/
  spoils : ∀ c io m err, e.comesTo c = some m → e.readers m.name = none → openReader Γ s.disk m.name io = .error err →
    step Γ s (c.act io) = some ({ s with proc := .up (e.spoil m err) }, .silent) ∧
    ∀ io', step Γ { s with proc := .up (e.spoil m err) } (c.act io') =
      some ({ s with proc := .up ((e.spoil m err).without c) }, e.refusal (readerError m.name err) c)
  /-- a call comes to a spoilt table -/
  fails : ∀ c io m err, e.comesTo c = some m → e.readers m.name = some (.error err) →
    step Γ s (c.act io) = some ({ s with proc := .up (e.without c) }, e.refusal (readerError m.name err) c)
  /-- a live table stays spoilt while the engine runs -/
  kept : ∀ a t o e', step Γ s a = some (t, o) → t.proc = .up e' → ∀ m ∈ stack e.levels, ∀ err,
    e.readers m.name = some (.error err) → e'.readers m.name = some (.error err)
  /-- any step of a call that reads tables -/
  frame : ∀ c io t o, (c = .compact → e.comesTo c ≠ none) → step Γ s (c.act io) = some (t, o) →
    ∃ e', t = { s with proc := .up e' } ∧ SameButReaders e e'
  /-- any step at all -/
  content : ∀ a t o e', step Γ s a = some (t, o) → t.proc = .up e' → e'.map t.disk = e.map s.disk ∨
    ∃ w, (e.wal = .logged w ∨ e.wal = .synced w) ∧ e'.map t.disk = runWrites [w] (e.map s.disk)
  /-- a `get`, when nothing fails -/
  gets : ∀ k, GetsAmong s k (e.unlessSpoilt (e.asks s.disk k) (e.map s.disk k))
  /-- a compaction, when nothing fails -/
  compacts : e.flush = .free → e.wal.holdsStateLock = false → ∃ t e',
    CompactReturns (fun _ => .ok) s t (e.unlessSpoilt e.compactsFrom ()) ∧ t.proc = .up e' ∧ e'.map t.disk = e.map s.disk ∧
      ((e.compactsFrom.findSome? e.handleError).isSome → t = { s with proc := .up e' } ∧ SameButReaders e e')

/-! ## The steps of the calls that read -/

section Steps

variable {n : Node Γ} {m : SstMeta} {c : ReadCall} {err : String}

/-- A `get` comes to a table whose range has its key. -/
theorem comesTo_get {e : Engine Γ} {i : Nat} (h : e.comesTo (.get i) = some m) :
    ∃ g rest, e.gets[i]? = some g ∧ g.walk = .tables (m :: rest) ∧ ¬(g.key < m.min ∨ m.max < g.key) := by
  unfold Engine.comesTo at h
  dsimp only at h
  split at h
  · rename_i k since m' rest hg
    split at h
    · simp at h
    · rename_i hin
      obtain rfl := Option.some.inj h
      exact ⟨_, rest, hg, rfl, hin⟩
  · simp at h

/-- A compaction comes to its next input. -/
theorem comesTo_compact {e : Engine Γ} (h : e.comesTo .compact = some m) :
    ∃ inputs rest runs, e.flush = .reading inputs (m :: rest) runs := by
  unfold Engine.comesTo at h
  dsimp only at h
  split at h
  · rename_i inputs m' rest runs hf
    obtain rfl := Option.some.inj h
    exact ⟨inputs, rest, runs, hf⟩
  · simp at h

/-- The first open of the table that the call comes to fails. -/
theorem step_spoils (hm : n.eng.comesTo c = some m) (hr : n.eng.readers m.name = none) {io : Io}
    (ho : openReader Γ n.disk m.name io = .error err) :
    step Γ n.toSys (c.act io) = some (Node.toSys { n with eng := n.eng.spoil m err }, .silent) := by
  cases c with
  | get i =>
    obtain ⟨g, rest, hg, hw, hin⟩ := comesTo_get hm
    refine step_get (r := ({ n with eng := n.eng.spoil m err }, .silent)) ?_
    simp only [Node.getStep, hg, hw, Node.lookTable, if_neg hin, hr, ho]
    rfl
  | compact =>
    obtain ⟨inputs, rest, runs, hf⟩ := comesTo_compact hm
    refine step_flush (r := ({ n with eng := n.eng.spoil m err }, .silent)) ?_
    have hread : n.flushStep io = some (n.readInput inputs m rest runs io) := by simp only [Node.flushStep, hf]
    rw [hread, Node.readInput]
    simp only [hr, ho]
    rfl

/-- The call comes to a spoilt table. -/
theorem step_fails (hm : n.eng.comesTo c = some m) (hr : n.eng.readers m.name = some (.error err)) (io : Io) :
    step Γ n.toSys (c.act io) = some (Node.toSys { n with eng := n.eng.without c }, n.eng.refusal (readerError m.name err) c) := by
  cases c with
  | get i =>
    obtain ⟨g, rest, hg, hw, hin⟩ := comesTo_get hm
    refine step_get (r := ({ n with eng := n.eng.without (.get i) }, n.eng.refusal (readerError m.name err) (.get i))) ?_
    simp only [Node.getStep, hg, hw, Node.lookTable, if_neg hin, hr, Node.answer, Engine.refusal, Option.map_some,
      Option.getD_some]
    rfl
  | compact =>
    obtain ⟨inputs, rest, runs, hf⟩ := comesTo_compact hm
    refine step_flush (r := ({ n with eng := n.eng.without .compact }, n.eng.refusal (readerError m.name err) .compact)) ?_
    simp only [Node.flushStep, hf, Node.readInput, hr]
    rfl

/-- The calls that read change nothing but handles. -/
theorem GetMove.sameButReaders {i : Nat} {io : Io} {r : Node Γ × Out} (hm : GetMove n i io r) :
    r.1 = { n with eng := r.1.eng } ∧ SameButReaders n.eng r.1.eng := by
  cases hm <;> exact ⟨rfl, rfl⟩

/-- A step that opens a reader changes the readers only. -/
theorem FlushMove.sameButReaders {io : Io} {r : Node Γ × Out} (hm : FlushMove n io r) (hc : n.eng.comesTo .compact ≠ none) :
    r.1 = { n with eng := r.1.eng } ∧ SameButReaders n.eng r.1.eng := by
  obtain ⟨m, hm'⟩ := Option.ne_none_iff_exists'.1 hc
  obtain ⟨inputs, rest, runs, hf⟩ := comesTo_compact hm'
  cases hm with
  | readOpen | readFails | read => exact ⟨rfl, rfl⟩
  | nothing hf' | drained hf' | unbuilt hf' | built hf' | buildFails hf' | buildStage hf' | buildRename hf' | commit hf'
  | mergedNone hf' | mergedUnbuilt hf' | merged hf' | mergeFails hf' | mergeStage hf' | mergeRename hf' | install hf'
  | manifestFailsFlush hf' | manifestFailsCompact hf' | manifestStage hf' | manifestFlush hf' | manifestCompact hf'
  | flushDone hf' | unlinkWal hf' | unlinkWalFails hf' | compactDone hf' | unlinkInput hf' | unlinkInputFails hf' =>
    rw [hf] at hf'
    simp at hf'

end Steps

/-- What is proved of a node of a run. -/
theorem TablesUp.contained {n : Node Γ} (h : TablesUp n) : Contained n.toSys n.eng where
  spoils := by
    intro c io m err hm hr ho
    refine ⟨step_spoils hm hr ho, fun io' => ?_⟩
    have hspoilt : (n.eng.spoil m err).readers m.name = some (.error err) := Function.update_self _ _ _
    have hfails := step_fails (n := ⟨n.disk, n.hist, n.eng.spoil m err⟩) (c := c) (m := m) (by cases c <;> exact hm) hspoilt io'
    cases c <;> exact hfails
  fails := fun c io m err hm hr => step_fails hm hr io
  kept := by
    intro a t o e' hs ht m hlive err hr
    cases step_cases hs with
    | crash => simp at ht
    | openDir hp | openStep hp | openHandover hp => simp [Node.toSys] at hp
    | node hp hm =>
      obtain rfl := Proc.up.inj hp
      exact hm.keeps_handle (toSys_of_up ht) hr (h.seq.live_ne_new hlive)
  frame := by
    intro c io t o hc hs
    cases c with
    | get i =>
      cases step_cases hs with
      | node hp hm =>
        obtain rfl := Proc.up.inj hp
        cases hm with
        | getStep hg =>
          obtain ⟨hdisk, hsame⟩ := hg.sameButReaders
          exact ⟨_, by rw [hdisk]; rfl, hsame⟩
    | compact =>
      cases step_cases hs with
      | node hp hm =>
        obtain rfl := Proc.up.inj hp
        cases hm with
        | flushStep hf =>
          obtain ⟨hdisk, hsame⟩ := hf.sameButReaders (hc rfl)
          exact ⟨_, by rw [hdisk]; rfl, hsame⟩
  content := by
    intro a t o e' hs ht
    cases step_cases hs with
    | crash => simp at ht
    | openDir hp | openStep hp | openHandover hp => simp [Node.toSys] at hp
    | node hp hm =>
      obtain rfl := Proc.up.inj hp
      exact hm.map_step h (toSys_of_up ht)
  gets := by
    intro k
    obtain ⟨fuel, readers, os, hplay, hos, -⟩ := h.tables.get_returns k
    have hsilent : ∀ o ∈ Out.silent :: os, o = .silent := by simpa using hos
    have hget : step Γ n.toSys (.get k) =
      some ((n.asking ⟨k, n.hist.applied, .active n.eng.active n.eng.immutables (lookupOrder n.eng.levels)⟩).toSys, .silent) := rfl
    refine ⟨fuel, n.eng.gets.length, n.hist.applied, Node.toSys { n with eng.readers := readers }, .silent :: os, ?_, hsilent⟩
    rw [play, hget]
    dsimp only
    rw [hplay]
    rfl
  compacts := by
    intro hf hl
    by_cases hnil : n.eng.levels[0]?.getD [] = []
    · rw [Engine.compactsFrom, if_pos hnil]
      refine ⟨n.toSys, n.eng, ⟨0, [], ?_, by simp⟩, rfl, rfl, by simp⟩
      simp only [play, compactEnter_nothing hf hnil]
      rfl
    · rw [Engine.compactsFrom, if_neg hnil]
      obtain ⟨fuel, m, os, hplay, hos, hmap, herr⟩ := h.compact_returns hl hf hnil
      refine ⟨m.toSys, m.eng, ⟨fuel, os, ?_, hos⟩, rfl, hmap, fun hsome => ?_⟩
      · rw [List.map_const', List.length_range]
        exact hplay
      · obtain ⟨err, hfirst⟩ := Option.isSome_iff_exists.1 hsome
        obtain ⟨readers, -, rfl⟩ := herr err hfirst
        exact ⟨rfl, rfl⟩

/-- Whatever fails, in every state of every run: a call that cannot open a table returns an error with its next step and leaves the
engine as it was, but for the handle of that table; only an open that fails makes a handle keep an error, and no engine starts with
one. When nothing fails, a `get` that moves alone returns the value that the engine stands for, and a compaction succeeds, unless it
comes to a table whose handle keeps an error. While every other operation that could lose a write succeeds, that value is the one of
the writes. -/
theorem failed_open_spoils_one_handle {s : Sys Γ} (h : Steps (step Γ) (fun _ _ => True) (Sys.init Γ) s) :
    (∀ e, s.proc = .up e → Contained s e) ∧
    (∀ a t o e', step Γ s a = some (t, o) → t.proc = .up e' → ∀ m ∈ stack e'.levels, ∀ err,
      e'.readers m.name = some (.error err) → err = LsmError.io.toString ∧ ∃ e, s.proc = .up e ∧ m ∈ stack e.levels ∧
        (e.readers m.name = some (.error err) ∨ (e.readers m.name = none ∧ ∃ c k, a = ReadCall.act c (.fail k)))) ∧
    (Steps (step Γ) Benign (Sys.init Γ) s → ∀ e, s.proc = .up e → e.map s.disk = s.hist.mapAt s.hist.applied ∧
      ((Node.mk s.disk s.hist e).quiet = true → DropReopens s (e.map s.disk))) := by
  refine ⟨fun e hp => ?_, fun a t o e' hs ht m hm err herr => ?_, fun hb e hp => ?_⟩
  · have hup := tablesUp_of_init h hp
    rw [toSys_of_up hp]
    exact hup.contained
  · have hup' := tablesUp_of_init (h.tail trivial hs) ht
    refine ⟨hup'.spoilt m hm err herr, ?_⟩
    cases step_cases hs with
    | crash | openDir => simp at ht
    | openStep hp hmove =>
      cases hmove with
      | up =>
        -- a new engine has opened nothing
        obtain rfl := Proc.up.inj ht
        simp [Recovered.engine] at herr
      | _ => simp at ht
    | @openHandover k op hp =>
      unfold Opening.handover at ht
      split at ht
      · simp at ht
      · rw [hp] at ht
        simp at ht
    | @node _ e _ hp hmove =>
      have hup := tablesUp_of_init h hp
      obtain ⟨hlive, hold | ⟨io, hnone, ho, hwhich⟩⟩ := hmove.spoils hup.seq (toSys_of_up ht) hm herr
      · exact ⟨e, hp, hlive, .inl hold⟩
      · obtain ⟨rs, htab⟩ := hup.tables.live m hlive
        refine ⟨e, hp, hlive, .inr ⟨hnone, ?_⟩⟩
        cases io with
        | ok => exact absurd ho (htab.openReader_ok err)
        | fail k =>
          rcases hwhich with ⟨rfl, -⟩ | ⟨i, rfl⟩
          · exact ⟨.compact, k, rfl⟩
          · exact ⟨.get i, k, rfl⟩
  · have hinv := Regime.inv_of_steps (Regime.benign_sound Γ) hb
    simp only [Regime.Inv, hp] at hinv
    obtain ⟨hdata, -⟩ := hinv
    refine ⟨hdata.map_eq, fun hq => ?_⟩
    have hmap := hdata.map_of_free (quiet_parts hq).1
    rw [toSys_of_up hp]
    exact hmap ▸ hdata.drop_reopens hq

/-- A `get` cannot open the table that holds its key. The next `get` of the key opens nothing and returns the error that the handle
keeps. -/
theorem failed_open_fails_later_gets :
    ¬∀ (s t : Sys Ctx.concrete) (e : Engine Ctx.concrete) (io : Nat → Io) (k : Key) (err : LsmError),
      Steps (step Ctx.concrete) NoFailure (Sys.init _) s → s.proc = .up e → (Node.mk s.disk s.hist e).quiet = true →
      GetReturns io s t k (.error err) → (∃ M, Reads s M ∧ Reads t M) ∧ ∃ u, CompactReturns (fun _ => .ok) t u (.ok ()) := by
  intro hall
  obtain ⟨s, e, hrun, hproc, hp⟩ := exists_up_of_play NoFailure (Sys.init Ctx.concrete)
    (Script.openDir ⟨0, false, 0⟩ 0 0 ++ Script.put [1] [7] ++ Script.flush)
    (fun s e => (Node.mk s.disk s.hist e).quiet &&
      leadsTo (play (step _) ([.get [1]] ++ List.replicate 4 (.getStep 0 (.fail 0))) s)
        (List.replicate 4 .silent ++ [.got [1] 1 (.error (readerError ⟨0, 3⟩ LsmError.io.toString))])
        (fun t => decide (replies _ 20 (.get [1]) t = some [.value (.error (readerError ⟨0, 3⟩ LsmError.io.toString))])))
    (by decide +kernel)
  simp only [Bool.and_eq_true] at hp
  obtain ⟨hq, hget⟩ := hp
  obtain ⟨t, hplay, hreply⟩ := leadsTo_iff.1 hget
  obtain ⟨⟨M, -, hM⟩, -⟩ := hall s t e (fun _ => .fail 0) [1] _ hrun hproc hq
    ⟨4, 1, List.replicate 4 .silent, hplay, fun o ho => (List.mem_replicate.1 ho).2⟩
  have := hM.replied (of_decide_eq_true hreply)
  simp at this

/-- The first open of a flushed table fails under a `get`. A later `get` of its key returns the error, and so does a compaction; a key
outside its range is looked up as before. -/
theorem failed_open_spoils_one_handle_flushed : ∃ (s : Sys Ctx.concrete) (e : Engine Ctx.concrete) (err : LsmError),
    s.proc = .up e ∧ e.map s.disk [1] = some [7] ∧ GetsAmong s [1] (.error err) ∧ GetsAmong s [2] (.ok none) ∧
      ∃ t, CompactReturns (fun _ => .ok) s t (.error err) := by
  obtain ⟨s, e, hrun, hproc, hp⟩ := exists_up_of_play (fun _ _ => True) (Sys.init Ctx.concrete)
    (Script.openDir ⟨0, false, 0⟩ 0 0 ++ Script.put [1] [7] ++ Script.flush ++
      [.get [1], .getStep 0 .ok, .getStep 0 .ok, .getStep 0 (.fail 0), .getStep 0 .ok])
    (fun s e => !e.flush.busy && !e.wal.holdsStateLock && decide (e.map s.disk [1] = some [7]) &&
      decide ((e.asks s.disk [1]).findSome? e.handleError = some (readerError ⟨0, 3⟩ LsmError.io.toString)) &&
      decide (e.asks s.disk [2] = []) && decide (e.map s.disk [2] = none) &&
      decide (e.compactsFrom.findSome? e.handleError = some (readerError ⟨0, 3⟩ LsmError.io.toString))) (by decide +kernel)
  simp only [Bool.and_eq_true, Bool.not_eq_true', FlushSection.not_busy, decide_eq_true_eq] at hp
  obtain ⟨⟨⟨⟨⟨⟨hfree, hl⟩, hmap⟩, herr⟩, hasks⟩, hmap'⟩, herr'⟩ := hp
  obtain ⟨hall, -, -⟩ := failed_open_spoils_one_handle hrun
  have hc := hall e hproc
  refine ⟨s, e, readerError ⟨0, 3⟩ LsmError.io.toString, hproc, hmap, ?_, ?_, ?_⟩
  · have hget := hc.gets [1]
    rwa [Engine.unlessSpoilt, herr] at hget
  · have hget := hc.gets [2]
    rwa [hasks, hmap'] at hget
  · obtain ⟨t, e', hcompact, -⟩ := hc.compacts hfree hl
    rw [Engine.unlessSpoilt, herr'] at hcompact
    exact ⟨t, hcompact⟩

end LsmEngine
