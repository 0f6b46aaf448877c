import LsmEngine.Lemmas.Reopen
import Mathlib.Data.Prod.Lex

/-!
# Calls run to their end

While nothing fails, the calls in progress can always go on, and followed one after another they all come to their end: every
write, flush and compaction returns `Ok`, and a `get` returns the value of its key. What is left to do is measured first by the
holder of the wal mutex, then by the flushes that wait, then by the holder of `flush_lock`, then by the readers.
-/

namespace LsmEngine

open Overlay Transition

variable {Γ : Ctx} {n n' : Node Γ}

/-! ## What is left to do -/

def WalSection.rank : WalSection → Nat
  | .free => 0
  | .swapped _ _ => 1
  | .created _ _ => 2
  | .rotating _ _ => 3
  | .freezing _ => 4
  | .applied _ | .syncing _ => 5
  | .synced _ => 6
  | .logged _ => 7

def Stage.rank : Stage → Nat
  | .create => 4
  | .write => 3
  | .sync => 2
  | .rename => 1

/-- The steps it takes to ask these tables: a table whose handle has no reader yet takes one more. -/
def Node.asks (n : Node Γ) : List SstMeta → Nat
  | [] => 0
  | m :: ms => 2 * ms.length + 2 + (if (n.eng.readers m.name).isNone then 1 else 0)

def Node.flushRank (n : Node Γ) : Nat :=
  match n.eng.flush with
  | .free => 0
  | .draining _ fl => 8 * n.eng.immutables.length + fl.length + 8
  | .building _ fl _ _ _ st => 8 * n.eng.immutables.length + fl.length + 3 + st.rank
  | .committing _ fl _ _ => 8 * n.eng.immutables.length + fl.length + 3
  | .reading inputs todo _ => inputs.length + 15 + n.asks todo
  | .merging inputs _ _ st => inputs.length + 10 + st.rank
  | .installing inputs _ => inputs.length + 10
  | .manifest (.removeWals _ fl) _ st => fl.length + 3 + st.rank
  | .manifest (.removeInputs inputs) _ st => inputs.length + 3 + st.rank
  | .unlinkWals _ todo => todo.length + 2
  | .unlinkInputs todo => todo.length + 2

def Node.walkRank (n : Node Γ) : GetWalk → Nat
  | .active _ imms ts => imms.length + 2 * ts.length + 4
  | .immutables imms ts => imms.length + 2 * ts.length + 3
  | .tables ts => n.asks ts + 1

/-- The rank of the `get` that is next. -/
def Node.headRank (n : Node Γ) : Nat := (n.eng.gets.head?.map (fun g => n.walkRank g.walk)).getD 0

/-- What is left to do, the most significant part first. -/
def Node.rank (n : Node Γ) : ℕ ×ₗ ℕ ×ₗ ℕ ×ₗ ℕ ×ₗ ℕ :=
  toLex (n.eng.wal.rank, toLex (n.eng.flushers.length, toLex (n.flushRank, toLex (n.eng.gets.length, n.headRank))))

/-- A lookup takes at most two steps for each table, and one to return. -/
theorem asks_le (n : Node Γ) (ms : List SstMeta) : n.asks ms ≤ 2 * ms.length + 1 := by
  cases ms with
  | nil => simp [Node.asks]
  | cons m ms =>
    simp only [Node.asks, List.length_cons]
    split <;> omega

theorem asks_cons_ge (n : Node Γ) (m : SstMeta) (ms : List SstMeta) : 2 * ms.length + 2 ≤ n.asks (m :: ms) := by
  simp only [Node.asks]
  omega

/-- Opening the handle of the first table is a step less. -/
theorem asks_opened (n : Node Γ) {m : SstMeta} (ms : List SstMeta) (hr : n.eng.readers m.name = none) (d : Disk)
    (x : Except String (SsTableReader Γ)) (h : Hist) :
    (Node.asks ⟨d, h, { n.eng with readers := Function.update n.eng.readers m.name (some x) }⟩ (m :: ms)) < n.asks (m :: ms) := by
  simp [Node.asks, hr]

/-! ## What is owed -/

def WalSection.calls : WalSection → Nat
  | .free => 0
  | _ => 1

def FlushSection.calls : FlushSection → Nat
  | .free => 0
  | _ => 1

/-- The writes, flushes and compactions in progress. -/
def Node.calls (n : Node Γ) : Nat := n.eng.wal.calls + n.eng.flush.calls + n.eng.flushers.length

/-- What the calls in progress will reply when nothing else is written. -/
def Node.owes (n : Node Γ) : List Reply :=
  List.replicate n.calls (.done (.ok ())) ++
    n.eng.gets.map (fun g => .value (.ok (n.hist.mapAt n.hist.log.length g.key)))

/-- An engine that nobody uses owes no reply. -/
theorem owes_of_quiet (h : n.quiet = true) : n.owes = [] := by
  unfold Node.quiet at h
  split at h
  · rename_i h1 h2 h3 h4
    simp [Node.owes, Node.calls, h1, h2, h3, h4, WalSection.calls, FlushSection.calls]
  · simp at h

/-- A step that replies for one call. -/
theorem Node.owes_of_calls {rs : List Reply} (hg : n'.eng.gets = n.eng.gets) (hb : n'.hist.base = n.hist.base)
    (hl : n'.hist.log = n.hist.log)
    (hc : (rs = [] ∧ n'.calls = n.calls) ∨ (rs = [.done (.ok ())] ∧ n.calls = n'.calls + 1)) : n.owes = rs ++ n'.owes := by
  have hmap : ∀ j, n'.hist.mapAt j = n.hist.mapAt j := fun j => by rw [Hist.mapAt, Hist.mapAt, hb, hl]
  rcases hc with ⟨rfl, hc⟩ | ⟨rfl, hc⟩
  · simp only [Node.owes, hg, hl, hmap, hc, List.nil_append]
  · simp only [Node.owes, hg, hl, hmap, hc, List.replicate_succ, List.cons_append, List.nil_append]

/-! ## The wal mutex -/

/-- The holder of the wal mutex can always go on. -/
theorem walStep_goes (h : n.eng.wal ≠ .free) : ∃ r, n.walStep .ok = some r := by
  cases hw : n.eng.wal with
  | free => exact absurd hw h
  | logged w =>
    simp only [Node.walStep, hw]
    split <;> exact ⟨_, rfl⟩
  | applied w =>
    simp only [Node.walStep, hw]
    split <;> exact ⟨_, rfl⟩
  | freezing c =>
    simp only [Node.walStep, hw]
    split <;> exact ⟨_, rfl⟩
  | synced w | syncing since | rotating c newSeq | created c newSeq | swapped c newSeq =>
    simp only [Node.walStep, hw]
    exact ⟨_, rfl⟩

/-- Each of its steps brings its call nearer to its end. -/
theorem WalMove.rank_lt {io : Io} {r : Node Γ × Out} (hm : WalMove n io r) : r.1.eng.wal.rank < n.eng.wal.rank := by
  cases hm with
  | @nothing c hw => cases c <;> simp [Node.finish, hw, WalSection.rank]
  | @replace c _ hw => cases c <;> simp [Node.finish, Node.replaceWriter, hw, WalSection.rank]
  | @createFails c _ _ hw => cases c <;> simp [Node.abort, hw, WalSection.rank]
  | done hw => simp [Node.finish, hw, WalSection.rank]
  | syncFails hw | flushSyncFails hw => simp [Node.abort, hw, WalSection.rank]
  | sync hw | apply hw | applySynced hw | exceeds hw | flushSync hw | takeSeq hw | create hw | swap hw =>
    simp [hw, WalSection.rank, Node.syncActive, Node.applyWrite, Node.swapActive]

theorem WalMove.same_log {io : Io} {r : Node Γ × Out} (hm : WalMove n io r) :
    r.1.hist.log = n.hist.log ∧ r.1.hist.base = n.hist.base ∧ r.1.eng.gets = n.eng.gets := by
  cases hm with
  | @nothing c | @createFails c | @replace c => cases c <;> exact ⟨rfl, rfl, rfl⟩
  | _ => exact ⟨rfl, rfl, rfl⟩

/-- What it replies is what was owed. -/
theorem WalMove.owes {r : Node Γ × Out} (hm : WalMove n .ok r) : n.owes = r.2.reply ++ r.1.owes := by
  obtain ⟨hl, hb, hg⟩ := hm.same_log
  refine Node.owes_of_calls hg hb hl ?_
  cases hm with
  | @nothing c hw | @replace c _ hw =>
    cases c with
    | write w => exact .inr ⟨rfl, by simp only [Node.calls, Node.finish, Node.replaceWriter, hw, WalSection.calls]; omega⟩
    | flush since => exact .inl ⟨rfl, by simp [Node.calls, Node.finish, Node.replaceWriter, hw, WalSection.calls]; omega⟩
  | done hw => exact .inr ⟨rfl, by simp only [Node.calls, Node.finish, hw, WalSection.calls]; omega⟩
  | syncFails _ hio | flushSyncFails _ hio | createFails _ hio => simp at hio
  | sync hw | apply hw | applySynced hw | exceeds hw | flushSync hw | takeSeq hw | create hw | swap hw =>
    exact .inl ⟨rfl, by simp only [Node.calls, hw, Node.syncActive, Node.applyWrite, Node.swapActive, WalSection.calls]⟩

/-! ## `flush_lock` -/

/-- The runs a compaction has read when no input is left are those of the live tables. -/
theorem TablesOk.runs_read (h : TablesOk n) {inputs : List SstMeta} {runs : List Run}
    (hf : n.eng.flush = .reading inputs [] runs) : runs = (inputsOf n.eng.levels).map (runOf Γ n.disk) := by
  have hfl := h.flush
  rw [hf] at hfl
  obtain ⟨h1, read, h2, h3⟩ := hfl
  rw [List.append_nil] at h2
  rw [h3, ← h2, h1]

/-- A merge of the inputs of a compaction ends, in order and within the caps. -/
theorem TablesOk.merge_read (h : TablesOk n) (hlen : n.eng.levels.length ≤ 2) {inputs : List SstMeta} {runs : List Run}
    (hf : n.eng.flush = .reading inputs [] runs) : ∃ rs, mergeRuns runs = some rs ∧ Sorted rs ∧ Capped rs := by
  rw [h.runs_read hf]
  exact h.merge hlen

/-- An input that a compaction is about to read is live. -/
theorem TablesOk.reading_live (h : TablesOk n) (hlen : n.eng.levels.length ≤ 2) {inputs todo : List SstMeta} {sst : SstMeta}
    {runs : List Run} (hf : n.eng.flush = .reading inputs (sst :: todo) runs) : sst ∈ stack n.eng.levels := by
  have hfl := h.flush
  rw [hf] at hfl
  obtain ⟨-, read, h2, -⟩ := hfl
  refine (h.inputs_live hlen (.inl ⟨_, _, hf⟩)).1 ?_
  rw [h2]
  simp

/-- The holder of `flush_lock` can always go on, unless it waits for `state_lock`. -/
theorem flushStep_goes (htab : TablesOk n) (hlen : n.eng.levels.length ≤ 2) (hl : n.eng.wal.holdsStateLock = false)
    (hb : n.eng.flush.busy = true) (io : Io) : ∃ r, n.flushStep io = some r := by
  cases hf : n.eng.flush with
  | free => simp [hf, FlushSection.busy] at hb
  | draining c fl =>
    simp only [Node.flushStep, hf]
    exact ⟨_, rfl⟩
  | building c fl p sst file st =>
    cases io <;> exact ⟨_, by simp only [Node.flushStep, hf]; rfl⟩
  | committing c fl p sst =>
    simp [Node.flushStep, hf, hl]
  | reading inputs todo runs =>
    cases todo with
    | nil =>
      obtain ⟨rs, hrs, -⟩ := htab.merge_read hlen hf
      simp only [Node.flushStep, hf, Node.mergeInputs, hrs]
      cases rs with
      | nil => exact ⟨_, rfl⟩
      | cons r rs =>
        dsimp only
        split <;> exact ⟨_, rfl⟩
    | cons sst todo =>
      simp only [Node.flushStep, hf]
      exact ⟨_, rfl⟩
  | merging inputs sst file st =>
    cases io <;> exact ⟨_, by simp only [Node.flushStep, hf]; rfl⟩
  | installing inputs output =>
    simp [Node.flushStep, hf, hl]
  | manifest after m st =>
    simp only [Node.flushStep, hf]
    cases io <;> cases st <;> cases after <;> exact ⟨_, rfl⟩
  | unlinkWals c todo =>
    cases todo <;> exact ⟨_, by simp only [Node.flushStep, hf]; rfl⟩
  | unlinkInputs todo =>
    cases todo <;> exact ⟨_, by simp only [Node.flushStep, hf]; rfl⟩

/-- The holder of `flush_lock` returns an error for one of two reasons: an operation of the step has failed, or a compaction comes to
a table whose handle keeps an error. -/
theorem FlushMove.error_cases (htab : TablesOk n) (hlen : n.eng.levels.length ≤ 2) (hmems : n.eng.Flushable) {io : Io}
    {r : Node Γ × Out} (hm : FlushMove n io r) {err : LsmError} (ho : r.2.reply = [.done (.error err)]) :
    (err = .io ∧ ∃ k, io = .fail k) ∨ ∃ inputs todo sst runs e, n.eng.flush = .reading inputs (sst :: todo) runs ∧
      sst ∈ stack n.eng.levels ∧ n.eng.readers sst.name = some (.error e) ∧ err = readerError sst.name e := by
  cases hm with
  | @nothing c | @flushDone c => cases c <;> simp [Node.flushEnd, Out.reply] at ho
  | unbuilt hf hi hb => exact absurd hb (hmems.build_ne_error (by rw [hi]; exact List.mem_cons_self) _ _ _)
  | @mergedUnbuilt inputs runs rs err' hf hm hne hb =>
    obtain ⟨rs', hrs', hs, hc⟩ := htab.merge_read hlen hf
    rw [hm, Option.some.injEq] at hrs'
    subst hrs'
    obtain ⟨sst, file, hok, -⟩ := buildSst_ok (Γ := Γ) 1 n.eng.nextSeq rs.length hc hs hne
    rw [hok] at hb
    simp at hb
  | @readFails inputs todo sst runs err' hf hwhy =>
    obtain rfl : err' = err := by simpa [Node.compactEnd, Out.reply] using ho
    have hlive := htab.reading_live hlen hf
    rcases hwhy with ⟨e, hr, he⟩ | ⟨rd, hr, ⟨k, hio, he⟩ | hrs⟩
    · exact .inr ⟨inputs, todo, sst, runs, e, hf, hlive, hr, he⟩
    · exact .inl ⟨he, k, hio⟩
    · rw [(htab.reads hlive hr).1] at hrs
      simp at hrs
  | compactDone => simp [Node.compactEnd, Out.reply] at ho
  | @buildFails c _ _ _ _ _ k _ hio | @manifestFailsFlush c _ _ _ k _ hio =>
    refine .inl ⟨?_, k, hio⟩
    cases c <;> simpa [Node.flushEnd, Out.reply] using ho.symm
  | mergeFails _ hio | manifestFailsCompact _ hio =>
    exact .inl ⟨by simpa [Node.compactEnd, Out.reply] using ho.symm, _, hio⟩
  | _ => simp [Out.reply] at ho

/-- No step of `flush_lock` returns an error while nothing fails and no handle keeps an error. -/
theorem FlushMove.not_failed (h : DataUp n) (hh : HandlesOk n) {r : Node Γ × Out} (hm : FlushMove n .ok r) :
    ∀ err, r.2.reply ≠ [.done (.error err)] := by
  intro err ho
  rcases hm.error_cases h.tables h.seq.levels.len h.logs.flushable ho with ⟨-, k, hio⟩ | ⟨-, -, sst, -, e, -, hlive, hr, -⟩
  · simp at hio
  · exact hh.live sst hlive e hr

/-- Each step of the holder of `flush_lock` brings its pass nearer to its end. -/
theorem FlushMove.rank_lt (hseq : SeqUp n) {io : Io} {r : Node Γ × Out} (hm : FlushMove n io r) :
    r.1.flushRank < n.flushRank := by
  have hnext : ∀ {st st' : Stage}, st.next = some st' → st'.rank < st.rank := by
    intro st st' hst
    cases st <;> simp only [Stage.next, Option.some.injEq, reduceCtorEq] at hst <;> subst hst <;> decide
  cases hm with
  | @nothing c hf | @unbuilt c _ _ _ _ hf | @buildFails c _ _ _ _ _ _ hf | @manifestFailsFlush c _ _ _ _ hf | @flushDone c hf =>
    cases c <;> simp [Node.flushEnd, Node.flushRank, hf]
  | @drained c fl hf hi =>
    simp only [Node.flushRank, hf, hi, Stage.rank, List.length_nil]
    omega
  | built hf hi =>
    simp only [Node.flushRank, hf, Stage.rank]
    omega
  | buildStage hf hio hst =>
    have := hnext hst
    simp only [Node.flushRank, hf]
    omega
  | buildRename hf =>
    simp only [Node.flushRank, hf, Stage.rank]
    omega
  | @commit c fl p sst hf hl =>
    have hp : p ∈ n.eng.immutables := List.mem_of_mem_head? (hseq.pending p (by rw [hf]; rfl))
    have hlt : (n.eng.immutables.filter (fun q => q.walSeq ≠ p.walSeq)).length < n.eng.immutables.length :=
      List.length_filter_lt_length_iff_exists.2 ⟨p, hp, by simp⟩
    simp only [Node.flushRank, Node.commitFlush, hf, List.length_append, List.length_singleton]
    omega
  | mergedNone hf =>
    simp only [Node.flushRank, hf, Node.asks]
    omega
  | mergedUnbuilt hf | mergeFails hf | manifestFailsCompact hf => simp [Node.compactEnd, Node.flushRank, hf]
  | merged hf =>
    simp only [Node.flushRank, hf, Node.asks, Stage.rank]
    omega
  | @readOpen inputs todo sst runs hf hr =>
    have := asks_opened n todo hr n.disk (openReader Γ n.disk sst.name io) n.hist
    simp only [Node.flushRank, hf] at this ⊢
    omega
  | readFails hf => simp [Node.compactEnd, Node.flushRank, hf]
  | @read inputs todo sst runs rd records hf =>
    have h1 := asks_le n todo
    have h2 := asks_cons_ge n sst todo
    have h3 : Node.asks { n with eng.flush := .reading inputs todo (runs ++ [⟨sst.seq, records⟩]) } todo = n.asks todo := by
      cases todo <;> rfl
    simp only [Node.flushRank, hf, h3]
    omega
  | mergeStage hf hio hst =>
    have := hnext hst
    simp only [Node.flushRank, hf]
    omega
  | mergeRename hf =>
    simp only [Node.flushRank, hf, Stage.rank]
    omega
  | install hf =>
    simp only [Node.flushRank, Node.commitCompaction, hf, Stage.rank]
    omega
  | @manifestStage after m st st' hf hio hst =>
    have := hnext hst
    cases after <;> simp only [Node.flushRank, hf] <;> omega
  | manifestFlush hf | manifestCompact hf =>
    simp only [Node.flushRank, hf, Stage.rank]
    omega
  | unlinkWal hf | unlinkInput hf | unlinkWalFails hf | unlinkInputFails hf =>
    simp only [Node.flushRank, hf, List.length_cons]
    omega
  | compactDone hf => simp [Node.compactEnd, Node.flushRank, hf]

/-- The rank of what the holder of `flush_lock` has before it. -/
def Sys.flushRank (s : Sys Γ) : Nat :=
  match s.proc with
  | .up e => (Node.mk s.disk s.hist e).flushRank
  | _ => 0

/-- A step of the holder of `flush_lock` as a step of the system. -/
theorem step_flush {r : Node Γ × Out} {io : Io} (h : n.flushStep io = some r) :
    step Γ n.toSys (.flushStep io) = some (r.1.toSys, r.2) := by
  simp only [step, Node.toSys, Node.act, Node.lift, h, Option.map_some]

/-- The holder of `flush_lock`, with nobody else going on, comes to its return, whatever the results of its operations. -/
theorem flush_returns {P : Node Γ → Prop} {Q : Node Γ → Out → Prop} {A : Io → Prop}
    (hgoes : ∀ m, P m → SeqUp m ∧ TablesOk m ∧ m.eng.wal.holdsStateLock = false ∧ m.eng.flush.busy = true)
    (hstep : ∀ m io r, P m → A io → FlushMove m io r → (r.2 = .silent ∧ P r.1) ∨ Q r.1 r.2)
    (io : ℕ → Io) (hio : ∀ i, A (io i)) (h : P n) :
    ∃ fuel n' os o, play (step Γ) ((List.range fuel).map (fun i => .flushStep (io i))) n.toSys = some (n'.toSys, os ++ [o]) ∧
      (∀ x ∈ os, x = .silent) ∧ Q n' o := by
  have hgo : ∀ (s : Sys Γ) (a : Act), (∃ m, s = m.toSys ∧ P m) → (∃ x, a = .flushStep x ∧ A x) →
      ∃ t o, step Γ s a = some (t, o) ∧ ((o = .silent ∧ (∃ m, t = m.toSys ∧ P m) ∧ t.flushRank < s.flushRank) ∨
        ∃ m, t = m.toSys ∧ Q m o) := by
    rintro s a ⟨m, rfl, hm⟩ ⟨x, rfl, hx⟩
    obtain ⟨hseq, htab, hl, hb⟩ := hgoes m hm
    obtain ⟨r, hr⟩ := flushStep_goes htab hseq.levels.len hl hb x
    have hmove := flushStep_cases hr
    refine ⟨r.1.toSys, r.2, step_flush hr, ?_⟩
    rcases hstep m x r hm hx hmove with ⟨ho, hp⟩ | hq
    · exact .inl ⟨ho, ⟨r.1, rfl, hp⟩, hmove.rank_lt hseq⟩
    · exact .inr ⟨r.1, rfl, hq⟩
  obtain ⟨fuel, t, os, o, hplay, hos, n', rfl, hq⟩ := play_returns (s := n.toSys) Sys.flushRank Out.silent hgo
    (fun i => Act.flushStep (io i)) (fun i => ⟨io i, rfl, hio i⟩) ⟨n, rfl, h⟩
  exact ⟨fuel, n', os, o, hplay, hos, hq⟩

/-- The holder of `flush_lock` touches no `get` and no call that waits. -/
theorem FlushMove.same {io : Io} {r : Node Γ × Out} (hm : FlushMove n io r) :
    r.1.eng.gets = n.eng.gets ∧ r.1.eng.flushers = n.eng.flushers := by
  cases hm with
  | @nothing c | @unbuilt c | @buildFails c | @manifestFailsFlush c | @flushDone c => cases c <;> exact ⟨rfl, rfl⟩
  | _ => exact ⟨rfl, rfl⟩

/-- What it replies is what was owed. -/
theorem FlushMove.owes (h : DataUp n) (hh : HandlesOk n) {r : Node Γ × Out} (hm : FlushMove n .ok r) :
    n.owes = r.2.reply ++ r.1.owes := by
  have hs := hm.sameWrites
  have hok := hm.not_failed h hh
  refine Node.owes_of_calls hm.same.1 hs.base hs.log ?_
  cases hm with
  | @nothing c hf | @flushDone c hf =>
    right
    cases c <;> exact ⟨rfl, by simp only [Node.calls, Node.flushEnd, hf, FlushSection.calls]; omega⟩
  | @unbuilt c _ _ _ err => cases c <;> exact absurd rfl (hok err)
  | mergedUnbuilt | readFails => exact absurd rfl (hok _)
  | compactDone hf => exact .inr ⟨rfl, by simp only [Node.calls, Node.compactEnd, hf, FlushSection.calls]; omega⟩
  | buildFails _ hio | mergeFails _ hio | manifestFailsFlush _ hio | manifestFailsCompact _ hio | unlinkWalFails _ hio
  | unlinkInputFails _ hio => simp at hio
  | drained hf | built hf | buildStage hf | buildRename hf | commit hf | mergedNone hf | merged hf | readOpen hf | read hf
  | mergeStage hf | mergeRename hf | install hf | manifestStage hf | manifestFlush hf | manifestCompact hf | unlinkWal hf
  | unlinkInput hf =>
    exact .inl ⟨rfl, by simp only [Node.calls, hf, FlushSection.calls, Node.commitFlush, Node.commitCompaction]⟩

/-! ## `get` -/

/-- A `get` in progress can always go on. -/
theorem getStep_goes {i : Nat} {g : GetCall} (hg : n.eng.gets[i]? = some g) (io : Io) : ∃ r, n.getStep i io = some r := by
  simp only [Node.getStep, hg]
  split
  · split <;> exact ⟨_, rfl⟩
  · exact ⟨_, rfl⟩
  · split <;> exact ⟨_, rfl⟩
  · exact ⟨_, rfl⟩
  · exact ⟨_, rfl⟩

/-- The rank of the first `get` is that of its walk. -/
theorem headRank_eq {g : GetCall} (hg : n.eng.gets[0]? = some g) : n.headRank = n.walkRank g.walk := by
  rw [Node.headRank, List.head?_eq_getElem?, hg]
  rfl

/-- A `get` that goes on leaves the readers. -/
theorem asks_walkOn (n : Node Γ) (i : Nat) (g : GetCall) (walk : GetWalk) (ms : List SstMeta) :
    (n.walkOn i g walk).1.asks ms = n.asks ms := by
  cases ms <;> rfl

theorem walkRank_walkOn (n : Node Γ) (i : Nat) (g : GetCall) (walk walk' : GetWalk) :
    (n.walkOn i g walk).1.walkRank walk' = n.walkRank walk' := by
  cases walk' with
  | tables ts => simp only [Node.walkRank, asks_walkOn]
  | _ => rfl

/-- Each step of the first `get` brings it nearer to its end, or ends it. -/
theorem GetMove.rank_lt {io : Io} {r : Node Γ × Out} (hm : GetMove n 0 io r) :
    r.1.eng.gets.length < n.eng.gets.length ∨ r.1.eng.gets.length = n.eng.gets.length ∧ r.1.headRank < n.headRank := by
  have hanswer : ∀ {g : GetCall}, n.eng.gets[0]? = some g → ∀ res, (n.answer 0 g res).1.eng.gets.length < n.eng.gets.length ∨
      (n.answer 0 g res).1.eng.gets.length = n.eng.gets.length ∧ (n.answer 0 g res).1.headRank < n.headRank := by
    intro g hg res
    obtain ⟨hlt, -⟩ := List.getElem?_eq_some_iff.1 hg
    left
    simp only [Node.answer, List.length_eraseIdx, if_pos hlt]
    omega
  have hwalk : ∀ {g : GetCall} {walk : GetWalk}, n.eng.gets[0]? = some g → n.walkRank walk < n.walkRank g.walk →
      (n.walkOn 0 g walk).1.eng.gets.length < n.eng.gets.length ∨
        (n.walkOn 0 g walk).1.eng.gets.length = n.eng.gets.length ∧ (n.walkOn 0 g walk).1.headRank < n.headRank := by
    intro g walk hg hlt
    obtain ⟨h0, -⟩ := List.getElem?_eq_some_iff.1 hg
    refine .inr ⟨by simp [Node.walkOn], ?_⟩
    have hhead : (n.walkOn 0 g walk).1.eng.gets[0]? = some { g with walk := walk } := by
      simp [Node.walkOn, h0]
    rw [headRank_eq hhead, headRank_eq hg, walkRank_walkOn]
    exact hlt
  cases hm with
  | activeHit hg | immHit hg | tablesEnd hg | fails hg | tableHit hg => exact hanswer hg _
  | activeMiss hg hw =>
    refine hwalk hg ?_
    simp only [hw, Node.walkRank, List.length_reverse]
    omega
  | immMiss hg hw =>
    refine hwalk hg ?_
    simp only [hw, Node.walkRank, List.length_cons]
    omega
  | @immEnd g tables hg hw =>
    refine hwalk hg ?_
    have := asks_le n tables
    simp only [hw, Node.walkRank, List.length_nil]
    omega
  | @skip g sst rest hg hw hr =>
    refine hwalk hg ?_
    have h1 := asks_le n rest
    have h2 := asks_cons_ge n sst rest
    simp only [hw, Node.walkRank]
    omega
  | @tableMiss g sst rest rd hg hw hin hr hf =>
    refine hwalk hg ?_
    have h1 := asks_le n rest
    have h2 := asks_cons_ge n sst rest
    simp only [hw, Node.walkRank]
    omega
  | @openTable g sst rest hg hw hin hr =>
    refine .inr ⟨rfl, ?_⟩
    have := asks_opened n rest hr n.disk (openReader Γ n.disk sst.name io) n.hist
    rw [headRank_eq hg, hw]
    rw [headRank_eq (n := ⟨n.disk, n.hist, { n.eng with
      readers := Function.update n.eng.readers sst.name (some (openReader Γ n.disk sst.name io)) }⟩) hg, hw]
    exact Nat.succ_lt_succ this

/-- What a `get` replies is what was owed: the value of its key. -/
theorem GetMove.owes (h : DataUp n) (hr : Reading n) (hh : HandlesOk n) (hc : n.calls = 0)
    (hsince : ∀ g ∈ n.eng.gets, g.since = n.hist.log.length) {r : Node Γ × Out} (hm : GetMove n 0 .ok r) :
    n.owes = r.2.reply ++ r.1.owes := by
  have hanswer : ∀ {g : GetCall} {res : Except LsmError (Option Value)}, n.eng.gets[0]? = some g →
      GetMove n 0 .ok (n.answer 0 g res) → n.owes = (n.answer 0 g res).2.reply ++ (n.answer 0 g res).1.owes := by
    intro g res hg hm
    obtain ⟨gs, hgs⟩ : ∃ gs, n.eng.gets = g :: gs := by
      cases hl : n.eng.gets with
      | nil => simp [hl] at hg
      | cons x gs =>
        rw [hl, List.getElem?_cons_zero, Option.some.injEq] at hg
        exact ⟨gs, by rw [hg]⟩
    have hmem : g ∈ n.eng.gets := by rw [hgs]; exact List.mem_cons_self
    cases res with
    | error err => exact absurd rfl (hm.no_error hh hr)
    | ok v =>
      obtain ⟨j, h1, h2, hv⟩ := hm.answers hr rfl
      have h3 := h.counts.applied_le
      have hj : j = n.hist.log.length := by
        have := hsince g hmem
        omega
      rw [hj] at hv
      have hc' : (n.answer 0 g (.ok v)).1.calls = 0 := hc
      simp only [Node.owes, hc, hc', List.replicate_zero, List.nil_append]
      simp [Node.answer, hgs, Out.reply, hv]
  have hwalk : ∀ {g : GetCall} {walk : GetWalk}, n.eng.gets[0]? = some g →
      n.owes = (n.walkOn 0 g walk).2.reply ++ (n.walkOn 0 g walk).1.owes := by
    intro g walk hg
    obtain ⟨gs, hgs⟩ : ∃ gs, n.eng.gets = g :: gs := by
      cases hl : n.eng.gets with
      | nil => simp [hl] at hg
      | cons x gs =>
        rw [hl, List.getElem?_cons_zero, Option.some.injEq] at hg
        exact ⟨gs, by rw [hg]⟩
    have hc' : (n.walkOn 0 g walk).1.calls = 0 := hc
    simp only [Node.owes, hc, hc']
    simp [Node.walkOn, hgs, Out.reply]
  cases hm with
  | activeHit hg hw he => exact hanswer hg (.activeHit hg hw he)
  | immHit hg hw he => exact hanswer hg (.immHit hg hw he)
  | tablesEnd hg hw => exact hanswer hg (.tablesEnd hg hw)
  | fails hg hw hin hwhy => exact hanswer hg (.fails hg hw hin hwhy)
  | tableHit hg hw hin hr hf => exact hanswer hg (.tableHit hg hw hin hr hf)
  | activeMiss hg | immMiss hg | immEnd hg | skip hg | tableMiss hg => exact hwalk hg
  | openTable => rfl

/-! ## All of them -/

/-- A running engine in which nothing has failed, with the writes `L` over the map `B`, whose readers have all seen all of
them. -/
structure Serves (L : List WalEntry) (B : Key → Option Value) (n : Node Γ) : Prop where
  data : DataUp n
  sound : Undisturbed n
  log : n.hist.log = L
  base : n.hist.base = B
  since : ∀ g ∈ n.eng.gets, g.since = L.length

variable {L : List WalEntry} {B : Key → Option Value}

/-- An action that does not fail keeps an engine serving its map. -/
theorem Serves.nodeMove (h : Serves L B n) {a : Act} {x : Sys Γ × Out} (hm : NodeMove n a x) (ha : a.NoFail)
    (hx : x.1 = n'.toSys) (hlog : n'.hist.log = L) (hsince : ∀ g ∈ n'.eng.gets, g.since = L.length) : Serves L B n' := by
  have hdata' := h.data.nodeMove (h.sound.benign h.data ha.harmless_node) hm hx
  exact ⟨hdata', h.sound.nodeMove h.data hdata' ha.harmless_node hm hx, hlog, (hm.past hx).2.trans h.base, hsince⟩

/-- The calls in progress go on, and come nearer to their end. -/
theorem Serves.goes (h : Serves L B n) {a : Act} (ha : n.pending = some a) :
    ∃ n' o, step Γ n.toSys a = some (n'.toSys, o) ∧ Serves L B n' ∧ n'.rank < n.rank ∧ n.owes = o.reply ++ n'.owes := by
  unfold Node.pending at ha
  split at ha
  case isTrue hw =>
    obtain rfl := (Option.some.inj ha).symm
    obtain ⟨r, hr⟩ := walStep_goes hw
    have hm := walStep_cases hr
    obtain ⟨h1, h2, h3⟩ := hm.same_log
    refine ⟨r.1, r.2, by simp only [step, Node.toSys, Node.act, Node.lift, hr, Option.map_some],
      h.nodeMove (.wal hm) rfl rfl (h1.trans h.log) (by rw [h3]; exact h.since), ?_, hm.owes⟩
    exact Prod.Lex.toLex_lt_toLex.2 (.inl hm.rank_lt)
  case isFalse hw =>
  rw [ne_eq, not_not] at hw
  split at ha
  case isTrue hb =>
    obtain rfl := (Option.some.inj ha).symm
    obtain ⟨r, hr⟩ := flushStep_goes h.data.tables h.data.seq.levels.len (by rw [hw]; rfl) hb .ok
    have hm := flushStep_cases hr
    have hs := hm.sameWrites
    refine ⟨r.1, r.2, by simp only [step, Node.toSys, Node.act, Node.lift, hr, Option.map_some],
      h.nodeMove (.flushStep hm) rfl rfl (hs.log.trans h.log) (by rw [hm.same.1]; exact h.since), ?_,
      hm.owes h.data h.sound.handles⟩
    have hlt := hm.rank_lt h.data.seq
    simp only [Node.rank, Prod.Lex.toLex_lt_toLex, hs.wal, hm.same.2]
    exact .inr ⟨trivial, .inr ⟨trivial, .inl hlt⟩⟩
  case isFalse hb =>
  have hf : n.eng.flush = .free := FlushSection.not_busy.1 (by simpa using hb)
  split at ha
  case isTrue hq =>
    obtain rfl := (Option.some.inj ha).symm
    obtain ⟨since, rest, hq⟩ := List.exists_cons_of_ne_nil hq
    have hm : NodeMove n (.flushEnter 0) _ := .flushEnter hf (by rw [hq]; rfl)
    refine ⟨{ n with eng.flush := .draining (.flush since) [], eng.flushers := n.eng.flushers.eraseIdx 0 }, .silent, ?_,
      h.nodeMove hm trivial rfl h.log h.since, ?_, ?_⟩
    · simp [step, Node.toSys, Node.act, Node.lift, Node.flushEnter, hf, hq]
    · simp only [Node.rank, Prod.Lex.toLex_lt_toLex]
      refine .inr ⟨trivial, .inl ?_⟩
      simp [hq]
    · refine Node.owes_of_calls rfl rfl rfl (.inl ⟨rfl, ?_⟩)
      simp only [Node.calls, hf, hq, FlushSection.calls, List.eraseIdx_zero, List.tail_cons, List.length_cons]
      omega
  case isFalse hq =>
  rw [ne_eq, not_not] at hq
  split at ha
  case isTrue => simp at ha
  case isFalse hg =>
  obtain rfl := (Option.some.inj ha).symm
  obtain ⟨g, hget⟩ : ∃ g, n.eng.gets[0]? = some g := by
    cases hl : n.eng.gets with
    | nil => simp [hl] at hg
    | cons g gs => exact ⟨g, rfl⟩
  obtain ⟨r, hr⟩ := getStep_goes hget .ok
  have hm := getStep_cases hr
  have hs := hm.sameWrites
  have hother : r.1.eng.flushers = n.eng.flushers ∧ r.1.eng.flush = n.eng.flush := by
    cases hm <;> exact ⟨rfl, rfl⟩
  refine ⟨r.1, r.2, by simp only [step, Node.toSys, Node.act, Node.lift, hr, Option.map_some],
    h.nodeMove (.getStep hm) rfl rfl (hs.log.trans h.log) ?_, ?_, ?_⟩
  · intro g' hg'
    obtain ⟨g'', hg'', heq, -⟩ := hm.began g' hg'
    rw [← heq]
    exact h.since g'' hg''
  · have hfr : r.1.flushRank = n.flushRank := by
      simp only [Node.flushRank, hother.2, hf]
    simp only [Node.rank, Prod.Lex.toLex_lt_toLex, hs.wal, hother.1, hfr]
    exact .inr ⟨trivial, .inr ⟨trivial, .inr ⟨trivial, hm.rank_lt⟩⟩⟩
  · refine hm.owes h.data h.sound.reading h.sound.handles ?_ (by rw [h.log]; exact h.since)
    simp [Node.calls, hw, hf, hq, WalSection.calls, FlushSection.calls]

/-- An engine in which nothing is pending is quiet. -/
theorem quiet_of_pending (h : n.pending = none) : n.quiet = true := by
  unfold Node.pending at h
  split at h
  case isTrue => simp at h
  case isFalse hw =>
  split at h
  case isTrue => simp at h
  case isFalse hf =>
  split at h
  case isTrue => simp at h
  case isFalse hq =>
  split at h
  case isFalse => simp at h
  case isTrue hg =>
    rw [ne_eq, not_not] at hw hq
    rw [List.isEmpty_iff] at hg
    have hf' : n.eng.flush = .free := FlushSection.not_busy.1 (by simpa using hf)
    simp [Node.quiet, hw, hf', hq, hg]

/-- How much the calls in progress have still to do. -/
def Sys.upRank (s : Sys Γ) : ℕ ×ₗ ℕ ×ₗ ℕ ×ₗ ℕ ×ₗ ℕ :=
  match s.proc with
  | .up e => (Node.mk s.disk s.hist e).rank
  | _ => toLex (0, toLex (0, toLex (0, toLex (0, 0))))

/-- What the calls in progress have still to reply. -/
def Sys.upOwes (s : Sys Γ) : List Reply :=
  match s.proc with
  | .up e => (Node.mk s.disk s.hist e).owes
  | _ => []

/-- The calls in progress come to their end, and each replies what it owes. -/
theorem Serves.ends (h : Serves L B n) : ∃ fuel n' os, drive (step Γ) next fuel n.toSys = some (n'.toSys, os) ∧
    Serves L B n' ∧ n'.quiet = true ∧ os.flatMap Out.reply = n.owes := by
  have hrun : ∃ fuel t os, drive (step Γ) next fuel n.toSys = some (t, os) ∧ (∃ m : Node Γ, t = m.toSys ∧ Serves L B m) ∧
      next t = none ∧ os.flatMap Out.reply = n.toSys.upOwes := by
    refine drive_total Sys.upRank Out.reply Sys.upOwes ?_ ?_ ⟨n, rfl, h⟩
    · rintro s a ⟨m, rfl, hm⟩ ha
      obtain ⟨m', o, hs, hm', hlt, howes⟩ := hm.goes ha
      exact ⟨_, o, hs, ⟨m', rfl, hm'⟩, hlt, howes⟩
    · rintro s ⟨m, rfl, hm⟩ hn
      exact owes_of_quiet (quiet_of_pending hn)
  obtain ⟨fuel, t, os, hdrive, ⟨n', rfl, hn'⟩, hend, hout⟩ := hrun
  exact ⟨fuel, n', os, hdrive, hn', quiet_of_pending hend, hout⟩

/-! ## Between calls -/

/-- No call is in progress, nothing has failed, and the engine stands for the map `M`. -/
def Idle (M : Key → Option Value) (s : Sys Γ) : Prop :=
  ∃ n : Node Γ, s = n.toSys ∧ n.quiet = true ∧ ∃ L B, Serves L B n ∧ runWrites L B = M

/-- In a quiet engine nobody holds a lock, waits or reads. -/
theorem quiet_parts (h : n.quiet = true) :
    n.eng.wal = .free ∧ n.eng.flush = .free ∧ n.eng.flushers = [] ∧ n.eng.gets = [] := by
  unfold Node.quiet at h
  split at h
  · rename_i h1 h2 h3 h4
    exact ⟨h1, h2, h3, h4⟩
  · simp at h

/-- The logs of an engine that nobody uses are those of the immutables and the active one. -/
theorem logs_of_quiet (h : n.quiet = true) : n.eng.logs = n.eng.immutables.map PendingImm.walSeq ++ [n.eng.walSeq] := by
  obtain ⟨hw, hf, -, -⟩ := quiet_parts h
  rw [Engine.logs, Engine.generations, Engine.generation, hw, hf]
  simp [FlushSection.flushed, WalSection.spare]

/-- Of an engine that nobody uses, the map is that of all writes. -/
theorem DataUp.map_of_free (h : DataUp n) (hw : n.eng.wal = .free) : n.eng.map n.disk = runWrites n.hist.log n.hist.base := by
  have happ := h.counts.applied
  simp only [hw, WalSection.inflight, List.length_nil, Nat.add_zero] at happ
  rw [h.map_eq, happ, Hist.mapAt, List.take_length]

/-- A quiet engine in order serves its map. -/
theorem InOrder.idle {s : Sys Γ} (h : InOrder s) {e : Engine Γ} (hp : s.proc = .up e)
    (hq : (Node.mk s.disk s.hist e).quiet = true) : Idle (e.map s.disk) s := by
  simp only [InOrder, Regime.Inv, hp] at h
  obtain ⟨hdata, hsound⟩ := h
  obtain ⟨hw, -, -, hg⟩ := quiet_parts hq
  refine ⟨⟨s.disk, s.hist, e⟩, ?_, hq, s.hist.log, s.hist.base, ⟨hdata, hsound, rfl, rfl, ?_⟩, (hdata.map_of_free hw).symm⟩
  · rw [Node.toSys, ← hp]
  · intro g hgm
    rw [hg] at hgm
    simp at hgm

/-- A call that begins while no other is in progress comes to its end. -/
theorem Serves.runs {s : Sys Γ} {a : Act} {o : Out} (hs : step Γ s a = some (n.toSys, o)) (h : Serves L B n) :
    ∃ fuel t os, (∀ k, fuel ≤ k → runAct Γ k a s = some (t, os)) ∧ Idle (runWrites L B) t ∧
      os.flatMap Out.reply = o.reply ++ n.owes := by
  obtain ⟨fuel, n', os, hdrive, hn', hq, hout⟩ := h.ends
  refine ⟨fuel, n'.toSys, o :: os, fun k hk => ?_, ⟨n', rfl, hq, L, B, hn', rfl⟩, ?_⟩
  · simp only [runAct, hs, drive_mono hdrive hk, Option.map_some]
  · rw [List.flatMap_cons, hout]

/-- An action on a running engine as a step of the system. -/
theorem step_toSys {a : Act} {x : Sys Γ × Out} (h : n.act a = some x) : step Γ n.toSys a = some x := by
  cases a with
  | openDir | openStep | crash => simp [Node.act] at h
  | _ => exact h

/-- A call on an engine that nobody uses. -/
theorem Serves.call {m : Node Γ} {K : List WalEntry} (h : Serves L B n) {a : Act} {o : Out}
    (hs : n.act a = some (m.toSys, o)) (ha : a.NoFail) (hlog : m.hist.log = K)
    (hsince : ∀ g ∈ m.eng.gets, g.since = K.length) :
    ∃ fuel t os, (∀ k, fuel ≤ k → runAct Γ k a n.toSys = some (t, os)) ∧ Idle (runWrites K B) t ∧
      os.flatMap Out.reply = o.reply ++ m.owes := by
  have hm := act_cases hs
  have hdata' := h.data.nodeMove (h.sound.benign h.data ha.harmless_node) hm rfl
  exact Serves.runs (step_toSys hs)
    ⟨hdata', h.sound.nodeMove h.data hdata' ha.harmless_node hm rfl, hlog, (hm.past rfl).2.trans h.base, hsince⟩

/-- A `put` or `delete` that runs alone returns `Ok`, and the map has the write. -/
theorem Idle.write {M : Key → Option Value} {s : Sys Γ} (h : Idle M s) {w : WalEntry} (hv : w.Valid) :
    ∃ fuel t os, (∀ k, fuel ≤ k → runAct Γ k (.write w .ok) s = some (t, os)) ∧ Idle (runWrites [w] M) t ∧
      os.flatMap Out.reply = [.done (.ok ())] := by
  obtain ⟨n, rfl, hq, L, B, hn, rfl⟩ := h
  obtain ⟨hw, hf, hfl, hg⟩ := quiet_parts hq
  have hs : n.act (.write w .ok) = some ((n.logWrite w (w.frame Γ)).toSys, .silent) := by
    simp only [Node.act, Node.lift, Node.write, hw, encodeEntry_of_valid Γ hv, List.nil_append, Option.map_some]
  obtain ⟨fuel, t, os, hrun, hidle, hout⟩ := hn.call (K := L ++ [w]) hs rfl (by simp only [Node.logWrite, hn.log])
    (fun g hgm => by simp [Node.logWrite, hg] at hgm)
  refine ⟨fuel, t, os, hrun, by rw [← runWrites_append]; exact hidle, ?_⟩
  rw [hout]
  simp [Out.reply, Node.owes, Node.calls, Node.logWrite, hf, hfl, hg, WalSection.calls, FlushSection.calls]

/-- A write the codec refuses. -/
theorem Idle.refused {M : Key → Option Value} {s : Sys Γ} (h : Idle M s) {w : WalEntry} (hv : ¬w.Valid) :
    ∃ fuel t os, (∀ k, fuel ≤ k → runAct Γ k (.write w .ok) s = some (t, os)) ∧ Idle M t ∧
      ∃ err, os.flatMap Out.reply = [.done (.error err)] := by
  obtain ⟨n, rfl, hq, L, B, hn, rfl⟩ := h
  obtain ⟨hw, hf, hfl, hg⟩ := quiet_parts hq
  cases he : encodeEntry Γ w.op w.key w.value [] with
  | ok out => exact absurd ((encodeEntry_ok_iff Γ w [] out).1 he).1 hv
  | error err =>
    have hs : n.act (.write w .ok) = some (n.toSys, .wrote w (.error err)) := by
      simp only [Node.act, Node.lift, Node.write, hw, he, Option.map_some]
    obtain ⟨fuel, t, os, hrun, hidle, hout⟩ := hn.call hs rfl hn.log hn.since
    exact ⟨fuel, t, os, hrun, hidle, err, by rw [hout, owes_of_quiet hq]; rfl⟩

/-- A `get` that runs alone returns what the map has. -/
theorem Idle.get {M : Key → Option Value} {s : Sys Γ} (h : Idle M s) (k : Key) :
    ∃ fuel t os, (∀ f, fuel ≤ f → runAct Γ f (.get k) s = some (t, os)) ∧ Idle M t ∧
      os.flatMap Out.reply = [.value (.ok (M k))] := by
  obtain ⟨n, rfl, hq, L, B, hn, rfl⟩ := h
  obtain ⟨hw, hf, hfl, hg⟩ := quiet_parts hq
  have happ := hn.data.counts.applied
  simp only [hw, WalSection.inflight, List.length_nil, Nat.add_zero] at happ
  obtain ⟨fuel, t, os, hrun, hidle, hout⟩ := hn.call (a := .get k) (m := (n.get k).1) (o := .silent) rfl trivial hn.log
    (fun g hgm => by
      simp only [Node.get, hg, List.nil_append, List.mem_singleton] at hgm
      rw [hgm, ← hn.log, happ])
  refine ⟨fuel, t, os, hrun, hidle, ?_⟩
  have hmap : n.hist.mapAt n.hist.log.length k = runWrites L B k := by
    rw [Hist.mapAt, List.take_length, hn.log, hn.base]
  rw [hout]
  simp [Out.reply, Node.owes, Node.calls, Node.get, hw, hf, hfl, hg, WalSection.calls, FlushSection.calls, hmap]

/-- A call of `flush()`, of `compact()` or of the worker, that replies once. -/
theorem Idle.maintains {M : Key → Option Value} {s : Sys Γ} (h : Idle M s) {a : Act}
    (ha : a = .flush ∨ a = .compactEnter ∨ a = .workerEnter) :
    ∃ fuel t os, (∀ k, fuel ≤ k → runAct Γ k a s = some (t, os)) ∧ Idle M t ∧
      os.flatMap Out.reply = [.done (.ok ())] := by
  obtain ⟨n, rfl, hq, L, B, hn, rfl⟩ := h
  obtain ⟨hw, hf, hfl, hg⟩ := quiet_parts hq
  have hstart : ∀ {m : Node Γ} {o : Out}, n.act a = some (m.toSys, o) → a.NoFail → m.hist.log = L →
      m.eng.gets = n.eng.gets → o.reply ++ m.owes = [.done (.ok ())] →
      ∃ fuel t os, (∀ k, fuel ≤ k → runAct Γ k a n.toSys = some (t, os)) ∧ Idle (runWrites L B) t ∧
        os.flatMap Out.reply = [.done (.ok ())] := by
    intro m o hs hnf hlog hgets howes
    obtain ⟨fuel, t, os, hrun, hidle, hout⟩ := hn.call hs hnf hlog (by rw [hgets]; exact hn.since)
    exact ⟨fuel, t, os, hrun, hidle, hout.trans howes⟩
  rcases ha with rfl | rfl | rfl
  · refine hstart (m := { n with eng.wal := .syncing n.hist.completed }) (o := .silent) ?_ trivial hn.log rfl ?_
    · simp only [Node.act, Node.lift, Node.flush, hw, Option.map_some]
    · simp [Out.reply, Node.owes, Node.calls, hf, hfl, hg, WalSection.calls, FlushSection.calls]
  · by_cases he : n.eng.levels.head?.all List.isEmpty = true
    · refine hstart (m := (n.compactEnd (.ok ())).1) (o := .compacted (.ok ())) ?_ trivial hn.log rfl ?_
      · simp only [Node.act, Node.lift, Node.compactEnter, hf, he, if_true, Option.map_some]
        rfl
      · simp [Out.reply, Node.owes, Node.calls, Node.compactEnd, hw, hfl, hg, WalSection.calls, FlushSection.calls]
    · refine hstart (m := { n with eng.flush := .reading (n.eng.levels.take 2).flatten (n.eng.levels.take 2).flatten [] })
        (o := .silent) ?_ trivial hn.log rfl ?_
      · simp only [Node.act, Node.lift, Node.compactEnter, hf, if_neg he, Option.map_some]
      · simp [Out.reply, Node.owes, Node.calls, hw, hfl, hg, WalSection.calls, FlushSection.calls]
  · refine hstart (m := { n with eng.flush := .draining .worker [] }) (o := .silent) ?_ trivial hn.log rfl ?_
    · simp only [Node.act, Node.lift, Node.workerEnter, hf, Option.map_some]
    · simp [Out.reply, Node.owes, Node.calls, hw, hfl, hg, WalSection.calls, FlushSection.calls]

/-- A hand-over of buffered bytes changes no map. -/
theorem Idle.handover {M : Key → Option Value} {s : Sys Γ} (h : Idle M s) (k : Nat) :
    ∃ fuel t os, (∀ f, fuel ≤ f → runAct Γ f (.handover k) s = some (t, os)) ∧ Idle M t ∧ os.flatMap Out.reply = [] := by
  obtain ⟨n, rfl, hq, L, B, hn, rfl⟩ := h
  obtain ⟨fuel, t, os, hrun, hidle, hout⟩ := hn.call (a := .handover k) (m := n.handover k) (o := .silent) rfl trivial
    hn.log hn.since
  exact ⟨fuel, t, os, hrun, hidle, hout.trans (owes_of_quiet (n := n.handover k) hq)⟩

/-- A directory that is in order opens, and the engine is idle. -/
theorem InOrder.opens_idle {s : Sys Γ} (h : InOrder s) (hp : s.proc = .down) (options : LsmOptions) :
    ∃ fuel t os, (∀ k, fuel ≤ k → runAct Γ k (.openDir options) s = some (t, os)) ∧ Idle (s.disk.recovered Γ) t ∧
      os.flatMap Out.reply = [.done (.ok ())] := by
  obtain ⟨fuel, t, os, e, hrun, hout, hin, hpt, hmap, hq⟩ := h.opens hp options
  refine ⟨fuel, t, os, fun k hk => ?_, hmap ▸ hin.idle hpt hq, hout⟩
  unfold runAct at hrun ⊢
  split at hrun
  · simp at hrun
  · rename_i u o hs
    obtain ⟨r, hr, hrt⟩ := Option.map_eq_some_iff.1 hrun
    simp only [drive_mono hr hk, Option.map_some, hrt]

/-- A drop leaves a directory that stands for the map of the engine. -/
theorem Idle.drop {M : Key → Option Value} {s : Sys Γ} (h : Idle M s) :
    ∃ t, step Γ s (.drop .ok) = some (t, .silent) ∧ InOrder t ∧ t.proc = .down ∧ t.disk.recovered Γ = M := by
  obtain ⟨n, rfl, hq, L, B, hn, rfl⟩ := h
  have hs : step Γ n.toSys (.drop .ok) = some (n.drop .ok, .silent) := step_toSys (by simp only [Node.act, hq, if_true])
  have hin : InOrder n.toSys := ⟨hn.data, hn.sound⟩
  refine ⟨_, hs, hin.kept hs rfl, rfl, ?_⟩
  rw [(hn.data.dropped (quiet_parts hq).1).2.1, Hist.mapAt, List.take_length, hn.log, hn.base]

/-- An idle engine reads as its map. -/
theorem Idle.reads {M : Key → Option Value} {s : Sys Γ} (h : Idle M s) : Reads s M := by
  intro k
  obtain ⟨fuel, t, os, hrun, -, hout⟩ := h.get k
  exact ⟨fuel, t, os, hrun fuel (Nat.le_refl _), hout⟩

/-- A directory that is in order opens and reads as the map it stands for. -/
theorem InOrder.reopens {s : Sys Γ} (h : InOrder s) (hp : s.proc = .down) : Reopens s (s.disk.recovered Γ) := by
  intro options
  obtain ⟨fuel, t, os, hrun, hidle, hout⟩ := h.opens_idle hp options
  exact ⟨fuel, t, os, hrun fuel (Nat.le_refl _), hout, hidle.reads⟩

end LsmEngine
