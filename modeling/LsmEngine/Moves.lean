import LsmEngine.Step

/-!
# The steps, branch by branch

What each step function can do, one case for each branch with the guard under which it is taken. Proofs about steps go over
these cases and do not unfold the functions.
-/

namespace LsmEngine

variable {Γ : Ctx}

/-- A call of `put` or `delete` up to the append. -/
inductive WriteMove (n : Node Γ) (w : WalEntry) (io : Io) : Node Γ → Out → Prop where
  | refused {err : LsmError} (hw : n.eng.wal = .free) (he : encodeEntry Γ w.op w.key w.value [] = .error err) :
      WriteMove n w io n (.wrote w (.error err))
  | logged (hw : n.eng.wal = .free) (hv : w.Valid) (hio : io = .ok) : WriteMove n w io (n.logWrite w (w.frame Γ)) .silent
  | torn {k : Nat} (hw : n.eng.wal = .free) (hv : w.Valid) (hio : io = .fail k) (hk : k < (w.frame Γ).length) :
      WriteMove n w io (n.tearWrite (w.frame Γ) k) (.wrote w (.error .io))

/-- An append is one of its moves. -/
theorem write_cases {n n' : Node Γ} {w : WalEntry} {io : Io} {o : Out} (h : n.write w io = some (n', o)) :
    WriteMove n w io n' o := by
  unfold Node.write at h
  split at h
  case h_2 => simp at h
  case h_1 hw =>
  split at h
  case h_1 err he =>
    simp only [Option.some.injEq, Prod.mk.injEq] at h
    obtain ⟨rfl, rfl⟩ := h
    exact .refused hw he
  case h_2 frame hf =>
  obtain ⟨hv, hfr⟩ := (encodeEntry_ok_iff Γ w [] frame).1 hf
  rw [List.nil_append] at hfr
  subst hfr
  split at h
  · simp only [Option.some.injEq, Prod.mk.injEq] at h
    obtain ⟨rfl, rfl⟩ := h
    exact .logged hw hv rfl
  · split at h
    case isFalse => simp at h
    case isTrue k hk =>
    simp only [Option.some.injEq, Prod.mk.injEq] at h
    obtain ⟨rfl, rfl⟩ := h
    exact .torn hw hv rfl hk

/-- A step of the holder of the wal mutex. -/
inductive WalMove (n : Node Γ) (io : Io) : Node Γ × Out → Prop where
  | sync {w : WalEntry} (hw : n.eng.wal = .logged w) (ho : n.eng.options.syncPerWrite = true) (hio : io = .ok) :
      WalMove n io (n.syncActive (.synced w), .silent)
  | syncFails {w : WalEntry} {k : Nat} (hw : n.eng.wal = .logged w) (hio : io = .fail k) :
      WalMove n io (n.abort .io (.write w))
  | apply {w : WalEntry} (hw : n.eng.wal = .logged w) (ho : n.eng.options.syncPerWrite = false) :
      WalMove n io (n.applyWrite w, .silent)
  | applySynced {w : WalEntry} (hw : n.eng.wal = .synced w) : WalMove n io (n.applyWrite w, .silent)
  | exceeds {w : WalEntry} (hw : n.eng.wal = .applied w) (ht : n.overThreshold) :
      WalMove n io ({ n with eng.wal := .freezing (.write w) }, .silent)
  | done {w : WalEntry} (hw : n.eng.wal = .applied w) (ht : ¬n.overThreshold) : WalMove n io (n.finish (.write w))
  | flushSync {since : Nat} (hw : n.eng.wal = .syncing since) (hio : io = .ok) :
      WalMove n io (n.syncActive (.freezing (.flush since)), .silent)
  | flushSyncFails {since k : Nat} (hw : n.eng.wal = .syncing since) (hio : io = .fail k) :
      WalMove n io (n.abort .io (.flush since))
  | nothing {c : WalCaller} (hw : n.eng.wal = .freezing c) (he : (n.eng.mems n.eng.active).isEmpty = true) :
      WalMove n io (n.finish c)
  | takeSeq {c : WalCaller} (hw : n.eng.wal = .freezing c) (he : (n.eng.mems n.eng.active).isEmpty = false) :
      WalMove n io ({ n with eng.nextSeq := n.eng.nextSeq + 1, eng.wal := .rotating c n.eng.nextSeq }, .silent)
  | create {c : WalCaller} {newSeq : Nat} (hw : n.eng.wal = .rotating c newSeq) (hio : io = .ok) :
      WalMove n io ({ n with disk := n.disk.createWal newSeq, eng.wal := .created c newSeq }, .silent)
  | createFails {c : WalCaller} {newSeq k : Nat} (hw : n.eng.wal = .rotating c newSeq) (hio : io = .fail k) :
      WalMove n io (n.abort .io c)
  | swap {c : WalCaller} {newSeq : Nat} (hw : n.eng.wal = .created c newSeq) :
      WalMove n io (n.swapActive c newSeq, .silent)
  | replace {c : WalCaller} {newSeq : Nat} (hw : n.eng.wal = .swapped c newSeq) :
      WalMove n io ((n.replaceWriter newSeq io).finish c)

/-- A step under the wal mutex is one of its moves. -/
theorem walStep_cases {n : Node Γ} {io : Io} {r : Node Γ × Out} (h : n.walStep io = some r) : WalMove n io r := by
  unfold Node.walStep at h
  cases hw : n.eng.wal with
  | free => simp [hw] at h
  | logged w =>
    simp only [hw] at h
    split at h
    case isTrue ho =>
      cases io with
      | ok => rw [← Option.some.inj h]; exact .sync hw ho rfl
      | fail k => rw [← Option.some.inj h]; exact .syncFails hw rfl
    case isFalse ho => rw [← Option.some.inj h]; exact .apply hw (by simpa using ho)
  | synced w =>
    simp only [hw] at h
    rw [← Option.some.inj h]
    exact .applySynced hw
  | applied w =>
    simp only [hw] at h
    split at h
    case isTrue ht => rw [← Option.some.inj h]; exact .exceeds hw ht
    case isFalse ht => rw [← Option.some.inj h]; exact .done hw ht
  | syncing since =>
    simp only [hw] at h
    cases io with
    | ok => rw [← Option.some.inj h]; exact .flushSync hw rfl
    | fail k => rw [← Option.some.inj h]; exact .flushSyncFails hw rfl
  | freezing c =>
    simp only [hw] at h
    split at h
    case isTrue he => rw [← Option.some.inj h]; exact .nothing hw he
    case isFalse he => rw [← Option.some.inj h]; exact .takeSeq hw (by simpa using he)
  | rotating c newSeq =>
    simp only [hw] at h
    cases io with
    | ok => rw [← Option.some.inj h]; exact .create hw rfl
    | fail k => rw [← Option.some.inj h]; exact .createFails hw rfl
  | created c newSeq =>
    simp only [hw] at h
    rw [← Option.some.inj h]
    exact .swap hw
  | swapped c newSeq =>
    simp only [hw] at h
    rw [← Option.some.inj h]
    exact .replace hw

/-- A step of the holder of `flush_lock`. -/
inductive FlushMove (n : Node Γ) (io : Io) : Node Γ × Out → Prop where
  | nothing {c : FlushCaller} (hf : n.eng.flush = .draining c []) (hi : n.eng.immutables = []) :
      FlushMove n io (n.flushEnd (.ok ()) c)
  | drained {c : FlushCaller} {fl : List Nat} (hf : n.eng.flush = .draining c fl) (hi : n.eng.immutables = [])
      (hne : fl ≠ []) :
      FlushMove n io ({ n with
        eng.flush := .manifest (.removeWals c fl) (Manifest.ofLevels n.eng.levels) .create }, .silent)
  | unbuilt {c : FlushCaller} {fl : List Nat} {p : PendingImm} {rest : List PendingImm} {err : LsmError}
      (hf : n.eng.flush = .draining c fl) (hi : n.eng.immutables = p :: rest)
      (hb : buildSst Γ 0 n.eng.nextSeq (n.eng.mems p.mem).len (n.eng.mems p.mem).records = .error err) :
      FlushMove n io (Node.flushEnd { n with eng.nextSeq := n.eng.nextSeq + 1 } (.error err) c)
  | built {c : FlushCaller} {fl : List Nat} {p : PendingImm} {rest : List PendingImm} {sst : SstMeta} {file : SstFile}
      (hf : n.eng.flush = .draining c fl) (hi : n.eng.immutables = p :: rest)
      (hb : buildSst Γ 0 n.eng.nextSeq (n.eng.mems p.mem).len (n.eng.mems p.mem).records = .ok (sst, file)) :
      FlushMove n io ({ n with
        eng.nextSeq := n.eng.nextSeq + 1
        eng.flush := .building c fl p sst file .create }, .silent)
  | buildFails {c : FlushCaller} {fl : List Nat} {p : PendingImm} {sst : SstMeta} {file : SstFile} {st : Stage} {k : Nat}
      (hf : n.eng.flush = .building c fl p sst file st) (hio : io = .fail k) :
      FlushMove n io (n.flushEnd (.error .io) c)
  | buildStage {c : FlushCaller} {fl : List Nat} {p : PendingImm} {sst : SstMeta} {file : SstFile} {st st' : Stage}
      (hf : n.eng.flush = .building c fl p sst file st) (hio : io = .ok) (hst : st.next = some st') :
      FlushMove n io ({ n with
        disk := n.disk.sstStage sst.name file st
        eng.flush := .building c fl p sst file st' }, .silent)
  | buildRename {c : FlushCaller} {fl : List Nat} {p : PendingImm} {sst : SstMeta} {file : SstFile}
      (hf : n.eng.flush = .building c fl p sst file .rename) (hio : io = .ok) :
      FlushMove n io ({ n with
        disk := n.disk.sstStage sst.name file .rename
        eng.flush := .committing c fl p sst }, .silent)
  | commit {c : FlushCaller} {fl : List Nat} {p : PendingImm} {sst : SstMeta}
      (hf : n.eng.flush = .committing c fl p sst) (hl : n.eng.wal.holdsStateLock = false) :
      FlushMove n io (n.commitFlush c fl p sst, .silent)
  | mergedNone {inputs : List SstMeta} {runs : List Run} (hf : n.eng.flush = .reading inputs [] runs)
      (hm : mergeRuns runs = some []) : FlushMove n io ({ n with eng.flush := .installing inputs none }, .silent)
  | mergedUnbuilt {inputs : List SstMeta} {runs : List Run} {rs : List Record} {err : LsmError}
      (hf : n.eng.flush = .reading inputs [] runs) (hm : mergeRuns runs = some rs) (hne : rs ≠ [])
      (hb : buildSst Γ 1 n.eng.nextSeq rs.length rs = .error err) :
      FlushMove n io (Node.compactEnd { n with eng.nextSeq := n.eng.nextSeq + 1 } (.error err))
  | merged {inputs : List SstMeta} {runs : List Run} {rs : List Record} {sst : SstMeta} {file : SstFile}
      (hf : n.eng.flush = .reading inputs [] runs) (hm : mergeRuns runs = some rs) (hne : rs ≠ [])
      (hb : buildSst Γ 1 n.eng.nextSeq rs.length rs = .ok (sst, file)) :
      FlushMove n io ({ n with
        eng.nextSeq := n.eng.nextSeq + 1
        eng.flush := .merging inputs sst file .create }, .silent)
  | readOpen {inputs todo : List SstMeta} {sst : SstMeta} {runs : List Run}
      (hf : n.eng.flush = .reading inputs (sst :: todo) runs) (hr : n.eng.readers sst.name = none) :
      FlushMove n io ({ n with
        eng.readers := Function.update n.eng.readers sst.name (some (openReader Γ n.disk sst.name io)) }, .silent)
  | readFails {inputs todo : List SstMeta} {sst : SstMeta} {runs : List Run} {err : LsmError}
      (hf : n.eng.flush = .reading inputs (sst :: todo) runs)
      (hwhy : (∃ e, n.eng.readers sst.name = some (.error e) ∧ err = readerError sst.name e) ∨
        (∃ rd, n.eng.readers sst.name = some (.ok rd) ∧ ((∃ k, io = .fail k ∧ err = .io) ∨ rd.records = .error err))) :
      FlushMove n io (n.compactEnd (.error err))
  | read {inputs todo : List SstMeta} {sst : SstMeta} {runs : List Run} {rd : SsTableReader Γ} {records : List Record}
      (hf : n.eng.flush = .reading inputs (sst :: todo) runs) (hr : n.eng.readers sst.name = some (.ok rd))
      (hio : io = .ok) (hrs : rd.records = .ok records) :
      FlushMove n io ({ n with eng.flush := .reading inputs todo (runs ++ [⟨sst.seq, records⟩]) }, .silent)
  | mergeFails {inputs : List SstMeta} {sst : SstMeta} {file : SstFile} {st : Stage} {k : Nat}
      (hf : n.eng.flush = .merging inputs sst file st) (hio : io = .fail k) :
      FlushMove n io (Node.compactEnd { n with disk := n.disk.removeSstTmp sst.name } (.error .io))
  | mergeStage {inputs : List SstMeta} {sst : SstMeta} {file : SstFile} {st st' : Stage}
      (hf : n.eng.flush = .merging inputs sst file st) (hio : io = .ok) (hst : st.next = some st') :
      FlushMove n io ({ n with
        disk := n.disk.sstStage sst.name file st
        eng.flush := .merging inputs sst file st' }, .silent)
  | mergeRename {inputs : List SstMeta} {sst : SstMeta} {file : SstFile}
      (hf : n.eng.flush = .merging inputs sst file .rename) (hio : io = .ok) :
      FlushMove n io ({ n with
        disk := n.disk.sstStage sst.name file .rename
        eng.flush := .installing inputs (some sst) }, .silent)
  | install {inputs : List SstMeta} {output : Option SstMeta} (hf : n.eng.flush = .installing inputs output)
      (hl : n.eng.wal.holdsStateLock = false) : FlushMove n io (n.commitCompaction inputs output, .silent)
  | manifestFailsFlush {c : FlushCaller} {ws : List Nat} {m : Manifest} {st : Stage} {k : Nat}
      (hf : n.eng.flush = .manifest (.removeWals c ws) m st) (hio : io = .fail k) :
      FlushMove n io (Node.flushEnd { n with disk := n.disk.removeManifestTmp, hist.stale := true } (.error .io) c)
  | manifestFailsCompact {inputs : List SstMeta} {m : Manifest} {st : Stage} {k : Nat}
      (hf : n.eng.flush = .manifest (.removeInputs inputs) m st) (hio : io = .fail k) :
      FlushMove n io (Node.compactEnd { n with disk := n.disk.removeManifestTmp, hist.stale := true } (.error .io))
  | manifestStage {after : AfterManifest} {m : Manifest} {st st' : Stage} (hf : n.eng.flush = .manifest after m st)
      (hio : io = .ok) (hst : st.next = some st') :
      FlushMove n io ({ n with
        disk := n.disk.manifestStage m st
        eng.flush := .manifest after m st' }, .silent)
  | manifestFlush {c : FlushCaller} {ws : List Nat} {m : Manifest}
      (hf : n.eng.flush = .manifest (.removeWals c ws) m .rename) (hio : io = .ok) :
      FlushMove n io ({ n with
        disk := n.disk.manifestStage m .rename
        eng.flush := .unlinkWals c ws
        hist.stale := false }, .silent)
  | manifestCompact {inputs : List SstMeta} {m : Manifest}
      (hf : n.eng.flush = .manifest (.removeInputs inputs) m .rename) (hio : io = .ok) :
      FlushMove n io ({ n with
        disk := n.disk.manifestStage m .rename
        eng.flush := .unlinkInputs inputs
        hist.stale := false }, .silent)
  | flushDone {c : FlushCaller} (hf : n.eng.flush = .unlinkWals c []) : FlushMove n io (n.flushEnd (.ok ()) c)
  | unlinkWal {c : FlushCaller} {w : Nat} {todo : List Nat} (hf : n.eng.flush = .unlinkWals c (w :: todo))
      (hio : io = .ok) :
      FlushMove n io ({ n with disk := n.disk.removeWal w, eng.flush := .unlinkWals c todo }, .silent)
  | unlinkWalFails {c : FlushCaller} {w k : Nat} {todo : List Nat} (hf : n.eng.flush = .unlinkWals c (w :: todo))
      (hio : io = .fail k) : FlushMove n io ({ n with eng.flush := .unlinkWals c todo }, .silent)
  | compactDone (hf : n.eng.flush = .unlinkInputs []) : FlushMove n io (n.compactEnd (.ok ()))
  | unlinkInput {sst : SstMeta} {todo : List SstMeta} (hf : n.eng.flush = .unlinkInputs (sst :: todo)) (hio : io = .ok) :
      FlushMove n io ({ n with disk := n.disk.removeSst sst.name, eng.flush := .unlinkInputs todo }, .silent)
  | unlinkInputFails {sst : SstMeta} {todo : List SstMeta} {k : Nat} (hf : n.eng.flush = .unlinkInputs (sst :: todo))
      (hio : io = .fail k) : FlushMove n io ({ n with eng.flush := .unlinkInputs todo }, .silent)

namespace MovesAux

/-- The choice of what a flush pass does next is a move of the holder of `flush_lock`. -/
theorem drain_cases {n : Node Γ} {io : Io} {c : FlushCaller} {fl : List Nat} (hf : n.eng.flush = .draining c fl) :
    FlushMove n io (n.drain c fl) := by
  unfold Node.drain
  split
  case h_1 hi =>
    split
    case isTrue hfl => subst hfl; exact .nothing hf hi
    case isFalse hfl => exact .drained hf hi hfl
  case h_2 p rest hi =>
    dsimp only
    split
    case h_1 err hb => exact .unbuilt hf hi hb
    case h_2 sst file hb => exact .built hf hi hb

theorem mergeInputs_cases {n : Node Γ} {io : Io} {inputs : List SstMeta} {runs : List Run} {r : Node Γ × Out}
    (hf : n.eng.flush = .reading inputs [] runs) (h : n.mergeInputs inputs runs = some r) : FlushMove n io r := by
  unfold Node.mergeInputs at h
  split at h
  case h_1 => simp at h
  case h_2 hm => rw [← Option.some.inj h]; exact .mergedNone hf hm
  case h_3 x xs hm =>
    dsimp only at h
    split at h
    case h_1 err hb => rw [← Option.some.inj h]; exact .mergedUnbuilt hf hm (by simp) hb
    case h_2 sst file hb => rw [← Option.some.inj h]; exact .merged hf hm (by simp) hb

theorem readInput_cases {n : Node Γ} {io : Io} {inputs todo : List SstMeta} {sst : SstMeta} {runs : List Run}
    (hf : n.eng.flush = .reading inputs (sst :: todo) runs) : FlushMove n io (n.readInput inputs sst todo runs io) := by
  unfold Node.readInput
  split
  case h_1 hr => exact .readOpen hf hr
  case h_2 e hr => exact .readFails hf (.inl ⟨e, hr, rfl⟩)
  case h_3 rd hr =>
    split
    case h_1 k => exact .readFails hf (.inr ⟨rd, hr, .inl ⟨_, rfl, rfl⟩⟩)
    case h_2 err he => exact .readFails hf (.inr ⟨rd, hr, .inr he⟩)
    case h_3 records hrs => exact .read hf hr rfl hrs

end MovesAux

open MovesAux

/-- A step of the holder of `flush_lock` is one of its moves. -/
theorem flushStep_cases {n : Node Γ} {io : Io} {r : Node Γ × Out} (h : n.flushStep io = some r) : FlushMove n io r := by
  unfold Node.flushStep at h
  cases hf : n.eng.flush with
  | free => simp [hf] at h
  | draining c fl =>
    simp only [hf] at h
    rw [← Option.some.inj h]
    exact drain_cases hf
  | building c fl p sst file st =>
    simp only [hf] at h
    cases io with
    | fail k => rw [← Option.some.inj h]; exact .buildFails hf rfl
    | ok =>
      rw [← Option.some.inj h]
      cases st with
      | rename => exact .buildRename hf rfl
      | create => exact .buildStage hf rfl rfl
      | write => exact .buildStage hf rfl rfl
      | sync => exact .buildStage hf rfl rfl
  | committing c fl p sst =>
    simp only [hf] at h
    split at h
    · simp at h
    · rename_i hl
      rw [← Option.some.inj h]
      exact .commit hf (by simpa using hl)
  | reading inputs todo runs =>
    cases todo with
    | nil =>
      simp only [hf] at h
      exact mergeInputs_cases hf h
    | cons sst todo =>
      simp only [hf] at h
      rw [← Option.some.inj h]
      exact readInput_cases hf
  | merging inputs sst file st =>
    simp only [hf] at h
    cases io with
    | fail k => rw [← Option.some.inj h]; exact .mergeFails hf rfl
    | ok =>
      rw [← Option.some.inj h]
      cases st with
      | rename => exact .mergeRename hf rfl
      | create => exact .mergeStage hf rfl rfl
      | write => exact .mergeStage hf rfl rfl
      | sync => exact .mergeStage hf rfl rfl
  | installing inputs output =>
    simp only [hf] at h
    split at h
    · simp at h
    · rename_i hl
      rw [← Option.some.inj h]
      exact .install hf (by simpa using hl)
  | manifest after m st =>
    simp only [hf] at h
    cases io with
    | fail k =>
      cases after with
      | removeWals c ws => rw [← Option.some.inj h]; exact .manifestFailsFlush hf rfl
      | removeInputs inputs => rw [← Option.some.inj h]; exact .manifestFailsCompact hf rfl
    | ok =>
      cases st with
      | rename =>
        cases after with
        | removeWals c ws => rw [← Option.some.inj h]; exact .manifestFlush hf rfl
        | removeInputs inputs => rw [← Option.some.inj h]; exact .manifestCompact hf rfl
      | create => rw [← Option.some.inj h]; exact .manifestStage hf rfl rfl
      | write => rw [← Option.some.inj h]; exact .manifestStage hf rfl rfl
      | sync => rw [← Option.some.inj h]; exact .manifestStage hf rfl rfl
  | unlinkWals c todo =>
    cases todo with
    | nil =>
      simp only [hf] at h
      rw [← Option.some.inj h]
      exact .flushDone hf
    | cons w todo =>
      simp only [hf] at h
      rw [← Option.some.inj h]
      cases io with
      | ok => exact .unlinkWal hf rfl
      | fail k => exact .unlinkWalFails hf rfl
  | unlinkInputs todo =>
    cases todo with
    | nil =>
      simp only [hf] at h
      rw [← Option.some.inj h]
      exact .compactDone hf
    | cons sst todo =>
      simp only [hf] at h
      rw [← Option.some.inj h]
      cases io with
      | ok => exact .unlinkInput hf rfl
      | fail k => exact .unlinkInputFails hf rfl

/-- A step of the `get` in place `i`. -/
inductive GetMove (n : Node Γ) (i : Nat) (io : Io) : Node Γ × Out → Prop where
  | activeHit {g : GetCall} {mem : Nat} {imms : List PendingImm} {tables : List SstMeta} {entry : Entry}
      (hg : n.eng.gets[i]? = some g) (hw : g.walk = .active mem imms tables)
      (he : (n.eng.mems mem).getEntry g.key = some entry) : GetMove n i io (n.answer i g (.ok entry.visible))
  | activeMiss {g : GetCall} {mem : Nat} {imms : List PendingImm} {tables : List SstMeta}
      (hg : n.eng.gets[i]? = some g) (hw : g.walk = .active mem imms tables)
      (he : (n.eng.mems mem).getEntry g.key = none) : GetMove n i io (n.walkOn i g (.immutables imms.reverse tables))
  | immHit {g : GetCall} {p : PendingImm} {imms : List PendingImm} {tables : List SstMeta} {entry : Entry}
      (hg : n.eng.gets[i]? = some g) (hw : g.walk = .immutables (p :: imms) tables)
      (he : (n.eng.mems p.mem).getEntry g.key = some entry) : GetMove n i io (n.answer i g (.ok entry.visible))
  | immMiss {g : GetCall} {p : PendingImm} {imms : List PendingImm} {tables : List SstMeta}
      (hg : n.eng.gets[i]? = some g) (hw : g.walk = .immutables (p :: imms) tables)
      (he : (n.eng.mems p.mem).getEntry g.key = none) : GetMove n i io (n.walkOn i g (.immutables imms tables))
  | immEnd {g : GetCall} {tables : List SstMeta} (hg : n.eng.gets[i]? = some g)
      (hw : g.walk = .immutables [] tables) : GetMove n i io (n.walkOn i g (.tables tables))
  | tablesEnd {g : GetCall} (hg : n.eng.gets[i]? = some g) (hw : g.walk = .tables []) :
      GetMove n i io (n.answer i g (.ok none))
  | skip {g : GetCall} {sst : SstMeta} {rest : List SstMeta} (hg : n.eng.gets[i]? = some g)
      (hw : g.walk = .tables (sst :: rest)) (hr : g.key < sst.min ∨ sst.max < g.key) :
      GetMove n i io (n.walkOn i g (.tables rest))
  | openTable {g : GetCall} {sst : SstMeta} {rest : List SstMeta} (hg : n.eng.gets[i]? = some g)
      (hw : g.walk = .tables (sst :: rest)) (hin : ¬(g.key < sst.min ∨ sst.max < g.key))
      (hr : n.eng.readers sst.name = none) :
      GetMove n i io ({ n with
        eng.readers := Function.update n.eng.readers sst.name (some (openReader Γ n.disk sst.name io)) }, .silent)
  | fails {g : GetCall} {sst : SstMeta} {rest : List SstMeta} {err : LsmError} (hg : n.eng.gets[i]? = some g)
      (hw : g.walk = .tables (sst :: rest)) (hin : ¬(g.key < sst.min ∨ sst.max < g.key))
      (hwhy : (∃ e, n.eng.readers sst.name = some (.error e) ∧ err = readerError sst.name e) ∨
        (∃ rd, n.eng.readers sst.name = some (.ok rd) ∧ ((∃ k, io = .fail k ∧ err = .io) ∨ rd.get g.key = .error err))) :
      GetMove n i io (n.answer i g (.error err))
  | tableHit {g : GetCall} {sst : SstMeta} {rest : List SstMeta} {rd : SsTableReader Γ} {v : LookupValue}
      (hg : n.eng.gets[i]? = some g) (hw : g.walk = .tables (sst :: rest))
      (hin : ¬(g.key < sst.min ∨ sst.max < g.key))
      (hr : n.eng.readers sst.name = some (.ok rd)) (hf : rd.get g.key = .ok (some v)) :
      GetMove n i io (n.answer i g (.ok v.visible))
  | tableMiss {g : GetCall} {sst : SstMeta} {rest : List SstMeta} {rd : SsTableReader Γ}
      (hg : n.eng.gets[i]? = some g) (hw : g.walk = .tables (sst :: rest))
      (hin : ¬(g.key < sst.min ∨ sst.max < g.key)) (hr : n.eng.readers sst.name = some (.ok rd))
      (hf : rd.get g.key = .ok none) : GetMove n i io (n.walkOn i g (.tables rest))

/-- A step of a `get` is one of its moves. -/
theorem getStep_cases {n : Node Γ} {i : Nat} {io : Io} {r : Node Γ × Out} (h : n.getStep i io = some r) :
    GetMove n i io r := by
  unfold Node.getStep at h
  split at h
  case h_1 => simp at h
  case h_2 g hg =>
  split at h
  case h_1 mem imms tables hw =>
    split at h
    case h_1 entry he => rw [← Option.some.inj h]; exact .activeHit hg hw he
    case h_2 he => rw [← Option.some.inj h]; exact .activeMiss hg hw he
  case h_2 tables hw => rw [← Option.some.inj h]; exact .immEnd hg hw
  case h_3 p imms tables hw =>
    split at h
    case h_1 entry he => rw [← Option.some.inj h]; exact .immHit hg hw he
    case h_2 he => rw [← Option.some.inj h]; exact .immMiss hg hw he
  case h_4 hw => rw [← Option.some.inj h]; exact .tablesEnd hg hw
  case h_5 sst rest hw =>
    rw [← Option.some.inj h]
    unfold Node.lookTable
    split
    case isTrue hr => exact .skip hg hw hr
    case isFalse hin =>
      split
      case h_1 hr => exact .openTable hg hw hin hr
      case h_2 e hr => exact .fails hg hw hin (.inl ⟨e, hr, rfl⟩)
      case h_3 rd hr =>
        split
        case h_1 k => exact .fails hg hw hin (.inr ⟨rd, hr, .inl ⟨_, rfl, rfl⟩⟩)
        case h_2 err he => exact .fails hg hw hin (.inr ⟨rd, hr, .inr he⟩)
        case h_3 v hf => exact .tableHit (v := .present v) hg hw hin hr hf
        case h_4 hf => exact .tableHit (v := .deleted) hg hw hin hr hf
        case h_5 hf => exact .tableMiss hg hw hin hr hf

/-- A step of `open_with_options`. -/
inductive OpenMove (s : Sys Γ) (o : Opening) (io : Io) : Sys Γ × Out → Prop where
  | loadFails {err : LsmError} (hst : o.stage = .loading)
      (hwhy : (∃ k, io = .fail k ∧ err = .io) ∨ recover Γ s.disk = .error err) : OpenMove s o io (s.openFails err)
  | loaded {r : Recovered} (hst : o.stage = .loading) (hio : io = .ok) (hr : recover Γ s.disk = .ok r) :
      OpenMove s o io ({ s with proc := .opening { o with stage := .creating r } }, .silent)
  | createFails {r : Recovered} {k : Nat} (hst : o.stage = .creating r) (hio : io = .fail k) :
      OpenMove s o io (s.openFails .io)
  | createdEmpty {r : Recovered} (hst : o.stage = .creating r) (hio : io = .ok) (he : r.mem.isEmpty = true) :
      OpenMove s o io ({ s with
        disk := s.disk.createWal r.walSeq
        proc := .opening { o with stage := .removing r r.walSeqs } }, .silent)
  | created {r : Recovered} (hst : o.stage = .creating r) (hio : io = .ok) (he : r.mem.isEmpty = false) :
      OpenMove s o io ({ s with
        disk := s.disk.createWal r.walSeq
        proc := .opening { o with stage := .appending r (reappended r.mem) } }, .silent)
  | refused {r : Recovered} {w : WalEntry} {todo : List WalEntry} {err : LsmError}
      (hst : o.stage = .appending r (w :: todo)) (he : encodeEntry Γ w.op w.key w.value [] = .error err) :
      OpenMove s o io (s.openFails err)
  | append {r : Recovered} {w : WalEntry} {todo : List WalEntry} (hst : o.stage = .appending r (w :: todo))
      (hv : w.Valid) (hio : io = .ok) :
      OpenMove s o io ({ s with
        proc := .opening { o with stage := .appending r todo, buf := o.buf ++ w.frame Γ } }, .silent)
  | torn {r : Recovered} {w : WalEntry} {todo : List WalEntry} {k : Nat} (hst : o.stage = .appending r (w :: todo))
      (hv : w.Valid) (hio : io = .fail k) (hk : k < (w.frame Γ).length) :
      OpenMove s o io (Sys.openFails { s with disk := s.disk.tear r.walSeq o.buf (w.frame Γ) k } .io)
  | syncFails {r : Recovered} {k : Nat} (hst : o.stage = .appending r []) (hio : io = .fail k) :
      OpenMove s o io (s.openFails .io)
  | sync {r : Recovered} (hst : o.stage = .appending r []) (hio : io = .ok) :
      OpenMove s o io ({ s with
        disk := (s.disk.appendWal r.walSeq o.buf).syncWal r.walSeq
        proc := .opening { o with stage := .removing r r.walSeqs, buf := [] } }, .silent)
  | remove {r : Recovered} {w : Nat} {todo : List Nat} (hst : o.stage = .removing r (w :: todo)) (hio : io = .ok) :
      OpenMove s o io ({ s with
        disk := s.disk.removeWal w
        proc := .opening { o with stage := .removing r todo } }, .silent)
  | removeFails {r : Recovered} {w k : Nat} {todo : List Nat} (hst : o.stage = .removing r (w :: todo))
      (hio : io = .fail k) :
      OpenMove s o io ({ s with proc := .opening { o with stage := .removing r todo } }, .silent)
  | runtimeFails {r : Recovered} {k : Nat} (hst : o.stage = .removing r []) (hio : io = .fail k) :
      OpenMove s o io (s.openFails .io)
  | up {r : Recovered} (hst : o.stage = .removing r []) (hio : io = .ok) :
      OpenMove s o io ({ s with
        hist := s.hist.reopen (r.map Γ s.disk) r.walSeq (reappended r.mem)
        proc := .up (r.engine Γ o.options o.buf) }, .opened (.ok ()))

/-- A step of an open is one of its moves. -/
theorem openStep_cases {s : Sys Γ} {o : Opening} {io : Io} {x : Sys Γ × Out} (h : openStep Γ s o io = some x) :
    OpenMove s o io x := by
  unfold openStep at h
  cases hst : o.stage with
  | loading =>
    simp only [hst] at h
    split at h
    case h_1 k _ => rw [← Option.some.inj h]; exact .loadFails hst (.inl ⟨_, rfl, rfl⟩)
    case h_2 err he => rw [← Option.some.inj h]; exact .loadFails hst (.inr he)
    case h_3 r hr => rw [← Option.some.inj h]; exact .loaded hst rfl hr
  | creating r =>
    simp only [hst] at h
    cases io with
    | fail k => rw [← Option.some.inj h]; exact .createFails hst rfl
    | ok =>
      rw [← Option.some.inj h]
      cases he : r.mem.isEmpty with
      | true => simpa [he] using OpenMove.createdEmpty (s := s) hst rfl he
      | false => simpa [he] using OpenMove.created (s := s) hst rfl he
  | appending r todo =>
    cases todo with
    | nil =>
      simp only [hst] at h
      cases io with
      | fail k => rw [← Option.some.inj h]; exact .syncFails hst rfl
      | ok => rw [← Option.some.inj h]; exact .sync hst rfl
    | cons w todo =>
      simp only [hst] at h
      split at h
      case h_1 err he => rw [← Option.some.inj h]; exact .refused hst he
      case h_2 frame hf =>
        obtain ⟨hv, hfr⟩ := (encodeEntry_ok_iff Γ w [] frame).1 hf
        rw [List.nil_append] at hfr
        subst hfr
        cases io with
        | ok => rw [← Option.some.inj h]; exact .append hst hv rfl
        | fail k =>
          dsimp only at h
          split at h
          case isTrue hk => rw [← Option.some.inj h]; exact .torn hst hv rfl hk
          case isFalse => simp at h
  | removing r todo =>
    cases todo with
    | nil =>
      simp only [hst] at h
      cases io with
      | fail k => rw [← Option.some.inj h]; exact .runtimeFails hst rfl
      | ok => rw [← Option.some.inj h]; exact .up hst rfl
    | cons w todo =>
      simp only [hst] at h
      rw [← Option.some.inj h]
      cases io with
      | ok => exact .remove hst rfl
      | fail k => exact .removeFails hst rfl

/-- A step of a running engine. -/
inductive NodeMove (n : Node Γ) : Act → Sys Γ × Out → Prop where
  | write {w : WalEntry} {io : Io} {n' : Node Γ} {o : Out} (h : WriteMove n w io n' o) :
      NodeMove n (.write w io) (n'.toSys, o)
  | flush (hw : n.eng.wal = .free) :
      NodeMove n .flush (Node.toSys { n with eng.wal := .syncing n.hist.completed }, .silent)
  | wal {io : Io} {r : Node Γ × Out} (h : WalMove n io r) : NodeMove n (.walStep io) (r.1.toSys, r.2)
  | flushEnter {i since : Nat} (hf : n.eng.flush = .free) (hi : n.eng.flushers[i]? = some since) :
      NodeMove n (.flushEnter i) (Node.toSys { n with
        eng.flush := .draining (.flush since) []
        eng.flushers := n.eng.flushers.eraseIdx i }, .silent)
  | workerEnter (hf : n.eng.flush = .free) :
      NodeMove n .workerEnter (Node.toSys { n with eng.flush := .draining .worker [] }, .silent)
  | compactNothing (hf : n.eng.flush = .free) (he : n.eng.levels[0]?.getD [] = []) :
      NodeMove n .compactEnter ((n.compactEnd (.ok ())).1.toSys, .compacted (.ok ()))
  | compactEnter (hf : n.eng.flush = .free) (he : n.eng.levels[0]?.getD [] ≠ []) :
      NodeMove n .compactEnter (Node.toSys { n with
        eng.flush := .reading (n.eng.levels.take 2).flatten (n.eng.levels.take 2).flatten [] }, .silent)
  | flushStep {io : Io} {r : Node Γ × Out} (h : FlushMove n io r) : NodeMove n (.flushStep io) (r.1.toSys, r.2)
  | get {key : Key} : NodeMove n (.get key) ((n.get key).1.toSys, .silent)
  | getStep {i : Nat} {io : Io} {r : Node Γ × Out} (h : GetMove n i io r) : NodeMove n (.getStep i io) (r.1.toSys, r.2)
  | handover {k : Nat} : NodeMove n (.handover k) ((n.handover k).toSys, .silent)
  | drop {io : Io} (hw : n.eng.wal = .free) (hf : n.eng.flush = .free) (hq : n.eng.flushers = []) (hg : n.eng.gets = []) :
      NodeMove n (.drop io) (n.drop io, .silent)

/-- An action on a running engine is one of its moves. -/
theorem act_cases {n : Node Γ} {a : Act} {x : Sys Γ × Out} (h : n.act a = some x) : NodeMove n a x := by
  cases a with
  | openDir _ => simp [Node.act] at h
  | openStep _ => simp [Node.act] at h
  | crash _ => simp [Node.act] at h
  | write w io =>
    obtain ⟨r, hr, rfl⟩ := Option.map_eq_some_iff.1 h
    exact .write (write_cases hr)
  | flush =>
    obtain ⟨r, hr, rfl⟩ := Option.map_eq_some_iff.1 h
    unfold Node.flush at hr
    split at hr
    · rename_i hw
      rw [← Option.some.inj hr]
      exact .flush hw
    · simp at hr
  | walStep io =>
    obtain ⟨r, hr, rfl⟩ := Option.map_eq_some_iff.1 h
    exact .wal (walStep_cases hr)
  | flushEnter i =>
    obtain ⟨r, hr, rfl⟩ := Option.map_eq_some_iff.1 h
    unfold Node.flushEnter at hr
    split at hr
    · rename_i since hf hi
      rw [← Option.some.inj hr]
      exact .flushEnter hf hi
    · simp at hr
  | workerEnter =>
    obtain ⟨r, hr, rfl⟩ := Option.map_eq_some_iff.1 h
    unfold Node.workerEnter at hr
    split at hr
    · rename_i hf
      rw [← Option.some.inj hr]
      exact .workerEnter hf
    · simp at hr
  | compactEnter =>
    obtain ⟨r, hr, rfl⟩ := Option.map_eq_some_iff.1 h
    unfold Node.compactEnter at hr
    split at hr
    · rename_i hf
      have hhead : n.eng.levels.head?.all List.isEmpty = true ↔ n.eng.levels[0]?.getD [] = [] := by
        cases n.eng.levels <;> simp
      split at hr
      · rename_i he
        rw [← Option.some.inj hr]
        exact .compactNothing hf (hhead.1 he)
      · rename_i he
        rw [← Option.some.inj hr]
        exact .compactEnter hf (fun hc => he (hhead.2 hc))
    · simp at hr
  | flushStep io =>
    obtain ⟨r, hr, rfl⟩ := Option.map_eq_some_iff.1 h
    exact .flushStep (flushStep_cases hr)
  | get key =>
    simp only [Node.act, Node.lift, Option.map_some, Option.some.injEq] at h
    rw [← h]
    exact .get
  | getStep i io =>
    obtain ⟨r, hr, rfl⟩ := Option.map_eq_some_iff.1 h
    exact .getStep (getStep_cases hr)
  | handover k =>
    simp only [Node.act, Node.lift, Option.map_some, Option.some.injEq] at h
    rw [← h]
    exact .handover
  | drop io =>
    simp only [Node.act] at h
    split at h
    · rename_i hq
      rw [← Option.some.inj h]
      unfold Node.quiet at hq
      split at hq
      · rename_i h1 h2 h3 h4
        exact .drop h1 h2 h3 h4
      · simp at hq
    · simp at h

/-- A step of the system. -/
inductive Move (s : Sys Γ) : Act → Sys Γ × Out → Prop where
  | crash {κ : CrashKind} : Move s (.crash κ) (⟨s.disk.crash κ, s.hist, .down⟩, .silent)
  | openDir {options : LsmOptions} (hp : s.proc = .down) :
      Move s (.openDir options) ({ s with proc := .opening { options := options, stage := .loading } }, .silent)
  | openStep {io : Io} {o : Opening} {x : Sys Γ × Out} (hp : s.proc = .opening o) (h : OpenMove s o io x) :
      Move s (.openStep io) x
  | openHandover {k : Nat} {o : Opening} (hp : s.proc = .opening o) : Move s (.handover k) (o.handover s k, .silent)
  | node {a : Act} {e : Engine Γ} {x : Sys Γ × Out} (hp : s.proc = .up e) (h : NodeMove ⟨s.disk, s.hist, e⟩ a x) :
      Move s a x

/-- A step of the system is one of its moves. -/
theorem step_cases {s : Sys Γ} {a : Act} {x : Sys Γ × Out} (h : step Γ s a = some x) : Move s a x := by
  unfold step at h
  split at h
  · rw [← Option.some.inj h]
    exact .crash
  · rename_i hp
    rw [← Option.some.inj h]
    exact .openDir hp
  · rename_i hp
    exact .openStep hp (openStep_cases h)
  · rename_i hp
    rw [← Option.some.inj h]
    exact .openHandover hp
  · rename_i hp
    exact .node hp (act_cases h)
  · simp at h

/-! ## What the other sections leave alone -/

/-- The holder of `flush_lock` and the readers leave alone what the wal mutex guards; of the logs they can only remove some. -/
structure SameWrites (n n' : Node Γ) : Prop where
  options : n'.eng.options = n.eng.options
  mems : n'.eng.mems = n.eng.mems
  active : n'.eng.active = n.eng.active
  walBuf : n'.eng.walBuf = n.eng.walBuf
  walSeq : n'.eng.walSeq = n.eng.walSeq
  wal : n'.eng.wal = n.eng.wal
  base : n'.hist.base = n.hist.base
  log : n'.hist.log = n.hist.log
  opened : n'.hist.opened = n.hist.opened
  carried : n'.hist.carried = n.hist.carried
  segs : n'.hist.segs = n.hist.segs
  applied : n'.hist.applied = n.hist.applied
  completed : n'.hist.completed = n.hist.completed
  rotated : n'.hist.rotated = n.hist.rotated
  secured : n'.hist.secured = n.hist.secured
  wals : ∀ g f, n'.disk.wals.get g = some f → n.disk.wals.get g = some f

/-- The end of a pass of the holder of `flush_lock` writes nothing and removes at most logs. -/
theorem SameWrites.flushEnd (n : Node Γ) (d : Disk) (hd : ∀ g f, d.wals.get g = some f → n.disk.wals.get g = some f)
    (next : Nat) (stale : Bool) (r : Except LsmError Unit) (c : FlushCaller) :
    SameWrites n (Node.flushEnd { n with disk := d, eng.nextSeq := next, hist.stale := stale } r c).1 := by
  cases c <;> exact ⟨rfl, rfl, rfl, rfl, rfl, rfl, rfl, rfl, rfl, rfl, rfl, rfl, rfl, rfl, rfl, hd⟩

/-- The holder of `flush_lock` writes nothing. -/
theorem FlushMove.sameWrites {n : Node Γ} {io : Io} {r : Node Γ × Out} (h : FlushMove n io r) : SameWrites n r.1 := by
  have hkeep : ∀ g f, n.disk.wals.get g = some f → n.disk.wals.get g = some f := fun _ _ hg => hg
  cases h with
  | nothing | unbuilt | buildFails | flushDone => exact SameWrites.flushEnd n _ hkeep _ _ _ _
  | manifestFailsFlush => exact SameWrites.flushEnd n n.disk.removeManifestTmp hkeep _ _ _ _
  | unlinkWal =>
    refine ⟨rfl, rfl, rfl, rfl, rfl, rfl, rfl, rfl, rfl, rfl, rfl, rfl, rfl, rfl, rfl, fun g f hg => ?_⟩
    rw [Disk.get_removeWal] at hg
    split at hg
    · simp at hg
    · exact hg
  | buildStage | buildRename | mergeStage | mergeRename | manifestStage | manifestFlush | manifestCompact =>
    exact ⟨rfl, rfl, rfl, rfl, rfl, rfl, rfl, rfl, rfl, rfl, rfl, rfl, rfl, rfl, rfl, fun g f hg => by simpa using hg⟩
  | _ => exact ⟨rfl, rfl, rfl, rfl, rfl, rfl, rfl, rfl, rfl, rfl, rfl, rfl, rfl, rfl, rfl, hkeep⟩

/-- A `get` writes nothing. -/
theorem GetMove.sameWrites {n : Node Γ} {i : Nat} {io : Io} {r : Node Γ × Out} (h : GetMove n i io r) : SameWrites n r.1 := by
  cases h <;> exact ⟨rfl, rfl, rfl, rfl, rfl, rfl, rfl, rfl, rfl, rfl, rfl, rfl, rfl, rfl, rfl, fun _ _ hg => hg⟩

/-- The actions of the wal mutex, and of its log writer. -/
def Act.writes : Act → Bool
  | .write _ _ | .flush | .walStep _ | .handover _ => true
  | _ => false

/-- A running engine is known from its system. -/
theorem toSys_inj {n n' : Node Γ} (h : n.toSys = n'.toSys) : n = n' := by
  obtain ⟨d, hh, e⟩ := n
  obtain ⟨d', hh', e'⟩ := n'
  simpa [Node.toSys] using h

/-- Every other action of a running engine leaves alone what the wal mutex guards. -/
theorem NodeMove.sameWrites {n n' : Node Γ} {a : Act} {x : Sys Γ × Out} (h : NodeMove n a x) (ha : a.writes = false)
    (hx : x.1 = n'.toSys) : SameWrites n n' := by
  have hto : ∀ {m : Node Γ}, m.toSys = n'.toSys → m = n' := toSys_inj
  cases h with
  | write | flush | wal | handover => simp [Act.writes] at ha
  | flushStep h =>
    obtain rfl := hto hx
    exact h.sameWrites
  | getStep h =>
    obtain rfl := hto hx
    exact h.sameWrites
  | drop => simp [Node.drop, Node.toSys] at hx
  | flushEnter | workerEnter | compactNothing | compactEnter | get =>
    obtain rfl := hto hx
    exact ⟨rfl, rfl, rfl, rfl, rfl, rfl, rfl, rfl, rfl, rfl, rfl, rfl, rfl, rfl, rfl, fun _ _ hg => hg⟩

end LsmEngine
