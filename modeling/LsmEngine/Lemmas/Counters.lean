import LsmEngine.Lemmas.Regimes

/-!
# What the history counts

The counters of the history against what the callers see: a write that returns `Ok` is the last of the log and counts as
completed from then on, a `get` returns the effect of applied writes only, a `flush()` that returns `Ok` has raised `flushAck` to
the writes that had completed when it began; and until the next open the log and the counters only grow.
-/

namespace LsmEngine

variable {Γ : Ctx} {n n' : Node Γ}

/-! ## The write that holds the wal mutex -/

/-- The write that the holder of the wal mutex is to acknowledge. -/
def WalSection.entry : WalSection → Option WalEntry
  | .logged w | .synced w | .applied w => some w
  | .freezing (.write w) | .rotating (.write w) _ | .created (.write w) _ | .swapped (.write w) _ => some w
  | _ => none

/-- The write that holds the wal mutex is the last of the log. -/
def LastLogged (s : Sys Γ) : Prop :=
  match s.proc with
  | .up e => ∀ w, e.wal.entry = some w → s.hist.log.getLast? = some w
  | _ => True

/-- The call under the wal mutex goes on with the write it logged. -/
theorem WalMove.lastLogged {io : Io} {r : Node Γ × Out} (hm : WalMove n io r) (h : LastLogged n.toSys) :
    LastLogged r.1.toSys := by
  intro w hw
  cases hm with
  | @nothing c hc | @createFails c _ _ hc | @replace c _ hc =>
    cases c <;> simp [Node.finish, Node.abort, WalSection.entry] at hw
  | syncFails | done | flushSyncFails => simp [Node.finish, Node.abort, WalSection.entry] at hw
  | @exceeds v hc =>
    refine h w ?_
    rw [hc]
    exact hw
  | @takeSeq c hc | @create c _ hc | @swap c _ hc =>
    refine h w ?_
    rw [hc]
    cases c <;> exact hw
  | @flushSync since hc => simp [Node.syncActive, WalSection.entry] at hw
  | @sync v hc | @apply v hc | @applySynced v hc =>
    refine h w ?_
    rw [hc]
    exact hw

/-- No action on the engine logs a write beside the one in progress. -/
theorem NodeMove.lastLogged {a : Act} {x : Sys Γ × Out} (hm : NodeMove n a x) (h : LastLogged n.toSys) : LastLogged x.1 := by
  cases hm with
  | @write w io n' o hw =>
    cases hw with
    | logged =>
      intro v hv
      obtain rfl : w = v := by simpa [Node.logWrite, WalSection.entry] using hv
      simp [Node.toSys, Node.logWrite]
    | _ => exact h
  | wal hw => exact hw.lastLogged h
  | flush =>
    intro v hv
    simp [WalSection.entry] at hv
  | flushStep hf =>
    have hs := hf.sameWrites
    intro v hv
    refine (congrArg List.getLast? hs.log).trans (h v ?_)
    rw [← hs.wal]
    exact hv
  | getStep hg =>
    have hs := hg.sameWrites
    intro v hv
    refine (congrArg List.getLast? hs.log).trans (h v ?_)
    rw [← hs.wal]
    exact hv
  | drop => trivial
  | _ => exact h

/-- No step of the system does. -/
theorem lastLogged_step {s s' : Sys Γ} {a : Act} {o : Out} (h : LastLogged s) (hs : step Γ s a = some (s', o)) :
    LastLogged s' := by
  cases step_cases hs with
  | crash | openDir => trivial
  | openStep hp hm =>
    cases hm with
    | up =>
      intro v hv
      simp [Recovered.engine, WalSection.entry] at hv
    | _ => trivial
  | openHandover hp =>
    unfold Opening.handover
    split
    · trivial
    · exact h
  | node hp hm =>
    refine hm.lastLogged ?_
    unfold LastLogged at h ⊢
    rw [hp] at h
    exact h

theorem lastLogged_of_steps {ok : Sys Γ → Act → Prop} {s : Sys Γ} (h : Transition.Steps (step Γ) ok (Sys.init Γ) s) :
    LastLogged s := h.invariant trivial (fun hl _ hs => lastLogged_step hl hs)

/-! ## What grows -/

/-- The log and the counters of the history only grow, over the map that the open has read. -/
structure HistGrows (h h' : Hist) : Prop where
  base : h'.base = h.base
  log : h.log <+: h'.log
  applied : h.applied ≤ h'.applied
  completed : h.completed ≤ h'.completed
  rotated : h.rotated ≤ h'.rotated
  flushAck : h.flushAck ≤ h'.flushAck

/-- A history that stays. -/
theorem HistGrows.refl (h : Hist) : HistGrows h h := ⟨rfl, List.prefix_refl _, Nat.le_refl _, Nat.le_refl _, Nat.le_refl _, Nat.le_refl _⟩

/-- The history only grows under the wal mutex. -/
theorem WalMove.grows (hcounts : CountsOk n) {io : Io} {r : Node Γ × Out} (hm : WalMove n io r) : HistGrows n.hist r.1.hist := by
  have hread := hm.readStep hcounts
  have h1 := hcounts.completed
  have h2 := hcounts.applied
  have h3 := hcounts.rotated
  refine ⟨hread.base, hread.log, hread.applied, ?_, ?_, ?_⟩
  · cases hm with
    | @nothing c | @createFails c | @replace c => cases c <;> simp only [Node.finish, Node.abort, Node.replaceWriter] <;> omega
    | syncFails | done => simp only [Node.finish, Node.abort]; omega
    | _ => exact Nat.le_refl _
  · cases hm with
    | @nothing c | @createFails c => cases c <;> exact Nat.le_refl _
    | @replace c => cases c <;> simp only [Node.finish, Node.replaceWriter] <;> omega
    | _ => exact Nat.le_refl _
  · cases hm with
    | @nothing c | @createFails c | @replace c => cases c <;> exact Nat.le_refl _
    | _ => exact Nat.le_refl _

/-- A flush pass takes no acknowledgement back. -/
theorem FlushMove.flushAck_le {io : Io} {r : Node Γ × Out} (hm : FlushMove n io r) : n.hist.flushAck ≤ r.1.hist.flushAck := by
  have hend : ∀ (d : Disk) (e : Engine Γ) (stale : Bool) (res : Except LsmError Unit) (c : FlushCaller),
      n.hist.flushAck ≤ (Node.flushEnd ⟨d, { n.hist with stale := stale }, e⟩ res c).1.hist.flushAck := by
    intro d e stale res c
    cases c with
    | flush since =>
      simp only [Node.flushEnd]
      split
      · exact Nat.le_max_left _ _
      · exact Nat.le_refl _
    | worker => exact Nat.le_refl _
  cases hm with
  | nothing | unbuilt | buildFails | manifestFailsFlush | flushDone => exact hend _ _ _ _ _
  | _ => exact Nat.le_refl _

/-- The history only grows by an action on the engine. -/
theorem NodeMove.grows (hcounts : CountsOk n) {a : Act} {x : Sys Γ × Out} (hm : NodeMove n a x) : HistGrows n.hist x.1.hist := by
  cases hm with
  | wal hw => exact hw.grows hcounts
  | flushStep hf =>
    have hs := hf.sameWrites
    exact ⟨hs.base, ⟨[], by rw [List.append_nil]; exact hs.log.symm⟩, hs.applied.ge, hs.completed.ge, hs.rotated.ge, hf.flushAck_le⟩
  | getStep hg =>
    cases hg <;> exact HistGrows.refl _
  | write hw =>
    cases hw with
    | logged => exact { HistGrows.refl n.hist with log := List.prefix_append _ _ }
    | _ => exact HistGrows.refl _
  | _ => exact HistGrows.refl _

/-! ## What a step says to its caller -/

/-- What the step from `s` to `t` that returns `o` says of the history. -/
structure Acknowledges (s t : Sys Γ) (o : Out) : Prop where
  wrote : ∀ w, o = .wrote w (.ok ()) → t.hist.log.getLast? = some w ∧ t.hist.completed = t.hist.log.length
  got : ∀ k since v, o = .got k since (.ok v) → ∃ j, since ≤ j ∧ j ≤ t.hist.applied ∧ t.hist.mapAt j k = v
  flushed : ∀ since, o = .flushed since (.ok ()) → since ≤ t.hist.flushAck
  /-- until the next open -/
  grows : t.hist.past = s.hist.past → HistGrows s.hist t.hist

/-- A write that returns `Ok` is the last of the log, and all of the log is complete. -/
theorem WalMove.acknowledges (hl : LastLogged n.toSys) {io : Io} {r : Node Γ × Out} (hm : WalMove n io r) {w : WalEntry}
    (ho : r.2 = .wrote w (.ok ())) : r.1.hist.log.getLast? = some w ∧ r.1.hist.completed = r.1.hist.log.length := by
  have hend : ∀ c : WalCaller, (Node.finish n c).2 = .wrote w (.ok ()) → c = .write w := by
    intro c hc
    cases c with
    | write v =>
      simp only [Node.finish, Out.wrote.injEq, and_true] at hc
      rw [hc]
    | flush since => simp [Node.finish] at hc
  cases hm with
  | @nothing c hw =>
    obtain rfl := hend c ho
    exact ⟨hl w (by simp only [hw]; rfl), rfl⟩
  | @done v hw =>
    obtain rfl : v = w := by simpa using hend _ ho
    exact ⟨hl v (by simp only [hw]; rfl), rfl⟩
  | @replace c newSeq hw =>
    obtain rfl : c = .write w := by
      cases c with
      | write v =>
        simp only [Node.finish, Out.wrote.injEq, and_true] at ho
        rw [ho]
      | flush since => simp [Node.finish] at ho
    exact ⟨hl w (by simp only [hw]; rfl), rfl⟩
  | @createFails c => cases c <;> simp [Node.abort] at ho
  | syncFails | flushSyncFails => simp [Node.abort] at ho
  | _ => simp at ho

/-- A `flush()` returns `Ok` when its pass has found nothing to flush or has removed the last log. -/
theorem FlushMove.flushed {io : Io} {r : Node Γ × Out} (hm : FlushMove n io r) {since : Nat}
    (ho : r.2 = .flushed since (.ok ())) :
    ((n.eng.flush = .draining (.flush since) [] ∧ n.eng.immutables = []) ∨ n.eng.flush = .unlinkWals (.flush since) []) ∧
      r.1 = (n.flushEnd (.ok ()) (.flush since)).1 := by
  cases hm with
  | @nothing c hf hi =>
    cases c with
    | flush since' =>
      simp only [Node.flushEnd, Out.flushed.injEq, and_true] at ho
      subst ho
      exact ⟨.inl ⟨hf, hi⟩, rfl⟩
    | worker => simp [Node.flushEnd] at ho
  | @flushDone c hf =>
    cases c with
    | flush since' =>
      simp only [Node.flushEnd, Out.flushed.injEq, and_true] at ho
      subst ho
      exact ⟨.inr hf, rfl⟩
    | worker => simp [Node.flushEnd] at ho
  | @unbuilt c | @buildFails c | @manifestFailsFlush c => cases c <;> simp [Node.flushEnd] at ho
  | mergedUnbuilt | readFails | mergeFails | manifestFailsCompact | compactDone => simp [Node.compactEnd] at ho
  | _ => simp at ho

/-- A `flush()` that returns `Ok` has counted the writes that were complete when it began. -/
theorem FlushMove.acknowledges {io : Io} {r : Node Γ × Out} (hm : FlushMove n io r) {since : Nat}
    (ho : r.2 = .flushed since (.ok ())) : since ≤ r.1.hist.flushAck := by
  rw [(hm.flushed ho).2]
  exact Nat.le_max_right _ _

/-- The holder of `flush_lock` returns no write and no `get`. -/
theorem FlushMove.not_wrote {io : Io} {r : Node Γ × Out} (hm : FlushMove n io r) :
    (∀ w res, r.2 ≠ .wrote w res) ∧ ∀ k since res, r.2 ≠ .got k since res := by
  cases hm with
  | @nothing c | @flushDone c | @unbuilt c | @buildFails c | @manifestFailsFlush c =>
    cases c <;> exact ⟨fun _ _ h => by simp [Node.flushEnd] at h, fun _ _ _ h => by simp [Node.flushEnd] at h⟩
  | mergedUnbuilt | readFails | mergeFails | manifestFailsCompact | compactDone =>
    exact ⟨fun _ _ h => by simp [Node.compactEnd] at h, fun _ _ _ h => by simp [Node.compactEnd] at h⟩
  | _ => exact ⟨fun _ _ h => by simp at h, fun _ _ _ h => by simp at h⟩

/-- The holder of the wal mutex returns no `get` and no flush with `Ok`. -/
theorem WalMove.not_got {io : Io} {r : Node Γ × Out} (hm : WalMove n io r) :
    (∀ k since res, r.2 ≠ .got k since res) ∧ ∀ since, r.2 ≠ .flushed since (.ok ()) := by
  cases hm with
  | @nothing c | @createFails c | @replace c =>
    cases c <;> exact ⟨fun _ _ _ h => by simp [Node.finish, Node.abort] at h, fun _ h => by simp [Node.finish, Node.abort] at h⟩
  | syncFails | flushSyncFails => exact ⟨fun _ _ _ h => by simp [Node.abort] at h, fun _ h => by simp [Node.abort] at h⟩
  | done => exact ⟨fun _ _ _ h => by simp [Node.finish] at h, fun _ h => by simp [Node.finish] at h⟩
  | _ => exact ⟨fun _ _ _ h => by simp at h, fun _ h => by simp at h⟩

/-- A `get` returns nothing but a `get`. -/
theorem GetMove.only_got {i : Nat} {io : Io} {r : Node Γ × Out} (hm : GetMove n i io r) :
    (∀ w res, r.2 ≠ .wrote w res) ∧ ∀ since res, r.2 ≠ .flushed since res := by
  cases hm <;> exact ⟨fun _ _ h => by simp [Node.answer, Node.walkOn] at h, fun _ _ h => by simp [Node.answer, Node.walkOn] at h⟩

/-- A step that returns nothing to a caller. -/
theorem Acknowledges.silent {s t : Sys Γ} {o : Out} (hw : ∀ w, o ≠ .wrote w (.ok ())) (hg : ∀ k since v, o ≠ .got k since (.ok v))
    (hf : ∀ since, o ≠ .flushed since (.ok ())) (hgrows : t.hist.past = s.hist.past → HistGrows s.hist t.hist) :
    Acknowledges s t o :=
  ⟨fun w h => absurd h (hw w), fun k since v h => absurd h (hg k since v), fun since h => absurd h (hf since), hgrows⟩

/-- An action that returns to a caller acknowledges what it has done. -/
theorem NodeMove.acknowledges (hcounts : CountsOk n) (hread : Reading n) (hl : LastLogged n.toSys) {a : Act} {x : Sys Γ × Out}
    (hm : NodeMove n a x) : Acknowledges n.toSys x.1 x.2 := by
  have hgrows := hm.grows hcounts
  cases hm with
  | wal hw =>
    obtain ⟨h1, h2⟩ := hw.not_got
    exact ⟨fun w ho => hw.acknowledges hl ho, fun k since v ho => absurd ho (h1 _ _ _), fun since ho => absurd ho (h2 _),
      fun _ => hgrows⟩
  | flushStep hf =>
    obtain ⟨h1, h2⟩ := hf.not_wrote
    exact ⟨fun w ho => absurd ho (h1 _ _), fun k since v ho => absurd ho (h2 _ _ _), fun since ho => hf.acknowledges ho,
      fun _ => hgrows⟩
  | getStep hg =>
    obtain ⟨h1, h2⟩ := hg.only_got
    have hs := hg.sameWrites
    refine ⟨fun w ho => absurd ho (h1 _ _), fun k since v ho => ?_, fun since ho => absurd ho (h2 _ _), fun _ => hgrows⟩
    obtain ⟨j, hj1, hj2, hv⟩ := hg.answers hread ho
    refine ⟨j, hj1, hj2.trans hgrows.applied, ?_⟩
    rw [← hv, Hist.mapAt, Hist.mapAt]
    exact congrFun (congrArg₂ runWrites (congrArg (List.take j) hs.log) hs.base) k
  | write hw =>
    cases hw <;> exact .silent (fun w h => by simp at h) (fun _ _ _ h => by simp at h) (fun _ h => by simp at h)
      (fun _ => hgrows)
  | _ => exact .silent (fun w h => by simp at h) (fun _ _ _ h => by simp at h) (fun _ h => by simp at h) (fun _ => hgrows)

/-- In a run in which every running engine is in order, every step says what the history holds. -/
theorem acknowledges_step {s t : Sys Γ} {a : Act} {o : Out} (hl : LastLogged s)
    (hup : ∀ e, s.proc = .up e → CountsOk ⟨s.disk, s.hist, e⟩ ∧ Reading ⟨s.disk, s.hist, e⟩) (hs : step Γ s a = some (t, o)) :
    Acknowledges s t o := by
  cases step_cases hs with
  | crash | openDir =>
    exact .silent (fun w h => by simp at h) (fun _ _ _ h => by simp at h) (fun _ h => by simp at h) (fun _ => HistGrows.refl _)
  | openStep hp hm =>
    cases hm with
    | up =>
      exact .silent (fun w h => by simp at h) (fun _ _ _ h => by simp at h) (fun _ h => by simp at h)
        (fun hpast => by simp [Hist.reopen] at hpast)
    | _ =>
      exact .silent (fun w h => by simp at h) (fun _ _ _ h => by simp at h) (fun _ h => by simp at h)
        (fun _ => HistGrows.refl _)
  | @openHandover k op hp =>
    refine .silent (fun w h => by simp at h) (fun _ _ _ h => by simp at h) (fun _ h => by simp at h) (fun _ => ?_)
    unfold Opening.handover
    split <;> exact HistGrows.refl _
  | @node _ e _ hp hm =>
    obtain ⟨h1, h2⟩ := hup e hp
    have hsys : s = Node.toSys ⟨s.disk, s.hist, e⟩ := by
      cases s
      simp only at hp
      rw [hp]
      rfl
    rw [hsys] at hl ⊢
    exact hm.acknowledges h1 h2 hl

/-- The step at which a `flush()` returns `Ok` is one of the holder of `flush_lock`. -/
theorem step_flushed {s t : Sys Γ} {a : Act} {since : Nat} (hs : step Γ s a = some (t, .flushed since (.ok ()))) :
    ∃ e io r, s.proc = .up e ∧ a = .flushStep io ∧ FlushMove ⟨s.disk, s.hist, e⟩ io r ∧ t = r.1.toSys ∧
      r.2 = .flushed since (.ok ()) := by
  generalize hx : (t, Out.flushed since (.ok ())) = x at hs
  cases step_cases hs with
  | crash | openDir | openHandover => simp at hx
  | openStep hp hm => cases hm <;> simp [Sys.openFails] at hx
  | @node _ e _ hp hm =>
    cases hm with
    | @flushStep io r hf =>
      rw [Prod.mk.injEq] at hx
      exact ⟨e, io, r, hp, rfl, hf, hx.1, hx.2.symm⟩
    | wal hw =>
      rw [Prod.mk.injEq] at hx
      exact absurd hx.2.symm (hw.not_got.2 _)
    | getStep hg =>
      rw [Prod.mk.injEq] at hx
      exact absurd hx.2.symm (hg.only_got.2 _ _)
    | write hw => cases hw <;> simp at hx
    | _ => simp at hx

end LsmEngine
