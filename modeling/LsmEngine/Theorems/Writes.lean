import LsmEngine.Theorems.Durability

/-!
# Writes that fail

An append that fails can leave part of its frame in the log, and the engine goes on with the same writer. What is appended after
the torn frame is lost at the next recovery; what was appended before it, and fsynced, is not.
-/

namespace LsmEngine

open Transition

variable {Γ : Ctx}

/-! ## Torn frames -/

/-- The action is an append. -/
def Act.appends : Act → Bool
  | .write _ _ => true
  | _ => false

/-- The actions of a run in which appends to the log can fail after any part of their frame, and nothing else fails. -/
def OnlyAppendsFail (_ : Sys Γ) (a : Act) : Prop := a.NoFail ∨ a.appends = true

instance (s : Sys Γ) (a : Act) : Decidable (OnlyAppendsFail s a) := inferInstanceAs (Decidable (_ ∨ _))

/-- The active log is whole. -/
def Sys.intact (s : Sys Γ) : Bool :=
  match s.proc with
  | .up e => decide (Node.mk s.disk s.hist e).intact
  | _ => true

/-- No append is made after a torn frame. -/
def AppendsIntact (s : Sys Γ) (a : Act) : Prop := a.appends = true → s.intact = true

instance (s : Sys Γ) (a : Act) : Decidable (AppendsIntact s a) := inferInstanceAs (Decidable (_ → _))

/-- An append that fails is benign where the log is intact. -/
theorem OnlyAppendsFail.benign {s : Sys Γ} {a : Act} (h : OnlyAppendsFail s a) (hi : AppendsIntact s a) : Benign s a := by
  have hok : a.appends = false → a.NoFail := fun ha => h.resolve_right (by simp [ha])
  cases hp : s.proc with
  | down => simp only [Benign, hp]
  | opening o =>
    cases a with
    | openStep io =>
      simp only [Benign, hp]
      exact .inl (hok rfl)
    | _ => simp only [Benign, hp]
  | up e =>
    simp only [Benign, hp]
    cases a with
    | write w io =>
      have := hi rfl
      simp only [Sys.intact, hp, decide_eq_true_eq] at this
      exact this
    | walStep io | flushStep io => exact .inl (hok rfl)
    | drop io => exact hok rfl
    | _ => trivial

/-- A call of `put` or `delete` that runs alone: the append, and the steps under the wal mutex, with what their operations come
to. -/
def writeCall (w : WalEntry) (io : Io) (ios : List Io) : List Act := .write w io :: ios.map Act.walStep

/-- The call returns an error. -/
def FailedCall (s : Sys Γ) (w : WalEntry) (io : Io) (ios : List Io) (t : Sys Γ) : Prop :=
  ∃ os err, play (step Γ) (writeCall w io ios) s = some (t, os ++ [.wrote w (.error err)]) ∧ ∀ o ∈ os, o = .silent

/-- The engine reads in `t` as it did in `s`; and whatever succeeds after it, a drop and a reopen then read the same at every key
that has not been written since. -/
def NoEffect (s t : Sys Γ) : Prop :=
  ∃ M, Reads s M ∧ Reads t M ∧ ∀ u e, Steps (step Γ) OnlyDrops t u → u.proc = .up e → (Node.mk u.disk u.hist e).quiet = true →
    ∃ v N, step Γ u (.drop .ok) = some (v, .silent) ∧ Reopens v N ∧
      ∀ k ws, u.hist.writes = t.hist.writes ++ ws → (∀ w ∈ ws, w.key ≠ k) → N k = M k

/-- The call fails before anything of it is in the log: the codec refuses the entry, or the append fails before its first
byte. -/
def FailsFirst (w : WalEntry) (io : Io) : Prop := ¬w.Valid ∨ io = .fail 0

/-- The holder of the wal mutex is a call that writes `w`. -/
def WalSection.serves (w : WalEntry) : WalSection → Prop
  | .logged v | .synced v | .applied v => v = w
  | .freezing c | .rotating c _ | .created c _ | .swapped c _ => c = .write w
  | _ => False

/-- A call that writes `w` is in progress, and nothing else. -/
structure InCall (L : List WalEntry) (B : Key → Option Value) (w : WalEntry) (n : Node Γ) : Prop where
  serves : Serves (L ++ [w]) B n
  wal : n.eng.wal.serves w
  flush : n.eng.flush = .free
  flushers : n.eng.flushers = []
  gets : n.eng.gets = []

/-- A step of the call goes on with it, returns `Ok`, or fails: at the sync of the log or at the creation of the next one. -/
theorem InCall.step {L : List WalEntry} {B : Key → Option Value} {w : WalEntry} {n : Node Γ} (h : InCall L B w n) {io : Io}
    {r : Node Γ × Out} (hm : WalMove n io r) :
    (r.2 = .silent ∧ InCall L B w r.1) ∨ r.2 = .wrote w (.ok ()) ∨
      (r.2 = .wrote w (.error .io) ∧ r.1 = (n.abort .io (.write w)).1 ∧
        (n.eng.wal = .logged w ∨ ∃ newSeq, n.eng.wal = .rotating (.write w) newSeq)) := by
  have hwal := h.wal
  -- the step goes on, and would if its operation had not failed
  have hgo : ∀ {r : Node Γ × Out}, WalMove n .ok r → r.2 = .silent → r.1.eng.wal.serves w → r.1.eng.flush = n.eng.flush →
      r.1.eng.flushers = n.eng.flushers → r.1.eng.gets = n.eng.gets → r.1.hist.log = n.hist.log →
      (r.2 = .silent ∧ InCall L B w r.1) ∨ r.2 = .wrote w (.ok ()) ∨
        (r.2 = .wrote w (.error .io) ∧ r.1 = (n.abort .io (.write w)).1 ∧
          (n.eng.wal = .logged w ∨ ∃ newSeq, n.eng.wal = .rotating (.write w) newSeq)) := by
    intro r hm ho hserves hf hfl hg hlog
    refine .inl ⟨ho, ?_, hserves, hf.trans h.flush, hfl.trans h.flushers, hg.trans h.gets⟩
    exact h.serves.nodeMove (.wal hm) rfl rfl (hlog.trans h.serves.log) (fun g hgm => by simp [hg, h.gets] at hgm)
  cases hm with
  | sync hw ho => exact hgo (.sync hw ho rfl) rfl (by rw [hw] at hwal; exact hwal) rfl rfl rfl rfl
  | @syncFails v k hw =>
    obtain rfl : v = w := by rw [hw] at hwal; exact hwal
    exact .inr (.inr ⟨rfl, rfl, .inl hw⟩)
  | apply hw ho => exact hgo (.apply hw ho) rfl (by rw [hw] at hwal; exact hwal) rfl rfl rfl rfl
  | applySynced hw => exact hgo (.applySynced hw) rfl (by rw [hw] at hwal; exact hwal) rfl rfl rfl rfl
  | exceeds hw ht =>
    exact hgo (.exceeds hw ht) rfl (by rw [hw] at hwal; exact congrArg WalCaller.write hwal) rfl rfl rfl rfl
  | @done v hw =>
    obtain rfl : v = w := by rw [hw] at hwal; exact hwal
    exact .inr (.inl rfl)
  | flushSync hw | flushSyncFails hw =>
    rw [hw] at hwal
    exact hwal.elim
  | @nothing c hw =>
    obtain rfl : c = .write w := by rw [hw] at hwal; exact hwal
    exact .inr (.inl rfl)
  | takeSeq hw he => exact hgo (.takeSeq hw he) rfl (by rw [hw] at hwal; exact hwal) rfl rfl rfl rfl
  | create hw => exact hgo (.create hw rfl) rfl (by rw [hw] at hwal; exact hwal) rfl rfl rfl rfl
  | @createFails c newSeq k hw =>
    obtain rfl : c = .write w := by rw [hw] at hwal; exact hwal
    exact .inr (.inr ⟨rfl, rfl, .inr ⟨newSeq, hw⟩⟩)
  | swap hw => exact hgo (.swap hw) rfl (by rw [hw] at hwal; exact hwal) rfl rfl rfl rfl
  | @replace c newSeq hw =>
    obtain rfl : c = .write w := by rw [hw] at hwal; exact hwal
    exact .inr (.inl rfl)

/-- A call that has appended and returns an error has failed at the sync of the log or at the creation of the next one. -/
theorem InCall.fails {L : List WalEntry} {B : Key → Option Value} {w : WalEntry} {ios : List Io} {n : Node Γ} (h : InCall L B w n)
    {t : Sys Γ} {os : List Out} {err : LsmError}
    (hplay : play (LsmEngine.step Γ) (ios.map Act.walStep) n.toSys = some (t, os ++ [.wrote w (.error err)]))
    (hos : ∀ o ∈ os, o = .silent) :
    ∃ m, InCall L B w m ∧ t = (m.abort .io (.write w)).1.toSys ∧
      (m.eng.wal = .logged w ∨ ∃ newSeq, m.eng.wal = .rotating (.write w) newSeq) := by
  induction ios generalizing n os with
  | nil => simp [play] at hplay
  | cons io ios ih =>
    rw [List.map_cons, play] at hplay
    have hstep : LsmEngine.step Γ n.toSys (.walStep io) = Node.lift (n.walStep io) := rfl
    cases hs : n.walStep io with
    | none => simp [hstep, hs, Node.lift] at hplay
    | some r =>
      simp only [hstep, hs, Node.lift, Option.map_some] at hplay
      obtain ⟨⟨u, ps⟩, hrest, heq⟩ := Option.map_eq_some_iff.1 hplay
      rw [Prod.mk.injEq] at heq
      obtain ⟨rfl, heq⟩ := heq
      -- an output that is not silent is the last one
      have hlast : r.2 ≠ .silent → os = [] := by
        intro hne
        cases os with
        | nil => rfl
        | cons o os =>
          rw [List.cons_append, List.cons.injEq] at heq
          exact absurd (heq.1.trans (hos o List.mem_cons_self)) hne
      rcases h.step (walStep_cases hs) with ⟨ho, hn⟩ | ho | ⟨ho, hr, hwhy⟩
      · cases os with
        | nil =>
          rw [List.nil_append, List.cons.injEq, ho] at heq
          simp at heq
        | cons o os =>
          rw [List.cons_append, List.cons.injEq] at heq
          exact ih hn (by rw [hrest, ← heq.2]) (fun o ho => hos o (List.mem_cons_of_mem _ ho))
      · rw [hlast (by simp [ho]), List.nil_append, List.cons.injEq, ho] at heq
        simp at heq
      · rw [hlast (by simp [ho]), List.nil_append, List.cons.injEq] at heq
        refine ⟨n, h, ?_, hwhy⟩
        rw [← hr]
        cases ios with
        | nil =>
          simp only [List.map_nil, play, Option.some.injEq, Prod.mk.injEq] at hrest
          exact hrest.1.symm
        | cons io' ios =>
          obtain rfl := heq.2
          rw [List.map_cons, play] at hrest
          split at hrest
          · simp at hrest
          · obtain ⟨q, -, hq⟩ := Option.map_eq_some_iff.1 hrest
            simp at hq

/-- A call that returns an error and has not torn a frame: it has changed nothing, or it has appended and failed at the sync of the
log or at the creation of the next one. -/
theorem failedCall_cases {n : Node Γ} {L : List WalEntry} {B : Key → Option Value} (hn : Serves L B n) (hq : n.quiet = true)
    {w : WalEntry} {io : Io} {ios : List Io} {t : Sys Γ} (hio : io = .ok ∨ io = .fail 0) (hcall : FailedCall n.toSys w io ios t) :
    (FailsFirst w io ∧ t = n.toSys) ∨ (¬FailsFirst w io ∧ ∃ m, InCall L B w m ∧ t = (m.abort .io (.write w)).1.toSys ∧
      (m.eng.wal = .logged w ∨ ∃ newSeq, m.eng.wal = .rotating (.write w) newSeq)) := by
  obtain ⟨os, err, hplay, hos⟩ := hcall
  obtain ⟨hw, hf, hfl, hg⟩ := quiet_parts hq
  rw [writeCall, play] at hplay
  have hstep : step Γ n.toSys (.write w io) = Node.lift (n.write w io) := rfl
  cases hs : n.write w io with
  | none => simp [hstep, hs, Node.lift] at hplay
  | some r =>
    obtain ⟨n', o⟩ := r
    simp only [hstep, hs, Node.lift, Option.map_some] at hplay
    obtain ⟨⟨u, ps⟩, hrest, heq⟩ := Option.map_eq_some_iff.1 hplay
    rw [Prod.mk.injEq] at heq
    obtain ⟨rfl, heq⟩ := heq
    -- the append has returned: the call has no more steps
    have hend : n'.eng.wal = .free → u = n'.toSys := by
      intro hfree
      cases ios with
      | nil =>
        simp only [List.map_nil, play, Option.some.injEq, Prod.mk.injEq] at hrest
        exact hrest.1.symm
      | cons io' ios =>
        have hstuck : step Γ n'.toSys (.walStep io') = none := by
          change Node.lift (n'.walStep io') = none
          simp [Node.walStep, hfree, Node.lift]
        rw [List.map_cons, play, hstuck] at hrest
        simp at hrest
    cases write_cases hs with
    | refused hw' he =>
      refine .inl ⟨.inl (fun hv => ?_), hend hw⟩
      rw [encodeEntry_of_valid Γ hv] at he
      simp at he
    | torn hw' hv hfail hk =>
      obtain rfl : _ = 0 := by simpa [hfail] using hio
      rw [tearWrite_nothing] at hend
      exact .inl ⟨.inr hfail, hend hw⟩
    | logged hw' hv hok =>
      refine .inr ⟨fun hc => ?_, ?_⟩
      · rcases hc with hc | hc
        · exact hc hv
        · simp [hok] at hc
      · have hin : InCall L B w (n.logWrite w (w.frame Γ)) := by
          refine ⟨?_, rfl, hf, hfl, hg⟩
          have hm : NodeMove n (.write w .ok) ((n.logWrite w (w.frame Γ)).toSys, .silent) := .write (.logged hw hv rfl)
          have hharm : n.Harmless (.write w .ok) := .inl rfl
          have hdata' := hn.data.nodeMove (hn.sound.benign hn.data hharm) hm rfl
          exact ⟨hdata', hn.sound.nodeMove hn.data hdata' hharm hm rfl, by simp only [Node.logWrite, hn.log],
            hn.base, fun g hgm => by simp [Node.logWrite, hg] at hgm⟩
        cases os with
        | nil => simp at heq
        | cons o os =>
          rw [List.cons_append, List.cons.injEq] at heq
          exact hin.fails (by rw [hrest, ← heq.2]) (fun o ho => hos o (List.mem_cons_of_mem _ ho))

/-- An engine that nobody uses reads the same after any steps that succeed, a drop and a reopen, at every key that they have not
written. -/
theorem noEffect_refl {n : Node Γ} {L : List WalEntry} {B : Key → Option Value} (hn : Serves L B n) (hq : n.quiet = true) :
    NoEffect n.toSys n.toSys := by
  have hidle : Idle (runWrites L B) n.toSys := ⟨n, rfl, hq, L, B, hn, rfl⟩
  refine ⟨_, hidle.reads, hidle.reads, fun u e hu hp hqu => ?_⟩
  have hR : (Regime.since n.hist.writes (runWrites L B) (fun _ : Node Γ => True)).Stable :=
    Regime.since_stable (fun _ _ _ _ _ => trivial) (fun _ _ _ _ _ _ => trivial)
  have hstart : (Regime.since n.hist.writes (runWrites L B) (fun _ : Node Γ => True)).Inv n.toSys :=
    ⟨hn.data, hn.sound, trivial, [], (List.append_nil _).symm, by rw [← hn.log, ← hn.base]; rfl⟩
  have hinv := Regime.inv_steps hR hstart (hu.mono (fun _ _ ha => ⟨ha.2, ha.1.harmless⟩))
  simp only [Regime.Inv, hp] at hinv
  obtain ⟨hdata, hun, -, ws, hws, hmap⟩ := hinv
  have hin : InOrder u := by
    simp only [InOrder, Regime.Inv, hp]
    exact ⟨hdata, hun⟩
  obtain ⟨v, hs, hinv, hpv, hrec⟩ := (hin.idle hp hqu).drop
  refine ⟨v, _, hs, hrec ▸ hinv.reopens hpv, fun k ws' hws' hne => ?_⟩
  obtain rfl : ws = ws' := List.append_cancel_left (hws.symm.trans hws')
  rw [hdata.map_of_free (quiet_parts hqu).1, hmap]
  exact runWrites_of_ne hne _

/-- A call that has appended and then failed leaves the write behind: it is in the log, and where the creation of the next log has
failed it is in the MemTable. -/
theorem InCall.effect {L : List WalEntry} {B : Key → Option Value} {w : WalEntry} {m : Node Γ} (h : InCall L B w m)
    (hwhy : m.eng.wal = .logged w ∨ ∃ newSeq, m.eng.wal = .rotating (.write w) newSeq) {s : Sys Γ}
    (hno : NoEffect s (m.abort .io (.write w)).1.toSys) : Reads s (runWrites (L ++ [w]) B) := by
  obtain ⟨M, hM, hM', hafter⟩ := hno
  have hquiet : (m.abort .io (.write w)).1.quiet = true := by
    simp [Node.quiet, Node.abort, h.flush, h.flushers, h.gets]
  suffices hmap : M = runWrites (L ++ [w]) B by rw [← hmap]; exact hM
  rcases hwhy with hw | ⟨newSeq, hw⟩
  · -- the sync has failed: the drop that follows finds the frame in the log
    obtain ⟨v, N, hs, hre, hkeys⟩ := hafter _ _ .refl rfl hquiet
    obtain ⟨hdisk, hrec⟩ := h.serves.data.synced_recovered
    have hs' : LsmEngine.step Γ (m.abort .io (.write w)).1.toSys (.drop .ok) =
        some ((m.abort .io (.write w)).1.drop .ok, .silent) := step_toSys (by simp only [Node.act, hquiet, if_true])
    obtain rfl : (m.abort .io (.write w)).1.drop .ok = v := by
      rw [hs'] at hs
      simpa using hs
    have hseq : SeqInv ((m.abort .io (.write w)).1.drop .ok) := seqInv_step
      (seqInv_nodeMove h.serves.data.seq (.wal (.syncFails (k := 0) hw rfl))) hs'
    have hre' := (InOrder.down rfl hseq hdisk).reopens rfl
    rw [show ((m.abort .io (.write w)).1.drop .ok).disk.recovered Γ = _ from hrec, Hist.mapAt, List.take_length, h.serves.log,
      h.serves.base] at hre'
    rw [← hre.unique hre']
    funext k
    exact (hkeys k [] (List.append_nil _).symm (by simp)).symm
  · -- the creation has failed: the MemTable has the write
    have hm : NodeMove m (.walStep (.fail 0)) ((m.abort .io (.write w)).1.toSys, .wrote w (.error .io)) :=
      .wal (.createFails (k := 0) hw rfl)
    have hharm : m.Harmless (.walStep (.fail 0)) := .inr ⟨_, _, hw⟩
    have hdata' := h.serves.data.nodeMove (h.serves.sound.benign h.serves.data hharm) hm rfl
    have hin : InOrder (m.abort .io (.write w)).1.toSys :=
      ⟨hdata', h.serves.sound.nodeMove h.serves.data hdata' hharm hm rfl⟩
    have hreads := (hin.idle rfl hquiet).reads
    rw [hM'.unique hreads]
    exact (hdata'.map_of_free rfl).trans (by rw [← h.serves.log, ← h.serves.base]; rfl)

/-- A `put` or `delete` that returns an error, on an engine that nobody else uses, has no effect when it fails before anything of it
is in the log; and when the write would change the map, only then. -/
theorem failed_write_has_no_effect {s : Sys Γ} {e : Engine Γ} (h : Steps (step Γ) Harmless (Sys.init Γ) s) (hp : s.proc = .up e)
    (hq : (Node.mk s.disk s.hist e).quiet = true) {w : WalEntry} {io : Io} {ios : List Io} {t : Sys Γ}
    (hio : io = .ok ∨ io = .fail 0) (hcall : FailedCall s w io ios t) :
    (FailsFirst w io → NoEffect s t) ∧ ∀ M, Reads s M → runWrites [w] M ≠ M → (NoEffect s t ↔ FailsFirst w io) := by
  have hin : InOrder s := Regime.inv_of_steps (Regime.undisturbed_sound Γ) h
  obtain ⟨n, rfl, hqn, L, B, hn, -⟩ := hin.idle hp hq
  have hidle : Idle (runWrites L B) n.toSys := ⟨n, rfl, hqn, L, B, hn, rfl⟩
  rcases failedCall_cases hn hqn hio hcall with ⟨hfirst, rfl⟩ | ⟨hlater, m, hm, rfl, hwhy⟩
  · have hno := noEffect_refl hn hqn
    exact ⟨fun _ => hno, fun M _ _ => ⟨fun _ => hfirst, fun _ => hno⟩⟩
  · refine ⟨fun hc => absurd hc hlater, fun M hM hne => ⟨fun hno => ?_, fun hc => absurd hc hlater⟩⟩
    have hreads := hm.effect hwhy hno
    have h1 : M = runWrites L B := hM.unique hidle.reads
    have h2 : M = runWrites (L ++ [w]) B := hM.unique hreads
    rw [runWrites_append, ← h1] at h2
    exact absurd h2.symm hne

/-- A write fills the MemTable and the next log cannot be created. The call returns the error, and the write is there. -/
theorem failed_rotation_keeps_write :
    ¬∀ (s : Sys Ctx.concrete) (e : Engine Ctx.concrete) (w : WalEntry) (io : Io) (ios : List Io) (t : Sys Ctx.concrete),
      Steps (step Ctx.concrete) NoFailure (Sys.init _) s → s.proc = .up e → (Node.mk s.disk s.hist e).quiet = true →
      (io = .ok ∨ io = .fail 0) → FailedCall s w io ios t → NoEffect s t := by
  intro hall
  obtain ⟨s, e, hrun, hproc, hp⟩ := exists_up_of_play NoFailure (Sys.init Ctx.concrete) (Script.openDir ⟨1, false, 0⟩ 0 0)
    (fun s e => (Node.mk s.disk s.hist e).quiet && decide (replies _ 20 (.get [1]) s = some [.value (.ok none)]) &&
      leadsTo (play (step _) (writeCall ⟨.put, [1], [7]⟩ .ok [.ok, .ok, .ok, .fail 0]) s)
        (List.replicate 4 .silent ++ [.wrote ⟨.put, [1], [7]⟩ (.error .io)])
        (fun t => decide (replies _ 20 (.get [1]) t = some [.value (.ok (some [7]))]))) (by decide +kernel)
  simp only [Bool.and_eq_true, decide_eq_true_eq] at hp
  obtain ⟨⟨hq, hbefore⟩, hcall⟩ := hp
  obtain ⟨t, hplay, hafter⟩ := leadsTo_iff.1 hcall
  obtain ⟨M, hM, hM', -⟩ := hall s e _ .ok [.ok, .ok, .ok, .fail 0] t hrun hproc hq (.inl rfl)
    ⟨List.replicate 4 .silent, .io, hplay, fun o ho => (List.mem_replicate.1 ho).2⟩
  have h1 := hM.value hbefore
  rw [hM'.value (of_decide_eq_true hafter)] at h1
  simp at h1

/-- An append fails before its first byte, on an engine that holds another value. -/
theorem failed_write_has_no_effect_append :
    ∃ s t : Sys Ctx.concrete, s.hist.log.length = 1 ∧ FailedCall s ⟨.put, [1], [8]⟩ (.fail 0) [] t ∧ NoEffect s t := by
  obtain ⟨s, e, hrun, hproc, hp⟩ := exists_up_of_play NoFailure (Sys.init Ctx.concrete)
    (Script.openDir ⟨0, false, 0⟩ 0 0 ++ Script.put [1] [7])
    (fun s e => (Node.mk s.disk s.hist e).quiet && decide (s.hist.log.length = 1) &&
      leadsTo (play (step _) (writeCall ⟨.put, [1], [8]⟩ (.fail 0) []) s) [.wrote ⟨.put, [1], [8]⟩ (.error .io)] (fun _ => true))
    (by decide +kernel)
  simp only [Bool.and_eq_true, decide_eq_true_eq] at hp
  obtain ⟨⟨hq, hlen⟩, hcall⟩ := hp
  obtain ⟨t, hplay, -⟩ := leadsTo_iff.1 hcall
  have hfailed : FailedCall s ⟨.put, [1], [8]⟩ (.fail 0) [] t := ⟨[], .io, hplay, by simp⟩
  exact ⟨s, t, hlen, hfailed, (failed_write_has_no_effect (hrun.mono (fun _ _ ha => Act.NoFail.harmless ha)) hproc hq
    (.inr rfl) hfailed).1 (.inr rfl)⟩

end LsmEngine
