import LsmEngine.Lemmas.Runs

/-!
# What is in the logs, and what of it is fsynced

Three facts about the logs of a running engine that the runs with no failure, the runs that fsync every write and the runs with
failed appends keep, each one proved step by step: a log holds whole frames only, a log is fsynced but for the write under way,
and the writes that were in a log when it was fsynced are fsynced.
-/

namespace LsmEngine

open Overlay

variable {Γ : Ctx} {n n' : Node Γ} {gone : List WalEntry}

/-! ## The log that is created -/

/-- A generation that has only just got its log has no entry. -/
theorem entries_newSeq (hseq : SeqUp n) (hlogs : LogsOk n) {c : WalCaller} {newSeq : Nat} (hw : n.eng.wal = .rotating c newSeq) :
    n.hist.entries newSeq = [] ∧ newSeq ≠ n.eng.walSeq := by
  have hwal := hseq.wal
  rw [hw] at hwal
  obtain ⟨-, habove⟩ := hwal
  have hgen := habove n.eng.generation (hlogs.keys ▸ generation_mem_logs n.eng)
  have hact := habove n.eng.walSeq (hlogs.keys ▸ hlogs.walSeq_mem)
  have hopened := hlogs.opened _ hlogs.walSeq_mem
  rw [Hist.entries, if_neg (by omega), hlogs.unused newSeq hgen]
  exact ⟨rfl, hact.ne'⟩

/-- The log that takes over is not the one of the writer. -/
theorem swapped_ne (hlogs : LogsOk n) {c : WalCaller} {newSeq : Nat} (hw : n.eng.wal = .swapped c newSeq) :
    newSeq ≠ n.eng.walSeq := by
  obtain ⟨-, p, hp, hps⟩ := hlogs.swapped _ _ hw
  obtain ⟨init, hinit⟩ : ∃ init, n.eng.immutables = init ++ [p] := List.getLast?_eq_some_iff.1 hp
  have hs := logs_sorted hlogs
  have hL : n.eng.logs = (n.eng.flush.flushed ++ init.map PendingImm.walSeq) ++ [n.eng.walSeq, newSeq] := by
    simp [Engine.logs, Engine.generations, hinit, hps, hw, WalSection.spare, Engine.generation]
  rw [hL, List.pairwise_append] at hs
  have := (List.pairwise_cons.1 hs.2.1).1 newSeq List.mem_cons_self
  omega

/-! ## Streams -/

/-- What was appended to a log stays the same. -/
def SameStream (n n' : Node Γ) : Prop :=
  ∀ g f', n'.disk.wals.get g = some f' → ∃ f, n.disk.wals.get g = some f ∧ f.synced ≤ f'.synced ∧
    walStream n'.disk n'.eng g = walStream n.disk n.eng g

theorem SameWrites.sameStream (h : SameWrites n n') : SameStream n n' := by
  intro g f' hg
  refine ⟨f', h.wals g f' hg, Nat.le_refl _, ?_⟩
  simp only [walStream, hg, h.wals g f' hg, h.walBuf, h.walSeq]

theorem SameWrites.entries (h : SameWrites n n') : n'.hist.entries = n.hist.entries := by
  funext g
  rw [Hist.entries, Hist.entries, h.opened, h.carried, h.segs]

theorem sameStream_handover (n : Node Γ) (k : Nat) : SameStream n (n.handover k) := by
  intro g f' hg
  simp only [Node.handover, Disk.get_appendWal] at hg
  split at hg
  · rename_i heq
    subst heq
    obtain ⟨f, hf, rfl⟩ := Option.map_eq_some_iff.1 hg
    refine ⟨f, hf, Nat.le_refl _, ?_⟩
    simp [walStream, Node.handover, Disk.get_appendWal, hf]
  · rename_i hne
    refine ⟨f', hg, Nat.le_refl _, ?_⟩
    simp [walStream, Node.handover, Disk.get_appendWal, hne, Ne.symm hne]

theorem sameStream_sync (hlogs : LogsOk n) (next : WalSection) : SameStream n (n.syncActive next) := by
  intro g f' hg
  simp only [Node.syncActive, Disk.get_syncWal, Disk.get_appendWal] at hg
  split at hg
  · rename_i heq
    subst heq
    obtain ⟨f1, hf1, rfl⟩ := Option.map_eq_some_iff.1 hg
    obtain ⟨f, hf, rfl⟩ := Option.map_eq_some_iff.1 hf1
    refine ⟨f, hf, ?_, ?_⟩
    · have := hlogs.synced _ f hf
      simp only [List.length_append]
      omega
    · simp [walStream, Node.syncActive, Disk.get_syncWal, Disk.get_appendWal, hf]
  · rename_i hne
    refine ⟨f', hg, Nat.le_refl _, ?_⟩
    simp [walStream, Node.syncActive, Disk.get_syncWal, Disk.get_appendWal, hne, Ne.symm hne]

theorem sameStream_replace (hlogs : LogsOk n) {c : WalCaller} {newSeq : Nat} (hw : n.eng.wal = .swapped c newSeq) :
    SameStream n ((n.replaceWriter newSeq .ok).finish c).1 := by
  have hne := swapped_ne hlogs hw
  have hd : ((n.replaceWriter newSeq .ok).finish c).1.disk = n.disk.appendWal n.eng.walSeq n.eng.walBuf := by
    cases c <;> rfl
  have hb : ((n.replaceWriter newSeq .ok).finish c).1.eng.walBuf = [] := by cases c <;> rfl
  intro g f' hg
  rw [hd, Disk.get_appendWal] at hg
  have hst : ∀ g, walStream (n.disk.appendWal n.eng.walSeq n.eng.walBuf) ((n.replaceWriter newSeq .ok).finish c).1.eng g =
      (((n.disk.appendWal n.eng.walSeq n.eng.walBuf).wals.get g).map WalFile.bytes).getD [] := by
    intro g
    simp [walStream, hb]
  rw [hd, hst, Disk.get_appendWal]
  split at hg
  · rename_i heq
    subst heq
    obtain ⟨f, hf, rfl⟩ := Option.map_eq_some_iff.1 hg
    exact ⟨f, hf, Nat.le_refl _, by simp [walStream, hf]⟩
  · rename_i hne'
    exact ⟨f', hg, Nat.le_refl _, by simp [walStream, hne', Ne.symm hne', hg]⟩

/-- What the steps of the wal mutex after the append do to the logs: an empty one comes up, or nothing is appended. -/
theorem WalMove.streams (hlogs : LogsOk n) {io : Io} (hb : n.Benign (.walStep io)) {r : Node Γ × Out} (hm : WalMove n io r) :
    r.1.hist.entries = n.hist.entries ∧
      ((∃ c newSeq, n.eng.wal = .rotating c newSeq ∧ r.1 = { n with disk := n.disk.createWal newSeq, eng.wal := .created c newSeq }) ∨
        SameStream n r.1) := by
  have hsame : ∀ {m : Node Γ}, m.disk = n.disk → m.eng.walBuf = n.eng.walBuf → m.eng.walSeq = n.eng.walSeq → SameStream n m := by
    intro m h1 h2 h3 g f hg
    rw [h1] at hg ⊢
    exact ⟨f, hg, Nat.le_refl _, by simp only [walStream, h2, h3]⟩
  cases hm with
  | sync => exact ⟨rfl, .inr (sameStream_sync hlogs _)⟩
  | flushSync => exact ⟨rfl, .inr (sameStream_sync hlogs _)⟩
  | syncFails | flushSyncFails => exact ⟨rfl, .inr (hsame rfl rfl rfl)⟩
  | @createFails c => cases c <;> exact ⟨rfl, .inr (hsame rfl rfl rfl)⟩
  | apply | applySynced | exceeds | takeSeq | swap => exact ⟨rfl, .inr (hsame rfl rfl rfl)⟩
  | done => exact ⟨rfl, .inr (hsame rfl rfl rfl)⟩
  | @nothing c => cases c <;> exact ⟨rfl, .inr (hsame rfl rfl rfl)⟩
  | @create c newSeq hw => exact ⟨rfl, .inl ⟨c, newSeq, hw, rfl⟩⟩
  | @replace c newSeq hw =>
    rcases hb with rfl | ⟨c', s, hb⟩
    · refine ⟨by cases c <;> rfl, .inr (sameStream_replace hlogs hw)⟩
    · simp [hw] at hb

/-! ## Whole frames -/

/-- Every log holds whole frames only. -/
def Whole (n : Node Γ) : Prop :=
  ∀ g f, n.disk.wals.get g = some f → walStream n.disk n.eng g = encodeAll Γ (n.hist.entries g)

theorem Whole.intact (h : Whole n) (hlogs : LogsOk n) : n.intact := by
  obtain ⟨f, hf⟩ := hlogs.file hlogs.walSeq_mem
  rw [Node.intact, h _ f hf, scan_encodeAll Γ (hlogs.valid _ hlogs.walSeq_mem)]
  rfl

theorem Whole.same (h : Whole n) (hs : SameStream n n') (he : n'.hist.entries = n.hist.entries) : Whole n' := by
  intro g f' hg
  obtain ⟨f, hf, -, hst⟩ := hs g f' hg
  rw [hst, he]
  exact h g f hf

theorem Whole.logWrite (h : Whole n) (w : WalEntry) : Whole (n.logWrite w (w.frame Γ)) := by
  intro g f hg
  have hst := h g f hg
  by_cases heq : g = n.eng.walSeq
  · subst heq
    rw [show (n.logWrite w (w.frame Γ)).hist.entries n.eng.walSeq = n.hist.entries n.eng.walSeq ++ [w] from
      entries_append_self n.hist _ w, encodeAll_append, ← hst, encodeAll_cons, encodeAll_nil, List.append_nil]
    simp [walStream, Node.logWrite]
  · rw [show (n.logWrite w (w.frame Γ)).hist.entries g = n.hist.entries g from entries_append_of_ne n.hist heq _, ← hst]
    simp [walStream, Node.logWrite, heq]

/-- A new log is whole. -/
theorem Whole.create (h : Whole n) (hseq : SeqUp n) (hlogs : LogsOk n) {c : WalCaller} {newSeq : Nat}
    (hw : n.eng.wal = .rotating c newSeq) :
    Whole { n with disk := n.disk.createWal newSeq, eng.wal := .created c newSeq } := by
  obtain ⟨hent, hne⟩ := entries_newSeq hseq hlogs hw
  intro g f hg
  simp only [Disk.get_createWal] at hg
  split at hg
  · rename_i heq
    subst heq
    rw [hent]
    simp [walStream, Disk.get_createWal, hne]
  · rename_i hne'
    rw [← h g f hg]
    simp [walStream, Disk.get_createWal, hne']

/-- An append that fails before its first byte changes nothing. -/
theorem tearWrite_nothing (n : Node Γ) (frame : Bytes) : n.tearWrite frame 0 = n := by
  simp [Node.tearWrite, Disk.tear]

/-- Without a torn append no frame is torn. -/
theorem Whole.nodeMove (h : Whole n) (hdata : DataUp n) {a : Act} (ha : n.Harmless a) (hb : n.Benign a) {x : Sys Γ × Out}
    (hm : NodeMove n a x) (hx : x.1 = n'.toSys) : Whole n' := by
  cases hact : a.writes with
  | false =>
    have hs := hm.sameWrites hact hx
    exact h.same hs.sameStream hs.entries
  | true =>
    have hto : ∀ {m : Node Γ}, m.toSys = n'.toSys → m = n' := toSys_inj
    cases hm with
    | write hm =>
      obtain rfl := hto hx
      cases hm with
      | refused => exact h
      | logged => exact h.logWrite _
      | torn hw hv hio =>
        obtain rfl : _ = 0 := by simpa [Node.Harmless, hio] using ha
        rw [tearWrite_nothing]
        exact h
    | flush =>
      obtain rfl := hto hx
      exact h
    | wal hm =>
      obtain rfl := hto hx
      obtain ⟨he, ⟨c, newSeq, hw, heq⟩ | hs⟩ := hm.streams hdata.logs hb
      · rw [heq]
        exact h.create hdata.seq hdata.logs hw
      · exact h.same hs he
    | handover =>
      obtain rfl := hto hx
      exact h.same (sameStream_handover n _) rfl
    | _ => simp [Act.writes] at hact

/-! ## Fsynced logs -/

/-- The write that is appended and not fsynced. -/
def WalSection.unsynced : WalSection → List WalEntry
  | .logged w => [w]
  | _ => []

/-- Every log is fsynced, but for the write under way. -/
structure SyncedOk (n : Node Γ) : Prop where
  option : n.eng.options.syncPerWrite = true
  logs : ∀ g f, n.disk.wals.get g = some f → ∃ es,
    n.hist.entries g = es ++ (if g = n.eng.walSeq then n.eng.wal.unsynced else []) ∧ (encodeAll Γ es).length ≤ f.synced

/-- A step that leaves the logs and what is fsynced of them. -/
theorem SyncedOk.same (h : SyncedOk n) (hs : SameStream n n') (he : n'.hist.entries = n.hist.entries)
    (ho : n'.eng.options = n.eng.options)
    (hu : ∀ g, (if g = n'.eng.walSeq then n'.eng.wal.unsynced else []) = if g = n.eng.walSeq then n.eng.wal.unsynced else []) :
    SyncedOk n' where
  option := by rw [ho]; exact h.option
  logs := by
    intro g f' hg
    obtain ⟨f, hf, hle, -⟩ := hs g f' hg
    obtain ⟨es, hes, hlen⟩ := h.logs g f hf
    exact ⟨es, by rw [he, hu]; exact hes, hlen.trans hle⟩

/-- The log of the writer is fsynced. -/
theorem SyncedOk.sync (h : SyncedOk n) (hlogs : LogsOk n) {next : WalSection} (hn : next.unsynced = []) :
    SyncedOk (n.syncActive next) where
  option := h.option
  logs := by
    intro g f' hg
    by_cases heq : g = n.eng.walSeq
    · refine ⟨n.hist.entries g, ?_, ?_⟩
      · rw [show (n.syncActive next).eng.wal.unsynced = [] from hn]
        simp [Node.syncActive, Hist.entries]
      · subst heq
        obtain ⟨tail, -, hst⟩ := hlogs.stream _ hlogs.walSeq_mem
        obtain ⟨f, hf⟩ := hlogs.file hlogs.walSeq_mem
        simp only [Node.syncActive, Disk.get_syncWal, Disk.get_appendWal, if_true, hf, Option.map_some, Option.some.injEq] at hg
        rw [walStream_self hf] at hst
        rw [← hg]
        simp only [hst, List.length_append]
        omega
    · obtain ⟨f, hf, hle, -⟩ := sameStream_sync hlogs next g f' hg
      obtain ⟨es, hes, hlen⟩ := h.logs g f hf
      rw [if_neg heq] at hes
      refine ⟨es, ?_, hlen.trans hle⟩
      rw [if_neg (show g ≠ (n.syncActive next).eng.walSeq from heq)]
      exact hes

/-- An append leaves all but the new write fsynced. -/
theorem SyncedOk.logWrite (h : SyncedOk n) (hw : n.eng.wal = .free) (w : WalEntry) :
    SyncedOk (n.logWrite w (w.frame Γ)) where
  option := h.option
  logs := by
    intro g f hg
    obtain ⟨es, hes, hlen⟩ := h.logs g f hg
    refine ⟨es, ?_, hlen⟩
    by_cases heq : g = n.eng.walSeq
    · subst heq
      rw [show (n.logWrite w (w.frame Γ)).hist.entries n.eng.walSeq = n.hist.entries n.eng.walSeq ++ [w] from
        entries_append_self n.hist _ w, hes, hw]
      simp [Node.logWrite, WalSection.unsynced]
    · rw [show (n.logWrite w (w.frame Γ)).hist.entries g = n.hist.entries g from entries_append_of_ne n.hist heq _, hes]
      simp [Node.logWrite, heq]

/-- A new log has nothing to fsync. -/
theorem SyncedOk.create (h : SyncedOk n) (hseq : SeqUp n) (hlogs : LogsOk n) {c : WalCaller} {newSeq : Nat}
    (hw : n.eng.wal = .rotating c newSeq) :
    SyncedOk { n with disk := n.disk.createWal newSeq, eng.wal := .created c newSeq } where
  option := h.option
  logs := by
    obtain ⟨hent, hne⟩ := entries_newSeq hseq hlogs hw
    intro g f hg
    simp only [Disk.get_createWal] at hg
    split at hg
    · rename_i heq
      subst heq
      exact ⟨[], by simp [hent, WalSection.unsynced], Nat.zero_le _⟩
    · obtain ⟨es, hes, hlen⟩ := h.logs g f hg
      refine ⟨es, ?_, hlen⟩
      rw [hes, hw]
      simp [WalSection.unsynced]

/-- Under the wal mutex every write is fsynced before it is applied. -/
theorem SyncedOk.walMove (h : SyncedOk n) (hseq : SeqUp n) (hlogs : LogsOk n) {r : Node Γ × Out} (hm : WalMove n .ok r) :
    SyncedOk r.1 := by
  obtain ⟨he, ⟨c, newSeq, hw, heq⟩ | hs⟩ := hm.streams hlogs (.inl rfl)
  · rw [heq]
    exact h.create hseq hlogs hw
  have hnone : ∀ {m : Node Γ} {g : Nat}, m.eng.wal.unsynced = [] →
      (if g = m.eng.walSeq then m.eng.wal.unsynced else []) = [] := by
    intro m g hu
    rw [hu, ite_self]
  have hkeep : r.1.eng.options = n.eng.options → n.eng.wal.unsynced = [] → r.1.eng.wal.unsynced = [] → SyncedOk r.1 :=
    fun ho h1 h2 => h.same hs he ho (fun g => by rw [hnone h1, hnone h2])
  cases hm with
  | sync => exact h.sync hlogs rfl
  | flushSync => exact h.sync hlogs rfl
  | syncFails _ hio | flushSyncFails _ hio | createFails _ hio => simp at hio
  | apply hw ho => simp [h.option] at ho
  | applySynced hw | exceeds hw | takeSeq hw | swap hw => exact hkeep rfl (by rw [hw]; rfl) rfl
  | done hw => exact hkeep rfl (by rw [hw]; rfl) rfl
  | @nothing c hw => cases c <;> exact hkeep rfl (by rw [hw]; rfl) rfl
  | create hw => exact hkeep rfl (by rw [hw]; rfl) rfl
  | @replace c newSeq hw => cases c <;> exact hkeep rfl (by rw [hw]; rfl) rfl

theorem SyncedOk.nodeMove (h : SyncedOk n) (hdata : DataUp n) {a : Act} (ha : a.NoFail) {x : Sys Γ × Out}
    (hm : NodeMove n a x) (hx : x.1 = n'.toSys) : SyncedOk n' := by
  cases hact : a.writes with
  | false =>
    have hs := hm.sameWrites hact hx
    exact h.same hs.sameStream hs.entries hs.options (fun g => by rw [hs.walSeq, hs.wal])
  | true =>
    have hto : ∀ {m : Node Γ}, m.toSys = n'.toSys → m = n' := toSys_inj
    cases hm with
    | write hm =>
      obtain rfl := hto hx
      cases hm with
      | refused => exact h
      | logged hw => exact h.logWrite hw _
      | torn hw hv hio =>
        rw [hio] at ha
        simp [Act.NoFail] at ha
    | flush hw =>
      obtain rfl := hto hx
      refine h.same (fun g f hg => ⟨f, hg, Nat.le_refl _, rfl⟩) rfl rfl (fun g => ?_)
      rw [hw]
      rfl
    | wal hm =>
      obtain rfl := hto hx
      obtain rfl : _ = Io.ok := ha
      exact h.walMove hdata.seq hdata.logs hm
    | handover =>
      obtain rfl := hto hx
      exact h.same (sameStream_handover n _) rfl rfl (fun _ => rfl)
    | _ => simp [Act.writes] at hact

/-! ## Secured writes -/

/-- Every write that was in its log when the log was fsynced is in the fsynced part of the log, as long as there is one. -/
structure SecuredOk (n : Node Γ) (gone : List WalEntry) (c : Nat → Nat) : Prop where
  len : ∀ g, c g ≤ (n.hist.segs g).length
  synced : ∀ g f, n.disk.wals.get g = some f →
    (encodeAll Γ ((if g = n.hist.opened then n.hist.carried else []) ++ (n.hist.segs g).take (c g))).length ≤ f.synced
  held : ∀ i, n.hist.secured i = true → i < n.hist.log.length ∧ (i < gone.length ∨ Held n gone c i)

/-- A write that is kept stays kept while more is kept. -/
theorem Held.mono {c c' : Nat → Nat} {i : Nat} (h : Held n gone c i) (hc : ∀ g, c g ≤ c' g) : Held n gone c' i := by
  obtain ⟨pre, g, post, o, hL, hi, ho, hoc⟩ := h
  exact ⟨pre, g, post, o, hL, hi, ho, hoc.trans_le (hc g)⟩

/-- Whether a write is kept depends on the logs and what is in them. -/
theorem Held.congr {c : Nat → Nat} {i : Nat} (h : Held n gone c i) (hl : n'.eng.logs = n.eng.logs)
    (hs : n'.hist.segs = n.hist.segs) : Held n' gone c i := by
  obtain ⟨pre, g, post, o, hL, hi, ho, hoc⟩ := h
  exact ⟨pre, g, post, o, by rw [hl]; exact hL, by rw [hs]; exact hi, by rw [hs]; exact ho, hoc⟩

/-- The logs stay, and nothing new is secured. -/
theorem SecuredOk.same {c : Nat → Nat} (h : SecuredOk n gone c)
    (hs : ∀ g f', n'.disk.wals.get g = some f' → ∃ f, n.disk.wals.get g = some f ∧ f.synced ≤ f'.synced) (hl : n'.eng.logs = n.eng.logs)
    (hsegs : n'.hist.segs = n.hist.segs) (ho : n'.hist.opened = n.hist.opened) (hc : n'.hist.carried = n.hist.carried)
    (hlog : n'.hist.log = n.hist.log) (hsec : n'.hist.secured = n.hist.secured) : SecuredOk n' gone c where
  len := by rw [hsegs]; exact h.len
  synced := by
    intro g f' hg
    obtain ⟨f, hf, hle⟩ := hs g f' hg
    rw [ho, hc, hsegs]
    exact (h.synced g f hf).trans hle
  held := by
    rw [hsec, hlog]
    intro i hi
    obtain ⟨h1, h2⟩ := h.held i hi
    exact ⟨h1, h2.imp id (fun hh => hh.congr hl hsegs)⟩

/-- The oldest log is removed. -/
theorem SecuredOk.remove {c : Nat → Nat} (h : SecuredOk n gone c) (hs : SameWrites n n') {w : Nat}
    (hl : n.eng.logs = w :: n'.eng.logs) : SecuredOk n' (gone ++ n.hist.segs w) c where
  len := by rw [hs.segs]; exact h.len
  synced := by
    intro g f hg
    rw [hs.opened, hs.carried, hs.segs]
    exact h.synced g f (hs.wals g f hg)
  held := by
    rw [hs.secured, hs.log]
    intro i hi
    obtain ⟨h1, h2⟩ := h.held i hi
    refine ⟨h1, ?_⟩
    rw [List.length_append]
    rcases h2 with h2 | ⟨pre, g, post, o, hL, rfl, ho, hoc⟩
    · exact .inl (by omega)
    · rw [hl] at hL
      cases pre with
      | nil =>
        obtain ⟨rfl, -⟩ := List.cons.inj hL
        exact .inl (by simp; omega)
      | cons p pre =>
        obtain ⟨rfl, hL'⟩ := List.cons.inj hL
        refine .inr ⟨pre, g, post, o, hL', ?_, by rw [hs.segs]; exact ho, hoc⟩
        rw [hs.segs, List.length_append, List.flatMap_cons, List.length_append]
        omega

/-- A new write is not secured yet. -/
theorem SecuredOk.logWrite {c : Nat → Nat} (h : SecuredOk n gone c) (hlogs : LogsOk n) (hw : n.eng.wal = .free) (w : WalEntry) :
    SecuredOk (n.logWrite w (w.frame Γ)) gone c := by
  have hgen : n.eng.generation = n.eng.walSeq := generation_of_not_swapped (by rw [hw]; rfl)
  have hl' : (n.logWrite w (w.frame Γ)).eng.logs = n.eng.logs := by
    simp only [Engine.logs, Engine.generations, hgen, hw]
    rfl
  have hL : n.eng.logs = (n.eng.flush.flushed ++ n.eng.immutables.map PendingImm.walSeq) ++ [n.eng.walSeq] := by
    simp [Engine.logs, Engine.generations, hgen, hw, WalSection.spare]
  have hseg : ∀ g, (n.logWrite w (w.frame Γ)).hist.segs g = if g = n.eng.walSeq then n.hist.segs g ++ [w] else n.hist.segs g := by
    intro g
    simp only [Node.logWrite, Function.update_apply]
    split
    · rename_i heq
      rw [heq]
    · rfl
  exact {
    len := by
      intro g
      have := h.len g
      rw [hseg]
      split
      · rw [List.length_append]
        omega
      · exact this
    synced := by
      intro g f hg
      have htake : ((n.logWrite w (w.frame Γ)).hist.segs g).take (c g) = (n.hist.segs g).take (c g) := by
        rw [hseg]
        split
        · rw [List.take_append_of_le_length (h.len g)]
        · rfl
      rw [htake]
      exact h.synced g f hg
    held := by
      intro i hi
      obtain ⟨h1, h2⟩ := h.held i hi
      refine ⟨by simp [Node.logWrite]; omega, h2.imp id ?_⟩
      rintro ⟨pre, g, post, o, hLg, rfl, ho, hoc⟩
      -- the log of the writer is the last, so it is not before the one that holds the write
      have hpre : ∀ x ∈ pre, x ≠ n.eng.walSeq := by
        intro x hx heq
        have hs := logs_sorted hlogs
        rw [hLg, List.pairwise_append] at hs
        have hlt := hs.2.2 x hx g List.mem_cons_self
        have hmem : g ∈ n.eng.logs := by rw [hLg]; simp
        rw [hL, List.mem_append, List.mem_singleton] at hmem
        have hs' := logs_sorted hlogs
        rw [hL, List.pairwise_append] at hs'
        rcases hmem with hmem | hmem
        · have := hs'.2.2 g hmem _ (List.mem_singleton_self _)
          omega
        · omega
      have hpresegs : pre.flatMap (n.logWrite w (w.frame Γ)).hist.segs = pre.flatMap n.hist.segs :=
        List.flatMap_congr (fun x hx => by rw [hseg, if_neg (hpre x hx)])
      refine ⟨pre, g, post, o, by rw [hl']; exact hLg, by rw [hpresegs], ?_, hoc⟩
      · rw [hseg]
        split
        · rw [List.length_append]
          omega
        · exact ho }

/-- A new log has nothing to secure. -/
theorem SecuredOk.create {c : Nat → Nat} (h : SecuredOk n gone c) (hseq : SeqUp n) (hlogs : LogsOk n) {k : WalCaller}
    {newSeq : Nat} (hw : n.eng.wal = .rotating k newSeq) :
    SecuredOk { n with disk := n.disk.createWal newSeq, eng.wal := .created k newSeq } gone c := by
  obtain ⟨hent, -⟩ := entries_newSeq hseq hlogs hw
  simp only [Hist.entries, List.append_eq_nil_iff] at hent
  have hgen : n.eng.generation = n.eng.walSeq := generation_of_not_swapped (by rw [hw]; rfl)
  have hl : Engine.logs { n.eng with wal := .created k newSeq } = n.eng.logs ++ [newSeq] := by
    have hg' : Engine.generation { n.eng with wal := .created k newSeq } = n.eng.generation := by rw [hgen]; rfl
    simp [Engine.logs, Engine.generations, hg', hw, WalSection.spare]
  exact {
    len := h.len
    synced := by
      intro g f hg
      simp only [Disk.get_createWal] at hg
      split at hg
      · rename_i heq
        subst heq
        rw [hent.1, hent.2, List.take_nil]
        exact Nat.zero_le _
      · exact h.synced g f hg
    held := by
      intro i hi
      obtain ⟨h1, h2⟩ := h.held i hi
      refine ⟨h1, h2.imp id ?_⟩
      rintro ⟨pre, g, post, o, hLg, rfl, ho, hoc⟩
      exact ⟨pre, g, post ++ [newSeq], o, by dsimp only; rw [hl, hLg]; simp, rfl, ho, hoc⟩ }

/-- A sync of the writer's log secures every write of its generation. -/
theorem SecuredOk.sync {c : Nat → Nat} (h : SecuredOk n gone c) (hmaps : MapsOk n gone) (hlogs : LogsOk n) (hcounts : CountsOk n)
    (hlock : n.eng.wal.holdsStateLock = false) (hspare : n.eng.wal.spare = []) {next : WalSection}
    (hlock' : next.holdsStateLock = false) (hspare' : next.spare = []) :
    SecuredOk (n.syncActive next) gone (Function.update c n.eng.walSeq (n.hist.segs n.eng.walSeq).length) := by
  have hgen : n.eng.generation = n.eng.walSeq := generation_of_not_swapped hlock
  have hl' : (n.syncActive next).eng.logs = n.eng.logs := logs_setWal (v := next) hlock hlock' (by rw [hspare, hspare'])
  have hL : n.eng.logs = (n.eng.flush.flushed ++ n.eng.immutables.map PendingImm.walSeq) ++ [n.eng.walSeq] := by
    simp [Engine.logs, Engine.generations, hgen, hspare]
  have hle : ∀ g, c g ≤ Function.update c n.eng.walSeq (n.hist.segs n.eng.walSeq).length g := by
    intro g
    rw [Function.update_apply]
    split
    · rename_i heq
      rw [heq]
      exact h.len _
    · exact Nat.le_refl _
  exact {
    len := by
      intro g
      rw [Function.update_apply]
      split
      · rename_i heq
        rw [heq]
        exact Nat.le_refl _
      · exact h.len g
    synced := by
      intro g f' hg
      by_cases heq : g = n.eng.walSeq
      · subst heq
        obtain ⟨tail, -, hst⟩ := hlogs.stream _ hlogs.walSeq_mem
        obtain ⟨f, hf⟩ := hlogs.file hlogs.walSeq_mem
        simp only [Node.syncActive, Disk.get_syncWal, Disk.get_appendWal, if_true, hf, Option.map_some, Option.some.injEq] at hg
        rw [walStream_self hf] at hst
        rw [← hg, Function.update_self, show (n.syncActive next).hist.segs = n.hist.segs from rfl, List.take_length]
        simp only [hst, List.length_append]
        exact Nat.le_add_right _ _
      · obtain ⟨f, hf, hle', -⟩ := sameStream_sync hlogs next g f' hg
        rw [Function.update_of_ne heq]
        exact (h.synced g f hf).trans hle'
    held := by
      intro i hi
      simp only [Node.syncActive, Bool.or_eq_true, decide_eq_true_eq] at hi
      rcases hi with hi | ⟨hi1, hi2⟩
      · obtain ⟨h1, h2⟩ := h.held i hi
        exact ⟨h1, h2.imp id (fun hh => (hh.mono hle).congr hl' rfl)⟩
      · refine ⟨hi2, .inr ⟨n.eng.flush.flushed ++ n.eng.immutables.map PendingImm.walSeq, n.eng.walSeq, [], i - n.hist.rotated,
          by rw [hl']; exact hL, ?_, ?_, ?_⟩⟩
        · have h1 := hcounts.rotated
          have h2 := congrArg List.length hmaps.log
          rw [hL, List.flatMap_append, List.flatMap_singleton, List.length_append, List.length_append] at h2
          simp only [Node.syncActive]
          omega
        · have h1 := hcounts.rotated
          simp only [Node.syncActive]
          omega
        · have h1 := hcounts.rotated
          rw [Function.update_self]
          omega }

/-- Every write that was in its log when the log was fsynced is still there, or its log is gone. -/
def Secured (n : Node Γ) : Prop := ∃ gone c, MapsOk n gone ∧ SecuredOk n gone c

/-- No log loses what was fsynced of it. -/
theorem SameStream.synced (h : SameStream n n') :
    ∀ g f', n'.disk.wals.get g = some f' → ∃ f, n.disk.wals.get g = some f ∧ f.synced ≤ f'.synced := by
  intro g f' hg
  obtain ⟨f, hf, hle, -⟩ := h g f' hg
  exact ⟨f, hf, hle⟩

/-- The holder of `flush_lock` and the readers keep the list of logs, or remove the oldest. -/
theorem NodeMove.logs (hdata : DataUp n) (hdata' : DataUp n') {a : Act} {x : Sys Γ × Out} (hm : NodeMove n a x)
    (ha : a.writes = false) (hx : x.1 = n'.toSys) : n'.eng.logs = n.eng.logs ∨ ∃ w, n.eng.logs = w :: n'.eng.logs := by
  have hto : ∀ {m : Node Γ}, m.toSys = n'.toSys → m = n' := toSys_inj
  have hkeep : n'.disk.wals.keys = n.disk.wals.keys → n'.eng.logs = n.eng.logs := by
    intro hk
    rw [← hdata.logs.keys, ← hdata'.logs.keys, hk]
  cases hm with
  | write | flush | wal | handover => simp [Act.writes] at ha
  | drop => simp [Node.drop, Node.toSys] at hx
  | flushEnter | workerEnter | compactNothing | compactEnter | get =>
    obtain rfl := hto hx
    exact .inl (hkeep rfl)
  | getStep hg =>
    obtain rfl := hto hx
    refine .inl (hkeep ?_)
    cases hg <;> rfl
  | flushStep hf =>
    obtain rfl := hto hx
    cases hf with
    | @unlinkWal c w todo hf hio =>
      refine .inr ⟨w, ?_⟩
      simp only [Engine.logs, hf]
      rfl
    | nothing | unbuilt | buildFails | flushDone | manifestFailsFlush =>
      refine .inl (hkeep ?_)
      dsimp only [Node.flushEnd]
      split <;> rfl
    | buildStage | buildRename | mergeStage | mergeRename | manifestStage | manifestFlush | manifestCompact =>
      exact .inl (hkeep (by simp))
    | _ => exact .inl (hkeep rfl)

/-- A benign action keeps what was secured. -/
theorem Secured.nodeMove (h : Secured n) (hdata : DataUp n) {a : Act} (hb : n.Benign a) {x : Sys Γ × Out}
    (hm : NodeMove n a x) (hx : x.1 = n'.toSys) (hdata' : DataUp n') : Secured n' := by
  obtain ⟨gone, c, hmaps, hsec⟩ := h
  cases hact : a.writes with
  | false =>
    have hs := hm.sameWrites hact hx
    obtain ⟨gone', hmaps'⟩ := hdata'.maps
    have hlog : gone' ++ n'.eng.logs.flatMap n.hist.segs = gone ++ n.eng.logs.flatMap n.hist.segs := by
      rw [← hmaps.log, ← hs.log, hmaps'.log, hs.segs]
    rcases hm.logs hdata hdata' hact hx with hl | ⟨w, hl⟩
    · rw [hl] at hlog
      obtain rfl := List.append_cancel_right hlog
      exact ⟨_, c, hmaps', hsec.same hs.sameStream.synced hl hs.segs hs.opened hs.carried hs.log hs.secured⟩
    · rw [hl, List.flatMap_cons, ← List.append_assoc] at hlog
      obtain rfl := List.append_cancel_right hlog
      exact ⟨_, c, hmaps', hsec.remove hs hl⟩
  | true =>
    have hto : ∀ {m : Node Γ}, m.toSys = n'.toSys → m = n' := toSys_inj
    have hkeep : n'.disk.wals.keys = n.disk.wals.keys → n'.eng.logs = n.eng.logs := by
      intro hk
      rw [← hdata.logs.keys, ← hdata'.logs.keys, hk]
    cases hm with
    | write hm =>
      obtain rfl := hto hx
      refine ⟨gone, c, hmaps.writeMove hdata.logs hm, ?_⟩
      cases hm with
      | refused => exact hsec
      | logged hw => exact hsec.logWrite hdata.logs hw _
      | torn hw hv hio hk =>
        refine hsec.same (fun g f' hg => ?_) (hkeep (tear_keys _ _ _ _)) rfl rfl rfl rfl rfl
        simp only [Node.tearWrite, Disk.tear] at hg
        split at hg
        · exact ⟨f', hg, Nat.le_refl _⟩
        · rw [Disk.get_appendWal] at hg
          split at hg
          · obtain ⟨f, hf, rfl⟩ := Option.map_eq_some_iff.1 hg
            exact ⟨f, hf, Nat.le_refl _⟩
          · exact ⟨f', hg, Nat.le_refl _⟩
    | flush hw =>
      obtain rfl := hto hx
      obtain ⟨gone', hmaps'⟩ := hdata'.maps
      have hl := hkeep rfl
      have hlog := hmaps.log.symm.trans hmaps'.log
      rw [hl] at hlog
      obtain rfl := List.append_cancel_right hlog
      exact ⟨_, c, hmaps', hsec.same (fun g f hg => ⟨f, hg, Nat.le_refl _⟩) hl rfl rfl rfl rfl rfl⟩
    | wal hm =>
      obtain rfl := hto hx
      have hmaps' := hmaps.walMove hdata.seq hdata.logs hm
      have hst := hm.streams hdata.logs hb
      cases hm with
      | sync hw =>
        exact ⟨gone, _, hmaps', hsec.sync hmaps hdata.logs hdata.counts (by rw [hw]; rfl) (by rw [hw]; rfl) rfl rfl⟩
      | flushSync hw =>
        exact ⟨gone, _, hmaps', hsec.sync hmaps hdata.logs hdata.counts (by rw [hw]; rfl) (by rw [hw]; rfl) rfl rfl⟩
      | create hw => exact ⟨gone, c, hmaps', hsec.create hdata.seq hdata.logs hw⟩
      | apply | applySynced | exceeds | takeSeq | swap | syncFails | flushSyncFails | done =>
        exact ⟨gone, c, hmaps', hsec.same (fun g f hg => ⟨f, hg, Nat.le_refl _⟩) (hkeep rfl) rfl rfl rfl rfl rfl⟩
      | @nothing k =>
        cases k <;>
          exact ⟨gone, c, hmaps', hsec.same (fun g f hg => ⟨f, hg, Nat.le_refl _⟩) (hkeep rfl) rfl rfl rfl rfl rfl⟩
      | @createFails k =>
        cases k <;>
          exact ⟨gone, c, hmaps', hsec.same (fun g f hg => ⟨f, hg, Nat.le_refl _⟩) (hkeep rfl) rfl rfl rfl rfl rfl⟩
      | @replace k newSeq hw =>
        obtain ⟨-, ⟨c', s, hw', -⟩ | hs⟩ := hst
        · simp [hw] at hw'
        · have hk : ∀ io, ((n.replaceWriter newSeq io).finish k).1.disk.wals.keys = n.disk.wals.keys := by
            intro io
            cases k <;> simp only [Node.finish, Node.replaceWriter] <;> split <;> simp
          refine ⟨gone, c, hmaps', hsec.same hs.synced (hkeep (hk _)) ?_ ?_ ?_ ?_ ?_⟩ <;> cases k <;> rfl
    | handover =>
      obtain rfl := hto hx
      obtain ⟨gone', hmaps'⟩ := hdata'.maps
      have hl := hkeep (by simp [Node.handover])
      have hlog := hmaps.log.symm.trans hmaps'.log
      rw [hl] at hlog
      obtain rfl := List.append_cancel_right hlog
      exact ⟨_, c, hmaps', hsec.same (sameStream_handover n _).synced hl rfl rfl rfl rfl rfl⟩
    | _ => simp [Act.writes] at hact

end LsmEngine
