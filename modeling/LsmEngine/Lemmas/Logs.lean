import LsmEngine.Lemmas.Recover

/-!
# Logs and MemTables agree

The steps keep `LogsOk` and `CountsOk`: a write goes to the log and the MemTable of one generation, a rotation moves both at
once, and what the writer hands over to the operating system leaves the stream of bytes as it was.
-/

namespace LsmEngine

open Overlay

variable {Γ : Ctx} {n n' : Node Γ}

/-! ## Streams -/

/-- A log that is not active is its file. -/
theorem walStream_of_ne {d : Disk} {e : Engine Γ} {g : Nat} {f : WalFile} (hf : d.wals.get g = some f) (hg : g ≠ e.walSeq) :
    walStream d e g = f.bytes := by
  simp [walStream, hf, hg]

/-- The active log is its file and the buffer of its writer. -/
theorem walStream_self {d : Disk} {e : Engine Γ} {f : WalFile} (hf : d.wals.get e.walSeq = some f) :
    walStream d e e.walSeq = f.bytes ++ e.walBuf := by
  simp [walStream, hf]

/-- Every generation of an engine has a log. -/
theorem mem_logs_of_generation (e : Engine Γ) {g : Nat} (h : g ∈ e.generations) : g ∈ e.logs := by
  simp [Engine.logs, h]

theorem generation_mem_logs (e : Engine Γ) : e.generation ∈ e.logs :=
  mem_logs_of_generation e (by simp [Engine.generations])

/-- The log the writer writes is one of the logs. -/
theorem LogsOk.walSeq_mem (h : LogsOk n) : n.eng.walSeq ∈ n.eng.logs := by
  cases hl : n.eng.wal.holdsStateLock with
  | false =>
    rw [← generation_of_not_swapped hl]
    exact generation_mem_logs n.eng
  | true =>
    cases hw : n.eng.wal <;> simp [hw, WalSection.holdsStateLock] at hl
    obtain ⟨-, p, hp, hps⟩ := h.swapped _ _ hw
    apply mem_logs_of_generation
    rw [Engine.generations, ← hps]
    exact List.mem_append_left _ (List.mem_map.2 ⟨p, List.mem_of_mem_getLast? hp, rfl⟩)

/-- Every log of an engine has a file. -/
theorem LogsOk.file (h : LogsOk n) {g : Nat} (hg : g ∈ n.eng.logs) : ∃ f, n.disk.wals.get g = some f :=
  n.disk.wals.mem_keys_iff.1 (h.keys ▸ hg)

/-- The files change and the streams do not. -/
theorem LogsOk.setWriter (h : LogsOk n) {d : Disk} {b : Bytes} (hk : d.wals.keys = n.disk.wals.keys)
    (hs : ∀ g ∈ n.eng.logs, walStream d { n.eng with walBuf := b } g = walStream n.disk n.eng g)
    (hf : ∀ g f', d.wals.get g = some f' → f'.synced ≤ f'.bytes.length ∧ ∃ f, n.disk.wals.get g = some f ∧ f.synced ≤ f'.synced) :
    LogsOk { n with disk := d, eng.walBuf := b } :=
  { h with
    keys := hk.trans h.keys
    stream := by
      intro g hg
      obtain ⟨tail, ht, heq⟩ := h.stream g hg
      exact ⟨tail, ht, (hs g hg).trans heq⟩
    synced := fun g f' hg => (hf g f' hg).1
    carried := by
      intro f' hg
      obtain ⟨f, hgf, hle⟩ := (hf _ f' hg).2
      exact (h.carried f hgf).trans hle }

/-- Bytes handed over leave every stream as it was. -/
theorem LogsOk.appendBuf (h : LogsOk n) (k : Nat) :
    LogsOk { n with disk := n.disk.appendWal n.eng.walSeq (n.eng.walBuf.take k), eng.walBuf := n.eng.walBuf.drop k } := by
  obtain ⟨f, hf⟩ := h.file h.walSeq_mem
  refine h.setWriter (by simp) ?_ ?_
  · intro g hg
    by_cases heq : g = n.eng.walSeq
    · subst heq
      rw [walStream_self hf]
      simp [walStream, Disk.get_appendWal, hf]
    · simp [walStream, Disk.get_appendWal, heq, Ne.symm heq]
  · intro g f' hg
    rw [Disk.get_appendWal] at hg
    split at hg
    · obtain ⟨f0, hf0, rfl⟩ := Option.map_eq_some_iff.1 hg
      have := h.synced g f0 hf0
      refine ⟨?_, f0, hf0, Nat.le_refl _⟩
      simp only [List.length_append]
      omega
    · exact ⟨h.synced g f' hg, f', hg, Nat.le_refl _⟩

/-- The whole buffer handed over. -/
theorem LogsOk.flushBuf (h : LogsOk n) :
    LogsOk { n with disk := n.disk.appendWal n.eng.walSeq n.eng.walBuf, eng.walBuf := [] } := by
  have := h.appendBuf n.eng.walBuf.length
  rwa [List.take_length, List.drop_length] at this

/-- An fsync keeps the logs in order. -/
theorem LogsOk.syncFile (h : LogsOk n) (g : Nat) : LogsOk { n with disk := n.disk.syncWal g } := by
  refine h.setWriter (b := n.eng.walBuf) (by simp) ?_ ?_
  · intro w hw
    unfold walStream
    rw [Disk.get_syncWal]
    split
    · cases n.disk.wals.get w <;> rfl
    · rfl
  · intro w f' hw
    rw [Disk.get_syncWal] at hw
    split at hw
    · obtain ⟨f, hf, rfl⟩ := Option.map_eq_some_iff.1 hw
      exact ⟨Nat.le_refl _, f, hf, h.synced w f hf⟩
    · exact ⟨h.synced w f' hw, f', hw, Nat.le_refl _⟩

/-- The holder of the wal mutex goes on, with the same write under way and the same logs. -/
theorem LogsOk.setWal (h : LogsOk n) (hl : n.eng.wal.holdsStateLock = false) {v : WalSection}
    (hl' : v.holdsStateLock = false) (hi : v.inflight = n.eng.wal.inflight) (hs : v.spare = n.eng.wal.spare)
    (hr : v.rotates = true → (n.eng.mems n.eng.active).isEmpty = false) : LogsOk { n with eng.wal := v } := by
  have hg : Engine.generation { n.eng with wal := v } = n.eng.generation := by
    rw [generation_of_not_swapped hl, generation_of_not_swapped (e := { n.eng with wal := v }) hl']
  have hlogs : Engine.logs { n.eng with wal := v } = n.eng.logs := by
    simp only [Engine.logs, Engine.generations, hg, hs]
  exact {
    keys := by rw [hlogs]; exact h.keys
    valid := by rw [hlogs]; exact h.valid
    stream := by rw [hlogs]; exact h.stream
    synced := h.synced
    carried := h.carried
    unused := by rw [hg]; exact h.unused
    opened := by rw [hlogs]; exact h.opened
    frozen := h.frozen
    active := by rw [hg, hi]; exact h.active
    full := hr
    swapped := by
      rintro c s rfl
      simp [WalSection.holdsStateLock] at hl' }

/-- The history moves on where no log and no MemTable does. -/
theorem LogsOk.setHist (h : LogsOk n) {k : Hist} (ho : k.opened = n.hist.opened) (hc : k.carried = n.hist.carried)
    (hs : k.segs = n.hist.segs) : LogsOk { n with hist := k } := by
  have he : k.entries = n.hist.entries := by
    funext g
    rw [Hist.entries, Hist.entries, ho, hc, hs]
  exact {
    keys := h.keys
    valid := by rw [he]; exact h.valid
    stream := by rw [he]; exact h.stream
    synced := h.synced
    carried := by rw [ho, hc]; exact h.carried
    unused := by rw [hs]; exact h.unused
    opened := by rw [ho]; exact h.opened
    frozen := by rw [he]; exact h.frozen
    active := by rw [he]; exact h.active
    full := h.full
    swapped := by rw [he]; exact h.swapped }

/-- The holder of `flush_lock` goes on, with the same generations flushed. -/
theorem LogsOk.setFlush (h : LogsOk n) {f : FlushSection} (hf : f.flushed = n.eng.flush.flushed) :
    LogsOk { n with eng.flush := f } := by
  have hlogs : Engine.logs { n.eng with flush := f } = n.eng.logs := by
    simp only [Engine.logs, hf]
    rfl
  exact { h with
    keys := by rw [hlogs]; exact h.keys
    valid := by rw [hlogs]; exact h.valid
    stream := by rw [hlogs]; exact h.stream
    opened := by rw [hlogs]; exact h.opened }

/-- The directory changes and the logs do not. -/
theorem LogsOk.setDisk (h : LogsOk n) {d : Disk} (hw : d.wals = n.disk.wals) : LogsOk { n with disk := d } := by
  have hs : ∀ g, walStream d n.eng g = walStream n.disk n.eng g := fun g => by rw [walStream, walStream, hw]
  exact { h with
    keys := by rw [hw]; exact h.keys
    stream := fun g hg => by rw [hs]; exact h.stream g hg
    synced := by rw [hw]; exact h.synced
    carried := by rw [hw]; exact h.carried }

theorem LogsOk.setDiskFlush (h : LogsOk n) {d : Disk} {f : FlushSection} (hw : d.wals = n.disk.wals)
    (hf : f.flushed = n.eng.flush.flushed) : LogsOk { n with disk := d, eng.flush := f } := (h.setDisk hw).setFlush hf

/-! ## A write -/

/-- A log that is intact has no tail of a torn frame. -/
theorem LogsOk.intact_tail (h : LogsOk n) (hi : n.intact) :
    walStream n.disk n.eng n.eng.walSeq = encodeAll Γ (n.hist.entries n.eng.walSeq) := by
  obtain ⟨tail, ht, heq⟩ := h.stream _ h.walSeq_mem
  have hscan := scan_encodeAll_append Γ (h.valid _ h.walSeq_mem) ht
  rw [Node.intact, heq, hscan] at hi
  rw [heq]
  exact hi.symm

/-- A write that is logged is the last entry of its generation. -/
theorem entries_append_self (hh : Hist) (g : Nat) (w : WalEntry) :
    Hist.entries { hh with segs := Function.update hh.segs g (hh.segs g ++ [w]) } g = hh.entries g ++ [w] := by
  simp [Hist.entries]

/-- Another generation keeps its entries. -/
theorem entries_append_of_ne (hh : Hist) {g g' : Nat} (hne : g' ≠ g) (ws : List WalEntry) :
    Hist.entries { hh with segs := Function.update hh.segs g ws } g' = hh.entries g' := by
  simp [Hist.entries, Function.update_of_ne hne]

/-- An accepted write is appended to the active log. -/
theorem LogsOk.logWrite (h : LogsOk n) (hseq : SeqUp n) (hw : n.eng.wal = .free) {w : WalEntry} (hv : w.Valid) (hi : n.intact) :
    LogsOk (n.logWrite w (w.frame Γ)) := by
  have hg : n.eng.generation = n.eng.walSeq := generation_of_not_swapped (by rw [hw]; rfl)
  have hg' : (n.logWrite w (w.frame Γ)).eng.generation = n.eng.walSeq := rfl
  have hlogs : (n.logWrite w (w.frame Γ)).eng.logs = n.eng.logs := by
    simp only [Engine.logs, Engine.generations, hg, hg', hw]
    rfl
  have hself : (n.logWrite w (w.frame Γ)).hist.entries n.eng.walSeq = n.hist.entries n.eng.walSeq ++ [w] :=
    entries_append_self n.hist n.eng.walSeq w
  have hother : ∀ g, g ≠ n.eng.walSeq → (n.logWrite w (w.frame Γ)).hist.entries g = n.hist.entries g :=
    fun g hne => entries_append_of_ne n.hist hne _
  have hframe := h.intact_tail hi
  have hmem : n.eng.walSeq ∈ n.eng.logs := h.walSeq_mem
  obtain ⟨f, hf⟩ := h.file hmem
  exact {
    keys := by rw [hlogs]; exact h.keys
    valid := by
      rw [hlogs]
      intro g hgm x hx
      by_cases heq : g = n.eng.walSeq
      · rw [heq, hself, List.mem_append, List.mem_singleton] at hx
        rcases hx with hx | rfl
        · exact h.valid _ hmem x hx
        · exact hv
      · rw [hother g heq] at hx
        exact h.valid g hgm x hx
    stream := by
      rw [hlogs]
      intro g hgm
      by_cases heq : g = n.eng.walSeq
      · subst heq
        refine ⟨[], torn_nil Γ, ?_⟩
        rw [hself, List.append_nil, encodeAll_append, encodeAll_cons, encodeAll_nil, List.append_nil, ← hframe,
          walStream_self hf]
        simp [walStream, Node.logWrite, hf]
      · rw [hother g heq]
        obtain ⟨tail, ht, hst⟩ := h.stream g hgm
        refine ⟨tail, ht, ?_⟩
        rw [← hst]
        simp [walStream, Node.logWrite, heq]
    synced := h.synced
    carried := h.carried
    unused := by
      intro g hlt
      rw [hg'] at hlt
      have := h.unused g (by rw [hg]; exact hlt)
      simpa [Node.logWrite, Function.update_of_ne (by omega : g ≠ n.eng.walSeq)] using this
    opened := by rw [hlogs]; exact h.opened
    frozen := by
      intro p hp
      have hne : p.walSeq ≠ n.eng.walSeq := by
        obtain ⟨F, -, hasc, -⟩ := hseq.order
        have := (List.pairwise_append.1 (List.pairwise_append.1 hasc).2.1).2.2 p.walSeq
          (List.mem_map.2 ⟨p, hp, rfl⟩) n.eng.generation (List.mem_singleton_self _)
        rw [hg] at this
        exact this.ne
      rw [hother _ hne]
      exact h.frozen p hp
    active := by
      obtain ⟨es, hes, hm⟩ := h.active
      refine ⟨es, ?_, hm⟩
      rw [hg, hw] at hes
      simp only [WalSection.inflight, List.append_nil] at hes
      rw [hg', hself, hes]
      rfl
    full := fun hc => by simp [Node.logWrite, WalSection.rotates] at hc
    swapped := by
      intro c s hs
      simp [Node.logWrite] at hs }

/-- An append that fails leaves a torn frame at the end of the active log. -/
theorem LogsOk.tearWrite (h : LogsOk n) {w : WalEntry} (hv : w.Valid) (hi : n.intact) {k : Nat}
    (hk : k < (w.frame Γ).length) : LogsOk (n.tearWrite (w.frame Γ) k) := by
  by_cases hk0 : k = 0
  · have : n.tearWrite (w.frame Γ) k = n := by simp [Node.tearWrite, Disk.tear, hk0]
    rw [this]
    exact h
  have hframe := h.intact_tail hi
  obtain ⟨f, hf⟩ := h.file h.walSeq_mem
  have htear : n.tearWrite (w.frame Γ) k =
      { n with disk := n.disk.appendWal n.eng.walSeq (n.eng.walBuf ++ (w.frame Γ).take k), eng.walBuf := [] } := by
    simp [Node.tearWrite, Disk.tear, hk0]
  rw [htear]
  exact { h with
    keys := by rw [Disk.keys_appendWal]; exact h.keys
    stream := by
      intro g hgm
      by_cases heq : g = n.eng.walSeq
      · subst heq
        refine ⟨(w.frame Γ).take k, ⟨w, hv, List.take_prefix _ _, fun hc => ?_⟩, ?_⟩
        · have := congrArg List.length hc
          rw [List.length_take] at this
          omega
        · rw [← hframe, walStream_self hf]
          simp [walStream, Disk.get_appendWal, hf]
      · obtain ⟨tail, ht, hst⟩ := h.stream g hgm
        refine ⟨tail, ht, ?_⟩
        rw [← hst]
        simp [walStream, Disk.get_appendWal, heq, Ne.symm heq]
    synced := by
      intro g f' hg
      rw [Disk.get_appendWal] at hg
      split at hg
      · obtain ⟨f0, hf0, rfl⟩ := Option.map_eq_some_iff.1 hg
        have := h.synced g f0 hf0
        simp only [List.length_append]
        omega
      · exact h.synced g f' hg
    carried := by
      intro f' hg
      rw [Disk.get_appendWal] at hg
      split at hg
      · obtain ⟨f0, hf0, rfl⟩ := Option.map_eq_some_iff.1 hg
        exact h.carried f0 hf0
      · exact h.carried f' hg }

/-- The write under way goes into the active MemTable. -/
theorem LogsOk.applyWrite (h : LogsOk n) {w : WalEntry} (hl : n.eng.wal.holdsStateLock = false)
    (hi : n.eng.wal.inflight = [w]) (hs : n.eng.wal.spare = []) : LogsOk (n.applyWrite w) := by
  have hg : (n.applyWrite w).eng.generation = n.eng.generation := by
    rw [generation_of_not_swapped hl]
    rfl
  have hlogs : (n.applyWrite w).eng.logs = n.eng.logs := by
    simp only [Engine.logs, Engine.generations, hg, hs]
    rfl
  exact {
    keys := by rw [hlogs]; exact h.keys
    valid := by rw [hlogs]; exact h.valid
    stream := by rw [hlogs]; exact h.stream
    synced := h.synced
    carried := h.carried
    unused := by rw [hg]; exact h.unused
    opened := by rw [hlogs]; exact h.opened
    frozen := by
      intro p hp
      have hp' := h.frozen p hp
      simp only [Node.applyWrite, Function.update_of_ne hp'.1.ne]
      exact hp'
    active := by
      obtain ⟨es, hes, hm⟩ := h.active
      refine ⟨es ++ [w], ?_, ?_⟩
      · rw [hg]
        change n.hist.entries n.eng.generation = _
        rw [hes, hi]
        simp [Node.applyWrite, WalSection.inflight]
      · simp only [Node.applyWrite, Function.update_self]
        rw [replayEntries_append]
        change (w.applyTo _).map = (w.applyTo _).map
        rw [map_applyTo, map_applyTo, hm]
    full := fun hc => by simp [Node.applyWrite, WalSection.rotates] at hc
    swapped := by
      intro c s hc
      simp [Node.applyWrite] at hc }

/-! ## A rotation -/

/-- The log of the next generation is created. -/
theorem LogsOk.createWal (h : LogsOk n) (hseq : SeqUp n) {c : WalCaller} {newSeq : Nat} (hw : n.eng.wal = .rotating c newSeq) :
    LogsOk { n with disk := n.disk.createWal newSeq, eng.wal := .created c newSeq } := by
  have hwal := hseq.wal
  rw [hw] at hwal
  obtain ⟨-, habove⟩ := hwal
  have hg : n.eng.generation = n.eng.walSeq := generation_of_not_swapped (by rw [hw]; rfl)
  have hg' : Engine.generation { n.eng with wal := .created c newSeq } = n.eng.generation := by rw [hg]; rfl
  have hlogs : Engine.logs { n.eng with wal := .created c newSeq } = n.eng.logs ++ [newSeq] := by
    simp [Engine.logs, Engine.generations, hg', hw, WalSection.spare]
  have hnew : n.hist.segs newSeq = [] := by
    refine h.unused newSeq (habove _ ?_)
    rw [h.keys]
    exact generation_mem_logs n.eng
  have hopened : n.hist.opened < newSeq := by
    have h1 := h.opened _ h.walSeq_mem
    have h2 := habove n.eng.walSeq (h.keys ▸ h.walSeq_mem)
    omega
  have hentries : n.hist.entries newSeq = [] := by
    simp [Hist.entries, hnew, hopened.ne']
  have hne : newSeq ≠ n.eng.walSeq := (habove _ (h.keys ▸ h.walSeq_mem)).ne'
  exact {
    keys := by rw [Disk.keys_createWal _ habove, hlogs, h.keys]
    valid := by
      rw [hlogs]
      intro g hgm x hx
      rcases List.mem_append.1 hgm with hgm | hgm
      · exact h.valid g hgm x hx
      · rw [List.mem_singleton.1 hgm] at hx
        change x ∈ n.hist.entries newSeq at hx
        simp [hentries] at hx
    stream := by
      rw [hlogs]
      intro g hgm
      rcases List.mem_append.1 hgm with hgm | hgm
      · obtain ⟨tail, ht, hst⟩ := h.stream g hgm
        have hgne : newSeq ≠ g := (habove g (h.keys ▸ hgm)).ne'
        refine ⟨tail, ht, ?_⟩
        rw [← hst]
        simp [walStream, Disk.get_createWal, hgne]
      · rw [List.mem_singleton.1 hgm]
        refine ⟨[], torn_nil Γ, ?_⟩
        rw [hentries]
        simp [walStream, Disk.get_createWal, hne]
    synced := by
      intro g f hf
      rw [Disk.get_createWal] at hf
      split at hf
      · rw [← Option.some.inj hf]
        exact Nat.le_refl _
      · exact h.synced g f hf
    carried := by
      intro f hf
      rw [Disk.get_createWal, if_neg hopened.ne'] at hf
      exact h.carried f hf
    unused := by rw [hg']; exact h.unused
    opened := by
      rw [hlogs]
      intro g hgm
      rcases List.mem_append.1 hgm with hgm | hgm
      · exact h.opened g hgm
      · rw [List.mem_singleton.1 hgm]
        exact hopened.le
    frozen := h.frozen
    active := by
      rw [hg']
      have := h.active
      rw [hw] at this
      exact this
    full := fun _ => h.full (by rw [hw]; rfl)
    swapped := by
      intro c s hc
      simp at hc }

/-- The active MemTable is frozen with its generation. -/
theorem LogsOk.swapActive (h : LogsOk n) (hseq : SeqUp n) {c : WalCaller} {newSeq : Nat} (hw : n.eng.wal = .created c newSeq) :
    LogsOk (n.swapActive c newSeq) := by
  have hwal := hseq.wal
  rw [hw] at hwal
  obtain ⟨hmem, habove⟩ := hwal
  have hg : n.eng.generation = n.eng.walSeq := generation_of_not_swapped (by rw [hw]; rfl)
  have hg' : (n.swapActive c newSeq).eng.generation = newSeq := rfl
  have hlogs : (n.swapActive c newSeq).eng.logs = n.eng.logs := by
    simp only [Engine.logs, Engine.generations, hg, hg', hw]
    simp [Node.swapActive, WalSection.spare]
  have hlt : n.eng.generation < newSeq := habove _ (by simp [Engine.generations])
  have hnew : n.hist.segs newSeq = [] := h.unused newSeq hlt
  have hopened : n.hist.opened ≠ newSeq := by
    have h1 := h.opened _ (generation_mem_logs n.eng)
    omega
  have hentries : n.hist.entries newSeq = [] := by
    simp [Hist.entries, hnew, hopened.symm]
  have hactive : (n.eng.mems n.eng.active).map = (replayEntries (n.hist.entries n.eng.walSeq) MemTable.new).map := by
    obtain ⟨es, hes, hm⟩ := h.active
    rw [hg, hw] at hes
    simp only [WalSection.inflight, List.append_nil] at hes
    rw [hes]
    exact hm
  exact {
    keys := by rw [hlogs]; exact h.keys
    valid := by rw [hlogs]; exact h.valid
    stream := by rw [hlogs]; exact h.stream
    synced := h.synced
    carried := h.carried
    unused := by
      rw [hg']
      exact fun g hlt' => h.unused g (hlt.trans hlt')
    opened := by rw [hlogs]; exact h.opened
    frozen := by
      intro p hp
      simp only [Node.swapActive] at hp ⊢
      rcases List.mem_append.1 hp with hp | hp
      · obtain ⟨h1, h2⟩ := h.frozen p hp
        refine ⟨by omega, ?_⟩
        rw [Function.update_of_ne (by omega)]
        exact h2
      · rw [List.mem_singleton.1 hp]
        refine ⟨Nat.lt_succ_self _, ?_⟩
        simp only
        rw [Function.update_of_ne (by omega)]
        exact ⟨h.full (by rw [hw]; rfl), hactive⟩
    active := by
      refine ⟨[], ?_, ?_⟩
      · rw [hg']
        exact hentries
      · simp [Node.swapActive]
    full := fun hc => by simp [Node.swapActive, WalSection.rotates] at hc
    swapped := by
      intro c' s hc
      simp only [Node.swapActive, WalSection.swapped.injEq] at hc
      rw [← hc.2]
      exact ⟨hentries, ⟨n.eng.active, n.eng.walSeq⟩, by simp [Node.swapActive], rfl⟩ }

/-- The writer is replaced, and the old one hands over what it had. -/
theorem LogsOk.replaceWriter (h : LogsOk n) {c : WalCaller} {newSeq : Nat} (hw : n.eng.wal = .swapped c newSeq) :
    LogsOk ((n.replaceWriter newSeq .ok).finish c).1 := by
  have hflush := h.flushBuf
  obtain ⟨hempty, -⟩ := h.swapped _ _ hw
  have hmain : LogsOk { n with
      disk := n.disk.appendWal n.eng.walSeq n.eng.walBuf
      eng.walBuf := []
      eng.walSeq := newSeq
      eng.wal := .free } := by
    have hg : n.eng.generation = newSeq := by simp [Engine.generation, hw]
    have hlogs : Engine.logs { n.eng with walBuf := [], walSeq := newSeq, wal := .free } = n.eng.logs := by
      simp only [Engine.logs, Engine.generations, hg, hw]
      rfl
    exact {
      keys := by rw [hlogs]; exact hflush.keys
      valid := by rw [hlogs]; exact h.valid
      stream := by
        rw [hlogs]
        intro g hgm
        obtain ⟨tail, ht, hst⟩ := hflush.stream g hgm
        refine ⟨tail, ht, ?_⟩
        rw [← hst]
        simp [walStream]
      synced := hflush.synced
      carried := hflush.carried
      unused := by
        intro g hlt
        exact h.unused g (by rw [hg]; exact hlt)
      opened := by rw [hlogs]; exact h.opened
      frozen := h.frozen
      active := by
        have := h.active
        rw [hg, hw] at this
        exact this
      full := fun hc => by simp [WalSection.rotates] at hc
      swapped := by
        intro c s hc
        simp at hc }
  cases c with
  | write w =>
    exact hmain.setHist (k := { n.hist with rotated := n.hist.log.length, completed := n.hist.log.length }) rfl rfl rfl
  | flush since => exact { hmain.setHist (k := { n.hist with rotated := n.hist.log.length }) rfl rfl rfl with }

/-! ## Every step of the wal mutex -/

/-- A call that returns keeps the logs in order. -/
theorem LogsOk.finish (h : LogsOk n) (hl : n.eng.wal.holdsStateLock = false) (hi : n.eng.wal.inflight = [])
    (hs : n.eng.wal.spare = []) (c : WalCaller) : LogsOk (n.finish c).1 := by
  have hfree := h.setWal hl (v := .free) rfl hi.symm hs.symm (fun hc => by simp [WalSection.rotates] at hc)
  cases c with
  | write w => exact hfree.setHist (k := { n.hist with completed := n.hist.log.length }) rfl rfl rfl
  | flush since => exact { hfree with }

theorem LogsOk.abort (h : LogsOk n) (hl : n.eng.wal.holdsStateLock = false) (hi : n.eng.wal.inflight = [])
    (hs : n.eng.wal.spare = []) (err : LsmError) (c : WalCaller) : LogsOk (n.abort err c).1 := by
  have hfree := h.setWal hl (v := .free) rfl hi.symm hs.symm (fun hc => by simp [WalSection.rotates] at hc)
  cases c with
  | write w => exact hfree.setHist (k := { n.hist with completed := n.hist.log.length }) rfl rfl rfl
  | flush since => exact hfree

/-- The fsync of the active log keeps the logs in order. -/
theorem LogsOk.syncActive (h : LogsOk n) (hl : n.eng.wal.holdsStateLock = false) {next : WalSection}
    (hl' : next.holdsStateLock = false) (hi : next.inflight = n.eng.wal.inflight) (hs : next.spare = n.eng.wal.spare)
    (hr : next.rotates = false) : LogsOk (n.syncActive next) := by
  have h1 := (h.flushBuf.syncFile n.eng.walSeq).setWal (v := next) hl hl' hi hs (fun hc => by simp [hr] at hc)
  exact h1.setHist (k := { n.hist with secured := _ }) rfl rfl rfl

/-- An append to an intact log keeps the logs in order, whole or torn. -/
theorem LogsOk.writeMove (h : LogsOk n) (hseq : SeqUp n) (hi : n.intact) {w : WalEntry} {io : Io} {o : Out}
    (hm : WriteMove n w io n' o) : LogsOk n' := by
  cases hm with
  | refused => exact h
  | logged hw hv => exact h.logWrite hseq hw hv hi
  | torn hw hv hio hk => exact h.tearWrite hv hi hk

/-- A benign step under the wal mutex keeps the logs in order. -/
theorem LogsOk.walMove (h : LogsOk n) (hseq : SeqUp n) {io : Io} (hb : n.Benign (.walStep io)) {r : Node Γ × Out}
    (hm : WalMove n io r) : LogsOk r.1 := by
  cases hm with
  | sync hw => exact h.syncActive (by rw [hw]; rfl) rfl (by rw [hw]; rfl) (by rw [hw]; rfl) rfl
  | syncFails hw hio =>
    subst hio
    rcases hb with hb | ⟨c, s, hb⟩
    · simp at hb
    · simp [hw] at hb
  | apply hw => exact h.applyWrite (by rw [hw]; rfl) (by rw [hw]; rfl) (by rw [hw]; rfl)
  | applySynced hw => exact h.applyWrite (by rw [hw]; rfl) (by rw [hw]; rfl) (by rw [hw]; rfl)
  | exceeds hw =>
    exact h.setWal (by rw [hw]; rfl) rfl (by rw [hw]; rfl) (by rw [hw]; rfl) (fun hc => by simp [WalSection.rotates] at hc)
  | done hw | nothing hw => exact h.finish (by rw [hw]; rfl) (by rw [hw]; rfl) (by rw [hw]; rfl) _
  | flushSync hw => exact h.syncActive (by rw [hw]; rfl) rfl (by rw [hw]; rfl) (by rw [hw]; rfl) rfl
  | flushSyncFails hw hio =>
    subst hio
    rcases hb with hb | ⟨c, s, hb⟩
    · simp at hb
    · simp [hw] at hb
  | @takeSeq c hw he =>
    exact { h.setWal (v := .rotating c n.eng.nextSeq) (by rw [hw]; rfl) rfl (by rw [hw]; rfl) (by rw [hw]; rfl)
      (fun _ => he) with }
  | create hw => exact h.createWal hseq hw
  | createFails hw => exact h.abort (by rw [hw]; rfl) (by rw [hw]; rfl) (by rw [hw]; rfl) _ _
  | swap hw => exact h.swapActive hseq hw
  | replace hw =>
    rcases hb with rfl | ⟨c, s, hb⟩
    · exact h.replaceWriter hw
    · simp [hw] at hb

/-! ## The steps of `flush_lock` -/

/-- The flushed generation leaves the immutables; its log stays. -/
theorem LogsOk.commitFlush (h : LogsOk n) (hseq : SeqUp n) {c : FlushCaller} {fl : List Nat} {p : PendingImm} {sst : SstMeta}
    (hf : n.eng.flush = .committing c fl p sst) (hl : n.eng.wal.holdsStateLock = false) :
    LogsOk (n.commitFlush c fl p sst) := by
  obtain ⟨rest, himm, himms⟩ := hseq.commits hf
  have hlogs : (n.commitFlush c fl p sst).eng.logs = n.eng.logs := by
    simp only [Engine.logs, Engine.generations, himms, himm, hf]
    simp [Node.commitFlush, FlushSection.flushed]
    rfl
  exact {
    keys := by rw [hlogs]; exact h.keys
    valid := by rw [hlogs]; exact h.valid
    stream := by rw [hlogs]; exact h.stream
    synced := h.synced
    carried := h.carried
    unused := h.unused
    opened := by rw [hlogs]; exact h.opened
    frozen := by
      intro q hq
      rw [himms] at hq
      exact h.frozen q (by rw [himm]; exact List.mem_cons_of_mem _ hq)
    active := h.active
    full := h.full
    swapped := by
      intro c' s hc
      rw [show n.eng.wal = .swapped c' s from hc] at hl
      simp [WalSection.holdsStateLock] at hl }

/-- Removing the first of distinct numbers leaves the rest. -/
theorem filter_ne_head {w : Nat} {rest : List Nat} (h : (w :: rest).Nodup) : (w :: rest).filter (· ≠ w) = rest := by
  obtain ⟨h1, -⟩ := List.nodup_cons.1 h
  rw [List.filter_cons_of_neg (by simp), List.filter_eq_self]
  intro a ha
  simp only [decide_eq_true_eq]
  rintro rfl
  exact h1 ha

/-- The log of a flushed generation is removed. -/
theorem LogsOk.removeWal (h : LogsOk n) (hseq : SeqUp n) {c : FlushCaller} {w : Nat} {todo : List Nat}
    (hf : n.eng.flush = .unlinkWals c (w :: todo)) :
    LogsOk { n with disk := n.disk.removeWal w, eng.flush := .unlinkWals c todo } := by
  have hlogs : n.eng.logs = w :: Engine.logs { n.eng with flush := .unlinkWals c todo } := by
    simp only [Engine.logs, hf]
    rfl
  have hnodup : n.eng.logs.Nodup := by
    rw [← h.keys]
    exact n.disk.wals.keys_nodup
  rw [hlogs] at hnodup
  have hmem : ∀ g, g ∈ Engine.logs { n.eng with flush := .unlinkWals c todo } → g ∈ n.eng.logs ∧ w ≠ g := by
    intro g hg
    rw [hlogs]
    refine ⟨List.mem_cons_of_mem _ hg, ?_⟩
    rintro rfl
    exact (List.nodup_cons.1 hnodup).1 hg
  have hwal : w ≠ n.eng.walSeq := by
    have hfl := hseq.flushedLt w (by rw [hf]; exact List.mem_cons_self)
    cases hl : n.eng.wal.holdsStateLock with
    | false =>
      rw [← generation_of_not_swapped hl]
      exact (hfl _ (by simp [Engine.generations])).ne
    | true =>
      cases hw : n.eng.wal <;> simp [hw, WalSection.holdsStateLock] at hl
      obtain ⟨-, p, hp, hps⟩ := h.swapped _ _ hw
      rw [← hps]
      exact (hfl _ (List.mem_append_left _ (List.mem_map.2 ⟨p, List.mem_of_mem_getLast? hp, rfl⟩))).ne
  exact { h with
    keys := by
      rw [Disk.keys_removeWal, h.keys, hlogs]
      exact filter_ne_head hnodup
    valid := fun g hg => h.valid g (hmem g hg).1
    stream := by
      intro g hg
      obtain ⟨tail, ht, hst⟩ := h.stream g (hmem g hg).1
      refine ⟨tail, ht, ?_⟩
      rw [← hst]
      simp [walStream, Disk.get_removeWal, (hmem g hg).2]
    synced := by
      intro g f hg
      rw [Disk.get_removeWal] at hg
      split at hg
      · simp at hg
      · exact h.synced g f hg
    carried := by
      intro f hg
      rw [Disk.get_removeWal] at hg
      split at hg
      · simp at hg
      · exact h.carried f hg
    opened := fun g hg => h.opened g (hmem g hg).1 }

/-- The end of a flush pass that has removed its logs keeps the logs in order. -/
theorem LogsOk.flushEnd (h : LogsOk n) (hf : n.eng.flush.flushed = []) (r : Except LsmError Unit) (c : FlushCaller) :
    LogsOk (n.flushEnd r c).1 := by
  have hfree := h.setFlush (f := .free) hf.symm
  cases c with
  | worker => exact hfree
  | flush since => exact hfree.setHist (k := { n.hist with flushAck := _ }) rfl rfl rfl

theorem LogsOk.compactEnd (h : LogsOk n) (hf : n.eng.flush.flushed = []) (r : Except LsmError Unit) :
    LogsOk (n.compactEnd r).1 := h.setFlush (f := .free) hf.symm

/-- A number that is drawn and not used changes no log. -/
theorem LogsOk.burn (h : LogsOk n) : LogsOk { n with eng.nextSeq := n.eng.nextSeq + 1 } := { h with }

/-- A flush pass that may fail here has not flushed anything. -/
theorem flushed_nil_of_fail {io : Io} (hb : n.Benign (.flushStep io)) {c : FlushCaller} {fl : List Nat} {p : PendingImm}
    {sst : SstMeta} {file : SstFile} {st : Stage} (hf : n.eng.flush = .building c fl p sst file st) {k : Nat}
    (hio : io = .fail k) : fl = [] := by
  rcases hb with hb | hb
  · simp [hio] at hb
  · rw [hf] at hb
    simpa [FlushSection.failsSafely] using hb

/-- A benign step of the holder of `flush_lock` keeps the logs in order. -/
theorem LogsOk.flushMove (h : LogsOk n) (hseq : SeqUp n) {io : Io} (hb : n.Benign (.flushStep io))
    (hbuilt : ∀ p ∈ n.eng.immutables, ∀ err,
      buildSst Γ 0 n.eng.nextSeq (n.eng.mems p.mem).len (n.eng.mems p.mem).records ≠ .error err) {r : Node Γ × Out}
    (hm : FlushMove n io r) : LogsOk r.1 := by
  cases hm with
  | nothing hf => exact h.flushEnd (by rw [hf]; rfl) _ _
  | drained hf => exact h.setFlush (by rw [hf]; rfl)
  | unbuilt hf hi he => exact absurd he (hbuilt _ (by rw [hi]; exact List.mem_cons_self) _)
  | built hf => exact h.burn.setFlush (by change _ = n.eng.flush.flushed; rw [hf]; rfl)
  | buildFails hf hio =>
    have := flushed_nil_of_fail hb hf hio
    exact h.flushEnd (by rw [hf, this]; rfl) _ _
  | buildStage hf => exact h.setDiskFlush (by simp) (by rw [hf]; rfl)
  | buildRename hf => exact h.setDiskFlush (by simp) (by rw [hf]; rfl)
  | commit hf hl => exact h.commitFlush hseq hf hl
  | mergedNone hf => exact h.setFlush (by rw [hf]; rfl)
  | mergedUnbuilt hf => exact h.burn.compactEnd (by change n.eng.flush.flushed = []; rw [hf]; rfl) _
  | merged hf => exact h.burn.setFlush (by change _ = n.eng.flush.flushed; rw [hf]; rfl)
  | readOpen hf => exact { h with }
  | readFails hf => exact h.compactEnd (by rw [hf]; rfl) _
  | read hf => exact h.setFlush (by rw [hf]; rfl)
  | mergeFails hf =>
    exact (h.setDisk (d := n.disk.removeSstTmp _) rfl).compactEnd (by change n.eng.flush.flushed = []; rw [hf]; rfl) _
  | mergeStage hf => exact h.setDiskFlush (by simp) (by rw [hf]; rfl)
  | mergeRename hf => exact h.setDiskFlush (by simp) (by rw [hf]; rfl)
  | @install inputs output hf hl =>
    exact { h.setFlush (f := (n.commitCompaction inputs output).eng.flush) (by rw [hf]; rfl) with }
  | manifestFailsFlush hf hio =>
    rcases hb with hb | hb
    · simp [hio] at hb
    · simp [hf, FlushSection.failsSafely] at hb
  | manifestFailsCompact hf =>
    exact { h.setDiskFlush (d := n.disk.removeManifestTmp) (f := .free) rfl (by rw [hf]; rfl) with }
  | @manifestStage after m st st' hf =>
    exact h.setDiskFlush (by simp) (by rw [hf]; cases after <;> rfl)
  | @manifestFlush c ws m hf =>
    exact { h.setDiskFlush (d := n.disk.manifestStage m .rename) (f := .unlinkWals c ws) (by simp) (by rw [hf]; rfl) with }
  | @manifestCompact inputs m hf =>
    exact { h.setDiskFlush (d := n.disk.manifestStage m .rename) (f := .unlinkInputs inputs) (by simp) (by rw [hf]; rfl) with }
  | flushDone hf => exact h.flushEnd (by rw [hf]; rfl) _ _
  | unlinkWal hf hio => exact h.removeWal hseq hf
  | unlinkWalFails hf hio =>
    rcases hb with hb | hb
    · simp [hio] at hb
    · simp [hf, FlushSection.failsSafely] at hb
  | compactDone hf => exact h.compactEnd (by rw [hf]; rfl) _
  | unlinkInput hf => exact h.setDiskFlush rfl (by rw [hf]; rfl)
  | unlinkInputFails hf => exact h.setFlush (by rw [hf]; rfl)

/-! ## Counters -/

/-- The counts stay right where the call in progress has the same writes. -/
theorem CountsOk.setWal (h : CountsOk n) {v : WalSection} (hi : v.inflight = n.eng.wal.inflight)
    (hw : v.writing = n.eng.wal.writing) (hf : v.flusher = n.eng.wal.flusher) : CountsOk { n with eng.wal := v } :=
  { h with
    applied := by rw [hi]; exact h.applied
    idle := by rw [hw]; exact h.idle
    inWal := by rw [hf]; exact h.inWal }

/-- An append counts a write in progress. -/
theorem CountsOk.writeMove (h : CountsOk n) {w : WalEntry} {io : Io} {o : Out} (hm : WriteMove n w io n' o) : CountsOk n' := by
  cases hm with
  | refused => exact h
  | logged hw hv =>
    have h1 := h.applied
    have h2 := h.idle (by rw [hw]; rfl)
    have h3 := h.rotated
    rw [hw] at h1
    simp only [WalSection.inflight, List.length_nil] at h1
    exact {
      applied := by simp [Node.logWrite, WalSection.inflight]; omega
      completed := h.completed
      atMostOne := by simp [Node.logWrite]; omega
      idle := fun hc => by simp [Node.logWrite, WalSection.writing] at hc
      rotated := by simp [Node.logWrite]; omega
      frozen := h.frozen
      inWal := fun since hc => by simp [Node.logWrite, WalSection.flusher] at hc
      flushers := h.flushers
      caller := h.caller }
  | torn hw => exact { h with }

/-- A write that returns counts all of the log as complete. -/
theorem CountsOk.finishWrite (h : CountsOk n) (hi : n.eng.wal.inflight = []) :
    CountsOk { n with eng.wal := .free, hist.completed := n.hist.log.length } := by
  have h1 := h.applied
  rw [hi, List.length_nil] at h1
  exact { h with
    applied := h1
    completed := by dsimp only; omega
    atMostOne := Nat.le_succ _
    idle := fun _ => rfl
    inWal := fun since hc => by simp [WalSection.flusher] at hc }

/-- A call that fails keeps the counts right, where nothing of it is in the log and not applied. -/
theorem CountsOk.abort (h : CountsOk n) (hi : n.eng.wal.inflight = []) (err : LsmError) {c : WalCaller}
    (hc : ∀ since, c = .flush since → n.eng.wal.writing = false) : CountsOk (n.abort err c).1 := by
  cases c with
  | write w => exact h.finishWrite hi
  | flush since =>
    have hid := h.idle (hc since rfl)
    have h1 := h.applied
    rw [hi] at h1
    exact { h with
      applied := h1
      idle := fun _ => hid
      inWal := fun since hc => by simp [Node.abort, WalSection.flusher] at hc }

/-- A call that returns keeps the counts right. -/
theorem CountsOk.finish (h : CountsOk n) (hi : n.eng.wal.inflight = []) {c : WalCaller}
    (hc : ∀ since, c = .flush since → n.eng.wal.writing = false ∧ since ≤ n.hist.rotated) : CountsOk (n.finish c).1 := by
  cases c with
  | write w => exact h.finishWrite hi
  | flush since =>
    obtain ⟨hw, hs⟩ := hc since rfl
    have hid := h.idle hw
    have h1 := h.applied
    rw [hi] at h1
    exact { h with
      applied := h1
      idle := fun _ => hid
      inWal := fun since hc => by simp [Node.finish, WalSection.flusher] at hc
      flushers := by
        intro x hx
        simp only [Node.finish, List.mem_append, List.mem_singleton] at hx
        rcases hx with hx | rfl
        · exact h.flushers x hx
        · exact hs }

/-- The fsync of the active log keeps the counts right. -/
theorem CountsOk.syncActive (h : CountsOk n) {next : WalSection} (hi : next.inflight = n.eng.wal.inflight)
    (hw : next.writing = n.eng.wal.writing) (hf : next.flusher = n.eng.wal.flusher) : CountsOk (n.syncActive next) :=
  { h.setWal hi hw hf with }

/-- A write that is applied is counted. -/
theorem CountsOk.applyWrite (h : CountsOk n) {w : WalEntry} (hi : n.eng.wal.inflight = [w]) : CountsOk (n.applyWrite w) := by
  have h1 := h.applied
  rw [hi, List.length_singleton] at h1
  exact {
    applied := rfl
    completed := by
      have := h.completed
      change n.hist.completed ≤ n.hist.log.length
      omega
    atMostOne := h.atMostOne
    idle := fun hc => by simp [Node.applyWrite, WalSection.writing] at hc
    rotated := h.rotated
    frozen := by
      have := h.frozen
      change n.hist.rotated ≤ n.hist.log.length
      omega
    inWal := fun since hc => by simp [Node.applyWrite, WalSection.flusher] at hc
    flushers := h.flushers
    caller := h.caller }

/-- The rotation is complete: every write so far belongs to a rotated generation. -/
theorem CountsOk.replaceWriter (h : CountsOk n) (hlogs : LogsOk n) {c : WalCaller} {newSeq : Nat}
    (hw : n.eng.wal = .swapped c newSeq) (io : Io) : CountsOk ((n.replaceWriter newSeq io).finish c).1 := by
  have hle : n.hist.rotated ≤ n.hist.log.length := by
    have := h.rotated
    omega
  have hsegs : n.hist.segs newSeq = [] := by
    have := (hlogs.swapped _ _ hw).1
    simp only [Hist.entries, List.append_eq_nil_iff] at this
    exact this.2
  have hmid : CountsOk (n.replaceWriter newSeq io) :=
    { h with
      rotated := by simp [Node.replaceWriter, hsegs]
      frozen := by
        have := h.applied
        rw [hw] at this
        simpa [Node.replaceWriter, WalSection.inflight] using this.ge
      flushers := fun x hx => (h.flushers x hx).trans hle
      caller := fun x hx => (h.caller x hx).trans hle }
  refine hmid.finish (by change n.eng.wal.inflight = []; rw [hw]; rfl) ?_
  rintro since rfl
  refine ⟨by change n.eng.wal.writing = false; rw [hw]; rfl, ?_⟩
  exact h.inWal since (by rw [hw]; rfl)

/-- A generation with an empty MemTable has no entry. -/
theorem LogsOk.entries_of_isEmpty (h : LogsOk n) (hi : n.eng.wal.inflight = [])
    (he : (n.eng.mems n.eng.active).isEmpty = true) : n.hist.entries n.eng.generation = [] := by
  obtain ⟨es, hes, hm⟩ := h.active
  rw [hi, List.append_nil] at hes
  rw [hes]
  rw [MemTable.isEmpty_iff] at he
  have hlayer := layer_replayEntries_new es
  cases es with
  | nil => rfl
  | cons w es =>
    have hsome : layerOf ((w :: es).map WalEntry.write) w.key ≠ none := by
      rw [Ne, layerOf_eq_none]
      intro hc
      exact hc w.write (List.mem_map.2 ⟨w, List.mem_cons_self, rfl⟩) rfl
    rw [← hlayer] at hsome
    simp [MemTable.layer, MemTable.getEntry, ← hm, he] at hsome

/-- A benign step under the wal mutex keeps the counts right. -/
theorem CountsOk.walMove (h : CountsOk n) (hlogs : LogsOk n) {io : Io} (hb : n.Benign (.walStep io)) {r : Node Γ × Out}
    (hm : WalMove n io r) : CountsOk r.1 := by
  cases hm with
  | sync hw => exact h.syncActive (by rw [hw]; rfl) (by rw [hw]; rfl) (by rw [hw]; rfl)
  | syncFails hw hio =>
    subst hio
    rcases hb with hb | ⟨c, s, hb⟩
    · simp at hb
    · simp [hw] at hb
  | apply hw => exact h.applyWrite (by rw [hw]; rfl)
  | applySynced hw => exact h.applyWrite (by rw [hw]; rfl)
  | exceeds hw => exact h.setWal (by rw [hw]; rfl) (by rw [hw]; rfl) (by rw [hw]; rfl)
  | done hw => exact h.finish (by rw [hw]; rfl) (fun since hc => by simp at hc)
  | flushSync hw => exact h.syncActive (by rw [hw]; rfl) (by rw [hw]; rfl) (by rw [hw]; rfl)
  | flushSyncFails hw => exact h.abort (by rw [hw]; rfl) _ (fun since hc => by rw [hw]; rfl)
  | @nothing c hw he =>
    refine h.finish (by rw [hw]; rfl) ?_
    rintro since rfl
    refine ⟨by rw [hw]; rfl, ?_⟩
    have hent := hlogs.entries_of_isEmpty (by rw [hw]; rfl) he
    rw [generation_of_not_swapped (by rw [hw]; rfl)] at hent
    simp only [Hist.entries, List.append_eq_nil_iff] at hent
    have h1 := h.rotated
    have h2 := h.inWal since (by rw [hw]; rfl)
    rw [hent.2, List.length_nil] at h1
    omega
  | @takeSeq c hw he =>
    exact { h.setWal (v := .rotating c n.eng.nextSeq) (by rw [hw]; rfl) (by rw [hw]; cases c <;> rfl)
      (by rw [hw]; cases c <;> rfl) with }
  | @create c newSeq hw hio =>
    exact { h.setWal (v := .created c newSeq) (by rw [hw]; rfl) (by rw [hw]; cases c <;> rfl)
      (by rw [hw]; cases c <;> rfl) with }
  | createFails hw => exact h.abort (by rw [hw]; rfl) _ (fun since hc => by rw [hw, hc]; rfl)
  | @swap c newSeq hw =>
    exact { h.setWal (v := .swapped c newSeq) (by rw [hw]; rfl) (by rw [hw]; cases c <;> rfl)
      (by rw [hw]; cases c <;> rfl) with }
  | replace hw => exact h.replaceWriter hlogs hw io

/-- The counts stay right where the caller of the pass began after a rotation. -/
theorem CountsOk.setFlush (h : CountsOk n) {f : FlushSection}
    (hc : ∀ since, f.caller = some (.flush since) → since ≤ n.hist.rotated) : CountsOk { n with eng.flush := f } :=
  { h with caller := hc }

/-- The end of a flush pass keeps the counts right. -/
theorem CountsOk.flushEnd (h : CountsOk n) (r : Except LsmError Unit) (c : FlushCaller) : CountsOk (n.flushEnd r c).1 := by
  have hfree := h.setFlush (f := .free) (fun since hc => by simp [FlushSection.caller] at hc)
  cases c with
  | worker => exact hfree
  | flush since => exact { hfree with }

theorem CountsOk.compactEnd (h : CountsOk n) (r : Except LsmError Unit) : CountsOk (n.compactEnd r).1 :=
  h.setFlush (f := .free) (fun since hc => by simp [FlushSection.caller] at hc)

/-- A step of the holder of `flush_lock` keeps the counts right. -/
theorem CountsOk.flushMove (h : CountsOk n) {io : Io} {r : Node Γ × Out} (hm : FlushMove n io r) : CountsOk r.1 := by
  have hcall := h.caller
  cases hm with
  | nothing | buildFails | flushDone => exact h.flushEnd _ _
  | unbuilt =>
    have hb : CountsOk { n with eng.nextSeq := n.eng.nextSeq + 1 } := { h with }
    exact hb.flushEnd _ _
  | manifestFailsFlush =>
    have hb : CountsOk { n with disk := n.disk.removeManifestTmp, hist.stale := true } := { h with }
    exact hb.flushEnd _ _
  | drained hf => exact h.setFlush (by rw [hf] at hcall; exact hcall)
  | built hf => exact { h.setFlush (by rw [hf] at hcall; exact hcall) with }
  | buildStage hf => exact { h.setFlush (by rw [hf] at hcall; exact hcall) with }
  | buildRename hf => exact { h.setFlush (by rw [hf] at hcall; exact hcall) with }
  | @commit c fl p sst hf =>
    exact { h.setFlush (f := .draining c (fl ++ [p.walSeq])) (by rw [hf] at hcall; exact hcall) with }
  | mergedNone => exact h.setFlush (fun since hc => by simp [FlushSection.caller] at hc)
  | mergedUnbuilt | readFails | mergeFails | manifestFailsCompact | compactDone =>
    exact { h.compactEnd (.ok ()) with }
  | merged | mergeStage | mergeRename | install | manifestCompact | unlinkInput =>
    exact { h.compactEnd (.ok ()) with caller := fun since hc => by simp [Node.commitCompaction, FlushSection.caller] at hc }
  | readOpen => exact { h with }
  | read => exact h.setFlush (fun since hc => by simp [FlushSection.caller] at hc)
  | @manifestStage after m st st' hf =>
    refine { h.setFlush (f := .manifest after m st') ?_ with }
    rw [hf] at hcall
    cases after <;> exact hcall
  | @manifestFlush c ws m hf => exact { h.setFlush (f := .unlinkWals c ws) (by rw [hf] at hcall; exact hcall) with }
  | unlinkWal hf => exact { h.setFlush (by rw [hf] at hcall; exact hcall) with }
  | unlinkWalFails hf => exact h.setFlush (by rw [hf] at hcall; exact hcall)
  | unlinkInputFails => exact h.setFlush (fun since hc => by simp [FlushSection.caller] at hc)

end LsmEngine
