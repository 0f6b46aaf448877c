import LsmEngine.Lemmas.Data

/-!
# What a `get` sees

A `get` walks over a snapshot while the engine goes on: its active MemTable takes more writes, its tables may be merged and
removed. `GetOk` says what it can still find: where the active MemTable of its snapshot has the key, a value the key has had
since the snapshot; below that, the value it had at the snapshot. Every step of the engine keeps it.
-/

namespace LsmEngine

open Overlay SsTableAux

variable {Γ : Ctx} {n n' : Node Γ}

/-! ## Handles -/

/-- What one step can do to a table that is not being written. -/
structure HandleStep (n n' : Node Γ) (name : SstName) : Prop where
  next : n.eng.nextSeq ≤ n'.eng.nextSeq
  fresh : ∀ sst, n'.eng.flush.newSst = some sst → name ≠ sst.name
  file : n'.disk.ssts name = n.disk.ssts name ∨ n'.disk.ssts name = none
  reader : n'.eng.readers name = n.eng.readers name ∨ n'.eng.readers name = none ∨
    ∃ io, n'.eng.readers name = some (openReader Γ n.disk name io)

/-- The step leaves the tables alone. -/
theorem HandleStep.same {name : SstName} (h : ∀ sst, n.eng.flush.newSst = some sst → name ≠ sst.name)
    (hn : n.eng.nextSeq ≤ n'.eng.nextSeq) (hf : ∀ sst, n'.eng.flush.newSst = some sst → n.eng.flush.newSst = some sst)
    (hs : n'.disk.ssts = n.disk.ssts) (hr : n'.eng.readers = n.eng.readers) : HandleStep n n' name :=
  ⟨hn, fun sst hsst => h sst (hf sst hsst), .inl (by rw [hs]), .inl (by rw [hr])⟩

/-- A step of the holder of `flush_lock` leaves the handle of a table that it is not writing. -/
theorem FlushMove.handleStep {name : SstName} (h : ∀ sst, n.eng.flush.newSst = some sst → name ≠ sst.name)
    (hlt : name.seq < n.eng.nextSeq) {io : Io} {r : Node Γ × Out} (hm : FlushMove n io r) : HandleStep n r.1 name := by
  have hnone : ∀ (c : FlushCaller) (m : Node Γ) (res : Except LsmError Unit), m.eng.nextSeq ≥ n.eng.nextSeq →
      m.disk.ssts = n.disk.ssts → m.eng.readers = n.eng.readers → HandleStep n (m.flushEnd res c).1 name := by
    intro c m res h1 h2 h3
    cases c <;> exact HandleStep.same h h1 (fun sst hs => by simp [Node.flushEnd, FlushSection.newSst] at hs) h2 h3
  have hname : ∀ {level expected : Nat} {rs : List Record} {sst : SstMeta} {file : SstFile},
      buildSst Γ level n.eng.nextSeq expected rs = .ok (sst, file) → name ≠ sst.name := by
    intro level expected rs sst file hb heq
    obtain ⟨-, -, hn⟩ := buildSst_meta hb
    rw [heq, hn] at hlt
    exact Nat.lt_irrefl _ hlt
  cases hm with
  | nothing | buildFails | flushDone => exact hnone _ _ _ (Nat.le_refl _) rfl rfl
  | unbuilt => exact hnone _ _ _ (Nat.le_succ _) rfl rfl
  | manifestFailsFlush => exact hnone _ { n with disk := n.disk.removeManifestTmp, hist.stale := true } _ (Nat.le_refl _) rfl rfl
  | drained | mergedNone | readFails | read | mergeFails | manifestFailsCompact | compactDone
  | unlinkWal | unlinkWalFails | unlinkInputFails =>
    exact HandleStep.same h (Nat.le_refl _) (fun sst hs => by simp [Node.compactEnd, FlushSection.newSst] at hs) rfl rfl
  | mergedUnbuilt =>
    exact HandleStep.same h (Nat.le_succ _) (fun sst hs => by simp [Node.compactEnd, FlushSection.newSst] at hs) rfl rfl
  | built hf hi hb =>
    refine ⟨Nat.le_succ _, fun sst hs => ?_, .inl rfl, .inl rfl⟩
    obtain rfl := Option.some.inj hs
    exact hname hb
  | merged hf hm hne hb =>
    refine ⟨Nat.le_succ _, fun sst hs => ?_, .inl rfl, .inl rfl⟩
    obtain rfl := Option.some.inj hs
    exact hname hb
  | buildStage hf hio hst =>
    exact HandleStep.same h (Nat.le_refl _) (fun sst hs => by rw [hf]; exact hs)
      (Disk.sstStage_ssts_of_ne _ _ _ (ne_rename_of_next hst)) rfl
  | mergeStage hf hio hst =>
    exact HandleStep.same h (Nat.le_refl _) (fun sst hs => by rw [hf]; exact hs)
      (Disk.sstStage_ssts_of_ne _ _ _ (ne_rename_of_next hst)) rfl
  | @buildRename c fl p sst file hf hio =>
    have hne := h sst (by rw [hf]; rfl)
    refine ⟨Nat.le_refl _, fun x hx => h x (by rw [hf]; exact hx), .inl ?_, .inl rfl⟩
    rw [Disk.sstStage_rename_ssts, Function.update_of_ne hne]
  | @mergeRename inputs sst file hf hio =>
    have hne := h sst (by rw [hf]; rfl)
    refine ⟨Nat.le_refl _, fun x hx => h x (by rw [hf]; exact hx), .inl ?_, .inl rfl⟩
    rw [Disk.sstStage_rename_ssts, Function.update_of_ne hne]
  | @commit c fl p sst hf hl =>
    have hne := h sst (by rw [hf]; rfl)
    exact ⟨Nat.le_refl _, fun x hx => by simp [Node.commitFlush, FlushSection.newSst] at hx, .inl rfl,
      .inl (Function.update_of_ne hne _ _)⟩
  | @install inputs output hf hl =>
    refine ⟨Nat.le_refl _, fun x hx => by simp [Node.commitCompaction, FlushSection.newSst] at hx, .inl rfl, .inl ?_⟩
    cases output with
    | none => rfl
    | some sst => exact Function.update_of_ne (h sst (by rw [hf]; rfl)) _ _
  | @readOpen inputs todo sst runs hf hr =>
    refine ⟨Nat.le_refl _, h, .inl rfl, ?_⟩
    by_cases heq : name = sst.name
    · subst heq
      exact .inr (.inr ⟨io, Function.update_self _ _ _⟩)
    · exact .inl (Function.update_of_ne heq _ _)
  | manifestStage | manifestFlush | manifestCompact =>
    exact HandleStep.same h (Nat.le_refl _) (fun sst hs => by simp [FlushSection.newSst] at hs) (by simp) rfl
  | @unlinkInput sst todo hf hio =>
    refine ⟨Nat.le_refl _, fun x hx => by simp [FlushSection.newSst] at hx, ?_, .inl rfl⟩
    by_cases heq : name = sst.name
    · subst heq
      exact .inr (Function.update_self _ _ _)
    · exact .inl (Function.update_of_ne heq _ _)

theorem NodeMove.handleStep {name : SstName} (h : ∀ sst, n.eng.flush.newSst = some sst → name ≠ sst.name)
    (hlt : name.seq < n.eng.nextSeq) {a : Act} {x : Sys Γ × Out} (hm : NodeMove n a x) (hx : x.1 = n'.toSys) :
    HandleStep n n' name := by
  have hto : ∀ {m : Node Γ}, m.toSys = n'.toSys → m = n' := toSys_inj
  cases hm with
  | flushStep hf =>
    obtain rfl := hto hx
    exact hf.handleStep h hlt
  | getStep hg =>
    obtain rfl := hto hx
    cases hg with
    | @openTable g sst rest hg hw hin hr =>
      refine ⟨Nat.le_refl _, h, .inl rfl, ?_⟩
      by_cases heq : name = sst.name
      · subst heq
        exact .inr (.inr ⟨_, Function.update_self _ _ _⟩)
      · exact .inl (Function.update_of_ne heq _ _)
    | _ => exact HandleStep.same h (Nat.le_refl _) (fun _ hs => hs) rfl rfl
  | write hw =>
    obtain rfl := hto hx
    cases hw with
    | torn =>
      refine HandleStep.same h (Nat.le_refl _) (fun _ hs => hs) ?_ rfl
      simp only [Node.tearWrite, Disk.tear]
      split <;> simp
    | _ => exact HandleStep.same h (Nat.le_refl _) (fun _ hs => hs) rfl rfl
  | wal hw =>
    obtain rfl := hto hx
    cases hw with
    | sync | flushSync =>
      exact HandleStep.same h (Nat.le_refl _) (fun _ hs => hs) (by simp [Node.syncActive]) rfl
    | takeSeq => exact HandleStep.same h (Nat.le_succ _) (fun _ hs => hs) rfl rfl
    | @replace c newSeq hw =>
      refine HandleStep.same h ?_ ?_ ?_ ?_ <;> cases c <;>
        first
          | exact Nat.le_refl _
          | exact fun _ hs => hs
          | rfl
          | (simp only [Node.finish, Node.replaceWriter]; split <;> simp)
    | @nothing c => cases c <;> exact HandleStep.same h (Nat.le_refl _) (fun _ hs => hs) rfl rfl
    | @createFails c => cases c <;> exact HandleStep.same h (Nat.le_refl _) (fun _ hs => hs) rfl rfl
    | _ => exact HandleStep.same h (Nat.le_refl _) (fun _ hs => hs) rfl rfl
  | handover =>
    obtain rfl := hto hx
    exact HandleStep.same h (Nat.le_refl _) (fun _ hs => hs) (by simp [Node.handover]) rfl
  | drop => simp [Node.drop, Node.toSys] at hx
  | flushEnter | workerEnter | compactNothing | compactEnter =>
    obtain rfl := hto hx
    exact HandleStep.same h (Nat.le_refl _) (fun sst hs => by simp [Node.compactEnd, FlushSection.newSst] at hs) rfl rfl
  | flush | get =>
    obtain rfl := hto hx
    exact HandleStep.same h (Nat.le_refl _) (fun _ hs => hs) rfl rfl

/-- A table handle that a `get` holds gives the records `rs`, as long as it opens. -/
structure HandleOk (n : Node Γ) (m : SstMeta) (rs : List Record) : Prop where
  seq : m.name.seq < n.eng.nextSeq
  fresh : ∀ sst, n.eng.flush.newSst = some sst → m.name ≠ sst.name
  built : ∃ f, Built Γ m f rs
  file : ∀ f, (n.disk.ssts m.name).bind Stored.cur = some f → ReadsBack Γ f rs
  reader : ∀ rd, n.eng.readers m.name = some (.ok rd) → ∀ k, rd.get k = .ok ((SortedMap.find k rs).map lookupValue)

/-- A reader that was opened reads the records of its file. -/
theorem openReader_reads {d : Disk} {name : SstName} {io : Io} {rs : List Record}
    (h : ∀ f, (d.ssts name).bind Stored.cur = some f → ReadsBack Γ f rs) {rd : SsTableReader Γ}
    (ho : openReader Γ d name io = .ok rd) : ∀ k, rd.get k = .ok ((SortedMap.find k rs).map lookupValue) := by
  unfold openReader at ho
  split at ho
  · rename_i f hf
    obtain ⟨rd', hrd', -, hget⟩ := h f hf
    simp only [hrd', Except.mapError, Except.ok.injEq] at ho
    rw [← ho]
    exact hget
  · simp at ho

/-- Every step keeps what a handle gives. -/
theorem HandleOk.step {m : SstMeta} {rs : List Record} (h : HandleOk n m rs) (hs : HandleStep n n' m.name) : HandleOk n' m rs where
  seq := h.seq.trans_le hs.next
  fresh := hs.fresh
  built := h.built
  file := by
    rcases hs.file with hf | hf
    · rw [hf]
      exact h.file
    · rw [hf]
      intro f hc
      simp at hc
  reader := by
    intro rd hrd
    rcases hs.reader with hr | hr | ⟨io, hr⟩
    · exact h.reader rd (by rw [← hr]; exact hrd)
    · simp [hr] at hrd
    · rw [hr, Option.some.injEq] at hrd
      exact openReader_reads h.file hrd

/-- A live table gives its records. -/
theorem TablesOk.handle (h : TablesOk n) (hseq : SeqUp n) {m : SstMeta} (hm : m ∈ stack n.eng.levels) :
    HandleOk n m (n.disk.records Γ m.name) := by
  obtain ⟨rs, htab⟩ := h.live m hm
  have hrs := htab.records
  obtain ⟨f, hf, hb⟩ := htab
  rw [hrs]
  refine ⟨?_, ?_, ⟨f, hb⟩, ?_, ?_⟩
  · obtain ⟨l, hl, hml⟩ := mem_stack.1 hm
    obtain ⟨i, hi⟩ := List.mem_iff_getElem?.1 hl
    rw [(hseq.levels.named i l hi m hml).2]
    exact hseq.live m hm
  · intro sst hs
    exact (hseq.newSst sst hs).name_ne_live hseq.levels m hm
  · intro f' hf'
    obtain rfl : f = f' := by simpa [hf] using hf'
    exact hb.reads
  · intro rd hrd
    have := (h.reads hm hrd).2
    rwa [hrs] at this

/-- The handle of a live table reads its records. -/
theorem DataUp.handle (h : DataUp n) {m : SstMeta} (hm : m ∈ stack n.eng.levels) : HandleOk n m (n.disk.records Γ m.name) :=
  h.tables.handle h.seq hm

/-! ## The walk of a `get` -/

/-- The immutables the `get` has still to ask, the next one first. -/
def GetWalk.imms : GetWalk → List PendingImm
  | .active _ imms _ => imms.reverse
  | .immutables imms _ => imms
  | .tables _ => []

/-- The tables the `get` has still to ask, the next one first. -/
def GetWalk.ssts : GetWalk → List SstMeta
  | .active _ _ ts | .immutables _ ts | .tables ts => ts

/-- What the `get` finds below the active MemTable of its snapshot, where the table handles give the records `R`. -/
def GetWalk.below (mems : Nat → MemTable) (R : SstMeta → List Record) (g : GetWalk) : Key → Option Value :=
  ask (g.imms.map (fun p => (mems p.mem).layer)) (ask (g.ssts.map (fun m => tableLayer (R m))) (fun _ => none))

/-- What a `get` that has yet to look into the active MemTable of its snapshot can find there: a value the key has had since. -/
def GetWalk.ActiveOk (n : Node Γ) (key : Key) (since : Nat) (belowKey : Option Value) : GetWalk → Prop
  | .active mem _ _ => mem ≤ n.eng.active ∧
      ((n.eng.mems mem).layer key = none → belowKey = n.hist.mapAt since key) ∧
      ∀ v, (n.eng.mems mem).layer key = some v → ∃ j, since ≤ j ∧ j ≤ n.hist.applied ∧ n.hist.mapAt j key = v
  | .immutables _ _ | .tables _ => belowKey = n.hist.mapAt since key

/-- Where a `get` stands: what it can still find is the value of its key at its snapshot, or in the active MemTable a later
one. -/
structure GetOk (n : Node Γ) (g : GetCall) : Prop where
  since : g.since ≤ n.hist.applied
  frozen : ∀ p ∈ g.walk.imms, p.mem < n.eng.active
  walk : ∃ R, (∀ m ∈ g.walk.ssts, HandleOk n m (R m)) ∧
    g.walk.ActiveOk n g.key g.since (g.walk.below n.eng.mems R g.key)

/-- The order in which a `get` asks the tables is the stack from the top down. -/
theorem lookupOrder_eq (levels : List (List SstMeta)) : lookupOrder levels = (stack levels).reverse := by
  simp [lookupOrder, stack, List.reverse_flatten, List.flatMap_def]

/-- The map of a running engine is what a `get` with a fresh snapshot finds. -/
theorem Engine.map_eq_ask (e : Engine Γ) (d : Disk) : e.map d = onto (e.mems e.active).layer
    ((GetWalk.active e.active e.immutables (lookupOrder e.levels)).below e.mems (fun m => d.records Γ m.name)) := by
  simp only [Engine.map, tablesMap, ontoAll_eq_ask, GetWalk.below, GetWalk.imms, GetWalk.ssts, lookupOrder_eq,
    List.map_reverse]

/-- A fresh snapshot. -/
theorem GetOk.snapshot (h : DataUp n) (key : Key) :
    GetOk n ⟨key, n.hist.applied, .active n.eng.active n.eng.immutables (lookupOrder n.eng.levels)⟩ := by
  have hmap := congrFun h.map_eq key
  rw [Engine.map_eq_ask] at hmap
  refine ⟨Nat.le_refl _, fun p hp => (h.logs.frozen p (List.mem_reverse.1 hp)).1, _,
    fun m hm => h.handle (by rw [GetWalk.ssts, lookupOrder_eq] at hm; exact List.mem_reverse.1 hm), Nat.le_refl _, ?_, ?_⟩
  · intro hnone
    rwa [onto_of_none hnone] at hmap
  · intro v hv
    rw [onto_of_some hv] at hmap
    exact ⟨_, Nat.le_refl _, Nat.le_refl _, hmap.symm⟩

/-! ### What other steps do to it -/

/-- What a step of the engine does to what a `get` reads: MemTables that are frozen stay, the active one only gains keys, and
the writes so far stay. -/
structure ReadStep (n n' : Node Γ) : Prop where
  active : n.eng.active ≤ n'.eng.active
  frozen : ∀ i < n'.eng.active, n'.eng.mems i = n.eng.mems i
  gains : ∀ k, (n'.eng.mems n.eng.active).layer k = none → (n.eng.mems n.eng.active).layer k = none
  base : n'.hist.base = n.hist.base
  log : n.hist.log <+: n'.hist.log
  applied : n.hist.applied ≤ n'.hist.applied

/-- A step that writes nothing changes nothing for those that read. -/
theorem SameWrites.readStep (h : SameWrites n n') : ReadStep n n' where
  active := h.active.ge
  frozen := fun i _ => by rw [h.mems]
  gains := fun k hk => by rwa [h.mems] at hk
  base := h.base
  log := ⟨[], by rw [h.log, List.append_nil]⟩
  applied := h.applied.ge

/-- Under the wal mutex the log grows and what was applied stays. -/
theorem WalMove.readStep (hcounts : CountsOk n) {io : Io} {r : Node Γ × Out} (hm : WalMove n io r) : ReadStep n r.1 := by
  have hid : ∀ n' : Node Γ, n'.eng.active = n.eng.active → n'.eng.mems = n.eng.mems → n'.hist.base = n.hist.base →
      n'.hist.log = n.hist.log → n'.hist.applied = n.hist.applied → ReadStep n n' := by
    intro n' h1 h2 h3 h4 h5
    exact ⟨h1.ge, fun i _ => by rw [h2], fun k hk => by rwa [h2] at hk, h3, ⟨[], by rw [h4, List.append_nil]⟩, h5.ge⟩
  have happly : ∀ w, ReadStep n (n.applyWrite w) := by
    intro w
    refine ⟨Nat.le_refl _, fun i hi => Function.update_of_ne hi.ne _ _, fun k hk => ?_, rfl, List.prefix_refl _, ?_⟩
    · simp only [Node.applyWrite, Function.update_self, layer_applyTo, Overlay.atop, Option.or_eq_none_iff] at hk
      exact hk.2
    · have := hcounts.applied
      simp only [Node.applyWrite]
      omega
  cases hm with
  | apply | applySynced => exact happly _
  | @swap c newSeq hw =>
    refine ⟨Nat.le_succ _, fun i hi => Function.update_of_ne hi.ne _ _, fun k hk => ?_, rfl, List.prefix_refl _, Nat.le_refl _⟩
    have hne : n.eng.active ≠ n.eng.active + 1 := by omega
    simpa only [Node.swapActive, Function.update_of_ne hne] using hk
  | @nothing c => cases c <;> exact hid _ rfl rfl rfl rfl rfl
  | @createFails c => cases c <;> exact hid _ rfl rfl rfl rfl rfl
  | @replace c => cases c <;> exact hid _ rfl rfl rfl rfl rfl
  | _ => exact hid _ rfl rfl rfl rfl rfl

theorem NodeMove.readStep (hcounts : CountsOk n) {a : Act} {x : Sys Γ × Out} (hm : NodeMove n a x) (hx : x.1 = n'.toSys) :
    ReadStep n n' := by
  have hto : ∀ {m : Node Γ}, m.toSys = n'.toSys → m = n' := toSys_inj
  cases ha : a.writes with
  | false => exact (hm.sameWrites ha hx).readStep
  | true =>
    cases hm with
    | write hw =>
      obtain rfl := hto hx
      cases hw <;> exact ⟨Nat.le_refl _, fun _ _ => rfl, fun _ hk => hk, rfl, by simp [Node.logWrite, Node.tearWrite],
        Nat.le_refl _⟩
    | flush hw =>
      obtain rfl := hto hx
      exact ⟨Nat.le_refl _, fun _ _ => rfl, fun _ hk => hk, rfl, List.prefix_refl _, Nat.le_refl _⟩
    | wal hw =>
      obtain rfl := hto hx
      exact hw.readStep hcounts
    | handover =>
      obtain rfl := hto hx
      exact ⟨Nat.le_refl _, fun _ _ => rfl, fun _ hk => hk, rfl, List.prefix_refl _, Nat.le_refl _⟩
    | _ => simp [Act.writes] at ha

/-- The map after the first writes stays what it was. -/
theorem ReadStep.mapAt (h : ReadStep n n') {j : Nat} (hj : j ≤ n.hist.log.length) : n'.hist.mapAt j = n.hist.mapAt j := by
  obtain ⟨t, ht⟩ := h.log
  rw [Hist.mapAt, Hist.mapAt, h.base, ← ht, List.take_append_of_le_length hj]

/-- No more writes are applied than logged. -/
theorem CountsOk.applied_le (h : CountsOk n) : n.hist.applied ≤ n.hist.log.length := by
  have := h.applied
  omega

/-- A step of another call leaves a `get` where it stands. -/
theorem GetOk.other (h : DataUp n) (h' : DataUp n') {a : Act} {x : Sys Γ × Out} (hm : NodeMove n a x) (hx : x.1 = n'.toSys)
    {g : GetCall} (hg : GetOk n g) : GetOk n' g := by
  have hr := hm.readStep h.counts hx
  obtain ⟨R, hhandles, hwalk⟩ := hg.walk
  have hle := h.counts.applied_le
  have hfrozen : ∀ p ∈ g.walk.imms, p.mem < n'.eng.active := fun p hp => (hg.frozen p hp).trans_le hr.active
  have hbelow : g.walk.below n'.eng.mems R = g.walk.below n.eng.mems R := by
    unfold GetWalk.below
    rw [List.map_congr_left (fun p hp => by rw [hr.frozen p.mem (hfrozen p hp)])]
  have hsince : n'.hist.mapAt g.since = n.hist.mapAt g.since := hr.mapAt (hg.since.trans hle)
  refine ⟨hg.since.trans hr.applied, hfrozen, R,
    fun m hm' => (hhandles m hm').step (hm.handleStep (hhandles m hm').fresh (hhandles m hm').seq hx), ?_⟩
  rw [hbelow]
  cases hw : g.walk with
  | active mem imms tables =>
    rw [hw] at hwalk
    obtain ⟨h1, h2, h3⟩ := hwalk
    refine ⟨h1.trans hr.active, fun hnone => ?_, fun v hv => ?_⟩
    · rw [hsince]
      apply h2
      rcases h1.lt_or_eq with hlt | heq
      · rwa [hr.frozen mem (hlt.trans_le hr.active)] at hnone
      · rw [heq] at hnone ⊢
        exact hr.gains _ hnone
    · rcases (h1.trans hr.active).lt_or_eq with hlt | heq
      · rw [hr.frozen mem hlt] at hv
        obtain ⟨j, hj, hj', hval⟩ := h3 v hv
        exact ⟨j, hj, hj'.trans hr.applied, by rw [hr.mapAt (hj'.trans hle)]; exact hval⟩
      · -- in the active MemTable of the engine stands the value the key has now
        have hmap := congrFun h'.map_eq g.key
        rw [Engine.map, ← heq, onto_of_some hv] at hmap
        exact ⟨_, hg.since.trans hr.applied, Nat.le_refl _, hmap.symm⟩
  | immutables imms tables => rw [hw] at hwalk; rw [GetWalk.ActiveOk, hsince]; exact hwalk
  | tables tables => rw [hw] at hwalk; rw [GetWalk.ActiveOk, hsince]; exact hwalk

/-! ### What its own steps do -/

/-- A key outside the range of a table is not in it. -/
theorem Built.find_outside {m : SstMeta} {f : SstFile} {rs : List Record} (h : Built Γ m f rs) {k : Key}
    (hk : k < m.min ∨ m.max < k) : SortedMap.find k rs = none := by
  rw [SortedMap.find_eq_none]
  intro b hb heq
  rcases hk with hk | hk
  · obtain ⟨x, rest, rfl⟩ := List.exists_cons_of_ne_nil h.nonempty
    have hfirst : x.1 = m.min := by simpa using h.first
    rcases List.mem_cons.1 hb with rfl | hb
    · exact absurd hk (by rw [← hfirst, heq]; exact lt_irrefl _)
    · have := (List.pairwise_cons.1 h.sorted).1 b hb
      exact absurd (this.trans (heq ▸ hk)) (by rw [hfirst]; exact lt_irrefl _)
  · obtain ⟨rest, x, rfl⟩ := List.eq_nil_or_concat rs |>.resolve_left h.nonempty
    rw [List.concat_eq_append] at h hb
    have hlast : x.1 = m.max := by simpa using h.last
    rcases List.mem_append.1 hb with hb | hb
    · have := (List.pairwise_append.1 h.sorted).2.2 b hb x (List.mem_singleton_self x)
      exact absurd (this.trans (hlast ▸ hk)) (by rw [heq]; exact lt_irrefl _)
    · rw [List.mem_singleton.1 hb] at heq
      exact absurd hk (by rw [← hlast, heq]; exact lt_irrefl _)

/-- What a lookup finds shows what the record shows. -/
theorem visible_lookupValue (r : Value × Bool) : visibleRecord r = (lookupValue r).visible := by
  unfold visibleRecord lookupValue
  cases r.2 <;> rfl

/-- A `get` that walks on stands where it should. -/
theorem GetMove.walks (hall : ∀ g ∈ n.eng.gets, GetOk n g) {i : Nat} {io : Io} {r : Node Γ × Out} (hm : GetMove n i io r) :
    ∀ g ∈ r.1.eng.gets, GetOk n g := by
  have hanswer : ∀ (g : GetCall) (res : Except LsmError (Option Value)), ∀ g' ∈ (n.answer i g res).1.eng.gets, GetOk n g' :=
    fun g res g' hg' => hall g' (List.mem_of_mem_eraseIdx hg')
  have hwalkOn : ∀ (g : GetCall) (walk : GetWalk), GetOk n { g with walk := walk } →
      ∀ g' ∈ (n.walkOn i g walk).1.eng.gets, GetOk n g' := by
    intro g walk hg g' hg'
    rcases List.mem_or_eq_of_mem_set hg' with hg' | rfl
    · exact hall g' hg'
    · exact hg
  -- what is left to ask answers as before where the part just asked does not know the key
  have hnext : ∀ (g : GetCall) (walk : GetWalk), GetOk n g → (∀ p ∈ walk.imms, p ∈ g.walk.imms) →
      (∀ m ∈ walk.ssts, m ∈ g.walk.ssts) →
      (∀ R, (∀ m ∈ g.walk.ssts, HandleOk n m (R m)) → g.walk.ActiveOk n g.key g.since (g.walk.below n.eng.mems R g.key) →
        walk.ActiveOk n g.key g.since (walk.below n.eng.mems R g.key)) → GetOk n { g with walk := walk } := by
    intro g walk hg himms hssts hbelow
    obtain ⟨R, hhandles, hwalk⟩ := hg.walk
    exact ⟨hg.since, fun p hp => hg.frozen p (himms p hp), R, fun m hm => hhandles m (hssts m hm), hbelow R hhandles hwalk⟩
  cases hm with
  | activeHit | immHit | tablesEnd | fails | tableHit => exact hanswer _ _
  | openTable => exact hall
  | @activeMiss g mem imms tables hg hw he =>
    refine hwalkOn g _ (hnext g _ (hall g (List.mem_of_getElem? hg)) (by rw [hw]; exact fun _ hp => hp)
      (by rw [hw]; exact fun _ hp => hp) (fun R _ h => ?_))
    rw [hw] at h
    exact h.2.1 (by rw [MemTable.layer, he]; rfl)
  | @immMiss g p imms tables hg hw he =>
    refine hwalkOn g _ (hnext g _ (hall g (List.mem_of_getElem? hg))
      (by rw [hw]; exact fun _ hp => List.mem_cons_of_mem _ hp) (by rw [hw]; exact fun _ hp => hp) (fun R _ h => ?_))
    rw [hw] at h
    have hnone : (n.eng.mems p.mem).layer g.key = none := by rw [MemTable.layer, he]; rfl
    rw [GetWalk.ActiveOk, GetWalk.below, GetWalk.imms, List.map_cons, ask_cons, onto_of_none hnone] at h
    exact h
  | @immEnd g tables hg hw =>
    refine hwalkOn g _ (hnext g _ (hall g (List.mem_of_getElem? hg)) (by rw [hw]; exact fun _ hp => hp)
      (by rw [hw]; exact fun _ hp => hp) (fun R _ h => ?_))
    rw [hw] at h
    exact h
  | @skip g sst rest hg hw hr =>
    refine hwalkOn g _ (hnext g _ (hall g (List.mem_of_getElem? hg)) (by rw [hw]; exact fun _ hp => hp)
      (by rw [hw]; exact fun _ hp => List.mem_cons_of_mem _ hp) (fun R hh h => ?_))
    rw [hw] at h hh
    obtain ⟨f, hb⟩ := (hh sst List.mem_cons_self).built
    have hnone : tableLayer (R sst) g.key = none := by rw [tableLayer, hb.find_outside hr]; rfl
    rw [GetWalk.ActiveOk, GetWalk.below, GetWalk.ssts, List.map_cons, ask_cons, GetWalk.imms, List.map_nil, ask_nil,
      onto_of_none hnone] at h
    exact h
  | @tableMiss g sst rest rd hg hw hin hr hf =>
    refine hwalkOn g _ (hnext g _ (hall g (List.mem_of_getElem? hg)) (by rw [hw]; exact fun _ hp => hp)
      (by rw [hw]; exact fun _ hp => List.mem_cons_of_mem _ hp) (fun R hh h => ?_))
    rw [hw] at h hh
    have hget := (hh sst List.mem_cons_self).reader rd hr g.key
    rw [hf, Except.ok.injEq, eq_comm, Option.map_eq_none_iff] at hget
    have hnone : tableLayer (R sst) g.key = none := by rw [tableLayer, hget]; rfl
    rw [GetWalk.ActiveOk, GetWalk.below, GetWalk.ssts, List.map_cons, ask_cons, GetWalk.imms, List.map_nil, ask_nil,
      onto_of_none hnone] at h
    exact h

/-- A `get` that returns `Ok` returns a value its key has had since its snapshot. -/
theorem GetMove.answers (hall : ∀ g ∈ n.eng.gets, GetOk n g) {i : Nat} {io : Io} {r : Node Γ × Out} (hm : GetMove n i io r)
    {k : Key} {since : Nat} {v : Option Value} (ho : r.2 = .got k since (.ok v)) :
    ∃ j, since ≤ j ∧ j ≤ n.hist.applied ∧ n.hist.mapAt j k = v := by
  have hanswer : ∀ (g : GetCall) (v' : Option Value), g ∈ n.eng.gets → Out.got g.key g.since (.ok v') = .got k since (.ok v) →
      (GetOk n g → ∃ j, g.since ≤ j ∧ j ≤ n.hist.applied ∧ n.hist.mapAt j g.key = v') →
      ∃ j, since ≤ j ∧ j ≤ n.hist.applied ∧ n.hist.mapAt j k = v := by
    intro g v' hg heq hj
    simp only [Out.got.injEq, Except.ok.injEq] at heq
    obtain ⟨rfl, rfl, rfl⟩ := heq
    exact hj (hall g hg)
  cases hm with
  | activeMiss | immMiss | immEnd | skip | openTable | tableMiss => simp [Node.walkOn] at ho
  | fails => simp [Node.answer] at ho
  | @activeHit g mem imms tables entry hg hw he =>
    refine hanswer g _ (List.mem_of_getElem? hg) ho (fun hok => ?_)
    obtain ⟨R, -, h⟩ := hok.walk
    rw [hw] at h
    exact h.2.2 _ (by rw [MemTable.layer, he]; rfl)
  | @immHit g p imms tables entry hg hw he =>
    refine hanswer g _ (List.mem_of_getElem? hg) ho (fun hok => ?_)
    obtain ⟨R, -, h⟩ := hok.walk
    have hsome : (n.eng.mems p.mem).layer g.key = some entry.visible := by rw [MemTable.layer, he]; rfl
    rw [hw, GetWalk.ActiveOk, GetWalk.below, GetWalk.imms, List.map_cons, ask_cons, onto_of_some hsome] at h
    exact ⟨g.since, Nat.le_refl _, hok.since, h.symm⟩
  | @tablesEnd g hg hw =>
    refine hanswer g _ (List.mem_of_getElem? hg) ho (fun hok => ?_)
    obtain ⟨R, -, h⟩ := hok.walk
    rw [hw] at h
    exact ⟨g.since, Nat.le_refl _, hok.since, h.symm⟩
  | @tableHit g sst rest rd found hg hw hin hr hf =>
    refine hanswer g _ (List.mem_of_getElem? hg) ho (fun hok => ?_)
    obtain ⟨R, hh, h⟩ := hok.walk
    rw [hw] at h hh
    have hget := (hh sst List.mem_cons_self).reader rd hr g.key
    rw [hf, Except.ok.injEq, eq_comm, Option.map_eq_some_iff] at hget
    obtain ⟨rec, hfind, rfl⟩ := hget
    have hsome : tableLayer (R sst) g.key = some (visibleRecord rec) := by rw [tableLayer, hfind]; rfl
    rw [GetWalk.ActiveOk, GetWalk.below, GetWalk.ssts, List.map_cons, ask_cons, GetWalk.imms, List.map_nil, ask_nil,
      onto_of_some hsome, visible_lookupValue] at h
    exact ⟨g.since, Nat.le_refl _, hok.since, h.symm⟩

/-- The calls in progress after a step of a `get` were in progress before. -/
theorem GetMove.began {i : Nat} {io : Io} {r : Node Γ × Out} (hm : GetMove n i io r) :
    ∀ g ∈ r.1.eng.gets, ∃ g' ∈ n.eng.gets, g'.since = g.since ∧ g'.key = g.key := by
  have hanswer : ∀ (g : GetCall) (res : Except LsmError (Option Value)), ∀ g' ∈ (n.answer i g res).1.eng.gets,
      ∃ g'' ∈ n.eng.gets, g''.since = g'.since ∧ g''.key = g'.key :=
    fun g res g' hg' => ⟨g', List.mem_of_mem_eraseIdx hg', rfl, rfl⟩
  have hwalk : ∀ {g : GetCall} (walk : GetWalk), n.eng.gets[i]? = some g → ∀ g' ∈ (n.walkOn i g walk).1.eng.gets,
      ∃ g'' ∈ n.eng.gets, g''.since = g'.since ∧ g''.key = g'.key := by
    intro g walk hg g' hg'
    rcases List.mem_or_eq_of_mem_set hg' with hg' | rfl
    · exact ⟨g', hg', rfl, rfl⟩
    · exact ⟨g, List.mem_of_getElem? hg, rfl, rfl⟩
  cases hm with
  | activeHit | immHit | tablesEnd | fails | tableHit => exact hanswer _ _
  | openTable => exact fun g hg => ⟨g, hg, rfl, rfl⟩
  | activeMiss hg | immMiss hg | immEnd hg | skip hg | tableMiss hg => exact hwalk _ hg

/-- Every `get` in progress stands where it should. -/
def Reading (n : Node Γ) : Prop := ∀ g ∈ n.eng.gets, GetOk n g

/-- An action leaves the `get`s in progress, begins one, or is a step of one. -/
theorem NodeMove.gets {a : Act} {x : Sys Γ × Out} (hm : NodeMove n a x) (hx : x.1 = n'.toSys) :
    n'.eng.gets = n.eng.gets ∨ (∃ key, n' = (n.get key).1) ∨ ∃ i io, ∃ r : Node Γ × Out, GetMove n i io r ∧ n' = r.1 := by
  have hto : ∀ {m : Node Γ}, m.toSys = n'.toSys → m = n' := toSys_inj
  cases hm with
  | @get key => exact .inr (.inl ⟨key, (hto hx).symm⟩)
  | @getStep i io r h => exact .inr (.inr ⟨i, io, r, h, (hto hx).symm⟩)
  | write hw =>
    obtain rfl := hto hx
    cases hw <;> exact .inl rfl
  | wal hw =>
    obtain rfl := hto hx
    left
    cases hw with
    | @nothing c => cases c <;> rfl
    | @createFails c => cases c <;> rfl
    | @replace c => cases c <;> rfl
    | _ => rfl
  | flushStep hf =>
    obtain rfl := hto hx
    left
    cases hf with
    | @nothing c | @unbuilt c | @buildFails c | @manifestFailsFlush c | @flushDone c => cases c <;> rfl
    | _ => rfl
  | flush | flushEnter | workerEnter | compactNothing | compactEnter | handover =>
    obtain rfl := hto hx
    exact .inl rfl
  | drop => simp [Node.drop, Node.toSys] at hx

/-- Every action keeps the `get`s in progress on their way. -/
theorem Reading.nodeMove (hr : Reading n) (h : DataUp n) (h' : DataUp n') {a : Act} {x : Sys Γ × Out} (hm : NodeMove n a x)
    (hx : x.1 = n'.toSys) : Reading n' := by
  intro g hg
  refine GetOk.other h h' hm hx ?_
  rcases hm.gets hx with heq | ⟨key, rfl⟩ | ⟨i, io, r, hmove, rfl⟩
  · rw [heq] at hg
    exact hr g hg
  · simp only [Node.get, List.mem_append, List.mem_singleton] at hg
    rcases hg with hg | rfl
    · exact hr g hg
    · exact GetOk.snapshot h key
  · exact hmove.walks hr g hg

/-! ## No handle is spoilt -/

/-- The `OnceLock` of a live table has not been set to an error. -/
def ReadersOk (n : Node Γ) : Prop := ∀ m ∈ stack n.eng.levels, ∀ e, n.eng.readers m.name ≠ some (.error e)

/-- The reader of a table in order can be opened. -/
theorem TableOf.openReader_ok {d : Disk} {m : SstMeta} {rs : List Record} (h : TableOf Γ d m rs) (e : String) :
    openReader Γ d m.name .ok ≠ .error e := by
  obtain ⟨f, hf, hb⟩ := h
  obtain ⟨rd, hrd, -⟩ := hb.reads
  simp [openReader, hf, hrd, Except.mapError]

/-- The handle that an open sets is the one that keeps an error now, or it kept it before. -/
theorem readers_update {name name' : SstName} {io : Io} {e : String}
    (he : Function.update n.eng.readers name (some (openReader Γ n.disk name io)) name' = some (.error e)) :
    n.eng.readers name' = some (.error e) ∨ (name' = name ∧ openReader Γ n.disk name' io = .error e) := by
  by_cases heq : name' = name
  · subst heq
    rw [Function.update_self, Option.some.injEq] at he
    exact .inr ⟨rfl, he⟩
  · rw [Function.update_of_ne heq] at he
    exact .inl he

/-- A live table whose handle keeps an error after a step was live before it, and its handle kept the error; or the step is the
first open of the table, and that fails. -/
theorem NodeMove.spoils (hseq : SeqUp n) {a : Act} {x : Sys Γ × Out} (hm : NodeMove n a x) (hx : x.1 = n'.toSys) {m : SstMeta}
    (hlive : m ∈ stack n'.eng.levels) {e : String} (he : n'.eng.readers m.name = some (.error e)) :
    m ∈ stack n.eng.levels ∧ (n.eng.readers m.name = some (.error e) ∨ ∃ io, n.eng.readers m.name = none ∧
      openReader Γ n.disk m.name io = .error e ∧ ((a = .flushStep io ∧ n.opensReader = true) ∨ ∃ i, a = .getStep i io)) := by
  have hto : ∀ {m : Node Γ}, m.toSys = n'.toSys → m = n' := toSys_inj
  cases hm with
  | flushStep hf =>
    obtain rfl := hto hx
    cases hf with
    | @readOpen inputs todo sst runs hf hr =>
      refine ⟨hlive, (readers_update he).imp_right ?_⟩
      rintro ⟨hname, ho⟩
      exact ⟨_, by rw [hname, hr], ho, .inl ⟨rfl, by simp [Node.opensReader, hf, hr]⟩⟩
    | @commit c fl p sst hf hl =>
      have hfresh := hseq.newSst sst (by rw [hf]; rfl)
      rw [show (n.commitFlush c fl p sst).eng.levels = flushedLevels n.eng.levels sst from rfl,
        stack_flushedLevels hfresh.live, List.mem_append, List.mem_singleton] at hlive
      simp only [Node.commitFlush] at he
      rcases hlive with hlive | rfl
      · rw [Function.update_of_ne (hfresh.name_ne_live hseq.levels m hlive)] at he
        exact ⟨hlive, .inl he⟩
      · simp at he
    | @install inputs output hf hl =>
      rw [show (n.commitCompaction inputs output).eng.levels = Node.compactedLevels n.eng.levels output from rfl,
        stack_compacted hseq.levels.len, Option.mem_toList] at hlive
      obtain rfl := hlive
      simp [Node.commitCompaction] at he
    | @nothing c | @unbuilt c | @buildFails c | @manifestFailsFlush c | @flushDone c => cases c <;> exact ⟨hlive, .inl he⟩
    | _ => exact ⟨hlive, .inl he⟩
  | @getStep i io _ hg =>
    obtain rfl := hto hx
    cases hg with
    | openTable _ _ _ hr =>
      refine ⟨hlive, (readers_update he).imp_right ?_⟩
      rintro ⟨hname, ho⟩
      exact ⟨io, by rw [hname, hr], ho, .inr ⟨i, rfl⟩⟩
    | _ => exact ⟨hlive, .inl he⟩
  | write hw =>
    obtain rfl := hto hx
    cases hw <;> exact ⟨hlive, .inl he⟩
  | wal hw =>
    obtain rfl := hto hx
    cases hw with
    | @nothing c | @createFails c | @replace c => cases c <;> exact ⟨hlive, .inl he⟩
    | _ => exact ⟨hlive, .inl he⟩
  | flush | flushEnter | workerEnter | compactNothing | compactEnter | get | handover =>
    obtain rfl := hto hx
    exact ⟨hlive, .inl he⟩
  | drop => simp [Node.drop, Node.toSys] at hx

/-- A harmless action spoils no reader. -/
theorem ReadersOk.nodeMove (h : ReadersOk n) (hdata : DataUp n) {a : Act} (ha : n.Harmless a) {x : Sys Γ × Out}
    (hm : NodeMove n a x) (hx : x.1 = n'.toSys) : ReadersOk n' := by
  intro m hlive e he
  obtain ⟨hlive, hold | ⟨io, -, ho, hwhich⟩⟩ := hm.spoils hdata.seq hx hlive he
  · exact h m hlive e hold
  · obtain ⟨rs, htab⟩ := hdata.tables.live m hlive
    -- nothing that would spoil a reader fails
    have hio : io = .ok := by
      rcases hwhich with ⟨rfl, hopens⟩ | ⟨i, rfl⟩
      · exact ha.resolve_right (fun hc => by simp [hopens] at hc)
      · exact ha
    exact htab.openReader_ok e (hio ▸ ho)

end LsmEngine
