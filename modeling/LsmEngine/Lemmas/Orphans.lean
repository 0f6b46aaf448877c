import LsmEngine.Lemmas.Calls
import LsmEngine.Lemmas.Others
import Mathlib.Data.List.Find

/-!
# Steps beside other files

Every step of the system, with other files where it does not look: the same step, and what it reads afterwards is still the same. Most
steps touch no table file and read no more than before; the holder of `flush_lock` and a crash are the others.
-/

namespace LsmEngine

open Overlay Transition

variable {Γ : Ctx} {n n' : Node Γ} {s t : Sys Γ} {o : Opening} {x : Others} {name : SstName}

/-! ## A running engine -/

/-- The other files after an action on a running engine. -/
def Node.after (n : Node Γ) (x : Others) : Act → Others
  | .flushStep io => n.eng.flush.after n.disk x io
  | _ => x

/-- Other files beside a node are other files beside its system. -/
theorem lift_map_besides (o : Option (Node Γ × Out)) (y : Others) :
    Node.lift (o.map (besides y)) = (Node.lift o).map (fun r => (r.1.withOthers y, r.2)) := by
  cases o <;> rfl

/-- An action on a running engine does beside other files what it does without them. -/
theorem Node.act_withOthers (h : n.Fits x) (a : Act) :
    (n.withOthers x).act a = (n.act a).map (fun r => (r.1.withOthers (n.after x a), r.2)) := by
  cases a with
  | write w io => exact (congrArg lift (write_withOthers n x w io)).trans (lift_map_besides _ _)
  | flush => exact (congrArg lift (flush_withOthers n x)).trans (lift_map_besides _ _)
  | walStep io => exact (congrArg lift (walStep_withOthers n x io)).trans (lift_map_besides _ _)
  | flushEnter i => exact (congrArg lift (flushEnter_withOthers n x i)).trans (lift_map_besides _ _)
  | workerEnter => exact (congrArg lift (workerEnter_withOthers n x)).trans (lift_map_besides _ _)
  | compactEnter => exact (congrArg lift (compactEnter_withOthers n x)).trans (lift_map_besides _ _)
  | flushStep io => exact (congrArg lift (flushStep_withOthers h io)).trans (lift_map_besides _ _)
  | get key => rfl
  | getStep i io => exact (congrArg lift (getStep_withOthers h i io)).trans (lift_map_besides _ _)
  | handover k => exact congrArg (fun m : Node Γ => lift (some (m, Out.silent))) (handover_withOthers n x k)
  | drop io =>
    have hquiet : (n.withOthers x).quiet = n.quiet := rfl
    simp only [act, hquiet, drop_withOthers]
    split <;> rfl
  | openDir options => rfl
  | openStep io => rfl
  | crash κ => rfl

/-! ## Opening -/

/-- The tables of the manifest that an open loads are listed on the disk. -/
theorem loadManifest_listed {d : Disk} {m : Manifest} (h : loadManifest d = .ok m) :
    ∀ sst ∈ m.levels.flatten, sst ∈ listed d.manifest := by
  unfold loadManifest at h
  intro sst hsst
  cases hf : d.manifest with
  | none =>
    rw [hf] at h
    obtain rfl := Except.ok.inj h
    simp at hsst
  | some f =>
    rw [hf] at h
    dsimp only at h
    cases hc : f.cur with
    | none => simp [hc] at h
    | some m' =>
      simp only [hc, bind, Except.bind, pure, Except.pure] at h
      split at h
      · simp at h
      · obtain rfl := Except.ok.inj h
        exact mem_listed.2 ⟨f, m', rfl, .inl hc, hsst⟩

/-- An open reads the same beside other files, where the files of the listed tables are the same. -/
theorem recover_withOthers {d : Disk} (h : ∀ m ∈ listed d.manifest, x.ssts m.name = d.ssts m.name) :
    recover Γ (d.withOthers x) = recover Γ d := by
  have hload : loadManifest (d.withOthers x) = loadManifest d := rfl
  unfold recover
  rw [hload]
  cases hl : loadManifest d with
  | error err => rfl
  | ok m =>
    have hmissing : missingSst (d.withOthers x) m.levels = missingSst d m.levels := by
      unfold missingSst
      refine List.find?_congr (fun sst hsst => ?_)
      rw [show (d.withOthers x).ssts sst.name = d.ssts sst.name from h sst (loadManifest_listed hl sst hsst)]
    simp only [bind, Except.bind, hmissing]
    rfl

/-- The tables that an open has read are listed on the disk. -/
theorem recover_listed {d : Disk} {r : Recovered} (h : recover Γ d = .ok r) : ∀ sst ∈ r.levels.flatten, sst ∈ listed d.manifest := by
  unfold recover at h
  cases hl : loadManifest d with
  | error err => simp [hl, bind, Except.bind] at h
  | ok m =>
    simp only [hl, bind, Except.bind] at h
    split at h
    · simp [throw, throwThe, MonadExceptOf.throw] at h
    · split at h
      · simp at h
      · obtain rfl := Except.ok.inj h
        exact loadManifest_listed hl

/-- What an open has read stands for the same map beside other files. -/
theorem Recovered.map_withOthers {d : Disk} {r : Recovered} (h : ∀ m ∈ r.levels.flatten, x.ssts m.name = d.ssts m.name) :
    r.map Γ (d.withOthers x) = r.map Γ d := by
  unfold Recovered.map
  rw [tablesMap_congr (fun m hm => ?_)]
  obtain ⟨l, hl, hml⟩ := mem_stack.1 hm
  exact h m (List.mem_flatten.2 ⟨l, hl, hml⟩)

/-- The hand-over of buffered bytes during an open looks at no table. -/
theorem Opening.handover_withOthers (s : Sys Γ) (x : Others) (o : Opening) (k : Nat) :
    o.handover (s.withOthers x) k = (o.handover s k).withOthers x := by
  unfold handover
  cases o.stage with
  | appending r todo =>
    dsimp only
    rw [show (s.withOthers x).disk = s.disk.withOthers x from rfl, Disk.appendWal_withOthers]
    rfl
  | _ => rfl

/-- A step of an open does beside other files what it does without them. -/
theorem openStep_withOthers (h : s.Fits x) (hp : s.proc = .opening o) (io : Io) :
    openStep Γ (s.withOthers x) o io = (openStep Γ s o io).map (fun r => (r.1.withOthers x, r.2)) := by
  have hlisted : ∀ m ∈ listed s.disk.manifest, x.ssts m.name = s.disk.ssts m.name :=
    fun m hm => h.ssts _ ⟨m, List.mem_append_left _ hm, rfl⟩
  have hread : ∀ r, o.stage.read = some r → ∀ m ∈ r.levels.flatten, x.ssts m.name = s.disk.ssts m.name := by
    intro r hr m hm
    refine h.ssts _ ⟨m, List.mem_append_right _ ?_, rfl⟩
    rw [hp]
    exact List.mem_flatMap.2 ⟨r, by rw [hr]; exact List.mem_singleton_self r, hm⟩
  have hdisk : (s.withOthers x).disk = s.disk.withOthers x := rfl
  unfold openStep
  rw [hdisk]
  cases hst : o.stage with
  | loading =>
    dsimp only
    rw [recover_withOthers hlisted]
    cases io with
    | fail k => rfl
    | ok => cases recover Γ s.disk <;> rfl
  | creating r => cases io <;> rfl
  | appending r todo =>
    cases todo with
    | nil =>
      cases io with
      | fail k => rfl
      | ok =>
        dsimp only
        rw [Disk.appendWal_withOthers, Disk.syncWal_withOthers]
        rfl
    | cons w todo =>
      dsimp only
      cases encodeEntry Γ w.op w.key w.value [] with
      | error err => rfl
      | ok frame =>
        cases io with
        | ok => rfl
        | fail written =>
          dsimp only
          rw [Disk.tear_withOthers]
          split <;> rfl
  | removing r todo =>
    cases todo with
    | nil =>
      cases io with
      | fail k => rfl
      | ok =>
        dsimp only
        rw [Recovered.map_withOthers (hread r (by rw [hst]; rfl))]
        rfl
    | cons w todo => cases io <;> rfl

/-! ## Steps that touch no table file -/

/-- A step that leaves the table files alone and reads no others than before. -/
structure Sys.Aside (s t : Sys Γ) : Prop where
  disk : LogsApart s.disk t.disk
  needs : ∀ m ∈ t.proc.needs, m ∈ listed s.disk.manifest ++ s.proc.needs
  flush : ∀ e', t.proc = .up e' →
    (∃ e, s.proc = .up e ∧ e'.flush = e.flush) ∨ ((∀ d, e'.flush.Lists d) ∧ ∀ d x, e'.flush.Same d x)

/-- What the holder of `flush_lock` has written is the same after a change of the logs. -/
theorem FlushSection.Same.congr {d d' : Disk} {fl : FlushSection} (h : fl.Same d x) (hd : LogsApart d d') : fl.Same d' x := by
  cases fl with
  | building c fl p sst file st | merging inputs sst file st => exact fun hst => (h hst).trans (congrFun hd.sstTmps.symm _)
  | manifest after m st => exact fun hst => (h hst).trans hd.manifestTmp.symm
  | _ => trivial

/-- The MANIFEST it is writing lists the same after a change of the logs. -/
theorem FlushSection.Lists.congr {d d' : Disk} {fl : FlushSection} (h : fl.Lists d) (hd : LogsApart d d') : fl.Lists d' := by
  cases fl with
  | manifest after m st =>
    intro hst
    rw [hd.manifestTmp]
    exact h hst
  | _ => trivial

/-- A change aside of the tables adds no table to those that are read. -/
theorem Sys.Aside.reads (h : s.Aside t) (hr : t.Reads name) : s.Reads name := by
  obtain ⟨m, hm, rfl⟩ := hr
  rw [h.disk.manifest] at hm
  rcases List.mem_append.1 hm with hm | hm
  · exact ⟨m, List.mem_append_left _ hm, rfl⟩
  · exact ⟨m, h.needs m hm, rfl⟩

/-- After a change aside of the tables the other files still fit. -/
theorem Sys.Aside.fits (h : s.Aside t) (hx : s.Fits x) : t.Fits x where
  ssts name hr := by
    rw [h.disk.ssts]
    exact hx.ssts name (h.reads hr)
  lists e' he' := by
    rcases h.flush e' he' with ⟨e, he, hfl⟩ | ⟨hlists, -⟩
    · rw [hfl]
      exact (hx.lists e he).congr h.disk
    · exact hlists _
  tmp e' he' := by
    rcases h.flush e' he' with ⟨e, he, hfl⟩ | ⟨-, hsame⟩
    · rw [hfl]
      exact (hx.tmp e he).congr h.disk
    · exact hsame _ _

/-- The tables an engine needs are those of its levels, of the `get`s in progress and of the holder of `flush_lock`. -/
theorem mem_needs {e : Engine Γ} {m : SstMeta} :
    m ∈ e.needs ↔ m ∈ e.levels.flatten ∨ (∃ g ∈ e.gets, m ∈ g.walk.ssts) ∨ m ∈ e.flush.needs := by
  simp only [Engine.needs, List.mem_append, List.mem_flatMap, or_assoc]

/-- A step of a `get` adds no table to those that are still to be asked. -/
theorem GetMove.looks {i : Nat} {io : Io} {r : Node Γ × Out} (hm : GetMove n i io r) :
    ∀ g ∈ r.1.eng.gets, ∀ m ∈ g.walk.ssts, ∃ g' ∈ n.eng.gets, m ∈ g'.walk.ssts := by
  intro g hg m hmem
  have hon : ∀ {g' : GetCall} {walk : GetWalk}, n.eng.gets[i]? = some g' → (∀ m ∈ walk.ssts, m ∈ g'.walk.ssts) →
      g ∈ n.eng.gets.set i { g' with walk := walk } → ∃ g' ∈ n.eng.gets, m ∈ g'.walk.ssts := by
    intro g' walk hi hsub hg
    rcases List.mem_or_eq_of_mem_set hg with hg | rfl
    · exact ⟨g, hg, hmem⟩
    · exact ⟨g', List.mem_of_getElem? hi, hsub m hmem⟩
  cases hm with
  | activeHit | immHit | tablesEnd | fails | tableHit => exact ⟨g, List.mem_of_mem_eraseIdx hg, hmem⟩
  | openTable => exact ⟨g, hg, hmem⟩
  | activeMiss hi hw | immMiss hi hw | immEnd hi hw =>
    refine hon hi (fun m hm => ?_) hg
    rw [hw]
    exact hm
  | skip hi hw | tableMiss hi hw =>
    refine hon hi (fun m hm => ?_) hg
    rw [hw]
    exact List.mem_cons_of_mem _ hm

/-- A running engine whose levels stay, and whose `get` calls look where they did or in the levels. -/
theorem Node.aside (hd : LogsApart n.disk n'.disk) (hlev : n'.eng.levels = n.eng.levels)
    (hgets : ∀ g ∈ n'.eng.gets, ∀ m ∈ g.walk.ssts, m ∈ n.eng.levels.flatten ∨ ∃ g' ∈ n.eng.gets, m ∈ g'.walk.ssts)
    (hfl : n'.eng.flush = n.eng.flush ∨ ((∀ m ∈ n'.eng.flush.needs, m ∈ n.eng.levels.flatten) ∧
      (∀ d, n'.eng.flush.Lists d) ∧ ∀ d x, n'.eng.flush.Same d x)) : n.toSys.Aside n'.toSys where
  disk := hd
  needs m hm := by
    refine List.mem_append_right _ (mem_needs.2 ?_)
    rcases mem_needs.1 hm with hm | ⟨g, hg, hm⟩ | hm
    · exact .inl (hlev ▸ hm)
    · exact (hgets g hg m hm).imp_right .inl
    · rcases hfl with hfl | ⟨hneeds, -⟩
      · exact .inr (.inr (hfl ▸ hm))
      · exact .inl (hneeds m hm)
  flush e' he' := by
    obtain rfl := Proc.up.inj he'
    exact hfl.imp (fun hfl => ⟨n.eng, rfl, hfl⟩) (fun h => h.2)

/-- The actions that can touch a table file. -/
def Act.touchesTables : Act → Bool
  | .flushStep _ | .crash _ => true
  | _ => false

/-- An action on a running engine that touches no table is a change aside of them. -/
theorem NodeMove.aside {a : Act} (ha : a.touchesTables = false) {r : Sys Γ × Out} (hm : NodeMove n a r) : n.toSys.Aside r.1 := by
  have hkept : ∀ g ∈ n.eng.gets, ∀ m ∈ g.walk.ssts, m ∈ n.eng.levels.flatten ∨ ∃ g' ∈ n.eng.gets, m ∈ g'.walk.ssts :=
    fun g hg m hm => .inr ⟨g, hg, hm⟩
  cases hm with
  | flushStep => simp [Act.touchesTables] at ha
  | write hw =>
    have hapart := hw.logsApart
    cases hw <;> exact (Node.aside hapart rfl hkept (.inl rfl))
  | flush => exact (Node.aside (.refl _) rfl hkept (.inl rfl))
  | wal hw =>
    obtain ⟨hlev, hfl, -⟩ := hw.leaves
    exact (Node.aside hw.logsApart hlev (by rw [hw.same_log.2.2]; exact hkept) (.inl hfl))
  | flushEnter | workerEnter =>
    exact (Node.aside (.refl _) rfl hkept (.inr ⟨by simp [FlushSection.needs], fun _ => trivial, fun _ _ => trivial⟩))
  | compactNothing =>
    exact (Node.aside (.refl _) rfl hkept
      (.inr ⟨by simp [Node.compactEnd, FlushSection.needs], fun _ => trivial, fun _ _ => trivial⟩))
  | compactEnter =>
    refine (Node.aside (.refl _) rfl hkept (.inr ⟨fun m hm => ?_, fun _ => trivial, fun _ _ => trivial⟩))
    have hin : m ∈ (n.eng.levels.take 2).flatten := (List.mem_append.1 hm).elim id id
    obtain ⟨l, hl, hml⟩ := List.mem_flatten.1 hin
    exact List.mem_flatten.2 ⟨l, List.mem_of_mem_take hl, hml⟩
  | get =>
    refine (Node.aside (.refl _) rfl (fun g hg m hm => ?_) (.inl rfl))
    rcases List.mem_append.1 hg with hg | hg
    · exact hkept g hg m hm
    · obtain rfl := List.mem_singleton.1 hg
      obtain ⟨l, hl, hml⟩ := List.mem_flatMap.1 hm
      exact .inl (List.mem_flatten.2 ⟨l, hl, List.mem_reverse.1 hml⟩)
  | getStep hg =>
    have hlooks := hg.looks
    cases hg <;> exact (Node.aside (.refl _) rfl (fun g hg m hm => .inr (hlooks g hg m hm)) (.inl rfl))
  | handover => exact (Node.aside (.appendWal _ _ _) rfl hkept (.inl rfl))
  | @drop io =>
    refine ⟨?_, by simp [Node.drop, Proc.needs], by simp [Node.drop]⟩
    unfold Node.drop
    dsimp only
    split
    · exact (LogsApart.appendWal _ _ _).trans (.syncWal _ _)
    · exact .refl _

theorem OpenMove.aside (hp : s.proc = .opening o) {io : Io} {r : Sys Γ × Out} (hm : OpenMove s o io r) : s.Aside r.1 := by
  have hapart := hm.logsApart
  have hread : ∀ r, o.stage.read = some r → ∀ m ∈ r.levels.flatten, m ∈ listed s.disk.manifest ++ s.proc.needs := by
    intro r hr m hm
    rw [hp]
    exact List.mem_append_right _ (List.mem_flatMap.2 ⟨r, by rw [hr]; exact List.mem_singleton_self r, hm⟩)
  cases hm with
  | loaded hst hio hr =>
    refine ⟨hapart, fun m hm => ?_, by simp⟩
    exact List.mem_append_left _ (recover_listed hr m (by simpa [Proc.needs, Opening.needs, OpenStage.read] using hm))
  | createdEmpty hst | created hst | append hst | sync hst | remove hst | removeFails hst =>
    refine ⟨hapart, fun m hm => hread _ (by rw [hst]; rfl) m ?_, by simp⟩
    simpa [Proc.needs, Opening.needs, OpenStage.read] using hm
  | up hst =>
    refine ⟨hapart, fun m hm => hread _ (by rw [hst]; rfl) m ?_, fun e he => .inr ?_⟩
    · simpa [Proc.needs, Engine.needs, Recovered.engine, FlushSection.needs] using hm
    · obtain rfl := Proc.up.inj he
      exact ⟨fun _ => trivial, fun _ _ => trivial⟩
  | _ => exact ⟨hapart, by simp [Sys.openFails, Proc.needs], by simp [Sys.openFails]⟩

theorem Opening.handover_aside (hp : s.proc = .opening o) (k : Nat) : s.Aside (o.handover s k) := by
  unfold handover
  cases hst : o.stage with
  | appending r todo =>
    refine ⟨.appendWal _ _ _, fun m hm => List.mem_append_right _ ?_, by simp⟩
    rw [hp]
    simpa [Proc.needs, Opening.needs, hst, OpenStage.read] using hm
  | _ => exact ⟨.refl _, fun m hm => List.mem_append_right _ hm, fun e he => .inl ⟨e, he, rfl⟩⟩

theorem Move.aside {a : Act} (ha : a.touchesTables = false) {r : Sys Γ × Out} (hm : Move s a r) : s.Aside r.1 := by
  cases hm with
  | crash => simp [Act.touchesTables] at ha
  | openDir => exact ⟨.refl _, by simp [Proc.needs, Opening.needs, OpenStage.read], by simp⟩
  | openStep hp hm => exact hm.aside hp
  | openHandover hp => exact Opening.handover_aside hp _
  | node hp hm =>
    rw [toSys_of_up hp]
    exact hm.aside ha

/-! ## Every step -/

/-- The other files after an action. -/
def Sys.after (s : Sys Γ) (x : Others) (a : Act) : Others :=
  match a, s.proc with
  | .crash κ, _ => ((s.disk.withOthers x).crash κ).others
  | a, .up e => (Node.mk s.disk s.hist e).after x a
  | _, _ => x

/-- Beside other files that fit, a step does what it does without them, and leaves the other files as `after` says. -/
theorem step_withOthers (h : s.Fits x) (a : Act) :
    step Γ (s.withOthers x) a = (step Γ s a).map (fun r => (r.1.withOthers (s.after x a), r.2)) := by
  have hproc : (s.withOthers x).proc = s.proc := rfl
  unfold step Sys.after
  rw [hproc]
  cases hp : s.proc with
  | down => cases a <;> rfl
  | opening o =>
    cases a with
    | openStep io => exact openStep_withOthers h hp io
    | handover k => exact congrArg (fun u => some (u, Out.silent)) (Opening.handover_withOthers s x o k)
    | _ => rfl
  | up e =>
    cases a with
    | crash κ => rfl
    | _ => exact Node.act_withOthers (h.node hp) _

/-- A crash of the process lists no table that was not listed. -/
theorem Disk.crash_listed (f : Option (Stored Manifest)) (κ : CrashKind) :
    ∀ m ∈ listed (f.map (Stored.crash κ)), m ∈ listed f := by
  intro m hm
  obtain ⟨g, m', hg, hm', hmem⟩ := mem_listed.1 hm
  obtain ⟨f', rfl, rfl⟩ := Option.map_eq_some_iff.1 hg
  refine mem_listed.2 ⟨f', m', rfl, ?_, hmem⟩
  cases κ with
  | kill => exact hm'
  | powerLoss => exact .inr (hm'.elim id id)

/-- An action that touches no table leaves the other files as they are. -/
theorem Sys.after_of_aside {a : Act} (ha : a.touchesTables = false) : s.after x a = x := by
  unfold after
  cases a with
  | flushStep io | crash κ => simp [Act.touchesTables] at ha
  | _ => cases s.proc <;> rfl

/-- The steps that can touch a table file. -/
theorem Move.touches {a : Act} (ha : a.touchesTables = true) {r : Sys Γ × Out} (hm : Move s a r) :
    (∃ κ, a = .crash κ ∧ r.1 = ⟨s.disk.crash κ, s.hist, .down⟩) ∨
      ∃ e io r', s.proc = .up e ∧ a = .flushStep io ∧ FlushMove ⟨s.disk, s.hist, e⟩ io r' ∧ r.1 = r'.1.toSys := by
  cases hm with
  | @crash κ => exact .inl ⟨κ, rfl, rfl⟩
  | @node a e r hp hm =>
    cases hm with
    | @flushStep io r hf => exact .inr ⟨e, io, r, hp, rfl, hf, rfl⟩
    | _ => simp [Act.touchesTables] at ha
  | _ => simp [Act.touchesTables] at ha

/-- After a step the other files fit, as far as the step has left them. -/
theorem Move.fits (h : s.Fits x) {a : Act} {r : Sys Γ × Out} (hm : Move s a r) : r.1.Fits (s.after x a) := by
  cases ha : a.touchesTables with
  | false =>
    rw [Sys.after_of_aside ha]
    exact (hm.aside ha).fits h
  | true =>
    rcases hm.touches ha with ⟨κ, rfl, hr⟩ | ⟨e, io, r', hp, rfl, hf, hr⟩
    · rw [hr]
      refine ⟨fun name hr => ?_, by simp, by simp⟩
      obtain ⟨m, hm, rfl⟩ := hr
      have hmem : m ∈ listed s.disk.manifest := Disk.crash_listed _ κ m (by simpa [Proc.needs, Disk.crash] using hm)
      exact congrArg (Option.map (Stored.crash κ)) (h.ssts _ ⟨m, List.mem_append_left _ hmem, rfl⟩)
    · rw [hr]
      simp only [Sys.after, hp]
      exact ((h.node hp).flushMove hf).toSys

end LsmEngine
