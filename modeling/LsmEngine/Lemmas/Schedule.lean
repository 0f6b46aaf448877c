import LsmEngine.Lemmas.Worker
import Mathlib.Algebra.Order.BigOperators.Group.List
import Mathlib.Data.List.Perm.Basic

/-!
# Whoever is scheduled

What the calls in progress, the messages and the task have before them is measured, and every step of theirs leaves less of it,
whether its operation fails or not and whoever takes it. While something is in progress, somebody can take a step.
-/

namespace LsmEngine

open Transition

variable {Γ : Ctx} {n n' : Node Γ}

/-! ## Work -/

/-- The actions that carry on a call in progress. -/
def Act.goesOn : Act → Bool
  | .openStep _ | .walStep _ | .flushEnter _ | .flushStep _ | .getStep _ _ => true
  | _ => false

/-- The actions that carry on what is in progress, in a call or in the task. -/
def HostedAct.works : HostedAct → Bool
  | .act a => a.goesOn
  | .receive | .enter | .check | .compact => true

/-- A log writer hands bytes of its buffer over. -/
def HostedAct.hands : HostedAct → Bool
  | .act (.handover _) => true
  | _ => false

/-- Nothing is in progress: no process, or an engine without calls and messages whose task waits for one. -/
def Hosted.settled (h : Hosted Γ) : Bool :=
  match h.sys.proc with
  | .down => true
  | .opening _ => false
  | .up e => (Node.mk h.sys.disk h.sys.hist e).quiet && decide (h.notes = 0 ∧ h.worker = .waiting)

/-! ## What is left to do -/

def Worker.rank : Worker → Nat
  | .waiting => 0
  | .compacting => 1
  | .needed => 2
  | .checking => 3
  | .flushing => 4
  | .notified => 5

/-- What the `get` calls have before them. -/
def Node.getsRank (n : Node Γ) : Nat := (n.eng.gets.map (fun g => n.walkRank g.walk + 1)).sum

/-- What a running engine has before it, the most significant part first: a step inside the wal mutex can make the flushes more, and a
pass that starts makes the work under `flush_lock` more. -/
def Node.workRank (n : Node Γ) (notes : Nat) (w : Worker) : ℕ ×ₗ ℕ ×ₗ ℕ ×ₗ ℕ :=
  toLex (n.eng.wal.rank, toLex (n.eng.flushers.length + 6 * notes + w.rank, toLex (n.flushRank, n.getsRank)))

def Hosted.rank (h : Hosted Γ) : ℕ ×ₗ ℕ ×ₗ ℕ ×ₗ ℕ ×ₗ ℕ :=
  toLex (h.sys.openRank, match h.sys.proc with
    | .up e => (Node.mk h.sys.disk h.sys.hist e).workRank h.notes h.worker
    | _ => toLex (0, toLex (0, toLex (0, 0))))

/-- What a step puts out brings the task no further from its end. -/
theorem Worker.rank_after (w : Worker) (o : Out) : (w.after o).rank ≤ w.rank := by
  unfold Worker.after
  split <;> simp [Worker.rank]

/-- With more handles opened it takes fewer steps to ask the tables. -/
theorem asks_mono (hr : ∀ name, (n'.eng.readers name).isNone = true → (n.eng.readers name).isNone = true) (ms : List SstMeta) :
    n'.asks ms ≤ n.asks ms := by
  cases ms with
  | nil => exact Nat.le_refl _
  | cons m ms =>
    have := hr m.name
    simp only [Node.asks]
    split <;> split <;> first | omega | simp_all

/-- A `get` has no more to do when readers have been opened. -/
theorem walkRank_mono (hr : ∀ name, (n'.eng.readers name).isNone = true → (n.eng.readers name).isNone = true) (walk : GetWalk) :
    n'.walkRank walk ≤ n.walkRank walk := by
  cases walk with
  | tables ts =>
    have := asks_mono hr ts
    simp only [Node.walkRank]
    omega
  | _ => exact Nat.le_refl _

theorem flushRank_mono (hr : ∀ name, (n'.eng.readers name).isNone = true → (n.eng.readers name).isNone = true)
    (hf : n'.eng.flush = n.eng.flush) (hi : n'.eng.immutables = n.eng.immutables) : n'.flushRank ≤ n.flushRank := by
  simp only [Node.flushRank, hf, hi]
  split <;> first | exact Nat.le_refl _ | skip
  exact Nat.add_le_add_left (asks_mono hr _) _

/-! ## The steps of a `get` -/

/-- A sum over the `get`s in progress when one goes on. -/
theorem sum_set {g : GetCall} (f : GetCall → Nat) {l : List GetCall} {i : Nat} (hg : l[i]? = some g) (g' : GetCall) :
    ((l.set i g').map f).sum + f g = (l.map f).sum + f g' := by
  obtain ⟨hi, rfl⟩ := List.getElem?_eq_some_iff.1 hg
  have h1 := ((List.set_perm_cons_eraseIdx hi g').map f).sum_eq
  have h2 := ((List.getElem_cons_eraseIdx_perm hi).map f).sum_eq
  simp only [List.map_cons, List.sum_cons] at h1 h2
  omega

theorem sum_eraseIdx {g : GetCall} (f : GetCall → Nat) {l : List GetCall} {i : Nat} (hg : l[i]? = some g) :
    ((l.eraseIdx i).map f).sum + f g = (l.map f).sum := by
  obtain ⟨hi, rfl⟩ := List.getElem?_eq_some_iff.1 hg
  have h2 := ((List.getElem_cons_eraseIdx_perm hi).map f).sum_eq
  simp only [List.map_cons, List.sum_cons] at h2
  omega

/-- A `get` answers, or walks on to where less is left. -/
theorem GetMove.getsRank_lt {i : Nat} {io : Io} {r : Node Γ × Out} (hm : GetMove n i io r) : r.1.getsRank < n.getsRank := by
  have hanswer : ∀ {g : GetCall}, n.eng.gets[i]? = some g → ∀ res, (n.answer i g res).1.getsRank < n.getsRank := by
    intro g hg res
    have hsum := sum_eraseIdx (fun g => n.walkRank g.walk + 1) hg
    change ((n.eng.gets.eraseIdx i).map (fun g => n.walkRank g.walk + 1)).sum < n.getsRank
    rw [Node.getsRank, ← hsum]
    exact Nat.lt_add_of_pos_right (Nat.succ_pos _)
  have hwalk : ∀ {g : GetCall} {walk : GetWalk}, n.eng.gets[i]? = some g → n.walkRank walk < n.walkRank g.walk →
      (n.walkOn i g walk).1.getsRank < n.getsRank := by
    intro g walk hg hlt
    have hsum := sum_set (fun g => n.walkRank g.walk + 1) hg { g with walk := walk }
    have hnew : (n.walkOn i g walk).1.getsRank =
        ((n.eng.gets.set i { g with walk := walk }).map (fun g => n.walkRank g.walk + 1)).sum := by
      simp only [Node.getsRank, walkRank_walkOn]
      rfl
    rw [hnew, Node.getsRank]
    dsimp only at hsum
    omega
  cases hm with
  | activeHit hg | immHit hg | tablesEnd hg | fails hg | tableHit hg => exact hanswer hg _
  | activeMiss hg hw =>
    refine hwalk hg ?_
    simp only [hw, Node.walkRank, List.length_reverse]
    omega
  | immMiss hg hw =>
    refine hwalk hg ?_
    simp only [hw, Node.walkRank, List.length_cons]
    omega
  | @immEnd g tables hg hw =>
    refine hwalk hg ?_
    have := asks_le n tables
    simp only [hw, Node.walkRank, List.length_nil]
    omega
  | @skip g sst rest hg hw | @tableMiss g sst rest _ hg hw =>
    refine hwalk hg ?_
    have h1 := asks_le n rest
    have h2 := asks_cons_ge n sst rest
    simp only [hw, Node.walkRank]
    omega
  | @openTable g sst rest hg hw hin hr =>
    have hmem : g ∈ n.eng.gets := List.mem_of_getElem? hg
    refine List.sum_lt_sum _ _ (fun g' _ => Nat.succ_le_succ (walkRank_mono ?_ _)) ⟨g, hmem, ?_⟩
    · intro name hnone
      dsimp only at hnone
      by_cases heq : name = sst.name
      · rw [heq, hr]
        rfl
      · rwa [Function.update_of_ne heq] at hnone
    · have := asks_opened n rest hr n.disk (openReader Γ n.disk sst.name io) n.hist
      simp only [hw, Node.walkRank] at this ⊢
      omega

/-- A `get` gives the holder of `flush_lock` no more to do. -/
theorem GetMove.flushRank_le {i : Nat} {io : Io} {r : Node Γ × Out} (hm : GetMove n i io r) : r.1.flushRank ≤ n.flushRank := by
  cases hm with
  | @openTable g sst rest hg hw hin hr =>
    refine flushRank_mono ?_ rfl rfl
    intro name hnone
    dsimp only at hnone
    by_cases heq : name = sst.name
    · rw [heq, hr]
      rfl
    · rwa [Function.update_of_ne heq] at hnone
  | _ => exact flushRank_mono (fun _ hnone => hnone) rfl rfl

/-! ## Every step of work leaves less -/

/-- Each step of an open brings it nearer to its end. -/
theorem OpenMove.rank_lt {s : Sys Γ} {o : Opening} (hp : s.proc = .opening o) {io : Io} {x : Sys Γ × Out} (hm : OpenMove s o io x) :
    x.1.openRank < s.openRank := by
  have hs : s.openRank = o.stage.rank Γ s.disk := by simp only [Sys.openRank, hp]
  have hpos : 0 < s.openRank := by
    rw [hs]
    unfold OpenStage.rank
    split
    · split <;> omega
    · omega
    · omega
    · omega
  cases hm with
  | loadFails | createFails | refused | torn | syncFails | runtimeFails | up => exact hpos
  | loaded hst hio hr =>
    rw [hs, hst]
    simp only [Sys.openRank, OpenStage.rank, hr]
    omega
  | createdEmpty hst | created hst | append hst | sync hst | remove hst | removeFails hst =>
    rw [hs, hst]
    simp only [Sys.openRank, OpenStage.rank, List.length_cons, List.length_nil]
    omega

/-- The call under the wal mutex counts first. -/
theorem workRank_lt_of_wal {k k' : Nat} {w w' : Worker} (h : n'.eng.wal.rank < n.eng.wal.rank) :
    n'.workRank k' w' < n.workRank k w := Prod.Lex.toLex_lt_toLex.2 (.inl h)

theorem workRank_lt_of_waiting {k k' : Nat} {w w' : Worker} (hw : n'.eng.wal = n.eng.wal)
    (h : n'.eng.flushers.length + 6 * k' + w'.rank < n.eng.flushers.length + 6 * k + w.rank) : n'.workRank k' w' < n.workRank k w := by
  simp only [Node.workRank, Prod.Lex.toLex_lt_toLex, hw]
  exact .inr ⟨trivial, .inl h⟩

theorem workRank_lt_of_flush {k : Nat} {w w' : Worker} (hw : n'.eng.wal = n.eng.wal) (hq : n'.eng.flushers = n.eng.flushers)
    (hk : w'.rank ≤ w.rank) (h : n'.flushRank < n.flushRank) : n'.workRank k w' < n.workRank k w := by
  rcases Nat.lt_or_eq_of_le hk with hlt | heq
  · exact workRank_lt_of_waiting hw (by rw [hq]; omega)
  · simp only [Node.workRank, Prod.Lex.toLex_lt_toLex, hw, hq, heq]
    exact .inr ⟨trivial, .inr ⟨trivial, .inl h⟩⟩

/-- The `get`s count last. -/
theorem workRank_lt_of_gets {k : Nat} {w : Worker} (hw : n'.eng.wal = n.eng.wal) (hq : n'.eng.flushers = n.eng.flushers)
    (hf : n'.flushRank ≤ n.flushRank) (h : n'.getsRank < n.getsRank) : n'.workRank k w < n.workRank k w := by
  rcases Nat.lt_or_eq_of_le hf with hlt | heq
  · exact workRank_lt_of_flush hw hq (Nat.le_refl _) hlt
  · simp only [Node.workRank, Prod.Lex.toLex_lt_toLex, hw, hq, heq]
    exact .inr ⟨trivial, .inr ⟨trivial, .inr ⟨trivial, h⟩⟩⟩

/-- Each step of a call in progress brings the work nearer to its end, messages that it sends included. -/
theorem NodeMove.workRank_lt (hseq : SeqUp n) {a : Act} (ha : a.goesOn = true) {x : Sys Γ × Out} (hm : NodeMove n a x)
    (hx : x.1 = n'.toSys) {k : Nat} {w : Worker} :
    n'.workRank (k + if n.toSys.sends a then 1 else 0) (w.after x.2) < n.workRank k w := by
  cases hm with
  | wal hw =>
    obtain rfl := toSys_inj hx
    exact workRank_lt_of_wal hw.rank_lt
  | flushEnter hf hi =>
    obtain rfl := toSys_inj hx
    refine workRank_lt_of_waiting rfl ?_
    obtain ⟨hlt, -⟩ := List.getElem?_eq_some_iff.1 hi
    rw [Worker.after_silent]
    simp only [Sys.sends, Bool.false_eq_true, if_false, Nat.add_zero, List.length_eraseIdx, if_pos hlt]
    omega
  | flushStep hf =>
    obtain rfl := toSys_inj hx
    exact workRank_lt_of_flush hf.sameWrites.wal hf.same.2 (w.rank_after _) (hf.rank_lt hseq)
  | getStep hg =>
    obtain rfl := toSys_inj hx
    rw [(NodeMove.same_flush (.getStep hg) rfl rfl w).2]
    exact workRank_lt_of_gets hg.sameWrites.wal (by cases hg <;> rfl) hg.flushRank_le hg.getsRank_lt
  | write | flush | workerEnter | compactNothing | compactEnter | get | handover | drop => simp [Act.goesOn] at ha

/-- The rank of a running engine is that of its work. -/
theorem Hosted.rank_up {h : Hosted Γ} {e : Engine Γ} (hp : h.sys.proc = .up e) :
    h.rank = toLex (0, (Node.mk h.sys.disk h.sys.hist e).workRank h.notes h.worker) := by
  simp only [Hosted.rank, Sys.openRank, hp]

/-- A state of the running engine is less than another when less is left to do in it. -/
theorem Hosted.rank_lt_of_up {h h' : Hosted Γ} {e e' : Engine Γ} (hp : h.sys.proc = .up e) (hp' : h'.sys.proc = .up e')
    (hlt : (Node.mk h'.sys.disk h'.sys.hist e').workRank h'.notes h'.worker <
      (Node.mk h.sys.disk h.sys.hist e).workRank h.notes h.worker) : h'.rank < h.rank := by
  rw [Hosted.rank_up hp, Hosted.rank_up hp', Prod.Lex.toLex_lt_toLex]
  exact .inr ⟨rfl, hlt⟩

/-- Each step that works lowers the rank. -/
theorem HostedMove.rank_lt {h : Hosted Γ} (hsound : h.Sound) {a : HostedAct}
    (ha : a.works = true) {x : Hosted Γ × Out} (hm : HostedMove h a x) : x.1.rank < h.rank := by
  cases hm with
  | @restart a t o hs hre hd =>
    cases step_cases hs with
    | openStep hp hm =>
      have hlt := hm.rank_lt hp
      exact Prod.Lex.toLex_lt_toLex.2 (.inl hlt)
    | crash | openDir | openHandover => simp [HostedAct.works, Act.goesOn] at ha
    | node hp hm =>
      cases hm with
      | drop => simp [HostedAct.works, Act.goesOn] at ha
      | _ => simp [Act.restarts] at hre
  | @machine a t o hs hre hw =>
    rcases step_running hs hre with ⟨e, e', hp, ht, hmove⟩ | ⟨op, op', hp, -⟩
    · have hlt := hmove.workRank_lt (hsound.up hp).seq ha ht (k := h.notes) (w := h.worker)
      rw [← toSys_of_up hp] at hlt
      have hp' : t.proc = .up e' := by rw [ht]; rfl
      exact Hosted.rank_lt_of_up hp hp' hlt
    · cases a <;> simp [HostedAct.works, Act.goesOn, Act.restarts] at ha hre <;> simp [step, hp] at hs
  | receive hp hw hk =>
    refine Hosted.rank_lt_of_up hp hp (workRank_lt_of_waiting rfl ?_)
    simp only [hw, hk, Worker.rank]
    omega
  | enter hw hs =>
    rcases step_running hs rfl with ⟨e, e', hp, ht, hmove⟩ | ⟨op, op', hp, -⟩
    · cases hmove with
      | workerEnter hf =>
        refine Hosted.rank_lt_of_up hp rfl (workRank_lt_of_waiting rfl ?_)
        simp only [hw, Worker.rank]
        omega
    · simp [step, hp] at hs
  | check hp hw =>
    refine Hosted.rank_lt_of_up hp hp (workRank_lt_of_waiting rfl ?_)
    dsimp only
    rw [hw]
    split <;> simp only [Worker.rank] <;> omega
  | compact hw hs =>
    rcases step_running hs rfl with ⟨e, e', hp, ht, hmove⟩ | ⟨op, op', hp, -⟩
    · cases hmove with
      | compactNothing hf | compactEnter hf =>
        refine Hosted.rank_lt_of_up hp rfl (workRank_lt_of_waiting rfl ?_)
        simp only [hw, Node.compactEnd, Worker.rank, if_true, reduceCtorEq, if_false]
        omega
    · simp [step, hp] at hs

/-- Handing bytes over is no work. -/
theorem HostedMove.rank_hands {h : Hosted Γ} {a : HostedAct} (ha : a.hands = true) {x : Hosted Γ × Out} (hm : HostedMove h a x) :
    x.1.rank = h.rank := by
  cases hm with
  | receive | enter | check | compact => simp [HostedAct.hands] at ha
  | @restart a t o hs hre => cases a <;> simp [HostedAct.hands, Act.restarts] at ha hre
  | @machine a t o hs hre hw =>
    cases step_cases hs with
    | crash | openDir | openStep => simp [HostedAct.hands] at ha
    | @openHandover k op hp =>
      have hproc : ∃ op', (op.handover h.sys k).proc = .opening op' ∧
          op'.stage.rank Γ (op.handover h.sys k).disk = op.stage.rank Γ h.sys.disk := by
        unfold Opening.handover
        split
        · rename_i hst
          refine ⟨_, rfl, ?_⟩
          simp only [hst, OpenStage.rank]
        · exact ⟨op, hp, rfl⟩
      obtain ⟨op', hp', hrank⟩ := hproc
      simp only [Hosted.rank, Sys.openRank, hp, hp', hrank]
    | @node _ e _ hp hm =>
      cases hm with
      | @handover k =>
        rw [Hosted.rank_up hp, Hosted.rank_up (h := ⟨_, _, _⟩) rfl]
        have hwork : (Node.handover ⟨h.sys.disk, h.sys.hist, e⟩ k).workRank h.notes h.worker =
            (Node.mk h.sys.disk h.sys.hist e).workRank h.notes h.worker := rfl
        simpa [Sys.sends, Node.toSys] using hwork
      | _ => simp [HostedAct.hands] at ha

/-! ## Somebody can go on -/

/-- An open can always go on. -/
theorem openStep_goes (s : Sys Γ) (o : Opening) : ∃ x, openStep Γ s o .ok = some x := by
  unfold openStep
  cases o.stage with
  | loading =>
    dsimp only
    cases recover Γ s.disk <;> exact ⟨_, rfl⟩
  | creating r => exact ⟨_, rfl⟩
  | appending r todo =>
    cases todo with
    | nil => exact ⟨_, rfl⟩
    | cons w todo =>
      dsimp only
      cases encodeEntry Γ w.op w.key w.value [] <;> exact ⟨_, rfl⟩
  | removing r todo => cases todo <;> exact ⟨_, rfl⟩

/-- A call that can go on does so in the engine with its task, too. -/
theorem Hosted.act_goes {h : Hosted Γ} {a : Act} (hg : a.goesOn = true) (hs : (LsmEngine.step Γ h.sys a).isSome = true) :
    ∃ b, HostedAct.works b = true ∧ (Hosted.step Γ h b).isSome = true := by
  refine ⟨.act a, hg, ?_⟩
  have hne : ¬(a = .workerEnter ∨ (a.isDrop = true ∧ h.worker ≠ .waiting)) := by
    rintro (rfl | ⟨hd, -⟩)
    · simp [Act.goesOn] at hg
    · cases a <;> simp [Act.goesOn, Act.isDrop] at hg hd
  simpa only [Hosted.step, if_neg hne, Option.isSome_map] using hs

/-- While something is in progress, a call or the task can go on. -/
theorem Hosted.Sound.goes {h : Hosted Γ} (hsound : h.Sound) :
    h.settled = true ∨ ∃ a, HostedAct.works a = true ∧ (Hosted.step Γ h a).isSome = true := by
  cases hp : h.sys.proc with
  | down =>
    left
    simp only [Hosted.settled, hp]
  | opening o =>
    obtain ⟨x, hx⟩ := openStep_goes h.sys o
    refine .inr (Hosted.act_goes (a := .openStep .ok) rfl ?_)
    simp only [LsmEngine.step, hp, hx, Option.isSome_some]
  | up e =>
    have hok := (Hosted.ok_up hp).1 hsound.ok
    have htab := hsound.up hp
    by_cases hw : e.wal = .free
    case neg =>
      obtain ⟨r, hr⟩ := walStep_goes (n := ⟨h.sys.disk, h.sys.hist, e⟩) hw
      refine .inr (Hosted.act_goes (a := .walStep .ok) rfl ?_)
      rw [step_up hp rfl, Node.act, hr]
      rfl
    by_cases hb : e.flush.busy = true
    case pos =>
      obtain ⟨r, hr⟩ := flushStep_goes htab.tables htab.seq.levels.len (by dsimp only; rw [hw]; rfl) hb .ok
      refine .inr (Hosted.act_goes (a := .flushStep .ok) rfl ?_)
      rw [step_up hp rfl, Node.act, hr]
      rfl
    have hf : e.flush = .free := FlushSection.not_busy.1 (by simpa using hb)
    obtain ⟨hnf, hnc⟩ := hok.outside hf
    by_cases hq : e.flushers = []
    case neg =>
      obtain ⟨since, rest, hq⟩ := List.exists_cons_of_ne_nil hq
      refine .inr (Hosted.act_goes (a := .flushEnter 0) rfl ?_)
      rw [step_up hp rfl, Node.act, Node.flushEnter]
      simp [hf, hq, Node.lift]
    by_cases hg : e.gets = []
    case neg =>
      obtain ⟨g, rest, hg⟩ := List.exists_cons_of_ne_nil hg
      obtain ⟨r, hr⟩ := getStep_goes (n := ⟨h.sys.disk, h.sys.hist, e⟩) (i := 0) (g := g) (by rw [hg]; rfl) .ok
      refine .inr (Hosted.act_goes (a := .getStep 0 .ok) rfl ?_)
      rw [step_up hp rfl, Node.act, hr]
      rfl
    cases hwk : h.worker with
    | flushing => exact absurd hwk hnf
    | compacting => exact absurd hwk hnc
    | waiting =>
      cases hk : h.notes with
      | zero =>
        left
        simp [Hosted.settled, hp, Node.quiet, hw, hf, hq, hg, hk, hwk]
      | succ k => exact .inr ⟨.receive, rfl, by simp [Hosted.step, hp, hwk, hk]⟩
    | notified =>
      refine .inr ⟨.enter, rfl, ?_⟩
      rw [Hosted.step, if_pos hwk, Option.isSome_map, step_up hp rfl, Node.act, Node.workerEnter]
      simp [hf, Node.lift]
    | checking => exact .inr ⟨.check, rfl, by simp [Hosted.step, hp, hwk]⟩
    | needed =>
      refine .inr ⟨.compact, rfl, ?_⟩
      rw [Hosted.step, if_pos hwk, Option.isSome_map, step_up hp rfl, Node.act, Node.compactEnter]
      simp only [hf]
      split <;> rfl

end LsmEngine
