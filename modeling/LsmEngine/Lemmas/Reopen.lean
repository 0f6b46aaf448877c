import LsmEngine.Calls
import LsmEngine.Lemmas.Regimes

/-!
# An open that nothing disturbs

A directory that is in order opens: `open_with_options` comes to its end, returns `Ok`, and the engine stands for the map the
directory stood for.
-/

namespace LsmEngine

open Overlay Transition

variable {Γ : Ctx}

/-- What is known of every state of a run in which no failure leaves a trace; of a directory that no process has open, that it is in
order. -/
abbrev InOrder (s : Sys Γ) : Prop := (Regime.undisturbed Γ).Inv s

/-- A directory in order that no process has open. -/
theorem InOrder.down {s : Sys Γ} (hp : s.proc = .down) (hseq : SeqInv s) (hd : DiskOk Γ s.disk) : InOrder s := by
  simp only [InOrder, Regime.Inv, hp]
  exact ⟨hseq, hd, trivial, fun _ => trivial⟩

/-- A step in which nothing fails keeps the system in order. -/
theorem InOrder.kept {s t : Sys Γ} {a : Act} {o : Out} (h : InOrder s) (hs : step Γ s a = some (t, o)) (ha : a.NoFail) : InOrder t :=
  Regime.inv_step (Regime.undisturbed_sound Γ).toStable h ha.harmless hs

/-- How many steps an open has before it, at most. -/
def OpenStage.rank (Γ : Ctx) (d : Disk) : OpenStage → Nat
  | .loading =>
    match recover Γ d with
    | .ok r => (reappended r.mem).length + r.walSeqs.length + 4
    | .error _ => 1
  | .creating r => (reappended r.mem).length + r.walSeqs.length + 3
  | .appending r todo => todo.length + r.walSeqs.length + 2
  | .removing _ todo => todo.length + 1

def Sys.openRank (s : Sys Γ) : Nat :=
  match s.proc with
  | .opening o => o.stage.rank Γ s.disk
  | _ => 0

/-- What holds while a directory that stands for the map `M` is opened. -/
def OpensAs (M : Key → Option Value) (s : Sys Γ) : Prop :=
  match s.proc with
  | .down => False
  | .opening _ => s.disk.recovered Γ = M
  | .up e => e.map s.disk = M ∧ (Node.mk s.disk s.hist e).quiet = true

/-- The engine that an open makes stands for what it has read. -/
theorem Recovered.engine_map (r : Recovered) (options : LsmOptions) (buf : Bytes) (d : Disk) :
    (r.engine Γ options buf).map d = r.map Γ d := by
  simp [Engine.map, Recovered.engine, Recovered.map]

/-- Every entry that an open has still to append is one the log accepts. -/
theorem OpenStage.Ok.todo_valid {d : Disk} {buf : Bytes} {r : Recovered} {todo : List WalEntry}
    (h : (OpenStage.appending r todo).Ok Γ d buf) : ∀ w ∈ todo, w.Valid := by
  obtain ⟨-, -, hstored, -, done, f, hdone, -⟩ := h
  intro w hw
  refine reappended_valid hstored w ?_
  rw [hdone]
  exact List.mem_append_right _ hw

/-- What an open has still to reply. -/
def Sys.openOwes (s : Sys Γ) : List Reply :=
  match s.proc with
  | .opening _ => [.done (.ok ())]
  | _ => []

/-- Nothing is pending in a quiet engine. -/
theorem pending_of_quiet {n : Node Γ} (h : n.quiet = true) : n.pending = none := by
  unfold Node.quiet at h
  split at h
  · rename_i h1 h2 h3 h4
    simp [Node.pending, h1, h2, h3, h4, FlushSection.busy]
  · simp at h

/-- An undisturbed open goes on, and comes nearer to its end. -/
theorem OpensAs.step {M : Key → Option Value} {s : Sys Γ} {a : Act} (hin : InOrder s) (hs : OpensAs M s) (ha : next s = some a) :
    ∃ t o, step Γ s a = some (t, o) ∧ (InOrder t ∧ OpensAs M t) ∧ t.openRank < s.openRank ∧
      s.openOwes = o.reply ++ t.openOwes := by
  unfold next at ha
  cases hp : s.proc with
  | down => simp [hp] at ha
  | up e =>
    simp only [OpensAs, hp] at hs
    simp [hp, pending_of_quiet hs.2] at ha
  | opening op =>
    simp only [hp, Option.some.injEq] at ha
    subst ha
    have hopen : OpenOk Γ s.disk op := by
      simp only [InOrder, Regime.Inv, hp] at hin
      exact hin.2.1
    simp only [OpensAs, hp] at hs
    have hrank : s.openRank = op.stage.rank Γ s.disk := by simp [Sys.openRank, hp]
    have howes : s.openOwes = [.done (.ok ())] := by simp [Sys.openOwes, hp]
    have hfun : LsmEngine.step Γ s (.openStep .ok) = openStep Γ s op .ok := by
      unfold LsmEngine.step
      rw [hp]
    -- a step to another stage of the open
    have hgo : ∀ (d' : Disk) (op' : Opening), openStep Γ s op .ok = some (⟨d', s.hist, .opening op'⟩, .silent) →
        op'.stage.rank Γ d' < op.stage.rank Γ s.disk →
        ∃ t o, LsmEngine.step Γ s (.openStep .ok) = some (t, o) ∧ (InOrder t ∧ OpensAs M t) ∧ t.openRank < s.openRank ∧
          s.openOwes = o.reply ++ t.openOwes := by
      intro d' op' hstep hlt
      obtain ⟨hsame, -⟩ := hopen.move (openStep_cases hstep)
      have hstep' := hfun.trans hstep
      refine ⟨_, _, hstep', ⟨hin.kept hstep' rfl, hsame.recovered.trans hs⟩, by rw [hrank]; exact hlt, ?_⟩
      rw [howes]
      rfl
    have hstage := hopen.stage
    cases hst : op.stage with
    | loading =>
      obtain ⟨r, hr, -⟩ := hopen.disk.recover
      refine hgo s.disk { op with stage := .creating r } ?_ ?_
      · simp only [openStep, hst, hr]
      · simp only [hst, OpenStage.rank, hr]
        omega
    | creating r =>
      cases he : r.mem.isEmpty with
      | true =>
        refine hgo (s.disk.createWal r.walSeq) { op with stage := .removing r r.walSeqs } ?_ ?_
        · simp only [openStep, hst, he, if_true]
        · simp only [hst, OpenStage.rank]
          omega
      | false =>
        refine hgo (s.disk.createWal r.walSeq) { op with stage := .appending r (reappended r.mem) } ?_ ?_
        · simp [openStep, hst, he]
        · simp only [hst, OpenStage.rank]
          omega
    | appending r todo =>
      rw [hst] at hstage
      cases todo with
      | nil =>
        refine hgo ((s.disk.appendWal r.walSeq op.buf).syncWal r.walSeq) { op with stage := .removing r r.walSeqs, buf := [] } ?_ ?_
        · simp only [openStep, hst]
        · simp only [hst, OpenStage.rank, List.length_nil]
          omega
      | cons w todo =>
        have hv := hstage.todo_valid w List.mem_cons_self
        refine hgo s.disk { op with stage := .appending r todo, buf := op.buf ++ w.frame Γ } ?_ ?_
        · simp only [openStep, hst, encodeEntry_of_valid Γ hv, List.nil_append]
        · simp only [hst, OpenStage.rank, List.length_cons]
          omega
    | removing r todo =>
      cases todo with
      | cons w todo =>
        refine hgo (s.disk.removeWal w) { op with stage := .removing r todo } ?_ ?_
        · simp only [openStep, hst, if_true]
        · simp only [hst, OpenStage.rank, List.length_cons]
          omega
      | nil =>
        have hmap : s.disk.recovered Γ = r.map Γ s.disk := hopen.recovered (by rw [hst]; rfl)
        have hstep : LsmEngine.step Γ s (.openStep .ok) = some (⟨s.disk,
            s.hist.reopen (r.map Γ s.disk) r.walSeq (reappended r.mem), .up (r.engine Γ op.options op.buf)⟩,
            .opened (.ok ())) := by
          rw [hfun]
          simp only [openStep, hst]
        refine ⟨_, _, hstep, ⟨hin.kept hstep rfl, ?_, rfl⟩, ?_, by rw [howes]; rfl⟩
        · rw [Recovered.engine_map, ← hmap]
          exact hs
        · rw [hrank, hst]
          exact Nat.succ_pos _

/-- A directory that is in order opens, and the engine stands for the map the directory stood for. -/
theorem InOrder.opens {s : Sys Γ} (h : InOrder s) (hp : s.proc = .down) (options : LsmOptions) :
    ∃ fuel t os e, runAct Γ fuel (.openDir options) s = some (t, os) ∧ os.flatMap Out.reply = [.done (.ok ())] ∧
      InOrder t ∧ t.proc = .up e ∧ e.map t.disk = s.disk.recovered Γ ∧ (Node.mk t.disk t.hist e).quiet = true := by
  have hstep : step Γ s (.openDir options) = some (⟨s.disk, s.hist, .opening { options := options, stage := .loading }⟩,
      .silent) := by
    simp only [step, hp]
  obtain ⟨fuel, t, os, hdrive, ⟨hin, ht⟩, hend, hout⟩ := drive_total Sys.openRank Out.reply Sys.openOwes
    (P := fun s => InOrder s ∧ OpensAs (Γ := Γ) _ s) (fun s a hs ha => hs.2.step hs.1 ha)
    (fun s hs hn => by
      cases hp : s.proc with
      | opening o => simp [next, hp] at hn
      | _ => simp [Sys.openOwes, hp]) ⟨h.kept hstep trivial, rfl⟩
  have hrun : runAct Γ fuel (.openDir options) s = some (t, .silent :: os) := by
    simp only [runAct, hstep, hdrive, Option.map_some]
  cases hpt : t.proc with
  | down => simp [OpensAs, hpt] at ht
  | opening o => simp [next, hpt] at hend
  | up e =>
    simp only [OpensAs, hpt] at ht
    exact ⟨fuel, t, _, e, hrun, hout, hin, hpt, ht⟩

end LsmEngine
