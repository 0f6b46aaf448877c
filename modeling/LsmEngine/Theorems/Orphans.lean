import LsmEngine.Lemmas.Orphans
import LsmEngine.Script

/-!
# Files that nothing lists

Table files that the MANIFEST does not list and temporary files stay behind when a process ends in the middle of its work or a removal
fails, and somebody else can have put them there. Whatever they hold, an engine does the same with them as without them; and it leaves
a table file as it is, but for one under whose name it writes a table.
-/

namespace LsmEngine

open Transition

variable {Γ : Ctx} {s t : Sys Γ} {x : Others} {name : SstName}

/-! ## They change nothing -/

/-- The systems differ in files that are not read: tables that nothing lists, and temporary files. -/
structure Sys.Alike (s t : Sys Γ) : Prop where
  hist : t.hist = s.hist
  proc : t.proc = s.proc
  wals : t.disk.wals = s.disk.wals
  manifest : t.disk.manifest = s.disk.manifest
  ssts : ∀ name, s.Reads name → t.disk.ssts name = s.disk.ssts name

/-- A system beside other files that fit is like the system. -/
theorem Sys.Fits.alike (h : s.Fits x) : s.Alike (s.withOthers x) := ⟨rfl, rfl, rfl, rfl, h.ssts⟩

/-- A system that is like another is the other beside its own files. -/
theorem Sys.Alike.eq_withOthers (h : s.Alike t) : t = s.withOthers t.disk.others := by
  obtain ⟨d, hist, proc⟩ := t
  obtain ⟨rfl, rfl, hw, hm, -⟩ := h
  exact congrArg (fun d => Sys.mk d s.hist s.proc) (Disk.eq_withOthers hw hm)

/-- Before an engine is opened nothing is being written. -/
theorem Sys.Alike.fits (h : s.Alike t) (hp : s.proc = .down) : s.Fits t.disk.others := ⟨h.ssts, by simp [hp], by simp [hp]⟩

/-- The same step beside other files that fit leads to the same beside files that fit. -/
theorem step_fits (h : s.Fits x) (a : Act) :
    Option.Rel (fun r r' => (∃ y, r.1.Fits y ∧ r'.1 = r.1.withOthers y) ∧ r.2 = r'.2) (step Γ s a) (step Γ (s.withOthers x) a) := by
  rw [step_withOthers h]
  cases hs : step Γ s a with
  | none => exact .none
  | some r => exact .some ⟨⟨_, (step_cases hs).fits h, rfl⟩, rfl⟩

/-- From two directories that differ in tables that the MANIFEST does not list and in temporary files, the same actions are possible, in
every order and whatever fails, they return the same, and they lead to engines in the same state over the same logs, MANIFEST and tables. -/
theorem orphans_change_nothing (hp : s.proc = .down) (h : s.Alike t) (as : List Act) :
    Option.Rel (fun r r' => r.1.Alike r'.1 ∧ r.2 = r'.2) (play (step Γ) as s) (play (step Γ) as t) := by
  have hrel := play_related (R := fun s t : Sys Γ => ∃ y, s.Fits y ∧ t = s.withOthers y)
    (fun s t a ⟨y, hfits, ht⟩ => by rw [ht]; exact step_fits hfits a) ⟨_, h.fits hp, h.eq_withOthers⟩ as
  generalize play (step Γ) as s = r at hrel ⊢
  generalize play (step Γ) as t = r' at hrel ⊢
  cases hrel with
  | none => exact .none
  | some hr =>
    obtain ⟨⟨y, hfits, heq⟩, hout⟩ := hr
    refine .some ⟨?_, hout⟩
    rw [heq]
    exact hfits.alike

/-- A table in the MANIFEST and nothing else. -/
def Script.oneTable : List Act := Script.openDir ⟨0, false, 0⟩ 0 0 ++ Script.put [1] [7] ++ Script.flush ++ [.drop .ok]

/-- The engine is opened and asked for the key. -/
def Script.reread : List Act := Script.openDir ⟨0, false, 0⟩ 0 1 ++ Script.get [1] 4

/-- Bytes that are no table, and half a MANIFEST under its temporary name. -/
def Sys.litter (s : Sys Γ) (name : SstName) : Sys Γ :=
  s.withOthers ⟨Function.update s.disk.ssts name (some ⟨none, none⟩), s.disk.sstTmps, some ⟨none, none⟩⟩

/-- The litter is a table file without content. -/
theorem Sys.litter_ssts (s : Sys Γ) (name : SstName) : (s.litter name).disk.ssts name = some ⟨none, none⟩ :=
  Function.update_self name _ s.disk.ssts

/-- A directory with litter that is not listed is like the directory. -/
theorem Sys.alike_litter (hp : s.proc = .down) (h : ∀ m ∈ listed s.disk.manifest, m.name ≠ name) : s.Alike (s.litter name) := by
  refine ⟨rfl, rfl, rfl, rfl, fun key ⟨m, hm, hkey⟩ => ?_⟩
  rw [hp] at hm
  exact Function.update_of_ne (hkey ▸ h m (by simpa [Proc.needs] using hm)) _ _

/-- Beside a table that is listed. -/
theorem orphans_change_nothing_litter : ∃ s u u' : Sys Ctx.concrete, ∃ os, s.proc = .down ∧
    play (step _) Script.reread s = some (u, os) ∧ play (step _) Script.reread (s.litter ⟨0, 999999⟩) = some (u', os) ∧
      u.Alike u' ∧ .got [1] 0 (.ok (some [7])) ∈ os := by
  obtain ⟨s, -, h⟩ := exists_steps_of_play (step Ctx.concrete) (fun _ _ => True) (Sys.init _) Script.oneTable
    (fun s => s.isDown && (listed s.disk.manifest).all (fun m => decide (m.name ≠ ⟨0, 999999⟩)) &&
      (play (step _) Script.reread s).any (fun r : Sys Ctx.concrete × List Out =>
        decide (Out.got [1] 0 (.ok (some [7])) ∈ r.2))) (by decide +kernel)
  simp only [Bool.and_eq_true, List.all_eq_true, decide_eq_true_eq, Sys.isDown_iff, Option.any_eq_true] at h
  obtain ⟨⟨hp, hlisted⟩, ⟨u, os⟩, hplay, hgot⟩ := h
  have hrel := orphans_change_nothing hp (Sys.alike_litter hp hlisted) Script.reread
  rw [hplay] at hrel
  generalize hr : play (step _) Script.reread (s.litter ⟨0, 999999⟩) = r' at hrel
  cases hrel with
  | @some r r' h =>
    obtain ⟨u', os'⟩ := r'
    obtain ⟨halike, rfl⟩ := h
    exact ⟨s, u, u', os, hp, hplay, hr, halike, hgot⟩

/-! ## They stay -/

/-- The table that is being written. -/
def Sys.staged (s : Sys Γ) : Option SstMeta :=
  match s.proc with
  | .up e => e.flush.staged
  | _ => none

/-- No table of that name is being written. -/
def Spares (name : SstName) (s : Sys Γ) (_ : Act) : Prop := s.staged.map SstMeta.name ≠ some name

instance (s : Sys Γ) (a : Act) : Decidable (Spares name s a) := inferInstanceAs (Decidable (_ ≠ _))

/-- A table that is put in its place was being written. -/
theorem FlushSection.staged_of_placed {fl : FlushSection} {io : Io} {sst : SstMeta} (h : fl.placed io = some sst) :
    fl.staged = some sst := by
  unfold placed at h
  split at h
  · exact h
  · exact h
  · simp at h

/-- A table that is being written does not touch another one. -/
theorem Disk.sstStage_ssts_other {d : Disk} {key : SstName} (h : key ≠ name) (file : SstFile) (st : Stage) :
    (d.sstStage key file st).ssts name = d.ssts name := by
  by_cases hst : st = .rename
  · rw [hst, sstStage_rename_ssts, Function.update_of_ne h.symm]
  · rw [sstStage_ssts_of_ne _ _ _ hst]

/-- The holder of `flush_lock` leaves alone a table file that it neither writes nor needs. -/
theorem FlushSection.after_ssts {fl : FlushSection} (d : Disk) (io : Io) (hneeds : ∀ m ∈ fl.needs, m.name ≠ name)
    (hstaged : fl.staged.map SstMeta.name ≠ some name) : (fl.after d x io).ssts name = x.ssts name := by
  cases fl with
  | building c flushed p sst file st | merging inputs sst file st =>
    have hne : sst.name ≠ name := fun hc => hstaged (congrArg some hc)
    unfold after
    dsimp only
    split
    · exact Disk.sstStage_ssts_other hne file st
    · rfl
  | manifest after m st =>
    unfold FlushSection.after
    dsimp only
    split
    · exact congrFun (Disk.manifestStage_ssts (d.withOthers x) m st) name
    · rfl
  | unlinkInputs todo =>
    cases todo with
    | nil => rfl
    | cons sst todo =>
      have hne : sst.name ≠ name := hneeds sst List.mem_cons_self
      unfold after
      dsimp only
      split
      · exact Function.update_of_ne hne.symm _ _
      · rfl
  | _ => rfl

/-- A file of a table that an engine does not need, and what keeps it so. -/
structure Spared (name : SstName) (f : Option (Stored SstFile)) (s : Sys Γ) : Prop where
  unread : ¬s.Reads name
  file : s.disk.ssts name = f
  lists : ∀ e, s.proc = .up e → e.flush.Lists s.disk

/-- The files of a system are those that it reads. -/
theorem Sys.fits_self (h : ∀ e, s.proc = .up e → e.flush.Lists s.disk) : s.Fits s.disk.others where
  ssts _ _ := rfl
  lists := h
  tmp e _ := by
    cases e.flush with
    | building c fl p sst file st | merging inputs sst file st => exact fun _ => rfl
    | manifest after m st => exact fun _ => rfl
    | _ => trivial

/-- A step of the holder of `flush_lock` that does not write the table. -/
theorem Spared.flushMove {n : Node Γ} {f : Option (Stored SstFile)} (h : Spared name f n.toSys)
    (ha : n.eng.flush.staged.map SstMeta.name ≠ some name) {io : Io} {r : Node Γ × Out} (hm : FlushMove n io r) :
    Spared name f r.1.toSys := by
  have hplaced : ¬∃ sst, n.eng.flush.placed io = some sst ∧ sst.name = name := by
    rintro ⟨sst, hsst, rfl⟩
    exact ha (congrArg (Option.map SstMeta.name) (FlushSection.staged_of_placed hsst))
  have hneeds : ∀ m ∈ n.eng.flush.needs, m.name ≠ name :=
    fun m hm hc => h.unread ⟨m, List.mem_append_right _ (mem_needs.2 (.inr (.inr hm))), hc⟩
  have hsame := (Sys.fits_self h.lists).tmp n.eng rfl
  refine ⟨fun hr => ?_, ?_, fun e he => Proc.up.inj he ▸ hm.lists (h.lists n.eng rfl)⟩
  · exact (hm.reads (h.lists n.eng rfl) hr).elim h.unread hplaced
  · calc r.1.disk.ssts name = (n.eng.flush.after n.disk n.disk.others io).ssts name := (hm.ssts hsame (.inl rfl)).symm
      _ = n.disk.ssts name := FlushSection.after_ssts _ _ hneeds ha
      _ = f := h.file

/-- A fsynced file survives a crash. -/
theorem Spared.crash {f : Option (Stored SstFile)} (hf : ∀ g, f = some g → g.dur = g.cur) (h : Spared name f s) (κ : CrashKind) :
    Spared name f (⟨s.disk.crash κ, s.hist, .down⟩ : Sys Γ) := by
  refine ⟨fun ⟨m, hm, hc⟩ => h.unread ⟨m, ?_, hc⟩, ?_, by simp⟩
  · exact List.mem_append_left _ (Disk.crash_listed _ κ m (by simpa [Proc.needs, Disk.crash] using hm))
  · change (s.disk.ssts name).map (Stored.crash κ) = f
    rw [h.file]
    cases f with
    | none => rfl
    | some g =>
      obtain ⟨cur, dur⟩ := g
      obtain rfl : dur = cur := hf _ rfl
      cases κ <;> rfl

/-- A step that writes no table of the name leaves the file. -/
theorem Spared.step {f : Option (Stored SstFile)} (hf : ∀ g, f = some g → g.dur = g.cur) (h : Spared name f s) {a : Act}
    (ha : Spares name s a) {o : Out} (hs : step Γ s a = some (t, o)) : Spared name f t := by
  have hm := step_cases hs
  cases htouch : a.touchesTables with
  | false =>
    have haside := hm.aside htouch
    exact ⟨fun hr => h.unread (haside.reads hr), (congrFun haside.disk.ssts name).trans h.file,
      (haside.fits (Sys.fits_self h.lists)).lists⟩
  | true =>
    rcases hm.touches htouch with ⟨κ, -, rfl⟩ | ⟨e, io, r', hp, -, hf', rfl⟩
    · exact h.crash hf κ
    · rw [Spares, Sys.staged, hp] at ha
      rw [toSys_of_up hp] at h
      exact h.flushMove ha hf'

/-- A table file that the MANIFEST does not list and that is fsynced stays as it is, whatever fails and however often the process ends,
while no table of that name is written. -/
theorem orphan_stays (hp : s.proc = .down) (hname : ∀ m ∈ listed s.disk.manifest, m.name ≠ name) {f : Stored SstFile}
    (hf : s.disk.ssts name = some f) (hsync : f.dur = f.cur) (h : Steps (step Γ) (Spares name) s t) : t.disk.ssts name = some f := by
  have hstart : Spared name (some f) s := by
    refine ⟨fun ⟨m, hm, hc⟩ => hname m ?_ hc, hf, by simp [hp]⟩
    simpa [hp, Proc.needs] using hm
  refine (h.invariant (P := Spared name (some f)) hstart ?_).file
  intro t u a o ht ha hs
  exact ht.step (fun g hg => Option.some.inj hg ▸ hsync) ha hs

/-- An engine is opened and flushes a table, and the power goes. -/
theorem orphan_stays_flush : ∃ t : Sys Ctx.concrete, t.disk.manifest.isSome = true ∧
    t.disk.ssts ⟨0, 999999⟩ = some ⟨none, none⟩ := by
  obtain ⟨t, hrun, h⟩ := exists_steps_of_play (step Ctx.concrete) (Spares ⟨0, 999999⟩) ((Sys.init _).litter ⟨0, 999999⟩)
    (Script.openDir ⟨0, false, 0⟩ 0 0 ++ Script.put [1] [7] ++ Script.flush ++ [.crash .powerLoss])
    (fun t => t.disk.manifest.isSome) (by decide +kernel)
  exact ⟨t, h, orphan_stays rfl (fun m hm => absurd hm List.not_mem_nil) (Sys.litter_ssts _ _) rfl hrun⟩

end LsmEngine
