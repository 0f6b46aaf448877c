import LsmEngine.Lemmas.Content
import LsmEngine.Lemmas.Counters
import LsmEngine.Lemmas.Worker
import Mathlib.Algebra.BigOperators.Group.List.Basic
import Mathlib.Algebra.Order.Group.Multiset
import Mathlib.Tactic.Abel

/-!
# Writes that take effect

A write takes effect at the one step that puts it into the active MemTable. What the engine stands for changes at these steps only, and
each call of `put` or `delete` has at most one of them.
-/

namespace LsmEngine

open Transition

variable {Γ : Ctx} {n n' : Node Γ}

/-- The write that a step puts into the active MemTable. -/
def Node.applies (n : Node Γ) : Act → List WalEntry
  | .walStep _ =>
    match n.eng.wal with
    | .logged w => if n.eng.options.syncPerWrite then [] else [w]
    | .synced w => [w]
    | _ => []
  | _ => []

def Sys.applies (s : Sys Γ) (a : Act) : List WalEntry :=
  match s.proc with
  | .up e => (Node.mk s.disk s.hist e).applies a
  | _ => []

/-- The writes that take effect while the actions are played, in order. -/
def effects (Γ : Ctx) : List Act → Sys Γ → List WalEntry
  | [], _ => []
  | a :: as, s =>
    match step Γ s a with
    | none => []
    | some (t, _) => s.applies a ++ effects Γ as t

/-! ## What the engine stands for -/

/-- Under the wal mutex the map changes where a write is applied, by that write. -/
theorem walStep_map (h : TablesUp n) {io : Io} {r : Node Γ × Out} (hs : n.walStep io = some r) :
    r.1.eng.map r.1.disk = runWrites (n.applies (.walStep io)) (n.eng.map n.disk) := by
  have hstep := (walStep_cases hs).map_step h
  cases hw : n.eng.wal with
  | logged w =>
    cases ho : n.eng.options.syncPerWrite with
    | false =>
      simp only [Node.walStep, hw, ho, Bool.false_eq_true, if_false, Option.some.injEq] at hs
      subst hs
      rw [show n.applies (.walStep io) = [w] by simp [Node.applies, hw, ho]]
      exact map_applyWrite h.mems w
    | true =>
      simp only [Node.walStep, hw, ho, if_true] at hs
      rw [show n.applies (.walStep io) = [] by simp [Node.applies, hw, ho]]
      cases io with
      | ok =>
        obtain rfl := Option.some.inj hs
        exact map_congr rfl rfl rfl (tablesMap_congr (fun _ _ => by simp [Node.syncActive]))
      | fail k =>
        obtain rfl := Option.some.inj hs
        rfl
  | synced w =>
    simp only [Node.walStep, hw, Option.some.injEq] at hs
    subst hs
    rw [show n.applies (.walStep io) = [w] by simp [Node.applies, hw]]
    exact map_applyWrite h.mems w
  | _ =>
    rw [show n.applies (.walStep io) = [] by simp [Node.applies, hw]]
    rcases hstep with hsame | ⟨w, hl | hl, -⟩
    · exact hsame
    · simp [hw] at hl
    · simp [hw] at hl

/-- A step of a running engine changes what it stands for by the write that takes effect at it. -/
theorem act_map (h : TablesUp n) {a : Act} {x : Sys Γ × Out} (hs : n.act a = some x) (hx : x.1 = n'.toSys) :
    n'.eng.map n'.disk = runWrites (n.applies a) (n.eng.map n.disk) := by
  by_cases ha : ∃ io, a = .walStep io
  · obtain ⟨io, rfl⟩ := ha
    obtain ⟨r, hr, rfl⟩ := Option.map_eq_some_iff.1 hs
    obtain rfl := toSys_inj hx
    exact walStep_map h hr
  · have hne : ∀ io, a ≠ .walStep io := fun io he => ha ⟨io, he⟩
    have hnone : n.applies a = [] := by
      cases a with
      | walStep io => exact absurd rfl (hne io)
      | _ => rfl
    rw [hnone]
    exact (act_cases hs).keeps_map h hne hx

/-! ## Calls and effects -/

/-- The write of the call inside the wal mutex, when it has taken effect. -/
def WalSection.taken : WalSection → Multiset WalEntry
  | .applied w | .freezing (.write w) | .rotating (.write w) _ | .created (.write w) _ | .swapped (.write w) _ => {w}
  | _ => 0

def Sys.taken (s : Sys Γ) : Multiset WalEntry :=
  match s.proc with
  | .up e => e.wal.taken
  | _ => 0

/-- The write whose call returns `Ok`. -/
def Out.acknowledged : Out → Multiset WalEntry
  | .wrote w (.ok _) => {w}
  | _ => 0

/-- The write whose call returns an error. -/
def Out.rejected : Out → Multiset WalEntry
  | .wrote w (.error _) => {w}
  | _ => 0

/-- What becomes of a write that takes effect, or has taken effect and not returned: it has not returned yet, or its call returns, with
an error only when the rotation that the write called for has failed. -/
theorem walStep_accounts {io : Io} {r : Node Γ × Out} (hs : n.walStep io = some r) :
    ∃ failed ≤ r.2.rejected, (n.applies (.walStep io) : Multiset WalEntry) + n.eng.wal.taken =
      r.2.acknowledged + failed + r.1.eng.wal.taken := by
  have hquiet : r.2.acknowledged = 0 → (n.applies (.walStep io) : Multiset WalEntry) + n.eng.wal.taken = r.1.eng.wal.taken →
      ∃ failed ≤ r.2.rejected, (n.applies (.walStep io) : Multiset WalEntry) + n.eng.wal.taken =
        r.2.acknowledged + failed + r.1.eng.wal.taken :=
    fun h1 h2 => ⟨0, Multiset.zero_le _, by rw [h1, h2, zero_add, zero_add]⟩
  have hok : (n.applies (.walStep io) : Multiset WalEntry) + n.eng.wal.taken = r.2.acknowledged → r.1.eng.wal = .free →
      ∃ failed ≤ r.2.rejected, (n.applies (.walStep io) : Multiset WalEntry) + n.eng.wal.taken =
        r.2.acknowledged + failed + r.1.eng.wal.taken :=
    fun h1 h2 => ⟨0, Multiset.zero_le _, by rw [h1, h2]; simp [WalSection.taken]⟩
  cases walStep_cases hs with
  | sync hw ho => exact hquiet rfl (by simp [Node.applies, hw, ho, WalSection.taken, Node.syncActive])
  | @syncFails w k hw hio =>
    refine hquiet rfl ?_
    cases ho : n.eng.options.syncPerWrite with
    | true => simp [Node.applies, hw, ho, WalSection.taken, Node.abort]
    | false => simp [Node.walStep, hw, ho, Node.abort] at hs
  | apply hw ho => exact hquiet rfl (by simp [Node.applies, hw, ho, WalSection.taken, Node.applyWrite])
  | applySynced hw => exact hquiet rfl (by simp [Node.applies, hw, WalSection.taken, Node.applyWrite])
  | exceeds hw => exact hquiet rfl (by simp [Node.applies, hw, WalSection.taken])
  | done hw => exact hok (by simp [Node.applies, hw, WalSection.taken, Node.finish, Out.acknowledged]) rfl
  | flushSync hw => exact hquiet rfl (by simp [Node.applies, hw, WalSection.taken, Node.syncActive])
  | flushSyncFails hw => exact hquiet rfl (by simp [Node.applies, hw, WalSection.taken, Node.abort])
  | @nothing c hw | @replace c _ hw =>
    cases c <;> exact hok (by simp [Node.applies, hw, WalSection.taken, Node.finish, Out.acknowledged]) rfl
  | @takeSeq c hw => exact hquiet rfl (by cases c <;> simp [Node.applies, hw, WalSection.taken])
  | @create c _ hw => exact hquiet rfl (by cases c <;> simp [Node.applies, hw, WalSection.taken])
  | @swap c _ hw => exact hquiet rfl (by cases c <;> simp [Node.applies, hw, WalSection.taken, Node.swapActive])
  | @createFails c _ _ hw =>
    refine ⟨WalSection.taken (.rotating c 0), ?_, ?_⟩ <;> cases c <;>
      simp [Node.applies, hw, WalSection.taken, Node.abort, Out.rejected, Out.acknowledged]

/-- Each action accounts for the writes it takes: they were in progress, or are still, or have been acknowledged or rejected. -/
theorem act_accounts {a : Act} {x : Sys Γ × Out} (hs : n.act a = some x) (hx : x.1 = n'.toSys) :
    ∃ failed ≤ x.2.rejected, (n.applies a : Multiset WalEntry) + n.eng.wal.taken = x.2.acknowledged + failed + n'.eng.wal.taken := by
  have hquiet : ∀ {o : Out}, n.applies a = [] → o.acknowledged = 0 → n'.eng.wal.taken = n.eng.wal.taken →
      ∃ failed ≤ o.rejected, (n.applies a : Multiset WalEntry) + n.eng.wal.taken = o.acknowledged + failed + n'.eng.wal.taken := by
    intro o h1 h2 h3
    exact ⟨0, Multiset.zero_le _, by rw [h1, h2, h3]; simp⟩
  have hsilent : ∀ {o : Out}, (∀ w res, o ≠ .wrote w res) → o.acknowledged = 0 := by
    intro o ho
    cases o with
    | wrote w res => exact absurd rfl (ho w res)
    | _ => rfl
  by_cases ha : ∃ io, a = .walStep io
  · obtain ⟨io, rfl⟩ := ha
    obtain ⟨r, hr, rfl⟩ := Option.map_eq_some_iff.1 hs
    obtain rfl := toSys_inj hx
    exact walStep_accounts hr
  cases act_cases hs with
  | @wal io => exact absurd ⟨io, rfl⟩ ha
  | @write w io n₁ o hw =>
    obtain rfl := toSys_inj hx
    cases hw with
    | refused | torn => exact hquiet rfl rfl rfl
    | logged hf => exact hquiet rfl rfl (by simp [Node.logWrite, hf, WalSection.taken])
  | flush hw =>
    obtain rfl := toSys_inj hx
    exact hquiet rfl rfl (by simp [hw, WalSection.taken])
  | flushStep hf =>
    obtain rfl := toSys_inj hx
    exact hquiet rfl (hsilent hf.not_wrote.1) (by rw [hf.sameWrites.wal])
  | getStep hg =>
    obtain rfl := toSys_inj hx
    exact hquiet rfl (hsilent hg.only_got.1) (by cases hg <;> rfl)
  | drop => simp [Node.drop, Node.toSys] at hx
  | flushEnter | workerEnter | compactNothing | compactEnter | get | handover =>
    obtain rfl := toSys_inj hx
    exact hquiet rfl rfl rfl

end LsmEngine
