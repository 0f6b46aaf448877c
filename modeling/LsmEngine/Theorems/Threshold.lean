import LsmEngine.Lemmas.Counters
import LsmEngine.Lemmas.Within
import LsmEngine.Script

/-!
# The flush threshold bounds the active MemTable

The counter of a table adds up what every operation brings, the sum over its entries only what the last operation on each key
left. The counter is compared with the threshold before a write returns.
-/

namespace LsmEngine

open Transition

/-- What the entries of a table add up to: key length, value length and the overhead of each. -/
def MemTable.weight (m : MemTable) : Nat := (m.map.toList.map (fun b => b.1.length + b.2.value.length + entryOverhead)).sum

/-- The counter of the table is at least what its entries add up to. -/
def MemTable.Covered (m : MemTable) : Prop := m.weight ≤ m.approximateSize

namespace MemTable

/-- An empty MemTable has counted all it holds. -/
theorem covered_new : MemTable.new.Covered := Nat.le_refl 0

/-- An operation counts what it brings before it changes the map, and brings no less than the entry that it leaves. -/
theorem Covered.insert {m : MemTable} (h : m.Covered) (key : Key) (entry : Entry) {payloadBytes : Nat}
    (hp : key.length + entry.value.length ≤ payloadBytes) :
    (m.bump payloadBytes).Covered ∧ Covered { m.bump payloadBytes with map := m.map.insert key entry } := by
  have hsum := SortedMap.sum_place_le (fun b : Key × Entry => b.1.length + b.2.value.length + entryOverhead) key entry m.map.toList
  have hle : m.weight ≤ m.approximateSize := h
  constructor
  · exact Nat.le_trans hle (Nat.le_add_right _ _)
  · refine Nat.le_trans hsum ?_
    change m.weight + _ ≤ m.approximateSize + (payloadBytes + entryOverhead)
    dsimp only
    omega

/-- A write counts what it adds. -/
theorem Covered.applyTo {m : MemTable} (h : m.Covered) (w : WalEntry) : (w.applyTo m).Covered := by
  unfold WalEntry.applyTo
  cases w.op with
  | put => exact (h.insert w.key ⟨w.value, false⟩ (Nat.le_refl _)).2
  | delete => exact (h.insert w.key ⟨[], true⟩ (Nat.le_refl _)).2

/-- The size of a MemTable never shrinks. -/
theorem approximateSize_applyTo (m : MemTable) (w : WalEntry) : m.approximateSize ≤ (w.applyTo m).approximateSize := by
  unfold WalEntry.applyTo
  cases w.op <;> exact Nat.le_add_right _ _

/-- An empty MemTable weighs nothing. -/
theorem weight_of_isEmpty {m : MemTable} (h : m.isEmpty = true) : m.weight = 0 := by
  have hnil : m.map.toList = [] := by simpa [isEmpty, SortedMap.isEmpty] using h
  rw [weight, hnil]
  rfl

end MemTable

variable {Γ : Ctx}

/-- A MemTable that recovery has filled has counted all it holds. -/
theorem covered_recover {d : Disk} {r : Recovered} (h : recover Γ d = .ok r) : r.mem.Covered :=
  recover_mem_keeps MemTable.covered_new (fun _ hm => hm.applyTo _) h

/-! ## One step of a running engine -/

/-- What a step can do to the MemTables of a running engine. -/
inductive MemsMove (e e' : Engine Γ) : Prop where
  | same (hm : e'.mems = e.mems) (ha : e'.active = e.active)
  | applied (w : WalEntry) (hm : e'.mems = Function.update e.mems e.active (w.applyTo (e.mems e.active)))
      (ha : e'.active = e.active)
  | swapped (hm : e'.mems = Function.update e.mems (e.active + 1) MemTable.new) (ha : e'.active = e.active + 1)

/-- A step under the wal mutex writes to the active MemTable or starts the next one. -/
theorem WalMove.memsMove {n : Node Γ} {io : Io} {r : Node Γ × Out} (h : WalMove n io r) : MemsMove n.eng r.1.eng := by
  cases h with
  | apply | applySynced => exact .applied _ rfl rfl
  | swap => exact .swapped rfl rfl
  | @nothing c | @createFails c | @replace c => cases c <;> exact .same rfl rfl
  | _ => exact .same rfl rfl

/-- No other step touches a MemTable. -/
theorem NodeMove.memsMove {n n' : Node Γ} {a : Act} {o : Out} (h : NodeMove n a (n'.toSys, o)) : MemsMove n.eng n'.eng := by
  by_cases ha : a.writes = false
  · have hs := h.sameWrites ha rfl
    exact .same hs.mems hs.active
  generalize hx : (n'.toSys, o) = x at h
  cases h with
  | write hw =>
    obtain rfl := toSys_inj (Prod.mk.inj hx).1
    cases hw <;> exact .same rfl rfl
  | wal hw =>
    obtain rfl := toSys_inj (Prod.mk.inj hx).1
    exact hw.memsMove
  | flush | handover =>
    obtain rfl := toSys_inj (Prod.mk.inj hx).1
    exact .same rfl rfl
  | _ => exact absurd rfl ha

/-- The counters are right, and between the swap and the replacement of the writer the active table is still new. -/
structure SizesOk (e : Engine Γ) : Prop where
  covered : ∀ i, (e.mems i).Covered
  fresh : ∀ c newSeq, e.wal = .swapped c newSeq → e.mems e.active = MemTable.new

/-- Every MemTable has counted all it holds after a step. -/
theorem MemsMove.covered {e e' : Engine Γ} (h : MemsMove e e') (hc : ∀ i, (e.mems i).Covered) (i : Nat) : (e'.mems i).Covered := by
  cases h with
  | same hm => exact hm ▸ hc i
  | applied w hm =>
    rw [hm, Function.update_apply]
    split_ifs
    · exact (hc _).applyTo w
    · exact hc i
  | swapped hm =>
    rw [hm, Function.update_apply]
    split_ifs
    · exact MemTable.covered_new
    · exact hc i

/-- No step makes the counter of a table smaller, as long as the table lives. -/
theorem MemsMove.grows {e e' : Engine Γ} (h : MemsMove e e') : e.active ≤ e'.active ∧
    ∀ i, i ≤ e.active → (e.mems i).approximateSize ≤ (e'.mems i).approximateSize := by
  cases h with
  | same hm ha =>
    rw [hm, ha]
    exact ⟨Nat.le_refl _, fun i _ => Nat.le_refl _⟩
  | applied w hm ha =>
    refine ⟨Nat.le_of_eq ha.symm, fun i _ => ?_⟩
    rw [hm, Function.update_apply]
    split_ifs with hi
    · exact hi ▸ MemTable.approximateSize_applyTo _ w
    · exact Nat.le_refl _
  | swapped hm ha =>
    refine ⟨by omega, fun i hi => ?_⟩
    rw [hm, Function.update_of_ne (by omega)]

/-- The MemTable a freeze starts with is empty. -/
theorem WalMove.fresh {n : Node Γ} {io : Io} {r : Node Γ × Out} (h : WalMove n io r) {c : WalCaller} {newSeq : Nat}
    (hw : r.1.eng.wal = .swapped c newSeq) : r.1.eng.mems r.1.eng.active = MemTable.new := by
  cases h with
  | swap => exact Function.update_self _ _ _
  | @nothing c' | @createFails c' | @replace c' => cases c' <;> exact absurd hw (by simp [Node.finish, Node.abort])
  | done | syncFails | flushSyncFails => exact absurd hw (by simp [Node.finish, Node.abort])
  | sync | flushSync => exact absurd hw (by simp [Node.syncActive])
  | apply | applySynced => exact absurd hw (by simp [Node.applyWrite])
  | _ => exact absurd hw (by simp)

/-- A step of a running engine keeps the sizes in order. -/
theorem NodeMove.sizesOk {n n' : Node Γ} {a : Act} {o : Out} (h : NodeMove n a (n'.toSys, o)) (hs : SizesOk n.eng) :
    SizesOk n'.eng := by
  refine ⟨h.memsMove.covered hs.covered, fun c newSeq hw => ?_⟩
  by_cases ha : a.writes = false
  · have hsame := h.sameWrites ha rfl
    rw [hsame.mems, hsame.active]
    exact hs.fresh c newSeq (hsame.wal ▸ hw)
  generalize hx : (n'.toSys, o) = x at h
  cases h with
  | write hm =>
    obtain rfl := toSys_inj (Prod.mk.inj hx).1
    cases hm with
    | logged => exact absurd hw (by simp [Node.logWrite])
    | refused => exact hs.fresh c newSeq hw
    | torn => exact hs.fresh c newSeq hw
  | wal hm =>
    obtain rfl := toSys_inj (Prod.mk.inj hx).1
    exact hm.fresh hw
  | flush =>
    obtain rfl := toSys_inj (Prod.mk.inj hx).1
    exact absurd hw (by simp)
  | handover =>
    obtain rfl := toSys_inj (Prod.mk.inj hx).1
    exact hs.fresh c newSeq hw
  | _ => exact absurd rfl ha

/-- A write returns `Ok` when the active table is below the threshold, empty, or new. -/
theorem WalMove.below {n : Node Γ} {io : Io} {r : Node Γ × Out} (h : WalMove n io r) (hs : SizesOk n.eng) {w : WalEntry}
    (ho : r.2 = .wrote w (.ok ())) (hT : 0 < r.1.eng.options.flushThresholdBytes) :
    (r.1.eng.mems r.1.eng.active).weight < r.1.eng.options.flushThresholdBytes := by
  cases h with
  | done _ ht =>
    rw [Node.overThreshold, not_and, Nat.not_le] at ht
    exact Nat.lt_of_le_of_lt (hs.covered _) (ht hT)
  | @nothing c _ he =>
    cases c with
    | flush => exact absurd ho (by simp [Node.finish])
    | write =>
      have h0 := MemTable.weight_of_isEmpty he
      change (n.eng.mems n.eng.active).weight < _
      rwa [h0]
  | @replace c newSeq hw =>
    cases c with
    | flush => exact absurd ho (by simp [Node.finish])
    | write =>
      change (n.eng.mems n.eng.active).weight < _
      rw [hs.fresh _ _ hw]
      exact hT
  | @createFails c => cases c <;> exact absurd ho (by simp [Node.abort])
  | syncFails | flushSyncFails => exact absurd ho (by simp [Node.abort])
  | _ => exact absurd ho (by simp)

/-- When a write returns `Ok`, the active MemTable is below the threshold. -/
theorem NodeMove.below {n : Node Γ} {a : Act} {x : Sys Γ × Out} (h : NodeMove n a x) (hs : SizesOk n.eng) {w : WalEntry}
    (ho : x.2 = .wrote w (.ok ())) : ∃ n' : Node Γ, x.1 = n'.toSys ∧ (0 < n'.eng.options.flushThresholdBytes →
      (n'.eng.mems n'.eng.active).weight < n'.eng.options.flushThresholdBytes) := by
  cases h with
  | @wal _ r hm => exact ⟨r.1, rfl, fun hT => hm.below hs ho hT⟩
  | write hm => cases hm <;> exact absurd ho (by simp)
  | flushStep hf => exact absurd ho (hf.not_wrote.1 _ _)
  | getStep hg => exact absurd ho (hg.only_got.1 _ _)
  | _ => exact absurd ho (by simp)

/-! ## Runs -/

/-- `m` is a MemTable of the process: the one an open recovers into, or one of a running engine. -/
def Sys.HasTable (s : Sys Γ) (m : MemTable) : Prop :=
  match s.proc with
  | .down => False
  | .opening o => ∃ r, o.stage.read = some r ∧ r.mem = m
  | .up e => ∃ i, e.mems i = m

/-- The counters are right in whatever the process is doing. -/
def Sys.SizesOk (s : Sys Γ) : Prop :=
  match s.proc with
  | .down => True
  | .opening o => ∀ r, o.stage.read = some r → r.mem.Covered
  | .up e => LsmEngine.SizesOk e

/-- A step of an open keeps the sizes in order. -/
theorem OpenMove.sizesOk {s : Sys Γ} {o : Opening} {io : Io} {x : Sys Γ × Out} (h : OpenMove s o io x)
    (hs : ∀ r, o.stage.read = some r → r.mem.Covered) : x.1.SizesOk := by
  have hstage : ∀ {r : Recovered}, o.stage.read = some r → ∀ r', some r = some r' → r'.mem.Covered :=
    fun hr r' hr' => Option.some.inj hr' ▸ hs _ hr
  cases h with
  | loadFails | createFails | refused | torn | syncFails | runtimeFails => trivial
  | loaded _ _ hr => exact fun r' hr' => Option.some.inj hr' ▸ covered_recover hr
  | createdEmpty hst | created hst | append hst | sync hst | remove hst | removeFails hst => exact hstage (by rw [hst]; rfl)
  | @up r hst =>
    refine ⟨fun i => ?_, fun c newSeq hw => absurd hw (by simp [Recovered.engine])⟩
    change (Function.update (fun _ => MemTable.new) 0 r.mem i).Covered
    rw [Function.update_apply]
    split_ifs
    · exact hs r (by rw [hst]; rfl)
    · exact MemTable.covered_new

theorem step_sizesOk {s t : Sys Γ} {a : Act} {o : Out} (h : step Γ s a = some (t, o)) (hs : s.SizesOk) : t.SizesOk := by
  cases step_cases h with
  | crash => trivial
  | openDir => exact fun r hr => absurd hr (by simp [OpenStage.read])
  | openStep hp hm =>
    rw [Sys.SizesOk, hp] at hs
    exact hm.sizesOk hs
  | @openHandover k op hp =>
    rw [Sys.SizesOk, hp] at hs
    unfold Opening.handover
    split
    · exact hs
    · rw [Sys.SizesOk, hp]
      exact hs
  | @node _ e _ hp hm =>
    rw [Sys.SizesOk, hp] at hs
    unfold Sys.SizesOk
    cases ht : t.proc with
    | down => trivial
    | opening op => cases hm <;> exact absurd ht (by simp [Node.toSys, Node.drop])
    | up e' =>
      rw [toSys_of_up ht] at hm
      exact hm.sizesOk hs

theorem sizesOk_of_steps {ok : Sys Γ → Act → Prop} {s : Sys Γ} (h : Steps (step Γ) ok (Sys.init Γ) s) : s.SizesOk :=
  h.invariant (P := Sys.SizesOk) trivial (fun hs _ hstep => step_sizesOk hstep hs)

/-- Within one open the tables stay and their counters grow. -/
theorem grows_within {ok : Sys Γ → Act → Prop} {s t : Sys Γ} (h : Steps (step Γ) ok s t) {e e' : Engine Γ} (hp : s.proc = .up e)
    (hp' : t.proc = .up e') (hsame : SameOpen s t) : e.active ≤ e'.active ∧
      ∀ i, i ≤ e.active → (e.mems i).approximateSize ≤ (e'.mems i).approximateSize := by
  have hP := run_within h (P := fun u => ∀ e', u.proc = .up e' → e.active ≤ e'.active ∧
    ∀ i, i ≤ e.active → (e.mems i).approximateSize ≤ (e'.mems i).approximateSize) ?_ ?_ hp' hsame
  · exact hP e' hp'
  · intro e' he'
    obtain rfl := Proc.up.inj (hp.symm.trans he')
    exact ⟨Nat.le_refl _, fun i _ => Nat.le_refl _⟩
  · intro u v e₀ _ a o _ hu hpu _ _ hm _ e' he'
    obtain ⟨hact, hsize⟩ := hu e₀ hpu
    rw [toSys_of_up he'] at hm
    obtain ⟨hact', hsize'⟩ := hm.memsMove.grows
    exact ⟨hact.trans hact', fun i hi => (hsize i hi).trans (hsize' i (hi.trans hact))⟩

/-- In every run, whatever fails in it: the counter of every MemTable is at least what its entries add up to; it never gets smaller
while the engine runs; and when a `put` or `delete` returns `Ok` with a threshold above zero, the entries of the active MemTable
add up to less than the threshold. -/
theorem threshold_bounds_active {s : Sys Γ} (h : Steps (step Γ) (fun _ _ => True) (Sys.init Γ) s) :
    (∀ m, s.HasTable m → m.weight ≤ m.approximateSize) ∧
    (∀ t e e', Steps (step Γ) (fun _ _ => True) s t → s.proc = .up e → t.proc = .up e' → SameOpen s t →
      ∀ i, i ≤ e.active → (e.mems i).approximateSize ≤ (e'.mems i).approximateSize) ∧
    ∀ a t w, step Γ s a = some (t, .wrote w (.ok ())) → ∃ e, t.proc = .up e ∧
      (0 < e.options.flushThresholdBytes → (e.mems e.active).weight < e.options.flushThresholdBytes) := by
  have hsizes := sizesOk_of_steps h
  refine ⟨fun m hm => ?_, fun t e e' hrun hp hp' hsame => (grows_within hrun hp hp' hsame).2, fun a t w hs => ?_⟩
  · unfold Sys.SizesOk at hsizes
    unfold Sys.HasTable at hm
    cases hp : s.proc with
    | down =>
      rw [hp] at hm
      exact hm.elim
    | opening o =>
      rw [hp] at hsizes hm
      obtain ⟨r, hr, rfl⟩ := hm
      exact hsizes r hr
    | up e =>
      rw [hp] at hsizes hm
      obtain ⟨i, rfl⟩ := hm
      exact hsizes.covered i
  · generalize hx : (t, Out.wrote w (.ok ())) = x at hs
    cases step_cases hs with
    | crash | openDir | openHandover => exact absurd (Prod.mk.inj hx).2 (by simp)
    | openStep hp hm => cases hm <;> exact absurd (Prod.mk.inj hx).2 (by simp)
    | @node _ e _ hp hm =>
      rw [Sys.SizesOk, hp] at hsizes
      obtain ⟨n', hn', hbelow⟩ := hm.below hsizes (congrArg Prod.snd hx).symm
      have ht : t = n'.toSys := (congrArg Prod.fst hx).trans hn'
      exact ⟨n'.eng, by rw [ht]; rfl, hbelow⟩

/-- With a threshold of 70 bytes, a first write stays below it and a second one freezes the table; both have returned `Ok`. -/
theorem threshold_bounds_active_frozen : ∃ (s t : Sys Ctx.concrete) (w : WalEntry) (e : Engine Ctx.concrete),
    step _ s (.walStep .ok) = some (t, .wrote w (.ok ())) ∧ t.proc = .up e ∧ e.immutables.length = 1 ∧
      (e.mems e.active).weight < e.options.flushThresholdBytes := by
  obtain ⟨s, hrun, hp⟩ := exists_steps_of_play (step Ctx.concrete) (fun _ _ => True) (Sys.init _)
    (Script.openDir ⟨70, false, 0⟩ 0 0 ++ Script.put [1] [7] ++ [.write ⟨.put, [2], [8]⟩ .ok] ++ List.replicate 5 (.walStep .ok))
    (fun s => leadsTo (step _ s (.walStep .ok)) (.wrote ⟨.put, [2], [8]⟩ (.ok ()))
      (fun t => t.runs (fun _ e => decide (e.immutables.length = 1 ∧ 0 < e.options.flushThresholdBytes)))) (by decide +kernel)
  obtain ⟨t, hs, ht⟩ := leadsTo_iff.1 hp
  obtain ⟨e, he, hsize⟩ := Sys.runs_iff.1 ht
  obtain ⟨himm, hT⟩ := of_decide_eq_true hsize
  obtain ⟨e', he', hbelow⟩ := (threshold_bounds_active hrun).2.2 _ t _ hs
  obtain rfl : e = e' := Proc.up.inj (he.symm.trans he')
  exact ⟨s, t, _, e, hs, he, himm, hbelow hT⟩

end LsmEngine
