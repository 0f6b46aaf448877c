import LsmEngine.Lemmas.Handles
import LsmEngine.Lemmas.Upkeep

/-!
# What a `get` returns

A `get` in progress stands for one answer: what it would return if it looked into the rest of its snapshot now. Its own steps keep the
answer and return it; a step of anybody else keeps it too, or makes it the value that the key has then.
-/

namespace LsmEngine

open Overlay Transition

variable {Γ : Ctx} {n n' : Node Γ}

/-! ## MemTables -/

/-- What a step does to the MemTables: those that are frozen stay, the active one only gains keys. -/
structure MemsStep (n n' : Node Γ) : Prop where
  active : n.eng.active ≤ n'.eng.active
  frozen : ∀ i < n'.eng.active, n'.eng.mems i = n.eng.mems i
  gains : ∀ k, (n'.eng.mems n.eng.active).layer k = none → (n.eng.mems n.eng.active).layer k = none

/-- A step that touches no MemTable. -/
theorem MemsStep.same (hm : n'.eng.mems = n.eng.mems) (ha : n'.eng.active = n.eng.active) : MemsStep n n' :=
  ⟨ha.ge, fun i _ => by rw [hm], fun k hk => by rwa [hm] at hk⟩

/-- A write that is applied adds its key to the active MemTable. -/
theorem memsStep_applyWrite (n : Node Γ) (w : WalEntry) : MemsStep n (n.applyWrite w) where
  active := Nat.le_refl _
  frozen := fun i hi => Function.update_of_ne hi.ne _ _
  gains := by
    intro k hk
    simp only [Node.applyWrite, Function.update_self, layer_applyTo, Overlay.atop, Option.or_eq_none_iff] at hk
    exact hk.2

/-- A freeze leaves the MemTable as it is and starts the next. -/
theorem memsStep_swapActive (n : Node Γ) (c : WalCaller) (newSeq : Nat) : MemsStep n (n.swapActive c newSeq) where
  active := Nat.le_succ _
  frozen := fun i hi => Function.update_of_ne hi.ne _ _
  gains := by
    intro k hk
    have hne : n.eng.active ≠ n.eng.active + 1 := by omega
    simpa only [Node.swapActive, Function.update_of_ne hne] using hk

/-- Every action on a running engine does to the MemTables what may be done. -/
theorem NodeMove.memsStep {a : Act} {x : Sys Γ × Out} (hm : NodeMove n a x) (hx : x.1 = n'.toSys) : MemsStep n n' := by
  cases hact : a.writes with
  | false =>
    have hs := hm.sameWrites hact hx
    exact .same hs.mems hs.active
  | true =>
    cases hm with
    | write hw =>
      obtain rfl := toSys_inj hx
      cases hw <;> exact .same rfl rfl
    | wal hw =>
      obtain rfl := toSys_inj hx
      cases hw with
      | apply | applySynced => exact memsStep_applyWrite n _
      | swap => exact memsStep_swapActive n _ _
      | @nothing c | @createFails c | @replace c => cases c <;> exact .same rfl rfl
      | _ => exact .same rfl rfl
    | flush | handover =>
      obtain rfl := toSys_inj hx
      exact .same rfl rfl
    | _ => simp [Act.writes] at hact

/-! ## Answers -/

/-- What a `get` would return now, where the table handles give the records `R`. -/
def GetWalk.answer (mems : Nat → MemTable) (R : SstMeta → List Record) (walk : GetWalk) : Key → Option Value :=
  match walk with
  | .active mem _ _ => onto (mems mem).layer (walk.below mems R)
  | .immutables _ _ | .tables _ => walk.below mems R

/-- The answer of the `get` is in `V`. -/
structure Stands (n : Node Γ) (V : Set (Option Value)) (g : GetCall) : Prop where
  active : ∀ mem imms tables, g.walk = .active mem imms tables → mem ≤ n.eng.active
  frozen : ∀ p ∈ g.walk.imms, p.mem < n.eng.active
  answer : ∃ R, (∀ m ∈ g.walk.ssts, HandleOk n m (R m)) ∧ g.walk.answer n.eng.mems R g.key ∈ V

/-- A `get` whose answer is in a set stands for a value in any larger set. -/
theorem Stands.mono {V W : Set (Option Value)} {g : GetCall} (h : Stands n V g) (hVW : V ⊆ W) : Stands n W g := by
  obtain ⟨R, hR, ha⟩ := h.answer
  exact ⟨h.active, h.frozen, R, hR, hVW ha⟩

/-- With a fresh snapshot it is the value that the key has. -/
theorem Stands.snapshot (h : TablesUp n) (key : Key) (since : Nat) {V : Set (Option Value)} (hV : n.eng.map n.disk key ∈ V) :
    Stands n V ⟨key, since, .active n.eng.active n.eng.immutables (lookupOrder n.eng.levels)⟩ where
  active := fun mem imms tables he => by
    obtain ⟨rfl, -, -⟩ := GetWalk.active.inj he
    exact Nat.le_refl _
  frozen := fun p hp => (h.mems.frozen p (List.mem_reverse.1 hp)).1
  answer := by
    refine ⟨fun m => n.disk.records Γ m.name, fun m hm => ?_, ?_⟩
    · rw [GetWalk.ssts, lookupOrder_eq] at hm
      exact h.tables.handle h.seq (List.mem_reverse.1 hm)
    · rw [Engine.map_eq_ask] at hV
      exact hV

/-- A step of somebody else keeps the answer, or makes it the value that the key has now. -/
theorem Stands.other {a : Act} {x : Sys Γ × Out} (hm : NodeMove n a x) (hx : x.1 = n'.toSys) {V : Set (Option Value)} {g : GetCall}
    (hg : Stands n V g) (hV : n'.eng.map n'.disk g.key ∈ V) : Stands n' V g := by
  have hs := hm.memsStep hx
  obtain ⟨R, hR, ha⟩ := hg.answer
  have hfrozen : ∀ p ∈ g.walk.imms, p.mem < n'.eng.active := fun p hp => (hg.frozen p hp).trans_le hs.active
  have hbelow : g.walk.below n'.eng.mems R = g.walk.below n.eng.mems R := by
    unfold GetWalk.below
    rw [List.map_congr_left (fun p hp => by rw [hs.frozen p.mem (hfrozen p hp)])]
  refine ⟨fun mem imms tables he => (hg.active mem imms tables he).trans hs.active, hfrozen, R,
    fun m hm' => (hR m hm').step (hm.handleStep (hR m hm').fresh (hR m hm').seq hx), ?_⟩
  cases hw : g.walk with
  | active mem imms tables =>
    rw [hw] at hbelow ha
    rw [GetWalk.answer, hbelow]
    have hle := hg.active mem imms tables hw
    rcases (hle.trans hs.active).lt_or_eq with hlt | heq
    · rw [hs.frozen mem hlt]
      exact ha
    · cases hl : (n'.eng.mems mem).layer g.key with
      | some v =>
        -- in the active MemTable of the engine stands the value the key has now
        rw [Engine.map, ← heq, onto_of_some hl] at hV
        rwa [onto_of_some hl]
      | none =>
        have hact : mem = n.eng.active := Nat.le_antisymm hle (heq ▸ hs.active)
        have hold : (n.eng.mems mem).layer g.key = none := by
          rw [hact] at hl ⊢
          exact hs.gains _ hl
        rw [onto_of_none hl]
        rwa [GetWalk.answer, onto_of_none hold] at ha
  | immutables imms tables =>
    rw [hw] at hbelow ha
    rw [GetWalk.answer, hbelow]
    exact ha
  | tables tables =>
    rw [hw] at hbelow ha
    rw [GetWalk.answer, hbelow]
    exact ha

/-! ### Its own steps -/

/-- What a `get` has still to ask after a step answers as before, where the part that it has asked does not know the key. -/
theorem Stands.walkOn {V : Set (Option Value)} {g : GetCall} (hg : Stands n V g) {walk : GetWalk}
    (hactive : ∀ mem imms tables, walk ≠ .active mem imms tables) (himms : ∀ p ∈ walk.imms, p ∈ g.walk.imms)
    (hssts : ∀ m ∈ walk.ssts, m ∈ g.walk.ssts)
    (hans : ∀ R, (∀ m ∈ g.walk.ssts, HandleOk n m (R m)) → g.walk.answer n.eng.mems R g.key = walk.answer n.eng.mems R g.key) :
    Stands n V { g with walk := walk } := by
  obtain ⟨R, hR, ha⟩ := hg.answer
  exact ⟨fun mem imms tables he => absurd he (hactive mem imms tables), fun p hp => hg.frozen p (himms p hp), R,
    fun m hm => hR m (hssts m hm), hans R hR ▸ ha⟩

/-- The layer of the next table, as a handle of it gives it. -/
theorem answer_table (mems : Nat → MemTable) (R : SstMeta → List Record) (sst : SstMeta) (rest : List SstMeta) (key : Key) :
    (GetWalk.tables (sst :: rest)).answer mems R key =
      onto (tableLayer (R sst)) ((GetWalk.tables rest).answer mems R) key := by
  simp only [GetWalk.answer, GetWalk.below, GetWalk.imms, GetWalk.ssts, List.map_nil, List.map_cons, ask_nil, ask_cons]

/-- The next frozen MemTable answers, or what comes below it. -/
theorem answer_immutable (mems : Nat → MemTable) (R : SstMeta → List Record) (p : PendingImm) (imms : List PendingImm)
    (tables : List SstMeta) (key : Key) : (GetWalk.immutables (p :: imms) tables).answer mems R key =
      onto (mems p.mem).layer ((GetWalk.immutables imms tables).answer mems R) key := by
  simp only [GetWalk.answer, GetWalk.below, GetWalk.imms, GetWalk.ssts, List.map_cons, ask_cons]

/-- A `get` that walks on keeps its answer. -/
theorem GetMove.stands {V : Key → Nat → Set (Option Value)} (hall : ∀ g ∈ n.eng.gets, Stands n (V g.key g.since) g) {i : Nat} {io : Io}
    {r : Node Γ × Out} (hm : GetMove n i io r) : ∀ g ∈ r.1.eng.gets, Stands n (V g.key g.since) g := by
  have hanswer : ∀ (g : GetCall) (res : Except LsmError (Option Value)),
      ∀ g' ∈ (n.answer i g res).1.eng.gets, Stands n (V g'.key g'.since) g' :=
    fun g res g' hg' => hall g' (List.mem_of_mem_eraseIdx hg')
  have hwalkOn : ∀ (g : GetCall) (walk : GetWalk), Stands n (V g.key g.since) { g with walk := walk } →
      ∀ g' ∈ (n.walkOn i g walk).1.eng.gets, Stands n (V g'.key g'.since) g' := by
    intro g walk hg g' hg'
    rcases List.mem_or_eq_of_mem_set hg' with hg' | rfl
    · exact hall g' hg'
    · exact hg
  cases hm with
  | activeHit | immHit | tablesEnd | fails | tableHit => exact hanswer _ _
  | openTable => exact hall
  | @activeMiss g mem imms tables hg hw he =>
    have hnone : (n.eng.mems mem).layer g.key = none := by rw [MemTable.layer, he]; rfl
    refine hwalkOn g _ ((hall g (List.mem_of_getElem? hg)).walkOn (by simp) (by rw [hw]; exact fun _ hp => hp)
      (by rw [hw]; exact fun _ hm => hm) (fun R _ => ?_))
    rw [hw, GetWalk.answer, onto_of_none hnone]
    rfl
  | @immMiss g p imms tables hg hw he =>
    have hnone : (n.eng.mems p.mem).layer g.key = none := by rw [MemTable.layer, he]; rfl
    refine hwalkOn g _ ((hall g (List.mem_of_getElem? hg)).walkOn (by simp)
      (by rw [hw]; exact fun _ hp => List.mem_cons_of_mem _ hp) (by rw [hw]; exact fun _ hm => hm) (fun R _ => ?_))
    rw [hw, answer_immutable, onto_of_none hnone]
  | @immEnd g tables hg hw =>
    refine hwalkOn g _ ((hall g (List.mem_of_getElem? hg)).walkOn (by simp) (by rw [hw]; exact fun _ hp => hp)
      (by rw [hw]; exact fun _ hm => hm) (fun R _ => ?_))
    rw [hw]
    rfl
  | @skip g sst rest hg hw hr =>
    refine hwalkOn g _ ((hall g (List.mem_of_getElem? hg)).walkOn (by simp) (by rw [hw]; exact fun _ hp => hp)
      (by rw [hw]; exact fun _ hm => List.mem_cons_of_mem _ hm) (fun R hR => ?_))
    rw [hw] at hR
    obtain ⟨f, hb⟩ := (hR sst List.mem_cons_self).built
    have hnone : tableLayer (R sst) g.key = none := by rw [tableLayer, hb.find_outside hr]; rfl
    rw [hw, answer_table, onto_of_none hnone]
  | @tableMiss g sst rest rd hg hw hin hr hf =>
    refine hwalkOn g _ ((hall g (List.mem_of_getElem? hg)).walkOn (by simp) (by rw [hw]; exact fun _ hp => hp)
      (by rw [hw]; exact fun _ hm => List.mem_cons_of_mem _ hm) (fun R hR => ?_))
    rw [hw] at hR
    have hget := (hR sst List.mem_cons_self).reader rd hr g.key
    rw [hf, Except.ok.injEq, eq_comm, Option.map_eq_none_iff] at hget
    have hnone : tableLayer (R sst) g.key = none := by rw [tableLayer, hget]; rfl
    rw [hw, answer_table, onto_of_none hnone]

/-- A `get` that returns `Ok` returns its answer. -/
theorem GetMove.returns_answer {V : Key → Nat → Set (Option Value)} (hall : ∀ g ∈ n.eng.gets, Stands n (V g.key g.since) g) {i : Nat}
    {io : Io} {r : Node Γ × Out} (hm : GetMove n i io r) {k : Key} {since : Nat} {v : Option Value}
    (ho : r.2 = .got k since (.ok v)) : v ∈ V k since := by
  have hanswer : ∀ (g : GetCall) (v' : Option Value), n.eng.gets[i]? = some g →
      Out.got g.key g.since (.ok v') = .got k since (.ok v) →
      (∀ R, (∀ m ∈ g.walk.ssts, HandleOk n m (R m)) → g.walk.answer n.eng.mems R g.key = v') → v ∈ V k since := by
    intro g v' hg heq hval
    simp only [Out.got.injEq, Except.ok.injEq] at heq
    obtain ⟨rfl, rfl, rfl⟩ := heq
    obtain ⟨R, hR, ha⟩ := (hall g (List.mem_of_getElem? hg)).answer
    exact hval R hR ▸ ha
  cases hm with
  | activeMiss | immMiss | immEnd | skip | openTable | tableMiss => simp [Node.walkOn] at ho
  | fails => simp [Node.answer] at ho
  | @activeHit g mem imms tables entry hg hw he =>
    refine hanswer g _ hg ho (fun R _ => ?_)
    have hsome : (n.eng.mems mem).layer g.key = some entry.visible := by rw [MemTable.layer, he]; rfl
    rw [hw, GetWalk.answer, onto_of_some hsome]
  | @immHit g p imms tables entry hg hw he =>
    refine hanswer g _ hg ho (fun R _ => ?_)
    have hsome : (n.eng.mems p.mem).layer g.key = some entry.visible := by rw [MemTable.layer, he]; rfl
    rw [hw, answer_immutable, onto_of_some hsome]
  | @tablesEnd g hg hw =>
    refine hanswer g _ hg ho (fun R _ => ?_)
    rw [hw]
    rfl
  | @tableHit g sst rest rd found hg hw hin hr hf =>
    refine hanswer g _ hg ho (fun R hR => ?_)
    rw [hw] at hR
    have hget := (hR sst List.mem_cons_self).reader rd hr g.key
    rw [hf, Except.ok.injEq, eq_comm, Option.map_eq_some_iff] at hget
    obtain ⟨rec, hfind, rfl⟩ := hget
    have hsome : tableLayer (R sst) g.key = some (visibleRecord rec) := by rw [tableLayer, hfind]; rfl
    rw [hw, answer_table, onto_of_some hsome, visible_lookupValue]

/-- The answers of the calls in progress after a step of the engine are in `W`, where those before it are and the values that their keys
have after it. -/
theorem stands_nodeMove (h : TablesUp n) {a : Act} {x : Sys Γ × Out} (hm : NodeMove n a x) (hx : x.1 = n'.toSys)
    {V W : Key → Nat → Set (Option Value)} (hall : ∀ g ∈ n.eng.gets, Stands n (V g.key g.since) g)
    (hsub : ∀ k since, V k since ⊆ W k since)
    (hnew : ∀ key, n' = (n.get key).1 → n.eng.map n.disk key ∈ W key n.hist.applied)
    (hnow : ∀ g ∈ n'.eng.gets, n'.eng.map n'.disk g.key ∈ W g.key g.since) :
    ∀ g ∈ n'.eng.gets, Stands n' (W g.key g.since) g := by
  intro g hg
  refine Stands.other hm hx ?_ (hnow g hg)
  have hwide : ∀ g ∈ n.eng.gets, Stands n (W g.key g.since) g := fun g hg => (hall g hg).mono (hsub _ _)
  rcases hm.gets hx with heq | ⟨key, heq⟩ | ⟨i, io, r, hmove, heq⟩
  · rw [heq] at hg
    exact hwide g hg
  · rw [heq] at hg
    simp only [Node.get, List.mem_append, List.mem_singleton] at hg
    rcases hg with hg | rfl
    · exact hwide g hg
    · exact Stands.snapshot h key _ (hnew key heq)
  · rw [heq] at hg
    exact hmove.stands hwide g hg

/-! ## Runs -/

/-- The values that `k` has had in the run, between the start of a `get` that began when `since` writes had been applied and now. -/
def Seen (ok : Sys Γ → Act → Prop) (s₁ s : Sys Γ) (k : Key) (since : Nat) : Set (Option Value) :=
  {v | ∃ s₀ t₀ u e, Steps (step Γ) ok s₁ s₀ ∧ step Γ s₀ (.get k) = some (t₀, .silent) ∧ t₀.hist.applied = since ∧
    Steps (step Γ) ok t₀ u ∧ Steps (step Γ) ok u s ∧ SameOpen t₀ s ∧ u.proc = .up e ∧ e.map u.disk k = v}

variable {ok : Sys Γ → Act → Prop} {logs : SortedMap Nat WalFile} {s₁ s t : Sys Γ} {k : Key} {since : Nat}

/-- What was seen stays seen. -/
theorem Seen.later {a : Act} {o : Out} (ha : ok s a) (hs : step Γ s a = some (t, o)) (hsame : SameOpen s t) :
    Seen ok s₁ s k since ⊆ Seen ok s₁ t k since := by
  rintro v ⟨s₀, t₀, u, e, h1, h2, h3, h4, h5, h6, h7, h8⟩
  exact ⟨s₀, t₀, u, e, h1, h2, h3, h4, h5.tail ha hs, hsame.trans h6, h7, h8⟩

/-- A `get` that has begun sees what its key has now. -/
theorem Seen.now (h : (Seen ok s₁ s k since).Nonempty) {e : Engine Γ} (hp : s.proc = .up e) : e.map s.disk k ∈ Seen ok s₁ s k since := by
  obtain ⟨v, s₀, t₀, u, e', h1, h2, h3, h4, h5, h6, -, -⟩ := h
  exact ⟨s₀, t₀, s, e, h1, h2, h3, h4.trans h5, .refl, h6, hp, rfl⟩

/-- Every `get` in progress stands for a value that its key has had since it began. -/
theorem stands_of_steps (h : Steps (step Γ) ok (Sys.ofLogs Γ logs) s) {e : Engine Γ} (hp : s.proc = .up e) :
    ∀ g ∈ e.gets, Stands ⟨s.disk, s.hist, e⟩ (Seen ok (Sys.ofLogs Γ logs) s g.key g.since) g := by
  induction h generalizing e with
  | refl => simp [Sys.ofLogs] at hp
  | @tail u v a o hu hok hs ih =>
    rcases step_into_up hs hp with ⟨e₀, hp₀, hm, hpast⟩ | ⟨-, hnil⟩
    · have hall := ih hp₀
      have hsub : ∀ k since, Seen ok (Sys.ofLogs Γ logs) u k since ⊆ Seen ok (Sys.ofLogs Γ logs) v k since :=
        fun k since => Seen.later hok hs hpast
      have hnew : ∀ key, (⟨v.disk, v.hist, e⟩ : Node Γ) = (Node.get ⟨u.disk, u.hist, e₀⟩ key).1 →
          e₀.map u.disk key ∈ Seen ok (Sys.ofLogs Γ logs) v key u.hist.applied := by
        intro key heq
        have hv : v = (Node.get ⟨u.disk, u.hist, e₀⟩ key).1.toSys := by rw [toSys_of_up hp, heq]
        have hget : step Γ u (.get key) = some (v, .silent) := by
          rw [hv, toSys_of_up hp₀]
          rfl
        exact ⟨u, v, v, e, hu, hget, by rw [hv]; rfl, .refl, .refl, rfl, hp, by rw [show e = _ from congrArg Node.eng heq, hv]; rfl⟩
      refine stands_nodeMove (tablesUp_of_steps hu hp₀) hm (toSys_of_up hp) hall hsub hnew (fun g hg => Seen.now ?_ hp)
      have hwas : ∀ g' ∈ e₀.gets, g'.since = g.since → g'.key = g.key → (Seen ok (Sys.ofLogs Γ logs) v g.key g.since).Nonempty := by
        intro g' hg' h1 h2
        obtain ⟨R, -, hans⟩ := (hall g' hg').answer
        exact h1 ▸ h2 ▸ ⟨_, hsub _ _ hans⟩
      rcases hm.gets (toSys_of_up hp) with heq | ⟨key, heq⟩ | ⟨i, io, r, hmove, heq⟩
      · rw [show e.gets = e₀.gets from heq] at hg
        exact hwas g hg rfl rfl
      · have he : e = (Node.get ⟨u.disk, u.hist, e₀⟩ key).1.eng := congrArg Node.eng heq
        have hg' := hg
        rw [he] at hg'
        simp only [Node.get, List.mem_append, List.mem_singleton] at hg'
        rcases hg' with hg' | rfl
        · exact hwas g hg' rfl rfl
        · exact ⟨_, hnew key heq⟩
      · have he : e = r.1.eng := congrArg Node.eng heq
        rw [he] at hg
        obtain ⟨g', hg', h1, h2⟩ := hmove.began g hg
        exact hwas g' hg' h1 h2
    · rw [hnil]
      intro g hg
      simp at hg

/-- What a `get` that returns `Ok` returns, its key has had since the `get` began. -/
theorem returned_seen (h : Steps (step Γ) ok (Sys.ofLogs Γ logs) s) {i : Nat} {io : Io} {v : Option Value}
    (hs : step Γ s (.getStep i io) = some (t, .got k since (.ok v))) : v ∈ Seen ok (Sys.ofLogs Γ logs) s k since := by
  cases step_cases hs with
  | @node _ e _ hp hm =>
    generalize hx : (t, Out.got k since (.ok v)) = x at hm
    cases hm with
    | @getStep _ _ r hg => exact hg.returns_answer (stands_of_steps h hp) (Prod.mk.inj hx).2.symm

end LsmEngine
