import LsmEngine.Lemmas.Calls

/-!
# What a `get` returns

The handle of a table keeps the result of its first open, so a table whose first open has failed is spoilt for as long as the engine
runs. A `get` asks the MemTables and then the tables it comes to, and returns the error of the first of these that is spoilt, else
the value of its key.
-/

namespace LsmEngine

open Overlay Transition SsTableAux

variable {Γ : Ctx} {n n' : Node Γ}

/-- The error that the handle of a table keeps. -/
def Engine.handleError (e : Engine Γ) (m : SstMeta) : Option LsmError :=
  match e.readers m.name with
  | some (.error err) => some (readerError m.name err)
  | _ => none

/-- What a call that needs these tables returns: the error of the first one that is spoilt, else `v`. -/
def Engine.unlessSpoilt {α : Type} (e : Engine Γ) (ms : List SstMeta) (v : α) : Except LsmError α :=
  match ms.findSome? e.handleError with
  | some err => .error err
  | none => .ok v

/-- The tables that a lookup of `k` needs, where they hold the records `R`: those with `k` in their range, up to the first that has
it. -/
def tablesAsked (R : SstMeta → List Record) (k : Key) : List SstMeta → List SstMeta
  | [] => []
  | m :: rest =>
    if k < m.min ∨ m.max < k then tablesAsked R k rest
    else if (SortedMap.find k (R m)).isSome then [m]
    else m :: tablesAsked R k rest

/-- The tables that a `get` of `k` needs: none when a MemTable has the key. -/
def Engine.asks (d : Disk) (e : Engine Γ) (k : Key) : List SstMeta :=
  if ((e.mems e.active).getEntry k).isSome ∨ e.immutables.any (fun p => ((e.mems p.mem).getEntry k).isSome) then []
  else tablesAsked (fun m => d.records Γ m.name) k (lookupOrder e.levels)

/-- Some tables have been opened, each for the first time and with no failure. -/
def ReadersOpened (readers readers' : SstName → Option (Except String (SsTableReader Γ))) : Prop :=
  ∀ name, readers' name = readers name ∨ (readers name = none ∧ ∃ rd, readers' name = some (.ok rd))

theorem ReadersOpened.refl (readers : SstName → Option (Except String (SsTableReader Γ))) : ReadersOpened readers readers := fun _ => .inl rfl

/-- Openings of readers one after another are openings of readers. -/
theorem ReadersOpened.trans {r₁ r₂ r₃ : SstName → Option (Except String (SsTableReader Γ))} (h : ReadersOpened r₁ r₂) (h' : ReadersOpened r₂ r₃) :
    ReadersOpened r₁ r₃ := by
  intro name
  rcases h' name with heq | ⟨hnone, rd, hrd⟩
  · rw [heq]
    exact h name
  · rcases h name with heq | ⟨-, rd', hrd'⟩
    · exact .inr ⟨heq ▸ hnone, rd, hrd⟩
    · simp [hrd'] at hnone

/-- The reader of one more table is opened. -/
theorem ReadersOpened.update {readers : SstName → Option (Except String (SsTableReader Γ))} {name : SstName} (h : readers name = none)
    (rd : SsTableReader Γ) : ReadersOpened readers (Function.update readers name (some (.ok rd))) := by
  intro name'
  by_cases heq : name' = name
  · subst heq
    exact .inr ⟨h, rd, by rw [Function.update_self]⟩
  · exact .inl (Function.update_of_ne heq _ _)

/-- Opening tables with no failure spoils none and mends none. -/
theorem ReadersOpened.handleError {e e' : Engine Γ} (h : ReadersOpened e.readers e'.readers) : e'.handleError = e.handleError := by
  funext m
  unfold Engine.handleError
  rcases h m.name with heq | ⟨hnone, rd, hrd⟩
  · rw [heq]
  · rw [hnone, hrd]

/-- Where readers are only opened, no handle is spoilt. -/
theorem ReadersOpened.unlessSpoilt {e e' : Engine Γ} (h : ReadersOpened e.readers e'.readers) {α : Type} (ms : List SstMeta) (v : α) :
    e'.unlessSpoilt ms v = e.unlessSpoilt ms v := by
  rw [Engine.unlessSpoilt, h.handleError]
  rfl

/-- A live table opens when nothing fails. -/
theorem live_opens (h : TablesOk n) {m : SstMeta} (hm : m ∈ stack n.eng.levels) :
    ∃ rd, openReader Γ n.disk m.name .ok = .ok rd := by
  obtain ⟨rs, htab⟩ := h.live m hm
  cases ho : openReader Γ n.disk m.name .ok with
  | ok rd => exact ⟨rd, rfl⟩
  | error err => exact absurd ho (htab.openReader_ok err)

/-! ## A `get` among others -/

/-- A `get` has joined those in progress. -/
def Node.asking (n : Node Γ) (g : GetCall) : Node Γ := { n with eng.gets := n.eng.gets ++ [g] }

/-- The `get` that has joined last moves on alone and returns `r`. -/
def Node.GetReturns (n : Node Γ) (g : GetCall) (r : Except LsmError (Option Value)) : Prop :=
  ∃ fuel readers os, play (step Γ) (List.replicate fuel (.getStep n.eng.gets.length .ok)) (n.asking g).toSys =
    some (Node.toSys { n with eng.readers := readers }, os ++ [.got g.key g.since r]) ∧ (∀ o ∈ os, o = .silent) ∧
    ReadersOpened n.eng.readers readers

/-- A `get` that was begun last goes on in its place. -/
theorem asking_walkOn (n : Node Γ) (g : GetCall) (walk : GetWalk) :
    (n.asking g).walkOn n.eng.gets.length g walk = (n.asking { g with walk := walk }, .silent) := by
  simp [Node.asking, Node.walkOn]

theorem asking_answer (n : Node Γ) (g : GetCall) (r : Except LsmError (Option Value)) :
    (n.asking g).answer n.eng.gets.length g r = (n, .got g.key g.since r) := by
  simp only [Node.asking, Node.answer, List.eraseIdx_append_of_length_le (Nat.le_refl _), Nat.sub_self, List.eraseIdx_cons_zero,
    List.append_nil]

/-- A step of a `get` as a step of the system. -/
theorem step_get {r : Node Γ × Out} {i : Nat} {io : Io} (h : n.getStep i io = some r) :
    step Γ n.toSys (.getStep i io) = some (r.1.toSys, r.2) := by
  simp only [step, Node.toSys, Node.act, Node.lift, h, Option.map_some]

/-- The step returns. -/
theorem GetReturns.now {g : GetCall} {r : Except LsmError (Option Value)}
    (h : (n.asking g).getStep n.eng.gets.length .ok = some (n, .got g.key g.since r)) : n.GetReturns g r :=
  ⟨1, n.eng.readers, [], by simp only [List.replicate_one, play, step_get h]; rfl, by simp, ReadersOpened.refl _⟩

/-- The step walks on, or opens a table. -/
theorem GetReturns.step {g : GetCall} (walk : GetWalk) {readers : SstName → Option (Except String (SsTableReader Γ))}
    {r : Except LsmError (Option Value)}
    (h : (n.asking g).getStep n.eng.gets.length .ok =
      some (Node.asking { n with eng.readers := readers } { g with walk := walk }, .silent))
    (ho : ReadersOpened n.eng.readers readers)
    (hr : Node.GetReturns { n with eng.readers := readers } { g with walk := walk } r) : n.GetReturns g r := by
  obtain ⟨fuel, readers', os, hplay, hos, ho'⟩ := hr
  refine ⟨fuel + 1, readers', .silent :: os, ?_, by simpa using hos, ho.trans ho'⟩
  rw [List.replicate_succ, play, step_get h]
  dsimp only
  rw [hplay]
  rfl

/-! ### The tables -/

/-- What a `get` of `k` returns that has these tables to ask. -/
def Node.tablesReply (n : Node Γ) (k : Key) (ts : List SstMeta) : Except LsmError (Option Value) :=
  n.eng.unlessSpoilt (tablesAsked (fun m => n.disk.records Γ m.name) k ts)
    (ask (ts.map (fun m => tableLayer (n.disk.records Γ m.name))) (fun _ => none) k)

section Replies

variable {k : Key} {m : SstMeta} {rest : List SstMeta}

/-- A table whose range leaves the key out is not asked. -/
theorem tablesReply_skip (h : TablesOk n) (hm : m ∈ stack n.eng.levels) (hout : k < m.min ∨ m.max < k) :
    n.tablesReply k (m :: rest) = n.tablesReply k rest := by
  obtain ⟨rs, htab⟩ := h.live m hm
  have hrs := htab.records
  obtain ⟨f, -, hb⟩ := htab
  have hnone : tableLayer (n.disk.records Γ m.name) k = none := by
    rw [hrs, tableLayer, hb.find_outside hout]
    rfl
  rw [Node.tablesReply, tablesAsked, if_pos hout, List.map_cons, ask_cons, onto_of_none hnone]
  rfl

/-- A spoilt handle is the reply. -/
theorem tablesReply_spoilt (hin : ¬(k < m.min ∨ m.max < k)) {e : String} (hr : n.eng.readers m.name = some (.error e)) :
    n.tablesReply k (m :: rest) = .error (readerError m.name e) := by
  have hsome : n.eng.handleError m = some (readerError m.name e) := by rw [Engine.handleError, hr]
  rw [Node.tablesReply, tablesAsked, if_neg hin]
  split <;> rw [Engine.unlessSpoilt, List.findSome?_cons, hsome]

/-- A table that has the key replies with its record. -/
theorem tablesReply_hit (hin : ¬(k < m.min ∨ m.max < k)) (hnone : n.eng.handleError m = none) {x : Value × Bool}
    (hf : SortedMap.find k (n.disk.records Γ m.name) = some x) : n.tablesReply k (m :: rest) = .ok (visibleRecord x) := by
  have hlayer : tableLayer (n.disk.records Γ m.name) k = some (visibleRecord x) := by rw [tableLayer, hf]; rfl
  rw [Node.tablesReply, tablesAsked, if_neg hin, hf, List.map_cons, ask_cons, onto_of_some hlayer]
  simp [Engine.unlessSpoilt, hnone]

/-- A table that has not the key leaves the reply to the tables below. -/
theorem tablesReply_miss (hin : ¬(k < m.min ∨ m.max < k)) (hnone : n.eng.handleError m = none)
    (hf : SortedMap.find k (n.disk.records Γ m.name) = none) : n.tablesReply k (m :: rest) = n.tablesReply k rest := by
  have hlayer : tableLayer (n.disk.records Γ m.name) k = none := by rw [tableLayer, hf]; rfl
  rw [Node.tablesReply, tablesAsked, if_neg hin, hf, List.map_cons, ask_cons, onto_of_none hlayer]
  simp only [Option.isSome_none, Bool.false_eq_true, if_false, Engine.unlessSpoilt, List.findSome?_cons, hnone, Node.tablesReply]

end Replies

/-- The `get` that was begun last stands at the end. -/
theorem getElem?_asking (n : Node Γ) (g : GetCall) : (n.asking g).eng.gets[n.eng.gets.length]? = some g := by
  simp [Node.asking]

/-- The `get` looks into the tables. -/
theorem TablesOk.walk_tables (h : TablesOk n) {k : Key} {since : Nat} {ts : List SstMeta} (hts : ∀ m ∈ ts, m ∈ stack n.eng.levels) :
    n.GetReturns ⟨k, since, .tables ts⟩ (n.tablesReply k ts) := by
  induction ts generalizing n with
  | nil =>
    refine GetReturns.now ?_
    simp only [Node.getStep, getElem?_asking]
    exact congrArg some (asking_answer n _ _)
  | cons m rest ih =>
    have hstep : ∀ n : Node Γ, (n.asking ⟨k, since, .tables (m :: rest)⟩).getStep n.eng.gets.length .ok = some
        ((n.asking ⟨k, since, .tables (m :: rest)⟩).lookTable n.eng.gets.length ⟨k, since, .tables (m :: rest)⟩ m rest .ok) := by
      intro n
      simp only [Node.getStep, getElem?_asking]
    by_cases hout : k < m.min ∨ m.max < k
    · obtain ⟨hm, hrest⟩ := List.forall_mem_cons.1 hts
      rw [tablesReply_skip h hm hout]
      refine GetReturns.step (.tables rest) ?_ (ReadersOpened.refl n.eng.readers) (ih h hrest)
      rw [hstep, Node.lookTable, if_pos hout, asking_walkOn]
    -- the table is open
    have hread : ∀ {n : Node Γ} {rd : SsTableReader Γ}, TablesOk n → (∀ m' ∈ m :: rest, m' ∈ stack n.eng.levels) →
        n.eng.readers m.name = some (.ok rd) → n.GetReturns ⟨k, since, .tables (m :: rest)⟩ (n.tablesReply k (m :: rest)) := by
      intro n rd h hts hr
      obtain ⟨hm, hrest⟩ := List.forall_mem_cons.1 hts
      have hget := (h.reads hm hr).2 k
      have hnone : n.eng.handleError m = none := by rw [Engine.handleError, hr]
      have hlook := hstep n
      rw [Node.lookTable, if_neg hout, show (n.asking _).eng.readers m.name = _ from hr] at hlook
      dsimp only at hlook
      cases hf : SortedMap.find k (n.disk.records Γ m.name) with
      | none =>
        simp only [hget, hf, Option.map_none, asking_walkOn] at hlook
        rw [tablesReply_miss hout hnone hf]
        exact GetReturns.step (.tables rest) hlook (ReadersOpened.refl n.eng.readers) (ih h hrest)
      | some x =>
        rw [tablesReply_hit hout hnone hf]
        refine GetReturns.now ?_
        obtain ⟨v, del⟩ := x
        cases del <;> simpa [hget, hf, lookupValue, visibleRecord, asking_answer] using hlook
    have hlook := hstep n
    rw [Node.lookTable, if_neg hout] at hlook
    cases hr : n.eng.readers m.name with
    | none =>
      rw [show (n.asking _).eng.readers m.name = _ from hr] at hlook
      obtain ⟨rd, hopen⟩ := live_opens h (hts m List.mem_cons_self)
      have htab := h.openReader m.name .ok
      rw [hopen] at htab
      have ho := ReadersOpened.update hr rd
      have hreply : Node.tablesReply { n with eng.readers := Function.update n.eng.readers m.name (some (.ok rd)) } k (m :: rest) =
          n.tablesReply k (m :: rest) := ReadersOpened.unlessSpoilt ho _ _
      rw [← hreply]
      refine GetReturns.step (.tables (m :: rest)) ?_ ho (hread htab hts (Function.update_self _ _ _))
      rw [hlook, ← hopen]
      rfl
    | some res =>
      cases res with
      | ok rd => exact hread h hts hr
      | error e =>
        rw [show (n.asking _).eng.readers m.name = _ from hr] at hlook
        rw [tablesReply_spoilt hout hr]
        exact GetReturns.now (by simpa only [asking_answer] using hlook)

/-! ### The MemTables -/

/-- What the newest of these immutables that has the key says of it. -/
def Engine.frozenEntry (e : Engine Γ) (k : Key) (imms : List PendingImm) : Option Entry :=
  imms.findSome? (fun p => (e.mems p.mem).getEntry k)

/-- Frozen MemTables that are asked answer with the newest entry. -/
theorem ask_immutables (e : Engine Γ) (k : Key) (imms : List PendingImm) (b : Key → Option Value) :
    ask (imms.map (fun p => (e.mems p.mem).layer)) b k = ((e.frozenEntry k imms).map Entry.visible).getD (b k) := by
  induction imms with
  | nil => rfl
  | cons p imms ih =>
    rw [List.map_cons, ask_cons, Engine.frozenEntry, List.findSome?_cons]
    cases hp : (e.mems p.mem).getEntry k with
    | none =>
      rw [onto_of_none (by rw [MemTable.layer, hp]; rfl)]
      exact ih
    | some entry => exact onto_of_some (by rw [MemTable.layer, hp]; rfl) _

/-- The `get` looks into the immutables, the newest first. -/
theorem TablesOk.walk_immutables (h : TablesOk n) {k : Key} {since : Nat} {ts : List SstMeta}
    (hts : ∀ m ∈ ts, m ∈ stack n.eng.levels) (imms : List PendingImm) : n.GetReturns ⟨k, since, .immutables imms ts⟩
      (match n.eng.frozenEntry k imms with
      | some entry => .ok entry.visible
      | none => n.tablesReply k ts) := by
  induction imms with
  | nil =>
    refine GetReturns.step (.tables ts) ?_ (ReadersOpened.refl n.eng.readers) (h.walk_tables hts)
    simp only [Node.getStep, getElem?_asking]
    exact congrArg some (asking_walkOn n _ _)
  | cons p imms ih =>
    rw [Engine.frozenEntry, List.findSome?_cons]
    cases hp : (n.eng.mems p.mem).getEntry k with
    | none =>
      refine GetReturns.step (.immutables imms ts) ?_ (ReadersOpened.refl n.eng.readers) ih
      simp only [Node.getStep, getElem?_asking]
      rw [show ((n.asking _).eng.mems p.mem).getEntry k = _ from hp]
      exact congrArg some (asking_walkOn n _ _)
    | some entry =>
      refine GetReturns.now ?_
      simp only [Node.getStep, getElem?_asking]
      rw [show ((n.asking _).eng.mems p.mem).getEntry k = _ from hp]
      exact congrArg some (asking_answer n _ _)

/-- A `get` that begins and moves on while nobody else does returns the value of its key; but the error of the first table that it
needs and that is spoilt, if there is one. -/
theorem TablesOk.get_returns (h : TablesOk n) (k : Key) :
    n.GetReturns ⟨k, n.hist.applied, .active n.eng.active n.eng.immutables (lookupOrder n.eng.levels)⟩
      (n.eng.unlessSpoilt (n.eng.asks n.disk k) (n.eng.map n.disk k)) := by
  have hts : ∀ m ∈ lookupOrder n.eng.levels, m ∈ stack n.eng.levels := by
    intro m hm
    rw [lookupOrder_eq] at hm
    exact List.mem_reverse.1 hm
  rw [Engine.map_eq_ask, Engine.asks]
  cases ha : (n.eng.mems n.eng.active).getEntry k with
  | some entry =>
    rw [onto_of_some (by rw [MemTable.layer, ha]; rfl), if_pos (.inl rfl)]
    refine GetReturns.now ?_
    simp only [Node.getStep, getElem?_asking]
    rw [show ((n.asking _).eng.mems n.eng.active).getEntry k = _ from ha]
    exact congrArg some (asking_answer n _ _)
  | none =>
    rw [onto_of_none (by rw [MemTable.layer, ha]; rfl)]
    have hwalk : n.GetReturns ⟨k, n.hist.applied, .immutables n.eng.immutables.reverse (lookupOrder n.eng.levels)⟩ _ :=
      h.walk_immutables hts _
    have hany : n.eng.immutables.any (fun p => ((n.eng.mems p.mem).getEntry k).isSome) =
        (n.eng.frozenEntry k n.eng.immutables.reverse).isSome := by
      rw [Engine.frozenEntry, List.isSome_findSome?, List.any_reverse]
    have hreply : (match n.eng.frozenEntry k n.eng.immutables.reverse with
        | some entry => .ok entry.visible
        | none => n.tablesReply k (lookupOrder n.eng.levels)) = n.eng.unlessSpoilt
          (if (none : Option Entry).isSome ∨ n.eng.immutables.any (fun p => ((n.eng.mems p.mem).getEntry k).isSome) then []
            else tablesAsked (fun m => n.disk.records Γ m.name) k (lookupOrder n.eng.levels))
          ((GetWalk.active n.eng.active n.eng.immutables (lookupOrder n.eng.levels)).below n.eng.mems
            (fun m => n.disk.records Γ m.name) k) := by
      rw [GetWalk.below, GetWalk.imms, GetWalk.ssts, ask_immutables, hany]
      cases n.eng.frozenEntry k n.eng.immutables.reverse with
      | none => rfl
      | some entry => rfl
    rw [← hreply]
    refine GetReturns.step (.immutables n.eng.immutables.reverse (lookupOrder n.eng.levels)) ?_ (ReadersOpened.refl n.eng.readers) hwalk
    simp only [Node.getStep, getElem?_asking]
    rw [show ((n.asking _).eng.mems n.eng.active).getEntry k = _ from ha]
    exact congrArg some (asking_walkOn n _ _)

/-! ### A `get` that runs alone -/

/-- A table that is asked has the key in its range. -/
theorem mem_tablesAsked {R : SstMeta → List Record} {k : Key} {ts : List SstMeta} {m : SstMeta} (h : m ∈ tablesAsked R k ts) :
    m ∈ ts ∧ ¬(k < m.min ∨ m.max < k) := by
  induction ts with
  | nil => simp [tablesAsked] at h
  | cons m' rest ih =>
    rw [tablesAsked] at h
    split at h
    · exact ⟨List.mem_cons_of_mem _ (ih h).1, (ih h).2⟩
    · rename_i hin
      split at h
      · obtain rfl := List.mem_singleton.1 h
        exact ⟨List.mem_cons_self, hin⟩
      · rcases List.mem_cons.1 h with rfl | h
        · exact ⟨List.mem_cons_self, hin⟩
        · exact ⟨List.mem_cons_of_mem _ (ih h).1, (ih h).2⟩

/-- The steps of a `get`, where no other call is in progress, are those that the engine takes next. -/
theorem drive_of_play {fuel : Nat} {m : Node Γ} {os : List Out} (hw : n.eng.wal = .free) (hf : n.eng.flush = .free)
    (hfl : n.eng.flushers = []) (h : play (step Γ) (List.replicate fuel (.getStep 0 .ok)) n.toSys = some (m.toSys, os))
    (hq : m.quiet = true) : drive (step Γ) next fuel n.toSys = some (m.toSys, os) := by
  induction fuel generalizing n os with
  | zero =>
    obtain ⟨hsame, rfl⟩ := Prod.mk.inj (Option.some.inj h)
    rw [hsame]
    exact drive_done (pending_of_quiet hq)
  | succ fuel ih =>
    rw [List.replicate_succ, play] at h
    cases hg : n.getStep 0 .ok with
    | none => simp [step, Node.toSys, Node.act, Node.lift, hg] at h
    | some r =>
      have hs := step_get hg
      rw [hs] at h
      obtain ⟨q, hplay, hq'⟩ := Option.map_eq_some_iff.1 h
      obtain ⟨hsame, rfl⟩ := Prod.mk.inj hq'
      have hm := getStep_cases hg
      have hkept : r.1.eng.wal = n.eng.wal ∧ r.1.eng.flush = n.eng.flush ∧ r.1.eng.flushers = n.eng.flushers := by
        cases hm <;> exact ⟨rfl, rfl, rfl⟩
      have hgets : n.eng.gets.isEmpty = false := by
        cases hl : n.eng.gets with
        | nil => simp [Node.getStep, hl] at hg
        | cons => rfl
      have hnext : next n.toSys = some (.getStep 0 .ok) := by
        change n.pending = _
        simp [Node.pending, hw, hf, hfl, hgets, FlushSection.busy]
      refine drive_step (r := (m.toSys, q.2)) hnext hs
        (ih (hkept.1.trans hw) (hkept.2.1.trans hf) (hkept.2.2.trans hfl) ?_)
      rw [hplay, ← hsame]

/-- A `get` of `k` can return `r`: the value of the key, or the error that the handle of a table whose range holds the key has
kept. -/
def Node.Answers (n : Node Γ) (k : Key) (r : Except LsmError (Option Value)) : Prop :=
  r = .ok (runWrites n.hist.log n.hist.base k) ∨
    ∃ m ∈ stack n.eng.levels, ¬(k < m.min ∨ m.max < k) ∧
      ∃ e, n.eng.readers m.name = some (.error e) ∧ r = .error (readerError m.name e)

/-- On an engine that nobody uses, a `get` comes to its end, and returns the value of its key or the error that the handle of a table
has kept. -/
theorem DataUp.get_answers (hdata : DataUp n) (hq : n.quiet = true) (k : Key) :
    ∃ fuel t os r, runAct Γ fuel (.get k) n.toSys = some (t, os) ∧ os.flatMap Out.reply = [.value r] ∧ n.Answers k r := by
  obtain ⟨hw, hf, hfl, hg⟩ := quiet_parts hq
  obtain ⟨fuel, readers, os, hplay, hos, -⟩ := hdata.tables.get_returns k
  rw [hg, List.length_nil] at hplay
  have hdrive := drive_of_play (n := n.asking _) (m := { n with eng.readers := readers }) hw hf hfl hplay hq
  have hs : step Γ n.toSys (.get k) = some ((n.get k).1.toSys, .silent) := rfl
  have hrun : runAct Γ fuel (.get k) n.toSys = some (Node.toSys { n with eng.readers := readers },
      .silent :: (os ++ [.got k n.hist.applied (n.eng.unlessSpoilt (n.eng.asks n.disk k) (n.eng.map n.disk k))])) := by
    rw [runAct, hs]
    exact congrArg (Option.map _) hdrive
  refine ⟨fuel, _, _, n.eng.unlessSpoilt (n.eng.asks n.disk k) (n.eng.map n.disk k), hrun, ?_, ?_⟩
  · rw [List.flatMap_cons, List.flatMap_append, List.flatMap_eq_nil_iff.2 (fun o ho => by rw [hos o ho]; rfl)]
    rfl
  · unfold Engine.unlessSpoilt
    cases herr : (n.eng.asks n.disk k).findSome? n.eng.handleError with
    | none => exact .inl (by rw [hdata.map_of_free hw])
    | some err =>
      obtain ⟨m, hm, hsome⟩ := List.exists_of_findSome?_eq_some herr
      right
      unfold Engine.asks at hm
      split at hm
      · simp at hm
      · obtain ⟨hmem, hin⟩ := mem_tablesAsked hm
        rw [lookupOrder_eq] at hmem
        refine ⟨m, List.mem_reverse.1 hmem, hin, ?_⟩
        unfold Engine.handleError at hsome
        split at hsome
        · rename_i e hr
          exact ⟨e, hr, by rw [← Option.some.inj hsome]⟩
        · simp at hsome

end LsmEngine
