import LsmEngine.Lemmas.Reads

/-!
# Table handles

A handle is shared by the levels, by every snapshot that names it and by the compaction that reads it, and keeps the reader it
opens. While nothing fails, a compaction has opened every input before its commit takes the inputs out of the levels; so a
handle that some snapshot still holds is a live table's, whose file is there, or has its reader.
-/

namespace LsmEngine

open Overlay SsTableAux

variable {Γ : Ctx} {n n' : Node Γ}

/-- The handle has its reader. -/
def Opened (n : Node Γ) (m : SstMeta) : Prop := ∃ rd, n.eng.readers m.name = some (.ok rd)

/-- A compaction has opened the inputs it has read. -/
def FlushSection.InputsOpened (n : Node Γ) : FlushSection → Prop
  | .reading inputs todo _ => ∀ m ∈ inputs, m ∈ todo ∨ Opened n m
  | .merging inputs _ _ _ | .installing inputs _ => ∀ m ∈ inputs, Opened n m
  | _ => True

structure HandlesOk (n : Node Γ) : Prop where
  live : ReadersOk n
  inputs : n.eng.flush.InputsOpened n
  held : ∀ g ∈ n.eng.gets, ∀ m ∈ g.walk.ssts, m ∈ stack n.eng.levels ∨ Opened n m

/-! ## Handles keep what they hold -/

/-- A handle keeps the result of its first open: only the handle of a table that is being written is reset. -/
theorem FlushMove.keeps_handle {io : Io} {r : Node Γ × Out} (hm : FlushMove n io r) {m : SstMeta}
    {res : Except String (SsTableReader Γ)} (hres : n.eng.readers m.name = some res)
    (hne : ∀ sst, n.eng.flush.newSst = some sst → m.name ≠ sst.name) : r.1.eng.readers m.name = some res := by
  cases hm with
  | @commit c fl p sst hf hl =>
    simp only [Node.commitFlush]
    rw [Function.update_of_ne (hne sst (by rw [hf]; rfl))]
    exact hres
  | @install inputs output hf hl =>
    cases output with
    | none => exact hres
    | some sst =>
      simp only [Node.commitCompaction]
      rw [Function.update_of_ne (hne sst (by rw [hf]; rfl))]
      exact hres
  | @readOpen inputs todo sst runs hf hr =>
    have hname : m.name ≠ sst.name := by
      intro heq
      rw [heq, hr] at hres
      simp at hres
    simp only [Function.update_of_ne hname]
    exact hres
  | @nothing c | @unbuilt c | @buildFails c | @manifestFailsFlush c | @flushDone c => cases c <;> exact hres
  | _ => exact hres

/-- A reader that is open stays open while a `get` goes on. -/
theorem GetMove.keeps_handle {i : Nat} {io : Io} {r : Node Γ × Out} (hm : GetMove n i io r) {m : SstMeta}
    {res : Except String (SsTableReader Γ)} (hres : n.eng.readers m.name = some res) : r.1.eng.readers m.name = some res := by
  cases hm with
  | @openTable g sst rest hg hw hin hr =>
    have hname : m.name ≠ sst.name := by
      intro heq
      rw [heq, hr] at hres
      simp at hres
    simp only [Function.update_of_ne hname]
    exact hres
  | _ => exact hres

/-- A reader that is open stays open through every action, but that of a table that is being written. -/
theorem NodeMove.keeps_handle {a : Act} {x : Sys Γ × Out} (hm : NodeMove n a x) (hx : x.1 = n'.toSys) {m : SstMeta}
    {res : Except String (SsTableReader Γ)} (hres : n.eng.readers m.name = some res)
    (hne : ∀ sst, n.eng.flush.newSst = some sst → m.name ≠ sst.name) : n'.eng.readers m.name = some res := by
  have hto : ∀ {m : Node Γ}, m.toSys = n'.toSys → m = n' := toSys_inj
  cases hm with
  | flushStep hf =>
    obtain rfl := hto hx
    exact hf.keeps_handle hres hne
  | getStep hg =>
    obtain rfl := hto hx
    exact hg.keeps_handle hres
  | write hw =>
    obtain rfl := hto hx
    cases hw <;> exact hres
  | wal hw =>
    obtain rfl := hto hx
    cases hw with
    | @nothing c | @createFails c | @replace c => cases c <;> exact hres
    | _ => exact hres
  | flush | flushEnter | workerEnter | compactNothing | compactEnter | get | handover =>
    obtain rfl := hto hx
    exact hres
  | drop => simp [Node.drop, Node.toSys] at hx

/-- A table whose reader is open keeps it through a step of the holder of `flush_lock`. -/
theorem FlushMove.opened {io : Io} {r : Node Γ × Out} (hm : FlushMove n io r) {m : SstMeta} (ho : Opened n m)
    (hne : ∀ sst, n.eng.flush.newSst = some sst → m.name ≠ sst.name) : Opened r.1 m := by
  obtain ⟨rd, hrd⟩ := ho
  exact ⟨rd, hm.keeps_handle hrd hne⟩

theorem NodeMove.opened {a : Act} {x : Sys Γ × Out} (hm : NodeMove n a x) (hx : x.1 = n'.toSys) {m : SstMeta} (ho : Opened n m)
    (hne : ∀ sst, n.eng.flush.newSst = some sst → m.name ≠ sst.name) : Opened n' m := by
  obtain ⟨rd, hrd⟩ := ho
  exact ⟨rd, hm.keeps_handle hx hrd hne⟩

/-! ## Inputs -/

/-- The inputs of a compaction are the live tables. -/
theorem TablesOk.inputs_live (h : TablesOk n) (hlen : n.eng.levels.length ≤ 2) {inputs : List SstMeta}
    (hi : (∃ todo runs, n.eng.flush = .reading inputs todo runs) ∨ (∃ sst file st, n.eng.flush = .merging inputs sst file st) ∨
      ∃ output, n.eng.flush = .installing inputs output) {m : SstMeta} : m ∈ inputs ↔ m ∈ stack n.eng.levels := by
  have hinputs : inputs = inputsOf n.eng.levels := by
    have hfl := h.flush
    rcases hi with ⟨todo, runs, hf⟩ | ⟨sst, file, st, hf⟩ | ⟨output, hf⟩
    · rw [hf] at hfl
      exact hfl.1
    · rw [hf] at hfl
      exact hfl.1
    · rw [hf] at hfl
      cases output with
      | none => exact hfl.1
      | some sst => exact hfl.1
  rw [hinputs]
  exact mem_inputsOf hlen

/-- The table that is being written is not live. -/
theorem SeqUp.live_ne_new (h : SeqUp n) {m : SstMeta} (hm : m ∈ stack n.eng.levels) :
    ∀ sst, n.eng.flush.newSst = some sst → m.name ≠ sst.name :=
  fun sst hs => (h.newSst sst hs).name_ne_live h.levels m hm

/-- A compaction opens every input it reads, and a step of it keeps what it has opened. -/
theorem FlushMove.inputsOpened (h : DataUp n) (hin : n.eng.flush.InputsOpened n) {io : Io} {r : Node Γ × Out}
    (hm : FlushMove n io r) : r.1.eng.flush.InputsOpened r.1 := by
  have hkeep : ∀ {inputs : List SstMeta}, ((∃ todo runs, n.eng.flush = .reading inputs todo runs) ∨
      (∃ sst file st, n.eng.flush = .merging inputs sst file st) ∨ ∃ output, n.eng.flush = .installing inputs output) →
      ∀ m ∈ inputs, Opened n m → Opened r.1 m :=
    fun hi m hmi ho => hm.opened ho (h.seq.live_ne_new ((h.tables.inputs_live h.seq.levels.len hi).1 hmi))
  cases hm with
  | @mergedNone inputs runs hf hmr =>
    rw [hf] at hin
    intro m hmi
    exact (hin m hmi).resolve_left (by simp)
  | @merged inputs runs rs sst file hf hmr hne hb =>
    rw [hf] at hin
    intro m hmi
    exact (hin m hmi).resolve_left (by simp)
  | @readOpen inputs todo sst runs hf hr =>
    dsimp only
    rw [hf] at hin ⊢
    intro m hmi
    exact (hin m hmi).imp_right (hkeep (.inl ⟨_, _, hf⟩) m hmi)
  | @read inputs todo sst runs rd records hf hr hio hrs =>
    rw [hf] at hin
    intro m hmi
    rcases hin m hmi with htodo | ho
    · rcases List.mem_cons.1 htodo with rfl | htodo
      · exact .inr ⟨rd, hr⟩
      · exact .inl htodo
    · exact .inr ho
  | @mergeStage inputs sst file st st' hf hio hst =>
    rw [hf] at hin
    exact hin
  | @mergeRename inputs sst file hf hio =>
    rw [hf] at hin
    exact hin
  | @nothing c | @unbuilt c | @buildFails c | @manifestFailsFlush c | @flushDone c => cases c <;> trivial
  | _ => trivial

/-- The inputs that a compaction has read keep their readers. -/
theorem HandlesOk.inputs_nodeMove (h : HandlesOk n) (hdata : DataUp n) {a : Act} {x : Sys Γ × Out} (hm : NodeMove n a x)
    (hx : x.1 = n'.toSys) : n'.eng.flush.InputsOpened n' := by
  have hlen := hdata.seq.levels.len
  have hto : ∀ {m : Node Γ}, m.toSys = n'.toSys → m = n' := toSys_inj
  -- the section stays as it is, and so do the readers of its inputs
  have hsame : n'.eng.flush = n.eng.flush → n'.eng.flush.InputsOpened n' := by
    intro hf
    have hin := h.inputs
    rw [hf]
    cases hfl : n.eng.flush with
    | reading inputs todo runs =>
      rw [hfl] at hin
      intro m hmi
      exact (hin m hmi).imp_right (fun ho =>
        hm.opened hx ho (hdata.seq.live_ne_new ((hdata.tables.inputs_live hlen (.inl ⟨_, _, hfl⟩)).1 hmi)))
    | merging inputs sst file st =>
      rw [hfl] at hin
      intro m hmi
      exact hm.opened hx (hin m hmi) (hdata.seq.live_ne_new ((hdata.tables.inputs_live hlen (.inr (.inl ⟨_, _, _, hfl⟩))).1 hmi))
    | installing inputs output =>
      rw [hfl] at hin
      intro m hmi
      exact hm.opened hx (hin m hmi) (hdata.seq.live_ne_new ((hdata.tables.inputs_live hlen (.inr (.inr ⟨_, hfl⟩))).1 hmi))
    | _ => trivial
  cases hm with
  | flushStep hf =>
    obtain rfl := hto hx
    exact hf.inputsOpened hdata h.inputs
  | compactEnter hf =>
    obtain rfl := hto hx
    exact fun m hmi => .inl hmi
  | flushEnter | workerEnter | compactNothing =>
    obtain rfl := hto hx
    trivial
  | getStep hg =>
    obtain rfl := hto hx
    exact hsame (by cases hg <;> rfl)
  | write hw =>
    obtain rfl := hto hx
    exact hsame (by cases hw <;> rfl)
  | wal hw =>
    obtain rfl := hto hx
    refine hsame ?_
    cases hw with
    | @nothing c => cases c <;> rfl
    | @createFails c => cases c <;> rfl
    | @replace c => cases c <;> rfl
    | _ => rfl
  | flush | get | handover =>
    obtain rfl := hto hx
    exact hsame rfl
  | drop => simp [Node.drop, Node.toSys] at hx

/-! ## Snapshots -/

/-- A table leaves the levels only when a compaction commits, which has opened it. -/
theorem NodeMove.leaves (hdata : DataUp n) (hin : n.eng.flush.InputsOpened n) {a : Act} {x : Sys Γ × Out} (hm : NodeMove n a x)
    (hx : x.1 = n'.toSys) {m : SstMeta} (hlive : m ∈ stack n.eng.levels) : m ∈ stack n'.eng.levels ∨ Opened n' m := by
  have hto : ∀ {m : Node Γ}, m.toSys = n'.toSys → m = n' := toSys_inj
  have hopened : Opened n m → Opened n' m := fun ho => hm.opened hx ho (hdata.seq.live_ne_new hlive)
  cases hm with
  | flushStep hf =>
    obtain rfl := hto hx
    cases hf with
    | @commit c fl p sst hf hl =>
      left
      rw [show (n.commitFlush c fl p sst).eng.levels = flushedLevels n.eng.levels sst from rfl,
        stack_flushedLevels (hdata.seq.newSst sst (by rw [hf]; rfl)).live]
      exact List.mem_append_left _ hlive
    | @install inputs output hf hl =>
      right
      rw [hf] at hin
      exact hopened (hin m ((hdata.tables.inputs_live hdata.seq.levels.len (.inr (.inr ⟨_, hf⟩))).2 hlive))
    | @nothing c | @unbuilt c | @buildFails c | @manifestFailsFlush c | @flushDone c => cases c <;> exact .inl hlive
    | _ => exact .inl hlive
  | getStep hg =>
    obtain rfl := hto hx
    left
    cases hg <;> exact hlive
  | write hw =>
    obtain rfl := hto hx
    left
    cases hw <;> exact hlive
  | wal hw =>
    obtain rfl := hto hx
    left
    cases hw with
    | @nothing c => cases c <;> exact hlive
    | @createFails c => cases c <;> exact hlive
    | @replace c => cases c <;> exact hlive
    | _ => exact hlive
  | flush | flushEnter | workerEnter | compactNothing | compactEnter | get | handover =>
    obtain rfl := hto hx
    exact .inl hlive
  | drop => simp [Node.drop, Node.toSys] at hx

/-- A `get` that walks on holds no handle it did not hold. -/
theorem GetMove.ssts {i : Nat} {io : Io} {r : Node Γ × Out} (hm : GetMove n i io r) :
    ∀ g ∈ r.1.eng.gets, ∀ m ∈ g.walk.ssts, ∃ g' ∈ n.eng.gets, m ∈ g'.walk.ssts := by
  have hanswer : ∀ (g : GetCall) (res : Except LsmError (Option Value)), ∀ g' ∈ (n.answer i g res).1.eng.gets,
      ∀ m ∈ g'.walk.ssts, ∃ g' ∈ n.eng.gets, m ∈ g'.walk.ssts :=
    fun g res g' hg' m hm => ⟨g', List.mem_of_mem_eraseIdx hg', hm⟩
  have hwalkOn : ∀ (g : GetCall) (walk : GetWalk), n.eng.gets[i]? = some g → (∀ m ∈ walk.ssts, m ∈ g.walk.ssts) →
      ∀ g' ∈ (n.walkOn i g walk).1.eng.gets, ∀ m ∈ g'.walk.ssts, ∃ g' ∈ n.eng.gets, m ∈ g'.walk.ssts := by
    intro g walk hg hsub g' hg' m hm
    rcases List.mem_or_eq_of_mem_set hg' with hg' | rfl
    · exact ⟨g', hg', hm⟩
    · exact ⟨g, List.mem_of_getElem? hg, hsub m hm⟩
  cases hm with
  | activeHit | immHit | tablesEnd | fails | tableHit => exact hanswer _ _
  | openTable => exact fun g hg m hm => ⟨g, hg, hm⟩
  | activeMiss hg hw | immMiss hg hw | immEnd hg hw => exact hwalkOn _ _ hg (by rw [hw]; exact fun _ h => h)
  | skip hg hw | tableMiss hg hw => exact hwalkOn _ _ hg (by rw [hw]; exact fun _ h => List.mem_cons_of_mem _ h)

/-- A harmless action keeps the handles of removed tables open. -/
theorem HandlesOk.nodeMove (h : HandlesOk n) (hdata : DataUp n) (hread : Reading n) {a : Act} (ha : n.Harmless a)
    {x : Sys Γ × Out} (hm : NodeMove n a x) (hx : x.1 = n'.toSys) : HandlesOk n' := by
  refine ⟨h.live.nodeMove hdata ha hm hx, h.inputs_nodeMove hdata hm hx, ?_⟩
  -- every handle that is held was held, or is live
  have hheld : ∀ g ∈ n'.eng.gets, ∀ m ∈ g.walk.ssts, (∃ g' ∈ n.eng.gets, m ∈ g'.walk.ssts) ∨ m ∈ stack n.eng.levels := by
    intro g hg m hmem
    rcases hm.gets hx with heq | ⟨key, rfl⟩ | ⟨i, io, r, hmove, rfl⟩
    · rw [heq] at hg
      exact .inl ⟨g, hg, hmem⟩
    · simp only [Node.get, List.mem_append, List.mem_singleton] at hg
      rcases hg with hg | rfl
      · exact .inl ⟨g, hg, hmem⟩
      · right
        rw [GetWalk.ssts, lookupOrder_eq] at hmem
        exact List.mem_reverse.1 hmem
    · exact .inl (hmove.ssts g hg m hmem)
  intro g hg m hmem
  rcases hheld g hg m hmem with ⟨g', hg', hmem'⟩ | hlive
  · rcases h.held g' hg' m hmem' with hlive | ho
    · exact hm.leaves hdata h.inputs hx hlive
    · obtain ⟨R, hh, -⟩ := (hread g' hg').walk
      exact .inr (hm.opened hx ho (hh m hmem').fresh)
  · exact hm.leaves hdata h.inputs hx hlive

/-- A `get` does not fail while nothing fails. -/
theorem GetMove.no_error (h : HandlesOk n) (hread : Reading n) {i : Nat} {r : Node Γ × Out}
    (hm : GetMove n i .ok r) {k : Key} {since : Nat} {err : LsmError} : r.2 ≠ .got k since (.error err) := by
  intro ho
  cases hm with
  | @fails g sst rest err' hg hw hin hwhy =>
    have hgm := List.mem_of_getElem? hg
    have hheld := h.held g hgm sst (by rw [hw]; exact List.mem_cons_self)
    obtain ⟨R, hh, -⟩ := (hread g hgm).walk
    rcases hwhy with ⟨e, hr, -⟩ | ⟨rd, hr, ⟨k, hio, -⟩ | hget⟩
    · rcases hheld with hlive | ⟨rd, hrd⟩
      · exact h.live sst hlive e hr
      · rw [hrd] at hr
        simp at hr
    · simp at hio
    · rw [(hh sst (by rw [hw]; exact List.mem_cons_self)).reader rd hr g.key] at hget
      simp at hget
  | activeHit | immHit | tablesEnd | tableHit => simp [Node.answer] at ho
  | activeMiss | immMiss | immEnd | skip | openTable | tableMiss => simp [Node.walkOn] at ho

/-- A handle whose file is gone has its reader. -/
theorem HandlesOk.opened_of_gone (h : HandlesOk n) (hdata : DataUp n) {g : GetCall} (hg : g ∈ n.eng.gets) {m : SstMeta}
    (hm : m ∈ g.walk.ssts) (hgone : n.disk.ssts m.name = none) : Opened n m := by
  rcases h.held g hg m hm with hlive | ho
  · obtain ⟨rs, f, hf, -⟩ := hdata.tables.live m hlive
    rw [hgone] at hf
    simp at hf
  · exact ho

end LsmEngine
