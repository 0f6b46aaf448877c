import LsmEngine.Lemmas.Upkeep

/-!
# What a running engine stands for

Whatever fails, the map of a running engine changes at one kind of step only: where a write is applied to the active MemTable. A
rotation, a flush and a compaction move records from one place to another.
-/

namespace LsmEngine

open Overlay

variable {Γ : Ctx} {n n' : Node Γ}

/-- The map reads the active MemTable, the immutables and the tables. -/
theorem map_congr (hm : n'.eng.mems = n.eng.mems) (ha : n'.eng.active = n.eng.active) (hi : n'.eng.immutables = n.eng.immutables)
    (ht : tablesMap Γ n'.disk n'.eng.levels = tablesMap Γ n.disk n.eng.levels) : n'.eng.map n'.disk = n.eng.map n.disk := by
  rw [Engine.map, Engine.map, hm, ha, hi, ht]

/-- The holder of `flush_lock` does not change what the engine stands for. -/
theorem FlushMove.keeps_map (h : TablesUp n) {io : Io} {r : Node Γ × Out} (hm : FlushMove n io r) :
    r.1.eng.map r.1.disk = n.eng.map n.disk := by
  have hfiles : ∀ d : Disk, (∀ m ∈ stack n.eng.levels, d.ssts m.name = n.disk.ssts m.name) → n.eng.map d = n.eng.map n.disk := by
    intro d hd
    rw [Engine.map, Engine.map, tablesMap_congr hd]
  have hnew := fun m hm => h.seq.live_ne_new (m := m) hm
  have hgone := h.tables.flush
  cases hm with
  | buildStage hf hio hst | mergeStage hf hio hst =>
    exact hfiles _ (fun m _ => by rw [Disk.sstStage_ssts_of_ne _ _ _ (ne_rename_of_next hst)])
  | buildRename hf | mergeRename hf =>
    rw [hf] at hnew
    refine hfiles _ (fun m hm => ?_)
    rw [Disk.sstStage_rename_ssts, Function.update_of_ne (hnew m hm _ rfl)]
  | @commit c fl p sst hf =>
    obtain ⟨rest, himm, himms⟩ := h.seq.commits hf
    have htables := tablesMap_flushed h.seq h.tables hf
    rw [Engine.map, Engine.map, himms, himm, List.map_cons, ontoAll_cons, ← htables]
    rfl
  | install hf => exact map_congr rfl rfl rfl (tablesMap_compacted h.seq h.tables hf)
  | manifestStage | manifestFlush | manifestCompact | unlinkWal => exact hfiles _ (fun _ _ => by simp)
  | @unlinkInput sst todo hf =>
    rw [hf] at hgone
    refine hfiles _ (fun m hm => ?_)
    have hne := (hgone sst List.mem_cons_self).1 m hm
    simp [Disk.removeSst, Function.update_of_ne hne]
  | @nothing c | @unbuilt c | @buildFails c | @manifestFailsFlush c | @flushDone c => cases c <;> rfl
  | _ => rfl

/-- A write goes into the active MemTable, over everything else. -/
theorem map_applyWrite (h : MemsOk n.eng) (w : WalEntry) :
    (n.applyWrite w).eng.map (n.applyWrite w).disk = runWrites [w] (n.eng.map n.disk) := by
  have himms : n.eng.immutables.map (fun p => (Function.update n.eng.mems n.eng.active (w.applyTo (n.eng.mems n.eng.active))
      p.mem).layer) = n.eng.immutables.map (fun p => (n.eng.mems p.mem).layer) := by
    refine List.map_congr_left (fun p hp => ?_)
    rw [Function.update_of_ne (h.frozen p hp).1.ne]
  simp only [Engine.map, Node.applyWrite, Function.update_self, himms, layer_applyTo, onto_atop]
  rfl

/-- A freeze puts an empty MemTable over the others. -/
theorem map_swapActive (h : MemsOk n.eng) (c : WalCaller) (newSeq : Nat) :
    (n.swapActive c newSeq).eng.map (n.swapActive c newSeq).disk = n.eng.map n.disk := by
  have himms : n.eng.immutables.map (fun p => (Function.update n.eng.mems (n.eng.active + 1) MemTable.new p.mem).layer) =
      n.eng.immutables.map (fun p => (n.eng.mems p.mem).layer) := by
    refine List.map_congr_left (fun p hp => ?_)
    rw [Function.update_of_ne ((h.frozen p hp).1.trans (Nat.lt_succ_self _)).ne]
  have hactive : Function.update n.eng.mems (n.eng.active + 1) MemTable.new n.eng.active = n.eng.mems n.eng.active :=
    Function.update_of_ne (Nat.lt_succ_self _).ne _ _
  simp only [Engine.map, Node.swapActive, Function.update_self, List.map_append, List.map_singleton, himms, hactive, ontoAll_snoc]
  exact onto_empty _

/-- The holder of the wal mutex changes it with the write that it applies, and with nothing else. -/
theorem WalMove.map_step (h : TablesUp n) {io : Io} {r : Node Γ × Out} (hm : WalMove n io r) :
    r.1.eng.map r.1.disk = n.eng.map n.disk ∨
      ∃ w, (n.eng.wal = .logged w ∨ n.eng.wal = .synced w) ∧ r.1.eng.map r.1.disk = runWrites [w] (n.eng.map n.disk) := by
  have hssts : ∀ {n' : Node Γ}, n'.eng.mems = n.eng.mems → n'.eng.active = n.eng.active → n'.eng.immutables = n.eng.immutables →
      n'.eng.levels = n.eng.levels → n'.disk.ssts = n.disk.ssts → n'.eng.map n'.disk = n.eng.map n.disk := by
    intro n' h1 h2 h3 h4 h5
    exact map_congr h1 h2 h3 (by rw [h4]; exact tablesMap_congr (fun m _ => by rw [h5]))
  cases hm with
  | apply hw => exact .inr ⟨_, .inl hw, map_applyWrite h.mems _⟩
  | applySynced hw => exact .inr ⟨_, .inr hw, map_applyWrite h.mems _⟩
  | swap => exact .inl (map_swapActive h.mems _ _)
  | sync | flushSync => exact .inl (hssts rfl rfl rfl rfl (by simp [Node.syncActive]))
  | create => exact .inl (hssts rfl rfl rfl rfl (by simp))
  | @replace c => cases c <;> exact .inl (hssts rfl rfl rfl rfl (by simp [Node.replaceWriter, Node.finish]; split <;> simp))
  | @nothing c | @createFails c => cases c <;> exact .inl rfl
  | _ => exact .inl rfl

/-- A step of anybody but the holder of the wal mutex does not change it. -/
theorem NodeMove.keeps_map (h : TablesUp n) {a : Act} (ha : ∀ io, a ≠ .walStep io) {x : Sys Γ × Out} (hm : NodeMove n a x)
    (hx : x.1 = n'.toSys) : n'.eng.map n'.disk = n.eng.map n.disk := by
  have hto : ∀ {m : Node Γ}, m.toSys = n'.toSys → m = n' := toSys_inj
  cases hm with
  | wal => exact absurd rfl (ha _)
  | flushStep hf =>
    obtain rfl := hto hx
    exact hf.keeps_map h
  | getStep hg =>
    obtain rfl := hto hx
    cases hg <;> rfl
  | write hw =>
    obtain rfl := hto hx
    cases hw with
    | torn => exact map_congr rfl rfl rfl (tablesMap_congr (fun m _ => by simp [Node.tearWrite, Disk.tear]; split <;> simp))
    | _ => rfl
  | handover =>
    obtain rfl := hto hx
    exact map_congr rfl rfl rfl (tablesMap_congr (fun m _ => by simp [Node.handover]))
  | flush | flushEnter | workerEnter | compactNothing | compactEnter | get =>
    obtain rfl := hto hx
    rfl
  | drop => simp [Node.drop, Node.toSys] at hx

/-- A step of a running engine changes what it stands for with the write that it applies, and with nothing else. -/
theorem NodeMove.map_step (h : TablesUp n) {a : Act} {x : Sys Γ × Out} (hm : NodeMove n a x) (hx : x.1 = n'.toSys) :
    n'.eng.map n'.disk = n.eng.map n.disk ∨
      ∃ w, (n.eng.wal = .logged w ∨ n.eng.wal = .synced w) ∧ n'.eng.map n'.disk = runWrites [w] (n.eng.map n.disk) := by
  by_cases ha : ∃ io, a = .walStep io
  · obtain ⟨io, rfl⟩ := ha
    cases hm with
    | wal hw =>
      obtain rfl := toSys_inj hx
      exact hw.map_step h
  · exact .inl (hm.keeps_map h (fun io he => ha ⟨io, he⟩) hx)

end LsmEngine
