import LsmEngine.Lemmas.Crash

/-!
# Opening a directory

`open_with_options` at every stage leaves a directory that stands for the map it read: first because the old logs are all there
and the fresh log repeats part of what they say, then because the fresh log says all of it. At its end, when the old logs are
gone, the engine is in order.
-/

namespace LsmEngine

open Overlay

variable {Γ : Ctx} {d d' : Disk}

/-! ## What a crash leaves alone -/

/-- A kill leaves the directory as it is. -/
theorem Disk.crash_kill (d : Disk) : d.crash .kill = d := by
  have hw : WalFile.crash .kill = id := rfl
  have hs : ∀ {α : Type}, Stored.crash (α := α) .kill = id := rfl
  cases d with
  | mk wals ssts sstTmps manifest manifestTmp =>
    simp only [Disk.crash, hw, hs, Option.map_id, id, Disk.mk.injEq, and_true]
    cases wals
    simp [SortedMap.mapVal]

/-- A power loss after a crash leaves of a log what a power loss leaves. -/
theorem WalFile.crash_crash (κ : CrashKind) (f : WalFile) : (f.crash κ).crash .powerLoss = f.crash .powerLoss := by
  cases κ with
  | kill => rfl
  | powerLoss => simp only [WalFile.crash, List.take_length]

theorem Stored.crash_crash {α : Type} (κ : CrashKind) (f : Stored α) : (f.crash κ).crash .powerLoss = f.crash .powerLoss := by
  cases κ <;> rfl

/-- A power loss after a crash leaves what a power loss leaves. -/
theorem Disk.crash_crash (κ : CrashKind) (d : Disk) : (d.crash κ).crash .powerLoss = d.crash .powerLoss := by
  cases d with
  | mk wals ssts sstTmps manifest manifestTmp =>
    simp only [Disk.crash, Option.map_map, Function.comp_def, Stored.crash_crash, Disk.mk.injEq, and_true]
    cases wals
    simp [SortedMap.mapVal, WalFile.crash_crash]

/-- What is left of a log after a crash are its first entries. -/
theorem DiskOk.entries_crash (h : DiskOk Γ d) (κ : CrashKind) (g : Nat) : (d.crash κ).entries Γ g <+: d.entries Γ g := by
  cases hg : d.wals.get g with
  | none => simp [Disk.entries, Disk.get_crash, hg]
  | some f =>
    obtain ⟨k, hk⟩ := WalFile.crash_bytes κ f
    obtain ⟨j, -, hdec, -⟩ := (h.logs g f hg).take k
    rw [← hk] at hdec
    rw [hdec.entries (d := d.crash κ) (by rw [Disk.get_crash, hg]; rfl)]
    exact List.take_prefix _ _

/-! ## The logs of an open -/

/-- What the stages of `open_with_options` have done. `r` is what was read: the logs it names, in order, are `r.mem`. -/
def OpenStage.Ok (Γ : Ctx) (d : Disk) (buf : Bytes) : OpenStage → Prop
  | .loading => buf = []
  | .creating r => buf = [] ∧ r.levels = d.manifestLevels ∧ r.walSeqs = d.wals.keys ∧ r.mem.Stored ∧
      r.mem = replayEntries (d.wals.keys.flatMap (d.entries Γ)) MemTable.new
  | .appending r todo => r.levels = d.manifestLevels ∧ d.wals.keys = r.walSeqs ++ [r.walSeq] ∧ r.mem.Stored ∧
      r.mem = replayEntries (r.walSeqs.flatMap (d.entries Γ)) MemTable.new ∧
      ∃ done f, reappended r.mem = done ++ todo ∧ d.wals.get r.walSeq = some f ∧ f.synced = 0 ∧
        f.bytes ++ buf = encodeAll Γ done
  | .removing r todo => buf = [] ∧ r.levels = d.manifestLevels ∧ r.mem.Stored ∧ (∀ w ∈ todo, w < r.walSeq) ∧
      (∃ old, d.wals.keys = old ++ [r.walSeq] ∧ ∀ g ∈ old, ∀ w ∈ d.entries Γ g, r.mem.layer w.key ≠ none) ∧
      ∃ f, d.wals.get r.walSeq = some f ∧ f.bytes = encodeAll Γ (reappended r.mem) ∧ f.synced = f.bytes.length

/-- An open in progress, in a directory that is in order. -/
structure OpenOk (Γ : Ctx) (d : Disk) (o : Opening) : Prop where
  disk : DiskOk Γ d
  stage : o.stage.Ok Γ d o.buf

/-- Appending again what a MemTable holds changes no map. -/
theorem onto_take_reappended (m : MemTable) (j : Nat) (T : Key → Option Value) :
    runWrites ((reappended m).take j) (onto m.layer T) = onto m.layer T :=
  onto_eq_self (fun _ _ h => onto_of_some (layer_of_take_reappended h) T)

/-- A partial copy of the logs after the logs changes nothing. -/
theorem recovered_partial {r : Recovered} (hl : r.levels = d.manifestLevels) (hk : d.wals.keys = r.walSeqs ++ [r.walSeq])
    (hm : r.mem = replayEntries (r.walSeqs.flatMap (d.entries Γ)) MemTable.new) {j : Nat}
    (hj : d.entries Γ r.walSeq = (reappended r.mem).take j) : d.recovered Γ = r.map Γ d := by
  have hbase : runWrites (r.walSeqs.flatMap (d.entries Γ)) (tablesMap Γ d d.manifestLevels) = r.map Γ d := by
    rw [Recovered.map, hl, hm, map_replay_layer]
  rw [Disk.recovered, hk, List.flatMap_append, List.flatMap_singleton, hj, runWrites_append, hbase, Recovered.map,
    onto_take_reappended]

/-- A whole copy of the logs hides what is left of them. -/
theorem recovered_whole {r : Recovered} (hl : r.levels = d.manifestLevels) {old : List Nat}
    (hk : d.wals.keys = old ++ [r.walSeq]) (hcov : ∀ g ∈ old, ∀ w ∈ d.entries Γ g, r.mem.layer w.key ≠ none)
    (hj : d.entries Γ r.walSeq = reappended r.mem) : d.recovered Γ = r.map Γ d := by
  rw [Disk.recovered, hk, List.flatMap_append, List.flatMap_singleton, hj, runWrites_append, Recovered.map, hl, runWrites,
    layerOf_reappended]
  funext k
  cases hk : r.mem.layer k with
  | some x => rw [onto_of_some hk, onto_of_some hk]
  | none =>
    rw [onto_of_none hk, onto_of_none hk]
    refine onto_of_none (layerOf_eq_none.2 ?_) _
    rintro w hw rfl
    obtain ⟨e, he, rfl⟩ := List.mem_map.1 hw
    obtain ⟨g, hg, heg⟩ := List.mem_flatMap.1 he
    exact hcov g hg e heg hk

/-! ## Directories of which only the logs change -/

/-- A table is in order where the tables are the same. -/
theorem TableOf.of_ssts {m : SstMeta} {rs : List Record} (h : TableOf Γ d m rs) (hs : d'.ssts = d.ssts) :
    TableOf Γ d' m rs := h.congr (by rw [hs])

/-- The logs change, and each one still decodes. -/
theorem DiskOk.setWals (h : DiskOk Γ d) (hm : d'.manifest = d.manifest) (hs : d'.ssts = d.ssts)
    (hw : ∀ g f, d'.wals.get g = some f → d.wals.get g = some f ∨ (∃ es, Decodes Γ f.bytes es) ∧ f.synced ≤ f.bytes.length) :
    DiskOk Γ d' where
  settled := by rw [hm]; exact h.settled
  listed := by rw [manifestLevels_congr hm]; exact h.listed
  tables := by
    rw [manifestLevels_congr hm]
    intro m hmm
    obtain ⟨rs, hrs⟩ := h.tables m hmm
    exact ⟨rs, hrs.of_ssts hs⟩
  logs := by
    intro g f hg
    rcases hw g f hg with hold | ⟨⟨es, hes⟩, -⟩
    · rw [entries_congr hold hg rfl]
      exact h.logs g f hold
    · rw [hes.entries hg]
      exact hes
  synced := by
    intro g f hg
    rcases hw g f hg with hold | ⟨-, hle⟩
    · exact h.synced g f hold
    · exact hle

/-- The same tables stand for the same map. -/
theorem tablesMap_of_ssts (hs : d'.ssts = d.ssts) (levels : List (List SstMeta)) : tablesMap Γ d' levels = tablesMap Γ d levels :=
  tablesMap_congr (fun _ _ => by rw [hs])

/-- What is left of frames decodes to the first entries. -/
theorem decodes_prefix_frames {es : List WalEntry} (hv : ∀ w ∈ es, w.Valid) {bs rest : Bytes} (h : bs ++ rest = encodeAll Γ es) :
    ∃ j, Decodes Γ bs (es.take j) := by
  have hdec : Decodes Γ (encodeAll Γ es) es := ⟨hv, [], torn_nil Γ, (List.append_nil _).symm⟩
  obtain ⟨j, -, hj, -⟩ := hdec.take bs.length
  rw [← h, List.take_left] at hj
  exact ⟨j, hj⟩

/-- The same log has the same entries. -/
theorem entries_of_get {g : Nat} (h : d'.wals.get g = d.wals.get g) : d'.entries Γ g = d.entries Γ g := by
  rw [Disk.entries, Disk.entries, h]

/-- The same directory recovers the same map. -/
theorem recovered_congr (hk : d'.wals.keys = d.wals.keys) (hg : ∀ g, d'.wals.get g = d.wals.get g)
    (hm : d'.manifest = d.manifest) (hs : d'.ssts = d.ssts) : d'.recovered Γ = d.recovered Γ := by
  rw [Disk.recovered, Disk.recovered, hk, manifestLevels_congr hm, tablesMap_of_ssts hs,
    List.flatMap_congr (fun g _ => entries_of_get (hg g))]

/-- The MemTable that was read knows every key of the logs it was read from. -/
theorem layer_covers {l : List Nat} {mem : MemTable} (hm : mem = replayEntries (l.flatMap (d.entries Γ)) MemTable.new) {g : Nat}
    (hg : g ∈ l) {w : WalEntry} (hw : w ∈ d.entries Γ g) : mem.layer w.key ≠ none := by
  rw [hm, layer_replayEntries_new, Ne, layerOf_eq_none]
  intro hc
  exact hc w.write (List.mem_map.2 ⟨w, List.mem_flatMap.2 ⟨g, hg, hw⟩, rfl⟩) rfl

/-- The directory `d'` stands for the same map as `d`, and so does what a power loss leaves of it, or for what a power loss
would have left of `d`. -/
structure SameMap (Γ : Ctx) (d d' : Disk) : Prop where
  disk : DiskOk Γ d'
  recovered : d'.recovered Γ = d.recovered Γ
  crashed : (d'.crash .powerLoss).recovered Γ = (d.crash .powerLoss).recovered Γ ∨
    (d'.crash .powerLoss).recovered Γ = d.recovered Γ

/-- A directory that stays as it is. -/
theorem DiskOk.same (h : DiskOk Γ d) : SameMap Γ d d := ⟨h, rfl, .inl rfl⟩

/-- The same MANIFEST crashes to the same. -/
theorem crash_manifest_congr (h : d'.manifest = d.manifest) (κ : CrashKind) : (d'.crash κ).manifest = (d.crash κ).manifest := by
  simp [Disk.crash, h]

/-- The same tables crash to the same. -/
theorem crash_ssts_congr (h : d'.ssts = d.ssts) (κ : CrashKind) : (d'.crash κ).ssts = (d.crash κ).ssts := by
  simp [Disk.crash, h]

/-- The fresh log is created. -/
theorem sameMap_create {r : Recovered} (h : DiskOk Γ d) (hk : r.walSeqs = d.wals.keys) : SameMap Γ d (d.createWal r.walSeq) := by
  have hlt : ∀ w ∈ d.wals.keys, w < r.walSeq := fun w hw => r.lt_walSeq (by rw [hk]; exact hw)
  have hkeys : (d.createWal r.walSeq).wals.keys = d.wals.keys ++ [r.walSeq] := Disk.keys_createWal _ hlt
  have hget : ∀ w ∈ d.wals.keys, (d.createWal r.walSeq).wals.get w = d.wals.get w := by
    intro w hw
    rw [Disk.get_createWal, if_neg (hlt w hw).ne']
  have hfresh : (d.createWal r.walSeq).wals.get r.walSeq = some ⟨[], 0⟩ := by rw [Disk.get_createWal, if_pos rfl]
  have hnil : Decodes Γ ([] : Bytes) [] := ⟨by simp, [], torn_nil Γ, rfl⟩
  refine ⟨?_, ?_, .inl ?_⟩
  · refine h.setWals rfl rfl (fun g f hg => ?_)
    rw [Disk.get_createWal] at hg
    split at hg
    · obtain rfl := Option.some.inj hg
      exact .inr ⟨⟨[], hnil⟩, Nat.le_refl _⟩
    · exact .inl hg
  · rw [Disk.recovered, Disk.recovered, hkeys, List.flatMap_append, List.flatMap_singleton, hnil.entries hfresh,
      List.append_nil, List.flatMap_congr (fun g hg => entries_of_get (hget g hg)), tablesMap_of_ssts (d := d) rfl]
    rfl
  · have hfresh' : ((d.createWal r.walSeq).crash .powerLoss).wals.get r.walSeq = some ⟨[], 0⟩ := by
      rw [Disk.get_crash, hfresh]
      rfl
    have hm : ((d.createWal r.walSeq).crash .powerLoss).manifestLevels = (d.crash .powerLoss).manifestLevels := rfl
    have hold : d.wals.keys.flatMap (((d.createWal r.walSeq).crash .powerLoss).entries Γ) =
        d.wals.keys.flatMap ((d.crash .powerLoss).entries Γ) := by
      apply List.flatMap_congr
      intro g hg
      exact entries_of_get (by rw [Disk.get_crash, Disk.get_crash, hget g hg])
    rw [Disk.recovered, Disk.recovered, Disk.keys_crash, Disk.keys_crash, hkeys, List.flatMap_append, List.flatMap_singleton,
      hnil.entries hfresh', List.append_nil, hm,
      tablesMap_of_ssts (show ((d.createWal r.walSeq).crash .powerLoss).ssts = (d.crash .powerLoss).ssts from rfl), hold]

/-- The frames appended so far are a copy of the first entries. -/
theorem OpenStage.Ok.copied {r : Recovered} {todo : List WalEntry} {buf : Bytes} (hs : (OpenStage.appending r todo).Ok Γ d buf) :
    ∃ j, d.entries Γ r.walSeq = (reappended r.mem).take j := by
  obtain ⟨-, -, hst, -, done, f, hdone, hf, -, hbytes⟩ := hs
  have hvd : ∀ w ∈ done, w.Valid := fun w hw => reappended_valid hst w (by rw [hdone]; exact List.mem_append_left _ hw)
  obtain ⟨j, hj⟩ := decodes_prefix_frames hvd hbytes
  refine ⟨min j done.length, ?_⟩
  rw [hj.entries hf, hdone, List.take_append_of_le_length (Nat.min_le_right _ _), List.take_eq_take_iff]
  omega

/-- Bytes of the copy reach the fresh log, whole frames or part of one. -/
theorem sameMap_append {r : Recovered} {todo : List WalEntry} {buf bs : Bytes} (h : DiskOk Γ d)
    (hs : (OpenStage.appending r todo).Ok Γ d buf) {w : List WalEntry} (hes : w <+: reappended r.mem)
    (hbs : ∀ f, d.wals.get r.walSeq = some f → Decodes Γ (f.bytes ++ bs) w) :
    SameMap Γ d (d.appendWal r.walSeq bs) := by
  have hcopied := hs.copied
  obtain ⟨hl, hk, -, hm, -, f, -, hf, hsync, -⟩ := hs
  have hfresh : (d.appendWal r.walSeq bs).wals.get r.walSeq = some { f with bytes := f.bytes ++ bs } := by
    rw [Disk.get_appendWal, if_pos rfl, hf]
    rfl
  have hget : ∀ w ∈ r.walSeqs, (d.appendWal r.walSeq bs).wals.get w = d.wals.get w := by
    intro w hw
    rw [Disk.get_appendWal, if_neg (r.lt_walSeq hw).ne']
  have hlev : (d.appendWal r.walSeq bs).manifestLevels = d.manifestLevels := manifestLevels_congr (Disk.appendWal_manifest _ _ _)
  have hrm : r.map Γ (d.appendWal r.walSeq bs) = r.map Γ d := by
    rw [Recovered.map, Recovered.map, tablesMap_of_ssts (Disk.appendWal_ssts _ _ _)]
  refine ⟨?_, ?_, .inl ?_⟩
  · refine h.setWals (by simp) (by simp) (fun g f' hg => ?_)
    rw [Disk.get_appendWal] at hg
    split at hg
    · rename_i heq
      subst heq
      rw [hf] at hg
      obtain rfl := Option.some.inj hg
      exact .inr ⟨⟨w, hbs f hf⟩, by simp [hsync]⟩
    · exact .inl hg
  · obtain ⟨j, hj⟩ := hcopied
    have h0 : d.recovered Γ = r.map Γ d := recovered_partial hl hk hm hj
    have h1 := recovered_partial (Γ := Γ) (d := d.appendWal r.walSeq bs) (r := r) (j := w.length) (by rw [hlev]; exact hl)
      (by rw [Disk.keys_appendWal]; exact hk)
      (by rw [List.flatMap_congr (fun g hg => entries_of_get (hget g hg))]; exact hm)
      (by rw [(hbs f hf).entries hfresh]; exact List.prefix_iff_eq_take.1 hes)
    rw [h1, h0, hrm]
  · refine recovered_congr (by simp) (fun g => ?_) (crash_manifest_congr (by simp) _) (crash_ssts_congr (by simp) _)
    rw [Disk.get_crash, Disk.get_crash, Disk.get_appendWal]
    split
    · rename_i heq
      subst heq
      simp [hf, WalFile.crash, hsync]
    · rfl

/-- What an open in progress has read is what the directory stands for. -/
def OpenStage.read : OpenStage → Option Recovered
  | .loading => none
  | .creating r | .appending r _ | .removing r _ => some r

/-- What an open has read is what the directory recovers to. -/
theorem OpenOk.recovered {o : Opening} (h : OpenOk Γ d o) {r : Recovered} (hr : o.stage.read = some r) :
    d.recovered Γ = r.map Γ d := by
  have hs := h.stage
  cases hst : o.stage with
  | loading => simp [hst, OpenStage.read] at hr
  | creating r' =>
    obtain rfl : r' = r := by simpa [hst, OpenStage.read] using hr
    rw [hst] at hs
    obtain ⟨-, hl, -, -, hm⟩ := hs
    rw [Disk.recovered, Recovered.map, hl, hm, map_replay_layer]
  | appending r' todo =>
    obtain rfl : r' = r := by simpa [hst, OpenStage.read] using hr
    rw [hst] at hs
    obtain ⟨j, hj⟩ := hs.copied
    obtain ⟨hl, hk, -, hm, -⟩ := hs
    exact recovered_partial hl hk hm hj
  | removing r' todo =>
    obtain rfl : r' = r := by simpa [hst, OpenStage.read] using hr
    rw [hst] at hs
    obtain ⟨-, hl, hst, -, ⟨old, hk, hcov⟩, f, hf, hbytes, -⟩ := hs
    have hdec : Decodes Γ f.bytes (reappended r'.mem) := ⟨reappended_valid hst, [], torn_nil Γ, by rw [hbytes, List.append_nil]⟩
    exact recovered_whole hl hk hcov (hdec.entries hf)

/-- Once the fresh log is whole and fsynced, a power loss changes nothing. -/
theorem recovered_crash_of_whole {r : Recovered} {todo : List Nat} {buf : Bytes} (h : DiskOk Γ d)
    (hs : (OpenStage.removing r todo).Ok Γ d buf) : (d.crash .powerLoss).recovered Γ = d.recovered Γ := by
  have h0 : d.recovered Γ = r.map Γ d :=
    OpenOk.recovered (o := ⟨⟨0, false, 0⟩, .removing r todo, buf⟩) ⟨h, hs⟩ rfl
  obtain ⟨-, hl, hst, -, ⟨old, hk, hcov⟩, f, hf, hbytes, hsync⟩ := hs
  have hdec : Decodes Γ f.bytes (reappended r.mem) := ⟨reappended_valid hst, [], torn_nil Γ, by rw [hbytes, List.append_nil]⟩
  have hcf : (d.crash .powerLoss).wals.get r.walSeq = some f := by
    rw [Disk.get_crash, hf, Option.map_some]
    cases f
    simp only at hsync
    simp [WalFile.crash, hsync]
  have h1 := recovered_whole (Γ := Γ) (d := d.crash .powerLoss) (r := r)
    (by rw [manifestLevels_crash h.settled]; exact hl) (by rw [Disk.keys_crash]; exact hk)
    (fun g hg w hw => hcov g hg w ((h.entries_crash .powerLoss g).subset hw)) (hdec.entries hcf)
  rw [h1, h0, Recovered.map, Recovered.map, hl, tablesMap_crash h.tables]

/-- The rest of the copy is written and fsynced. -/
theorem open_sync {r : Recovered} {buf : Bytes} (h : DiskOk Γ d) (hs : (OpenStage.appending r []).Ok Γ d buf) :
    SameMap Γ d ((d.appendWal r.walSeq buf).syncWal r.walSeq) ∧
      (OpenStage.removing r r.walSeqs).Ok Γ ((d.appendWal r.walSeq buf).syncWal r.walSeq) [] := by
  have happ := hs
  obtain ⟨hl, hk, hst, hm, done, f, hdone, hf, hsync, hbytes⟩ := hs
  rw [List.append_nil] at hdone
  have hdec : Decodes Γ (f.bytes ++ buf) (reappended r.mem) :=
    ⟨reappended_valid hst, [], torn_nil Γ, by rw [hbytes, hdone, List.append_nil]⟩
  have hmid : SameMap Γ d (d.appendWal r.walSeq buf) := by
    refine sameMap_append h happ (List.prefix_refl _) (fun f' hf' => ?_)
    rw [hf] at hf'
    obtain rfl := Option.some.inj hf'
    exact hdec
  have hfresh : ((d.appendWal r.walSeq buf).syncWal r.walSeq).wals.get r.walSeq =
      some ⟨f.bytes ++ buf, (f.bytes ++ buf).length⟩ := by
    rw [Disk.get_syncWal, if_pos rfl, Disk.get_appendWal, if_pos rfl, hf]
    rfl
  have hget : ∀ w ∈ r.walSeqs, ((d.appendWal r.walSeq buf).syncWal r.walSeq).wals.get w = d.wals.get w := by
    intro w hw
    rw [Disk.get_syncWal, if_neg (r.lt_walSeq hw).ne', Disk.get_appendWal, if_neg (r.lt_walSeq hw).ne']
  have hdisk : DiskOk Γ ((d.appendWal r.walSeq buf).syncWal r.walSeq) := by
    refine hmid.disk.setWals (by simp) (by simp) (fun g f' hg => ?_)
    rw [Disk.get_syncWal] at hg
    split at hg
    · rename_i heq
      subst heq
      rw [Disk.get_appendWal, if_pos rfl, hf] at hg
      obtain rfl := Option.some.inj hg
      exact .inr ⟨⟨_, hdec⟩, Nat.le_refl _⟩
    · exact .inl hg
  have hlev : ((d.appendWal r.walSeq buf).syncWal r.walSeq).manifestLevels = d.manifestLevels :=
    manifestLevels_congr (by simp)
  have hstage : (OpenStage.removing r r.walSeqs).Ok Γ ((d.appendWal r.walSeq buf).syncWal r.walSeq) [] := by
    refine ⟨rfl, by rw [hlev]; exact hl, hst, fun w hw => r.lt_walSeq hw, ⟨r.walSeqs, by simpa using hk, ?_⟩, _, hfresh, ?_, rfl⟩
    · intro g hg w hw
      rw [entries_of_get (hget g hg)] at hw
      exact layer_covers hm hg hw
    · rw [hbytes, hdone]
  have hrec : ((d.appendWal r.walSeq buf).syncWal r.walSeq).recovered Γ = d.recovered Γ := by
    have h1 := OpenOk.recovered (o := ⟨⟨0, false, 0⟩, .removing r r.walSeqs, []⟩) ⟨hdisk, hstage⟩ rfl
    have h0 := OpenOk.recovered (o := ⟨⟨0, false, 0⟩, .appending r [], buf⟩) ⟨h, happ⟩ rfl
    rw [h1, h0, Recovered.map, Recovered.map, tablesMap_of_ssts (d := d) (by simp)]
  exact ⟨⟨hdisk, hrec, .inr ((recovered_crash_of_whole hdisk hstage).trans hrec)⟩, hstage⟩

/-- An old log is removed. -/
theorem open_remove {r : Recovered} {w : Nat} {todo : List Nat} {buf : Bytes} (h : DiskOk Γ d)
    (hs : (OpenStage.removing r (w :: todo)).Ok Γ d buf) :
    SameMap Γ d (d.removeWal w) ∧ (OpenStage.removing r todo).Ok Γ (d.removeWal w) buf := by
  have hall := hs
  obtain ⟨hb, hl, hst, hlt, ⟨old, hk, hcov⟩, f, hf, hbytes, hsync⟩ := hs
  have hne : r.walSeq ≠ w := (hlt w List.mem_cons_self).ne'
  have hget : ∀ g, g ≠ w → (d.removeWal w).wals.get g = d.wals.get g := by
    intro g hg
    rw [Disk.get_removeWal, if_neg (Ne.symm hg)]
  have hdisk : DiskOk Γ (d.removeWal w) := by
    refine h.setWals rfl rfl (fun g f' hg => .inl ?_)
    rw [Disk.get_removeWal] at hg
    split at hg
    · simp at hg
    · exact hg
  have hstage : (OpenStage.removing r todo).Ok Γ (d.removeWal w) buf := by
    refine ⟨hb, hl, hst, fun x hx => hlt x (List.mem_cons_of_mem _ hx), ⟨old.filter (· ≠ w), ?_, ?_⟩, f, ?_, hbytes, hsync⟩
    · rw [Disk.keys_removeWal, hk, List.filter_append]
      simp [hne]
    · intro g hg x hx
      obtain ⟨h1, h2⟩ := List.mem_filter.1 hg
      rw [entries_of_get (hget g (by simpa using h2))] at hx
      exact hcov g h1 x hx
    · rw [hget _ hne]
      exact hf
  have hrec : (d.removeWal w).recovered Γ = d.recovered Γ := by
    have h1 := OpenOk.recovered (o := ⟨⟨0, false, 0⟩, .removing r todo, buf⟩) ⟨hdisk, hstage⟩ rfl
    have h0 := OpenOk.recovered (o := ⟨⟨0, false, 0⟩, .removing r (w :: todo), buf⟩) ⟨h, hall⟩ rfl
    rw [h1, h0, Recovered.map, Recovered.map, tablesMap_of_ssts (show (d.removeWal w).ssts = d.ssts from rfl)]
  exact ⟨⟨hdisk, hrec, .inr ((recovered_crash_of_whole hdisk hstage).trans hrec)⟩, hstage⟩

/-! ## Every step of an open -/

/-- A step of an open keeps what the directory recovers to, and that of any crash of it. -/
theorem OpenOk.move {s : Sys Γ} {o : Opening} (h : OpenOk Γ s.disk o) {io : Io} {x : Sys Γ × Out} (hm : OpenMove s o io x) :
    SameMap Γ s.disk x.1.disk ∧ ∀ o', x.1.proc = .opening o' → OpenOk Γ x.1.disk o' := by
  have hs := h.stage
  have hfails : ∀ (s' : Sys Γ) err o', (s'.openFails err).1.proc = .opening o' → OpenOk Γ s'.disk o' := by
    intro s' err o' ho
    simp [Sys.openFails] at ho
  cases hm with
  | loadFails | createFails | refused | syncFails | runtimeFails => exact ⟨h.disk.same, hfails _ _⟩
  | @loaded r hst hio hr =>
    rw [hst] at hs
    obtain ⟨r', hr', hl, hk, hmem, hstored, -⟩ := h.disk.recover
    obtain rfl : r = r' := Except.ok.inj (hr.symm.trans hr')
    refine ⟨h.disk.same, fun o' ho => ?_⟩
    obtain rfl := Proc.opening.inj ho
    exact ⟨h.disk, hs, hl, hk, hstored, hmem⟩
  | @createdEmpty r hst hio he =>
    rw [hst] at hs
    obtain ⟨hb, hl, hk, hstored, hmem⟩ := hs
    have hsame := sameMap_create h.disk hk
    have hlt : ∀ w ∈ s.disk.wals.keys, w < r.walSeq := fun w hw => r.lt_walSeq (by rw [hk]; exact hw)
    refine ⟨hsame, fun o' ho => ?_⟩
    obtain rfl := Proc.opening.inj ho
    refine ⟨hsame.disk, hb, hl, hstored, fun w hw => r.lt_walSeq hw, ?_, ?_⟩
    · refine ⟨s.disk.wals.keys, Disk.keys_createWal _ hlt, fun g hg w hw => ?_⟩
      rw [entries_of_get (d := s.disk) (by rw [Disk.get_createWal, if_neg (hlt g hg).ne'])] at hw
      exact layer_covers hmem hg hw
    · refine ⟨⟨[], 0⟩, by rw [Disk.get_createWal, if_pos rfl], ?_, rfl⟩
      rw [(reappended_eq_nil_iff r.mem).2 he]
      rfl
  | @created r hst hio he =>
    rw [hst] at hs
    obtain ⟨hb, hl, hk, hstored, hmem⟩ := hs
    have hsame := sameMap_create h.disk hk
    have hlt : ∀ w ∈ s.disk.wals.keys, w < r.walSeq := fun w hw => r.lt_walSeq (by rw [hk]; exact hw)
    refine ⟨hsame, fun o' ho => ?_⟩
    obtain rfl := Proc.opening.inj ho
    refine ⟨hsame.disk, hl, ?_, hstored, ?_, [], ⟨[], 0⟩, rfl, ?_, rfl, ?_⟩
    · rw [Disk.keys_createWal _ hlt, hk]
    · rw [hk, List.flatMap_congr (fun g hg => entries_of_get (d := s.disk)
        (by rw [Disk.get_createWal, if_neg (hlt g hg).ne']))]
      exact hmem
    · rw [Disk.get_createWal, if_pos rfl]
    · simp [hb]
  | @append r w todo hst hv hio =>
    rw [hst] at hs
    obtain ⟨hl, hk, hstored, hmem, done, f, hdone, hf, hsync, hbytes⟩ := hs
    refine ⟨h.disk.same, fun o' ho => ?_⟩
    obtain rfl := Proc.opening.inj ho
    refine ⟨h.disk, hl, hk, hstored, hmem, done ++ [w], f, ?_, hf, hsync, ?_⟩
    · rw [hdone]
      simp
    · rw [← List.append_assoc, hbytes, encodeAll_append, encodeAll_cons, encodeAll_nil, List.append_nil]
  | @torn r w todo k hst hv hio hk =>
    rw [hst] at hs
    refine ⟨?_, hfails _ _⟩
    simp only [Sys.openFails, Disk.tear]
    split
    · exact h.disk.same
    · have happ := hs
      obtain ⟨-, -, hstored, -, done, f, hdone, hf, -, hbytes⟩ := hs
      refine sameMap_append h.disk happ (w := done) (by rw [hdone]; exact List.prefix_append _ _) (fun f' hf' => ?_)
      obtain rfl := Option.some.inj (hf.symm.trans hf')
      refine ⟨fun x hx => reappended_valid hstored x (by rw [hdone]; exact List.mem_append_left _ hx), (w.frame Γ).take k,
        ⟨w, hv, List.take_prefix _ _, fun hc => ?_⟩, ?_⟩
      · have := congrArg List.length hc
        rw [List.length_take] at this
        omega
      · rw [← List.append_assoc, hbytes]
  | @sync r hst hio =>
    rw [hst] at hs
    obtain ⟨hsame, hstage⟩ := open_sync h.disk hs
    refine ⟨hsame, fun o' ho => ?_⟩
    obtain rfl := Proc.opening.inj ho
    exact ⟨hsame.disk, hstage⟩
  | @remove r w todo hst hio =>
    rw [hst] at hs
    obtain ⟨hsame, hstage⟩ := open_remove h.disk hs
    refine ⟨hsame, fun o' ho => ?_⟩
    obtain rfl := Proc.opening.inj ho
    exact ⟨hsame.disk, hstage⟩
  | @removeFails r w k todo hst hio =>
    rw [hst] at hs
    obtain ⟨hb, hl, hstored, hlt, hrest⟩ := hs
    refine ⟨h.disk.same, fun o' ho => ?_⟩
    obtain rfl := Proc.opening.inj ho
    exact ⟨h.disk, hb, hl, hstored, fun x hx => hlt x (List.mem_cons_of_mem _ hx), hrest⟩
  | up => exact ⟨h.disk.same, fun o' ho => by simp at ho⟩

theorem OpenOk.handover {s : Sys Γ} {o : Opening} (h : OpenOk Γ s.disk o) (hp : s.proc = .opening o) (k : Nat) :
    SameMap Γ s.disk (o.handover s k).disk ∧ ∃ o', (o.handover s k).proc = .opening o' ∧ OpenOk Γ (o.handover s k).disk o' := by
  have hs := h.stage
  unfold Opening.handover
  split
  · rename_i r todo hst
    rw [hst] at hs
    have happ := hs
    obtain ⟨hl, hk, hstored, hmem, done, f, hdone, hf, hsync, hbytes⟩ := hs
    have hbytes' : (f.bytes ++ o.buf.take k) ++ o.buf.drop k = encodeAll Γ done := by
      rw [List.append_assoc, List.take_append_drop, hbytes]
    obtain ⟨j, hj⟩ := decodes_prefix_frames
      (fun w hw => reappended_valid hstored w (by rw [hdone]; exact List.mem_append_left _ hw)) hbytes'
    have hsame : SameMap Γ s.disk (s.disk.appendWal r.walSeq (o.buf.take k)) := by
      refine sameMap_append h.disk happ (w := done.take j)
        ((List.take_prefix _ _).trans (by rw [hdone]; exact List.prefix_append _ _)) (fun f' hf' => ?_)
      obtain rfl := Option.some.inj (hf.symm.trans hf')
      exact hj
    refine ⟨hsame, _, rfl, hsame.disk, ?_⟩
    rw [hst]
    refine ⟨by rw [hl]; exact (manifestLevels_congr (Disk.appendWal_manifest _ _ _)).symm, by simpa using hk, hstored, ?_, done,
      { f with bytes := f.bytes ++ o.buf.take k }, hdone, ?_, hsync, hbytes'⟩
    · rw [List.flatMap_congr (fun g hg => entries_of_get (d := s.disk)
        (by rw [Disk.get_appendWal, if_neg (r.lt_walSeq hg).ne']))]
      exact hmem
    · rw [Disk.get_appendWal, if_pos rfl, hf]
      rfl
  · exact ⟨h.disk.same, o, hp, h⟩

/-! ## The end of an open -/

/-- Every old log is gone or still to be removed. -/
def OpenStage.Clean (d : Disk) : OpenStage → Prop
  | .removing r todo => d.wals.keys = todo ++ [r.walSeq]
  | _ => True

/-- An open keeps the directory clean where it fails safely. -/
theorem OpenStage.Clean.move {s : Sys Γ} {o : Opening} (h : OpenOk Γ s.disk o) (hc : o.stage.Clean s.disk) {io : Io}
    (hb : io = .ok ∨ o.stage.failsSafely = true) {x : Sys Γ × Out} (hm : OpenMove s o io x) {o' : Opening}
    (ho : x.1.proc = .opening o') : o'.stage.Clean x.1.disk := by
  have hs := h.stage
  cases hm with
  | loadFails | createFails | refused | syncFails | runtimeFails | torn => simp [Sys.openFails] at ho
  | up => simp at ho
  | loaded | created | append =>
    obtain rfl := Proc.opening.inj ho
    trivial
  | @createdEmpty r hst hio he =>
    obtain rfl := Proc.opening.inj ho
    rw [hst] at hs
    obtain ⟨-, -, hk, -⟩ := hs
    change (s.disk.createWal r.walSeq).wals.keys = r.walSeqs ++ [r.walSeq]
    rw [Disk.keys_createWal _ (fun w hw => r.lt_walSeq (by rw [hk]; exact hw)), hk]
  | @sync r hst hio =>
    obtain rfl := Proc.opening.inj ho
    rw [hst] at hs
    obtain ⟨-, hk, -⟩ := hs
    simpa [OpenStage.Clean] using hk
  | @remove r w todo hst hio =>
    obtain rfl := Proc.opening.inj ho
    rw [hst] at hc
    change (s.disk.removeWal w).wals.keys = todo ++ [r.walSeq]
    have hnodup := s.disk.wals.keys_nodup
    rw [show s.disk.wals.keys = w :: (todo ++ [r.walSeq]) from hc] at hnodup
    rw [Disk.keys_removeWal, show s.disk.wals.keys = w :: (todo ++ [r.walSeq]) from hc]
    exact filter_ne_head hnodup
  | removeFails hst hio =>
    rw [hio, hst] at hb
    simp [OpenStage.failsSafely] at hb

/-- The engine an open leaves is in order, and stands for the map that was read. -/
theorem OpenOk.up {o : Opening} (h : OpenOk Γ d o) {r : Recovered} (hst : o.stage = .removing r [])
    (hc : o.stage.Clean d) {hh : Hist} (heq : ∃ h' : Hist, hh = h'.reopen (r.map Γ d) r.walSeq (reappended r.mem))
    (hseq : SeqUp ⟨d, hh, r.engine Γ o.options o.buf⟩) : DataUp ⟨d, hh, r.engine Γ o.options o.buf⟩ := by
  have hbase : hh.base = r.map Γ d := by obtain ⟨h', rfl⟩ := heq; rfl
  have hopened : hh.opened = r.walSeq := by obtain ⟨h', rfl⟩ := heq; rfl
  have hcarried : hh.carried = reappended r.mem := by obtain ⟨h', rfl⟩ := heq; rfl
  have hlog : hh.log = [] := by obtain ⟨h', rfl⟩ := heq; rfl
  have hsegs : ∀ g, hh.segs g = [] := by obtain ⟨h', rfl⟩ := heq; exact fun g => rfl
  obtain ⟨happlied, hcompleted, hrotated, hack⟩ : hh.applied = 0 ∧ hh.completed = 0 ∧ hh.rotated = 0 ∧ hh.flushAck = 0 := by
    obtain ⟨h', rfl⟩ := heq
    exact ⟨rfl, rfl, rfl, rfl⟩
  have hs := h.stage
  rw [hst] at hs hc
  obtain ⟨hb, hl, hstored, -, -, f, hf, hbytes, hsync⟩ := hs
  have hkeys : d.wals.keys = [r.walSeq] := hc
  have hentries : hh.entries r.walSeq = reappended r.mem := by rw [Hist.entries, hopened, if_pos rfl, hcarried, hsegs, List.append_nil]
  have hmem : ∀ g, g ∈ (r.engine Γ o.options o.buf).logs ↔ g = r.walSeq := by
    intro g
    simp [Engine.logs, Engine.generations, Recovered.engine, FlushSection.flushed, WalSection.spare, Engine.generation]
  have hlogs : (r.engine Γ o.options o.buf).logs = [r.walSeq] := rfl
  refine ⟨hseq, ?_, ?_, ?_, [], ?_⟩
  · exact {
      live := by
        change ∀ m ∈ stack r.levels, _
        rw [hl]
        exact h.disk.tables
      listed := h.disk.tables
      readers := fun m _ rd hrd => by simp [Recovered.engine] at hrd
      flush := trivial }
  · exact {
      keys := hkeys
      valid := by
        intro g hg w hw
        rw [hmem] at hg
        subst hg
        rw [hentries] at hw
        exact reappended_valid hstored w hw
      stream := by
        intro g hg
        rw [hmem] at hg
        subst hg
        refine ⟨[], torn_nil Γ, ?_⟩
        simp [walStream, hf, hbytes, hentries, Recovered.engine, hb]
      synced := h.disk.synced
      carried := by
        intro f' hf'
        rw [hopened, hf] at hf'
        obtain rfl := Option.some.inj hf'
        rw [hcarried, hsync, hbytes]
      unused := fun g _ => hsegs g
      opened := by
        intro g hg
        rw [hmem] at hg
        rw [hg, hopened]
      frozen := fun p hp => by simp [Recovered.engine] at hp
      active := by
        refine ⟨reappended r.mem, ?_, ?_⟩
        · change hh.entries r.walSeq = reappended r.mem ++ []
          rw [List.append_nil, hentries]
        · simp only [Recovered.engine, Function.update_self]
          exact (map_replay_reappended hstored).symm
      full := fun hc => by simp [Recovered.engine, WalSection.rotates] at hc
      swapped := fun c s hc => by simp [Recovered.engine] at hc }
  · exact {
      applied := by simp [happlied, hlog, Recovered.engine, WalSection.inflight]
      completed := by simp [hcompleted]
      atMostOne := by simp [hlog]
      idle := fun _ => by simp [hcompleted, hlog]
      rotated := by simp [hrotated, hsegs, hlog]
      frozen := by simp [hrotated]
      inWal := fun since hc => by simp [Recovered.engine, WalSection.flusher] at hc
      flushers := fun since hc => by simp [Recovered.engine] at hc
      caller := fun since hc => by simp [Recovered.engine, FlushSection.caller] at hc }
  · have hcar : runWrites hh.carried (tablesMap Γ d r.levels) = hh.base := by
      rw [hbase, hcarried, runWrites, layerOf_reappended]
      rfl
    exact {
      log := by simp [hlog, hlogs, hsegs]
      first := fun _ => rfl
      base := by rw [← hcar, runWrites_self]
      tables := by
        intro _
        rw [Hist.carriedIn, if_pos (by rw [hmem, hopened])]
        exact hcar
      tables' := fun hc => absurd rfl hc
      listed := by
        intro _
        dsimp only
        rw [← hl]
        rfl
      listed' := fun hc => by simp [Recovered.engine, FlushSection.unlisted] at hc
      flushAck := by simp [hack]
      drained := fun since hc => by simp [Recovered.engine, FlushSection.drained] at hc }

end LsmEngine
