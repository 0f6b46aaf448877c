import LsmEngine.Library.Overlay
import LsmEngine.Library.SortedMap
import LsmEngine.Wal

/-!
# The MemTable

`memtable/mod.rs`: a map from keys to entries and an estimate of the bytes it holds. The skip list is an ordered map whose
operations are atomic and whose iteration is in ascending byte order, so it is a `SortedMap`. A tombstone is an entry with its
`deleted` flag set, since an empty value is user data.

The second half is what a log does to a table: `replay_into`, the entries that `open_with_options` appends to a fresh log for a
recovered table, and the layer (`Overlay.Layer`) a table stands for.
-/

namespace LsmEngine

open Overlay

def entryOverhead : Nat := 64

structure Entry where
  value : Value
  deleted : Bool
  deriving DecidableEq, Repr

structure MemTable where
  map : SortedMap Key Entry
  approximateSize : Nat

namespace MemTable

def new : MemTable := ⟨SortedMap.empty, 0⟩

/-- `bump_approximate_size`. -/
def bump (m : MemTable) (payloadBytes : Nat) : MemTable :=
  { m with approximateSize := m.approximateSize + (payloadBytes + entryOverhead) }

def put (m : MemTable) (key : Key) (value : Value) : MemTable :=
  let m := m.bump (key.length + value.length)
  { m with map := m.map.insert key ⟨value, false⟩ }

def delete (m : MemTable) (key : Key) : MemTable :=
  let m := m.bump key.length
  { m with map := m.map.insert key ⟨[], true⟩ }

def getEntry (m : MemTable) (key : Key) : Option Entry := m.map.get key

def isEmpty (m : MemTable) : Bool := m.map.isEmpty

def len (m : MemTable) : Nat := m.map.toList.length

/-- The entries in ascending key order. The iterator of the skip list is weakly consistent; over a table no writer holds it is
this list. -/
def iter (m : MemTable) : List (Key × Entry) := m.map.toList

end MemTable

/-- What an entry says of its key: its value, or nothing when it is a tombstone. -/
def Entry.visible (e : Entry) : Option Value := if e.deleted then none else some e.value

/-- What a table says of each key. -/
def MemTable.layer (m : MemTable) : Layer Key (Option Value) := fun k => (m.getEntry k).map Entry.visible

/-! ## Logs and tables -/

/-- One entry of a log applied to a table: `Put` is `put`, `Delete` is `delete`. -/
def WalEntry.applyTo (e : WalEntry) (m : MemTable) : MemTable :=
  match e.op with
  | .put => m.put e.key e.value
  | .delete => m.delete e.key

/-- Entries applied to a table in order. -/
def replayEntries (es : List WalEntry) (m : MemTable) : MemTable := es.foldl (fun m e => e.applyTo m) m

/-- `WalReader::replay_into`: all or nothing with respect to corruption. -/
def replayInto (Γ : Ctx) (bytes : Bytes) (m : MemTable) : Except LsmError MemTable := do
  let entries ← scan Γ bytes
  pure (replayEntries entries m)

/-- The entries `open_with_options` appends to the fresh log for a recovered table: one for each key, in key order. -/
def reappended (m : MemTable) : List WalEntry :=
  m.iter.map (fun b => ⟨if b.2.deleted then .delete else .put, b.1, if b.2.deleted then [] else b.2.value⟩)

/-- What an entry of a log writes: a key, and its new value or nothing. -/
def WalEntry.write (e : WalEntry) : Key × Option Value :=
  (e.key, match e.op with
    | .put => some e.value
    | .delete => none)

/-- A map after the writes of a log, in order. -/
def runWrites (es : List WalEntry) (b : Key → Option Value) : Key → Option Value :=
  onto (layerOf (es.map WalEntry.write)) b

/-- Every entry of the table is one that `put` or `delete` of an accepted write left there. -/
def MemTable.Stored (m : MemTable) : Prop :=
  ∀ k e, m.map.get k = some e →
    k.length ≤ maxKeyLen ∧ e.value.length ≤ maxValueLen ∧ (e.deleted = true → e.value = [])

@[simp] theorem runWrites_nil (b : Key → Option Value) : runWrites [] b = b := rfl

/-- Writes after others are applied to what these have left. -/
theorem runWrites_append (es fs : List WalEntry) (b : Key → Option Value) :
    runWrites (es ++ fs) b = runWrites fs (runWrites es b) := by
  simp only [runWrites, List.map_append, onto_layerOf_append]

/-- The last write of a log decides its key. -/
theorem runWrites_snoc_self (es : List WalEntry) (e : WalEntry) (b : Key → Option Value) :
    runWrites (es ++ [e]) b e.key = e.write.2 := by
  rw [runWrites, List.map_append, List.map_singleton]
  apply onto_of_some
  rw [layerOf_snoc]
  exact if_pos rfl

/-- A write leaves the other keys. -/
theorem runWrites_snoc_of_ne (es : List WalEntry) {e : WalEntry} {k : Key} (h : e.key ≠ k) (b : Key → Option Value) :
    runWrites (es ++ [e]) b k = runWrites es b k := by
  have hk : e.write.1 ≠ k := h
  simp only [runWrites, List.map_append, List.map_singleton, onto]
  rw [layerOf_snoc, if_neg hk]

/-- Writes of other keys leave a key alone. -/
theorem runWrites_of_ne {es : List WalEntry} {k : Key} (h : ∀ w ∈ es, w.key ≠ k) (b : Key → Option Value) :
    runWrites es b k = b k := by
  induction es using List.reverseRecOn with
  | nil => rfl
  | append_singleton es e ih =>
    rw [runWrites_snoc_of_ne es (h e (by simp)), ih (fun w hw => h w (List.mem_append_left _ hw))]

namespace MemTable

@[simp] theorem layer_new : MemTable.new.layer = fun _ => none := rfl

/-- An empty MemTable is in order. -/
theorem stored_new : MemTable.new.Stored := by
  intro k e h
  simp [MemTable.new] at h

/-- A table is empty exactly when it says nothing of any key. -/
theorem isEmpty_iff (m : MemTable) : m.isEmpty = true ↔ m.map = SortedMap.empty := m.map.isEmpty_iff

/-- The layer of a MemTable is seen on its map. -/
theorem layer_congr {m n : MemTable} (h : m.map = n.map) : m.layer = n.layer := by
  funext k
  rw [layer, layer, getEntry, getEntry, h]

end MemTable

/-- The map of a table after an entry. -/
theorem map_applyTo (e : WalEntry) (m : MemTable) :
    (e.applyTo m).map = m.map.insert e.key (match e.op with
      | .put => ⟨e.value, false⟩
      | .delete => ⟨[], true⟩) := by
  unfold WalEntry.applyTo
  cases e.op <;> rfl

/-- An entry applied to a table is the entry's write laid over it. -/
theorem layer_applyTo (e : WalEntry) (m : MemTable) : (e.applyTo m).layer = atop (layerOf [e.write]) m.layer := by
  funext k
  simp only [MemTable.layer, MemTable.getEntry, map_applyTo, SortedMap.get_insert, atop, layerOf, WalEntry.write]
  by_cases h : e.key = k
  · cases e.op <;> simp [h, Entry.visible]
  · simp [h]

@[simp] theorem replayEntries_nil (m : MemTable) : replayEntries [] m = m := rfl

/-- Entries after others are replayed into what these have left. -/
theorem replayEntries_append (es fs : List WalEntry) (m : MemTable) :
    replayEntries (es ++ fs) m = replayEntries fs (replayEntries es m) := by
  simp [replayEntries]

/-- A replayed log is the layer of its writes over the table. -/
theorem layer_replayEntries (es : List WalEntry) (m : MemTable) :
    (replayEntries es m).layer = atop (layerOf (es.map WalEntry.write)) m.layer := by
  induction es using List.reverseRecOn with
  | nil => funext k; simp [atop]
  | append_singleton es e ih =>
    rw [replayEntries_append, List.map_append, layerOf_append]
    change (e.applyTo _).layer = _
    rw [layer_applyTo, ih]
    funext k
    simp only [atop, List.map_singleton, Option.or_assoc]

/-- A replay into an empty MemTable is the layer of the log. -/
theorem layer_replayEntries_new (es : List WalEntry) :
    (replayEntries es MemTable.new).layer = layerOf (es.map WalEntry.write) := by
  rw [layer_replayEntries]
  funext k
  simp [atop]

/-- An entry within the caps leaves a stored one: a tombstone has no value, whatever the log says. -/
theorem stored_applyTo {e : WalEntry} (he : e.Capped) {m : MemTable} (hm : m.Stored) : (e.applyTo m).Stored := by
  intro k x h
  rw [map_applyTo, SortedMap.get_insert] at h
  by_cases hk : e.key = k
  · subst hk
    rw [if_pos rfl, Option.some.injEq] at h
    subst h
    cases e.op
    · exact ⟨he.1, he.2, by simp⟩
    · exact ⟨he.1, by simp, by simp⟩
  · rw [if_neg hk] at h
    exact hm k x h

/-- A replay of capped entries keeps a MemTable in order. -/
theorem stored_replayEntries {es : List WalEntry} (hes : ∀ e ∈ es, e.Capped) {m : MemTable} (hm : m.Stored) :
    (replayEntries es m).Stored := by
  induction es generalizing m with
  | nil => exact hm
  | cons e es ih =>
    exact ih (fun x hx => hes x (List.mem_cons_of_mem _ hx)) (stored_applyTo (hes e List.mem_cons_self) hm)

/-! ## The entries re-appended at open -/

/-- Every re-appended entry is one the log accepts. -/
theorem reappended_valid {m : MemTable} (hm : m.Stored) : ∀ e ∈ reappended m, e.Valid := by
  intro e he
  simp only [reappended, List.mem_map] at he
  obtain ⟨b, hb, rfl⟩ := he
  obtain ⟨h1, h2, -⟩ := hm b.1 b.2 (m.map.mem_toList_iff.1 hb)
  refine ⟨h1, ?_, ?_⟩
  · by_cases hd : b.2.deleted = true <;> simp [hd, h2]
  · by_cases hd : b.2.deleted = true <;> simp [hd]

/-- A re-appended entry writes what the table says of its key. -/
theorem layer_of_mem_reappended {m : MemTable} {e : WalEntry} (he : e ∈ reappended m) :
    m.layer e.key = some e.write.2 := by
  simp only [reappended, List.mem_map] at he
  obtain ⟨b, hb, rfl⟩ := he
  simp only [MemTable.layer, MemTable.getEntry, m.map.mem_toList_iff.1 hb, Option.map_some, Entry.visible, WalEntry.write]
  by_cases hd : b.2.deleted = true <;> simp [hd]

/-- Some of the re-appended entries say nothing the table does not say. -/
theorem layer_of_take_reappended {m : MemTable} {j : Nat} {k : Key} {x : Option Value}
    (h : layerOf (((reappended m).take j).map WalEntry.write) k = some x) : m.layer k = some x := by
  obtain ⟨e, he, hw⟩ := List.mem_map.1 (mem_of_layerOf_eq_some h)
  have := layer_of_mem_reappended (List.mem_of_mem_take he)
  simp only [WalEntry.write, Prod.mk.injEq] at hw
  rw [← hw.1, this, ← hw.2]
  rfl

/-- The re-appended entries are the table's layer. -/
theorem layerOf_reappended (m : MemTable) : layerOf ((reappended m).map WalEntry.write) = m.layer := by
  funext k
  cases h : layerOf ((reappended m).map WalEntry.write) k with
  | some x => exact (layer_of_take_reappended (j := (reappended m).length) (by simpa using h)).symm
  | none =>
    rw [layerOf_eq_none] at h
    simp only [MemTable.layer, MemTable.getEntry]
    cases hg : m.map.get k with
    | none => rfl
    | some e =>
      refine absurd rfl (h (k, _) (List.mem_map.2 ⟨_, List.mem_map.2 ⟨(k, e), m.map.mem_toList_iff.2 hg, rfl⟩, rfl⟩))

namespace MemTableAux

/-- Replaying bindings in ascending order builds the map they list. -/
theorem get_replay_bindings (bs : List (Key × Entry)) (hs : bs.Pairwise (fun a b => a.1 < b.1))
    (hd : ∀ b ∈ bs, b.2.deleted = true → b.2.value = []) (m : MemTable) (k : Key) :
    (replayEntries (bs.map (fun b => ⟨if b.2.deleted then .delete else .put, b.1, if b.2.deleted then [] else b.2.value⟩))
      m).map.get k = (SortedMap.find k bs).or (m.map.get k) := by
  induction bs generalizing m with
  | nil => simp [SortedMap.find]
  | cons b bs ih =>
    obtain ⟨hb, hs'⟩ := List.pairwise_cons.1 hs
    rw [List.map_cons]
    change (replayEntries _ (WalEntry.applyTo _ m)).map.get k = _
    rw [ih hs' (fun c hc => hd c (List.mem_cons_of_mem _ hc)), map_applyTo, SortedMap.get_insert]
    obtain ⟨bk, v, del⟩ := b
    by_cases hk : bk = k
    · subst hk
      have hnone : SortedMap.find bk bs = none := SortedMap.find_eq_none.2 (fun c hc => (hb c hc).ne')
      have hv : del = true → v = [] := hd (bk, ⟨v, del⟩) List.mem_cons_self
      cases del
      · simp [hnone, SortedMap.find]
      · simp [hnone, SortedMap.find, hv rfl]
    · simp [SortedMap.find, hk]

end MemTableAux

/-- Replaying the re-appended entries rebuilds the table's map, keys, values and tombstones. -/
theorem map_replay_reappended {m : MemTable} (hm : m.Stored) :
    (replayEntries (reappended m) MemTable.new).map = m.map := by
  ext1 k
  rw [reappended, MemTable.iter, MemTableAux.get_replay_bindings m.map.toList m.map.sorted]
  · change _ = SortedMap.find k m.map.toList
    simp [MemTable.new]
  · intro b hb
    exact (hm b.1 b.2 (m.map.mem_toList_iff.1 hb)).2.2

/-- A table that is not empty re-appends something. -/
theorem reappended_eq_nil_iff (m : MemTable) : reappended m = [] ↔ m.isEmpty = true := by
  simp [reappended, MemTable.iter, MemTable.isEmpty, SortedMap.isEmpty]

end LsmEngine
