import LsmEngine.Step

/-!
# Sequence numbers

One counter numbers the log generations and the tables. This module states what the numbers of a reachable state are like: the
tables of the levels, of the MANIFEST and of the logs, the number a section has taken and not used yet, and the order in which
the generations were frozen. Nothing here depends on what the files contain, and no step that fails disturbs it.
-/

namespace LsmEngine

/-- Level 0 and level 1 only, at most one table in level 1, every table below in seq what a lookup asks before it, and every
table named by its level and seq. -/
structure LevelsOk (levels : List (List SstMeta)) : Prop where
  len : levels.length ≤ 2
  asc : AscendingBySeq (stack levels)
  single : (levels[1]?.getD []).length ≤ 1
  named : ∀ (l : Nat) (handles : List SstMeta), levels[l]? = some handles →
    ∀ m ∈ handles, m.level = l ∧ m.name = ⟨l, m.seq⟩

/-- The levels the MANIFEST on disk lists; a missing MANIFEST lists none. -/
def Disk.manifestLevels (d : Disk) : List (List SstMeta) := ((d.manifest.bind Stored.cur).map Manifest.levels).getD []

/-- The MANIFEST is missing, or all of it is there and fsynced. -/
def Settled (f : Option (Stored Manifest)) : Prop := f = none ∨ ∃ m, f = some ⟨some m, some m⟩

/-- A temporary file when its stage `st` is next. -/
def Stage.Before {α : Type} (content : α) (tmp : Option (Stored α)) : Stage → Prop
  | .create => True
  | .write => ∃ f, tmp = some f
  | .sync => ∃ x, tmp = some ⟨some content, x⟩
  | .rename => tmp = some ⟨some content, some content⟩

/-- The generations the tables of level 0 were flushed from, in order of seq. -/
def Hist.sources (h : Hist) (levels : List (List SstMeta)) : List Nat :=
  (levels[0]?.getD []).map (fun m => h.source m.name)

/-- The generation whose log takes the next writes. -/
def Engine.generation {Γ : Ctx} (e : Engine Γ) : Nat :=
  match e.wal with
  | .swapped _ newSeq => newSeq
  | _ => e.walSeq

/-- The generations of the immutables and the active one, in order of freeze. -/
def Engine.generations {Γ : Ctx} (e : Engine Γ) : List Nat := e.immutables.map PendingImm.walSeq ++ [e.generation]

/-- The generations the holder of `flush_lock` has flushed and not removed. -/
def FlushSection.flushed : FlushSection → List Nat
  | .draining _ flushed | .building _ flushed _ _ _ _ | .committing _ flushed _ _ => flushed
  | .manifest (.removeWals _ walSeqs) _ _ => walSeqs
  | .unlinkWals _ todo => todo
  | _ => []

/-- The table the holder of `flush_lock` is writing and has not committed. -/
def FlushSection.newSst : FlushSection → Option SstMeta
  | .building _ _ _ sst _ _ | .committing _ _ _ sst | .merging _ sst _ _ => some sst
  | .installing _ output => output
  | _ => none

/-- The immutable the holder of `flush_lock` is flushing. -/
def FlushSection.pending : FlushSection → Option PendingImm
  | .building _ _ p _ _ _ | .committing _ _ p _ => some p
  | _ => none

/-- The level of the table being written. -/
def FlushSection.newLevel : FlushSection → Nat
  | .merging _ _ _ _ | .installing _ _ => 1
  | _ => 0

/-- A number taken for a table of level `level`, above every number in use. -/
structure Fresh (next : Nat) (live listed : List (List SstMeta)) (level : Nat) (sst : SstMeta) : Prop where
  name : sst.name = ⟨level, sst.seq⟩
  level : sst.level = level
  lt : sst.seq < next
  live : ∀ m ∈ stack live, m.seq < sst.seq
  listed : ∀ m ∈ stack listed, m.seq < sst.seq

/-- What the wal mutex holder's number is like. -/
def WalSection.SeqOk (keys : List Nat) (next : Nat) (gens : List Nat) : WalSection → Prop
  | .rotating _ newSeq => newSeq < next ∧ ∀ w ∈ keys, w < newSeq
  | .created _ newSeq => newSeq ∈ keys ∧ ∀ g ∈ gens, g < newSeq
  | _ => True

/-- The MANIFEST being written lists the levels of the engine. -/
def FlushSection.ManifestOk (d : Disk) (levels : List (List SstMeta)) : FlushSection → Prop
  | .manifest _ m st => m = Manifest.ofLevels levels ∧ st.Before m d.manifestTmp
  | _ => True

/-- The numbers of a running engine and of its directory. -/
structure SeqUp {Γ : Ctx} (n : Node Γ) : Prop where
  levels : LevelsOk n.eng.levels
  live : ∀ m ∈ stack n.eng.levels, m.seq < n.eng.nextSeq
  settled : Settled n.disk.manifest
  listed : LevelsOk n.disk.manifestLevels
  listedLt : ∀ m ∈ stack n.disk.manifestLevels, m.seq < n.eng.nextSeq
  walsLt : ∀ w ∈ n.disk.wals.keys, w < n.eng.nextSeq
  newSst : ∀ sst, n.eng.flush.newSst = some sst →
    Fresh n.eng.nextSeq n.eng.levels n.disk.manifestLevels n.eng.flush.newLevel sst
  pending : ∀ p, n.eng.flush.pending = some p → n.eng.immutables.head? = some p
  manifest : n.eng.flush.ManifestOk n.disk n.eng.levels
  wal : n.eng.wal.SeqOk n.disk.wals.keys n.eng.nextSeq n.eng.generations
  onDisk : ∀ g ∈ n.eng.generations, g ∈ n.disk.wals.keys
  flushedLt : ∀ t ∈ n.eng.flush.flushed, ∀ g ∈ n.eng.generations, t < g
  order : ∃ F, n.hist.frozen = F ++ n.eng.immutables.map PendingImm.walSeq ∧ (F ++ n.eng.generations).Pairwise (· < ·) ∧
    (n.hist.sources n.eng.levels).Sublist F ∧ (n.hist.sources n.disk.manifestLevels).Sublist F

/-- The numbers of a directory no process holds. -/
structure SeqDown (d : Disk) (h : Hist) : Prop where
  settled : Settled d.manifest
  listed : LevelsOk d.manifestLevels
  asc : h.frozen.Pairwise (· < ·)
  sources : (h.sources d.manifestLevels).Sublist h.frozen
  above : ∀ f ∈ h.frozen, ∃ w ∈ d.wals.keys, f < w

/-- What `open_with_options` holds at its stages. -/
def OpenStage.SeqOk (d : Disk) (h : Hist) : OpenStage → Prop
  | .loading => True
  | .creating r => r.levels = d.manifestLevels ∧ r.walSeqs = d.wals.keys
  | .appending r _ => r.levels = d.manifestLevels ∧ d.wals.keys = r.walSeqs ++ [r.walSeq] ∧ ∀ f ∈ h.frozen, f < r.walSeq
  | .removing r todo => r.levels = d.manifestLevels ∧ r.walSeq ∈ d.wals.keys ∧ (∀ w ∈ d.wals.keys, w ≤ r.walSeq) ∧
      (∀ w ∈ todo, w < r.walSeq) ∧ ∀ f ∈ h.frozen, f < r.walSeq

def SeqInv {Γ : Ctx} (s : Sys Γ) : Prop :=
  match s.proc with
  | .down => SeqDown s.disk s.hist
  | .opening o => SeqDown s.disk s.hist ∧ o.stage.SeqOk s.disk s.hist
  | .up e => SeqUp ⟨s.disk, s.hist, e⟩

end LsmEngine
