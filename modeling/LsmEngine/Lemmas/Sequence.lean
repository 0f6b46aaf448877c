import LsmEngine.Library.Run
import LsmEngine.Moves
import LsmEngine.Sequence

/-!
# Sequence numbers in every run

Every step keeps `SeqInv`, whatever fails: a number taken for a file that is never written is only a gap.
-/

namespace LsmEngine

/-! ## Levels -/

/-- No levels are in order. -/
theorem levelsOk_nil : LevelsOk [] := ⟨by simp, by simp [stack, AscendingBySeq], by simp, by simp⟩

/-- Level 0 is on top of the stack. -/
theorem stack_cons (l0 : List SstMeta) (rest : List (List SstMeta)) : stack (l0 :: rest) = stack rest ++ l0 := by
  simp [stack]

/-- Levels in order are asked from the newest table down. -/
theorem LevelsOk.ordered {levels : List (List SstMeta)} (h : LevelsOk levels) : LevelsOrdered levels := by
  intro l handles hl
  refine ⟨?_, fun m hm => (h.named l handles hl m hm).1⟩
  have hmem : handles ∈ levels.reverse := List.mem_reverse.2 (List.mem_of_getElem? hl)
  exact (List.pairwise_flatten.1 h.asc).1 handles hmem

/-- What `write_manifest` makes of good levels is good. -/
theorem LevelsOk.ofLevels {levels : List (List SstMeta)} (h : LevelsOk levels) :
    LevelsOk (Manifest.ofLevels levels).levels := by
  obtain ⟨trail, ht⟩ := ofLevels_trail h.ordered
  refine ⟨?_, ?_, ?_, ?_⟩
  · have := congrArg List.length ht
    have := h.len
    rw [List.length_append, List.length_replicate] at *
    omega
  · rw [stack_ofLevels h.ordered]
    exact h.asc
  · rw [ofLevels_getD h.ordered]
    exact h.single
  · intro l handles hl m hm
    have hlt : l < (Manifest.ofLevels levels).levels.length := (List.getElem?_eq_some_iff.1 hl).1
    refine h.named l handles ?_ m hm
    rw [← ht, List.getElem?_append_left hlt, hl]

/-- The levels after the commit of a flush. -/
def flushedLevels (levels : List (List SstMeta)) (sst : SstMeta) : List (List SstMeta) :=
  (if levels = [] then [[]] else levels).modify 0 (insertBySeq sst)

/-- A table that is newer than all others comes last in level 0. -/
theorem flushedLevels_eq {levels : List (List SstMeta)} {sst : SstMeta} (h : ∀ m ∈ stack levels, m.seq < sst.seq) :
    flushedLevels levels sst = (levels[0]?.getD [] ++ [sst]) :: levels.tail := by
  cases levels with
  | nil => rfl
  | cons l0 rest =>
    have hl0 : ∀ m ∈ l0, m.seq < sst.seq := fun m hm => h m (by rw [stack_cons]; exact List.mem_append_right _ hm)
    simp [flushedLevels, ManifestAux.insertBySeq_of_lt hl0]

theorem stack_flushedLevels {levels : List (List SstMeta)} {sst : SstMeta} (h : ∀ m ∈ stack levels, m.seq < sst.seq) :
    stack (flushedLevels levels sst) = stack levels ++ [sst] := by
  rw [flushedLevels_eq h, stack_cons]
  cases levels with
  | nil => rfl
  | cons l0 rest => simp [stack_cons]

/-- A table above every seq in use joins level 0 at its end. -/
theorem LevelsOk.flushed {levels : List (List SstMeta)} (h : LevelsOk levels) {sst : SstMeta}
    (hlt : ∀ m ∈ stack levels, m.seq < sst.seq) (hl : sst.level = 0) (hn : sst.name = ⟨0, sst.seq⟩) :
    LevelsOk (flushedLevels levels sst) := by
  refine ⟨?_, ?_, ?_, ?_⟩
  · rw [flushedLevels_eq hlt]
    have := h.len
    cases levels <;> simp at this ⊢
    omega
  · rw [stack_flushedLevels hlt]
    refine List.pairwise_append.2 ⟨h.asc, List.pairwise_singleton _ _, fun a ha b hb => ?_⟩
    rw [List.mem_singleton.1 hb]
    exact hlt a ha
  · rw [flushedLevels_eq hlt]
    have := h.single
    cases levels with
    | nil => simp
    | cons l0 rest => simpa using this
  · rw [flushedLevels_eq hlt]
    intro l handles hget m hm
    cases l with
    | zero =>
      simp only [List.getElem?_cons_zero, Option.some.injEq] at hget
      subst hget
      rcases List.mem_append.1 hm with hm | hm
      · cases levels with
        | nil => simp at hm
        | cons l0 rest => exact h.named 0 l0 rfl m hm
      · rw [List.mem_singleton.1 hm]
        exact ⟨hl, hn⟩
    | succ l =>
      cases levels with
      | nil => simp at hget
      | cons l0 rest => exact h.named (l + 1) handles (by simpa using hget) m hm

/-- A compaction leaves its output alone in level 1. -/
theorem compactedLevels_some {levels : List (List SstMeta)} (h : levels.length ≤ 2) (sst : SstMeta) :
    Node.compactedLevels levels (some sst) = [[], [sst]] := by
  match levels, h with
  | [], _ => rfl
  | [_], _ => rfl
  | [_, _], _ => rfl

/-- A compaction without output leaves an empty level 0. -/
theorem compactedLevels_none (levels : List (List SstMeta)) : Node.compactedLevels levels none = [[]] := by
  cases levels <;> simp [Node.compactedLevels]

/-- The stack after a compaction is its output. -/
theorem stack_compacted {levels : List (List SstMeta)} (h : levels.length ≤ 2) (output : Option SstMeta) :
    stack (Node.compactedLevels levels output) = output.toList := by
  cases output with
  | none => rw [compactedLevels_none]; rfl
  | some sst => rw [compactedLevels_some h]; rfl

/-- The levels after a compaction are in order. -/
theorem LevelsOk.compacted {levels : List (List SstMeta)} (h : LevelsOk levels) {output : Option SstMeta}
    (ho : ∀ sst, output = some sst → sst.level = 1 ∧ sst.name = ⟨1, sst.seq⟩) :
    LevelsOk (Node.compactedLevels levels output) := by
  refine ⟨?_, ?_, ?_, ?_⟩
  · cases output with
    | none => simp [compactedLevels_none]
    | some sst => simp [compactedLevels_some h.len]
  · rw [stack_compacted h.len]
    cases output <;> simp [AscendingBySeq]
  · cases output with
    | none => simp [compactedLevels_none]
    | some sst => simp [compactedLevels_some h.len]
  · intro l handles hget m hm
    cases output with
    | none =>
      rw [compactedLevels_none] at hget
      cases l with
      | zero => simp_all
      | succ l => simp at hget
    | some sst =>
      rw [compactedLevels_some h.len] at hget
      match l, hget with
      | 0, hget => simp_all
      | 1, hget =>
        simp only [List.getElem?_cons_succ, List.getElem?_cons_zero, Option.some.injEq] at hget
        rw [← hget, List.mem_singleton] at hm
        rw [hm]
        exact ho sst rfl
      | l + 2, hget => simp at hget

/-- Level 0 is then empty. -/
theorem level0_compacted {levels : List (List SstMeta)} (h : levels.length ≤ 2) (output : Option SstMeta) :
    (Node.compactedLevels levels output)[0]?.getD [] = [] := by
  cases output with
  | none => rw [compactedLevels_none]; rfl
  | some sst => rw [compactedLevels_some h]; rfl

/-! ## Temporary files -/

/-- Each stage leaves the temporary file as the next one needs it. -/
theorem Stage.Before.next {α : Type} {content : α} {tmp : Option (Stored α)} {st st' : Stage} (h : st.Before content tmp)
    (hn : st.next = some st') : st'.Before content (st.apply content tmp) := by
  cases st with
  | create =>
    simp only [Stage.next, Option.some.injEq] at hn
    subst hn
    exact ⟨_, rfl⟩
  | write =>
    simp only [Stage.next, Option.some.injEq] at hn
    subst hn
    obtain ⟨f, rfl⟩ := h
    exact ⟨f.dur, rfl⟩
  | sync =>
    simp only [Stage.next, Option.some.injEq] at hn
    subst hn
    obtain ⟨x, rfl⟩ := h
    rfl
  | rename => simp [Stage.next] at hn

/-! ## The running engine -/

section Up

variable {Γ : Ctx} {n n' : Node Γ}

/-- Outside a freeze the active generation is that of the active log. -/
theorem generation_of_not_swapped {e : Engine Γ} (h : e.wal.holdsStateLock = false) : e.generation = e.walSeq := by
  unfold Engine.generation
  split
  · simp_all [WalSection.holdsStateLock]
  · rfl

/-- Two states that agree on everything the numbers are read from, but for the stage of the wal mutex holder. -/
structure SameSeq (n n' : Node Γ) : Prop where
  levels : n'.eng.levels = n.eng.levels
  flush : n'.eng.flush = n.eng.flush
  immutables : n'.eng.immutables = n.eng.immutables
  nextSeq : n'.eng.nextSeq = n.eng.nextSeq
  generation : n'.eng.generation = n.eng.generation
  manifest : n'.disk.manifest = n.disk.manifest
  manifestTmp : n'.disk.manifestTmp = n.disk.manifestTmp
  keys : n'.disk.wals.keys = n.disk.wals.keys
  frozen : n'.hist.frozen = n.hist.frozen
  source : n'.hist.source = n.hist.source

/-- The same MANIFEST lists the same levels. -/
theorem manifestLevels_congr {d d' : Disk} (h : d'.manifest = d.manifest) : d'.manifestLevels = d.manifestLevels := by
  rw [Disk.manifestLevels, Disk.manifestLevels, h]

/-- The MANIFEST being written is seen on its temporary file alone. -/
theorem ManifestOk.congr {d d' : Disk} {levels : List (List SstMeta)} {fl : FlushSection}
    (h : fl.ManifestOk d levels) (ht : d'.manifestTmp = d.manifestTmp) : fl.ManifestOk d' levels := by
  cases fl with
  | manifest after m st => exact ⟨h.1, by rw [ht]; exact h.2⟩
  | _ => trivial

/-- A number that was drawn stays above those in use while they become fewer and the next one grows. -/
theorem SeqOk.mono {w : WalSection} {keys gens gens' : List Nat} {next next' : Nat} (h : w.SeqOk keys next gens)
    (hn : next ≤ next') (hg : ∀ g ∈ gens', g ∈ gens) : w.SeqOk keys next' gens' := by
  cases w with
  | rotating c newSeq => exact ⟨h.1.trans_le hn, h.2⟩
  | created c newSeq => exact ⟨h.1, fun g hm => h.2 g (hg g hm)⟩
  | _ => trivial

/-- A step that changes nothing that has numbers. -/
theorem SeqUp.same (h : SeqUp n) (hs : SameSeq n n')
    (hw : n'.eng.wal.SeqOk n.disk.wals.keys n.eng.nextSeq n.eng.generations) : SeqUp n' := by
  have hml := manifestLevels_congr hs.manifest
  have hg : n'.eng.generations = n.eng.generations := by
    rw [Engine.generations, Engine.generations, hs.immutables, hs.generation]
  have hsrc : ∀ l, n'.hist.sources l = n.hist.sources l := fun l => by rw [Hist.sources, Hist.sources, hs.source]
  constructor
  case levels => rw [hs.levels]; exact h.levels
  case live => rw [hs.levels, hs.nextSeq]; exact h.live
  case settled => rw [hs.manifest]; exact h.settled
  case listed => rw [hml]; exact h.listed
  case listedLt => rw [hml, hs.nextSeq]; exact h.listedLt
  case walsLt => rw [hs.keys, hs.nextSeq]; exact h.walsLt
  case newSst => rw [hs.flush, hs.nextSeq, hs.levels, hml]; exact h.newSst
  case pending => rw [hs.flush, hs.immutables]; exact h.pending
  case manifest => rw [hs.flush, hs.levels]; exact ManifestOk.congr h.manifest hs.manifestTmp
  case wal => rw [hs.keys, hs.nextSeq, hg]; exact hw
  case onDisk => rw [hg, hs.keys]; exact h.onDisk
  case flushedLt => rw [hs.flush, hg]; exact h.flushedLt
  case order => rw [hs.frozen, hs.immutables, hg, hsrc, hsrc, hs.levels, hml]; exact h.order

theorem manifestTmp_appendWal (d : Disk) (seq : Nat) (bs : Bytes) :
    (d.appendWal seq bs).manifestTmp = d.manifestTmp := by
  unfold Disk.appendWal
  split <;> rfl

theorem manifestTmp_syncWal (d : Disk) (seq : Nat) : (d.syncWal seq).manifestTmp = d.manifestTmp := by
  unfold Disk.syncWal
  split <;> rfl

/-- The section of the wal mutex ends where it held no lock and no number. -/
theorem SeqUp.finish (h : SeqUp n) (hw : n.eng.wal.holdsStateLock = false) (c : WalCaller) : SeqUp (n.finish c).1 := by
  have hg := generation_of_not_swapped hw
  cases c with
  | write w => exact h.same ⟨rfl, rfl, rfl, rfl, hg.symm, rfl, rfl, rfl, rfl, rfl⟩ trivial
  | flush since => exact h.same ⟨rfl, rfl, rfl, rfl, hg.symm, rfl, rfl, rfl, rfl, rfl⟩ trivial

/-- A call that fails keeps the numbers in order. -/
theorem SeqUp.abort (h : SeqUp n) (hw : n.eng.wal.holdsStateLock = false) (err : LsmError) (c : WalCaller) :
    SeqUp (n.abort err c).1 := by
  have hg := generation_of_not_swapped hw
  cases c with
  | write w => exact h.same ⟨rfl, rfl, rfl, rfl, hg.symm, rfl, rfl, rfl, rfl, rfl⟩ trivial
  | flush since => exact h.same ⟨rfl, rfl, rfl, rfl, hg.symm, rfl, rfl, rfl, rfl, rfl⟩ trivial

theorem SeqUp.syncActive (h : SeqUp n) (hw : n.eng.wal.holdsStateLock = false) {next : WalSection}
    (hn : next.holdsStateLock = false) (hok : ∀ keys m gens, next.SeqOk keys m gens) : SeqUp (n.syncActive next) := by
  have hg : (n.syncActive next).eng.generation = n.eng.generation := by
    rw [generation_of_not_swapped hw, generation_of_not_swapped (e := (n.syncActive next).eng) hn]
    rfl
  refine h.same ⟨rfl, rfl, rfl, rfl, hg, ?_, ?_, ?_, rfl, rfl⟩ (hok _ _ _)
  · simp [Node.syncActive]
  · simp [Node.syncActive, manifestTmp_appendWal, manifestTmp_syncWal]
  · simp [Node.syncActive]

/-- A number is taken. -/
theorem SeqUp.takeSeq (h : SeqUp n) (hw : n.eng.wal.holdsStateLock = false) (c : WalCaller) :
    SeqUp { n with eng.nextSeq := n.eng.nextSeq + 1, eng.wal := .rotating c n.eng.nextSeq } := by
  have hg := generation_of_not_swapped hw
  have hgs : Engine.generations { n.eng with nextSeq := n.eng.nextSeq + 1, wal := .rotating c n.eng.nextSeq } =
      n.eng.generations := by
    rw [Engine.generations, Engine.generations, hg]
    rfl
  exact { h with
    live := fun m hm => (h.live m hm).trans (Nat.lt_succ_self _)
    listedLt := fun m hm => (h.listedLt m hm).trans (Nat.lt_succ_self _)
    walsLt := fun m hm => (h.walsLt m hm).trans (Nat.lt_succ_self _)
    newSst := fun sst hs => { h.newSst sst hs with lt := (h.newSst sst hs).lt.trans (Nat.lt_succ_self _) }
    wal := ⟨Nat.lt_succ_self _, h.walsLt⟩
    onDisk := by rw [hgs]; exact h.onDisk
    flushedLt := by rw [hgs]; exact h.flushedLt
    order := by rw [hgs]; exact h.order }

/-- The log of the new generation is created. -/
theorem SeqUp.createWal (h : SeqUp n) {c : WalCaller} {newSeq : Nat} (hw : n.eng.wal = .rotating c newSeq) :
    SeqUp { n with disk := n.disk.createWal newSeq, eng.wal := .created c newSeq } := by
  have hwal := h.wal
  rw [hw] at hwal
  obtain ⟨hlt, habove⟩ := hwal
  have hkeys := n.disk.keys_createWal habove
  have hgs : Engine.generations { n.eng with wal := .created c newSeq } = n.eng.generations := by
    simp only [Engine.generations, Engine.generation, hw]
  exact { h with
    walsLt := by
      intro w hm
      rw [hkeys, List.mem_append, List.mem_singleton] at hm
      rcases hm with hm | rfl
      · exact h.walsLt w hm
      · exact hlt
    manifest := ManifestOk.congr h.manifest rfl
    wal := by
      refine ⟨by rw [hkeys]; simp, ?_⟩
      rw [hgs]
      exact fun g hg => habove g (h.onDisk g hg)
    onDisk := by
      rw [hgs, hkeys]
      exact fun g hg => List.mem_append_left _ (h.onDisk g hg)
    flushedLt := by rw [hgs]; exact h.flushedLt
    order := by rw [hgs]; exact h.order }

/-- The active MemTable is frozen. -/
theorem SeqUp.swapActive (h : SeqUp n) {c : WalCaller} {newSeq : Nat} (hw : n.eng.wal = .created c newSeq) :
    SeqUp (n.swapActive c newSeq) := by
  have hwal := h.wal
  rw [hw] at hwal
  obtain ⟨hmem, habove⟩ := hwal
  have hg : n.eng.generation = n.eng.walSeq := generation_of_not_swapped (by rw [hw]; rfl)
  have hgs : (n.swapActive c newSeq).eng.generations = n.eng.generations ++ [newSeq] := by
    rw [Engine.generations, Engine.generations, hg]
    simp [Node.swapActive, Engine.generation]
  exact { h with
    pending := by
      intro p hp
      have := h.pending p hp
      simp only [Node.swapActive, List.head?_append, this, Option.some_or]
    wal := trivial
    onDisk := by
      rw [hgs]
      intro g hm
      rcases List.mem_append.1 hm with hm | hm
      · exact h.onDisk g hm
      · rw [List.mem_singleton.1 hm]
        exact hmem
    flushedLt := by
      rw [hgs]
      intro t ht g hm
      rcases List.mem_append.1 hm with hm | hm
      · exact h.flushedLt t ht g hm
      · rw [List.mem_singleton.1 hm]
        have hlast : n.eng.generation ∈ n.eng.generations := by simp [Engine.generations]
        exact (h.flushedLt t ht _ hlast).trans (habove _ hlast)
    order := by
      obtain ⟨F, hF, hasc, hl, hm⟩ := h.order
      refine ⟨F, ?_, ?_, hl, hm⟩
      · simp [Node.swapActive, hF]
      · rw [hgs, ← List.append_assoc]
        refine List.pairwise_append.2 ⟨hasc, List.pairwise_singleton _ _, fun a ha b hb => ?_⟩
        rw [List.mem_singleton.1 hb]
        have hlast : n.eng.generation ∈ n.eng.generations := by simp [Engine.generations]
        rcases List.mem_append.1 ha with ha | ha
        · exact ((List.pairwise_append.1 hasc).2.2 a ha _ hlast).trans (habove _ hlast)
        · exact habove a ha }

/-- The writer is replaced. -/
theorem SeqUp.replaceWriter (h : SeqUp n) {c : WalCaller} {newSeq : Nat} (hw : n.eng.wal = .swapped c newSeq) (io : Io) :
    SeqUp ((n.replaceWriter newSeq io).finish c).1 := by
  have hg : n.eng.generation = newSeq := by simp [Engine.generation, hw]
  cases c <;> refine h.same ⟨rfl, rfl, rfl, rfl, hg.symm, ?_, ?_, ?_, rfl, rfl⟩ trivial <;>
    simp only [Node.finish, Node.replaceWriter] <;> split <;> simp [manifestTmp_appendWal]

theorem SeqUp.write (h : SeqUp n) {w : WalEntry} {io : Io} {o : Out} (hm : WriteMove n w io n' o) : SeqUp n' := by
  cases hm with
  | refused => exact h
  | logged hw =>
    have hg : n.eng.generation = n.eng.walSeq := generation_of_not_swapped (by rw [hw]; rfl)
    exact h.same ⟨rfl, rfl, rfl, rfl, hg.symm, rfl, rfl, rfl, rfl, rfl⟩ trivial
  | torn hw =>
    refine h.same ⟨rfl, rfl, rfl, rfl, rfl, ?_, ?_, ?_, rfl, rfl⟩ (by simp [Node.tearWrite, hw, WalSection.SeqOk]) <;>
      simp only [Node.tearWrite, Disk.tear] <;> split <;> simp [manifestTmp_appendWal]

theorem SeqUp.walMove (h : SeqUp n) {io : Io} {r : Node Γ × Out} (hm : WalMove n io r) : SeqUp r.1 := by
  cases hm with
  | sync hw => exact h.syncActive (by rw [hw]; rfl) rfl (fun _ _ _ => trivial)
  | syncFails hw => exact h.abort (by rw [hw]; rfl) .io _
  | apply hw | applySynced hw | exceeds hw =>
    have hg : n.eng.generation = n.eng.walSeq := generation_of_not_swapped (by rw [hw]; rfl)
    exact h.same ⟨rfl, rfl, rfl, rfl, hg.symm, rfl, rfl, rfl, rfl, rfl⟩ trivial
  | done hw | nothing hw => exact h.finish (by rw [hw]; rfl) _
  | flushSync hw => exact h.syncActive (by rw [hw]; rfl) rfl (fun _ _ _ => trivial)
  | flushSyncFails hw | createFails hw => exact h.abort (by rw [hw]; rfl) .io _
  | takeSeq hw => exact h.takeSeq (by rw [hw]; rfl) _
  | create hw => exact h.createWal hw
  | swap hw => exact h.swapActive hw
  | replace hw => exact h.replaceWriter hw io

/-- The holder of `flush_lock` goes on to a stage where it holds no number. -/
theorem SeqUp.setFlush (h : SeqUp n) {fl : FlushSection} (hn : fl.newSst = none) (hp : fl.pending = none)
    (hm : fl.ManifestOk n.disk n.eng.levels) (hf : ∀ t ∈ fl.flushed, ∀ g ∈ n.eng.generations, t < g) :
    SeqUp { n with eng.flush := fl } :=
  { h with
    newSst := by
      intro sst hs
      rw [hn] at hs
      exact absurd hs (by simp)
    pending := by
      intro p hs
      rw [hp] at hs
      exact absurd hs (by simp)
    manifest := hm
    flushedLt := hf }

theorem SeqUp.flushEnd (h : SeqUp n) (r : Except LsmError Unit) (c : FlushCaller) : SeqUp (n.flushEnd r c).1 := by
  have hfree : SeqUp { n with eng.flush := .free } :=
    h.setFlush rfl rfl trivial (fun t ht => absurd ht (by simp [FlushSection.flushed]))
  cases c with
  | worker => exact hfree
  | flush since => exact hfree.same ⟨rfl, rfl, rfl, rfl, rfl, rfl, rfl, rfl, rfl, rfl⟩ hfree.wal

theorem SeqUp.compactEnd (h : SeqUp n) (r : Except LsmError Unit) : SeqUp (n.compactEnd r).1 :=
  h.setFlush rfl rfl trivial (fun t ht => absurd ht (by simp [FlushSection.flushed]))

/-- A number taken and not used. -/
theorem SeqUp.burn (h : SeqUp n) : SeqUp { n with eng.nextSeq := n.eng.nextSeq + 1 } :=
  { h with
    live := fun m hm => (h.live m hm).trans (Nat.lt_succ_self _)
    listedLt := fun m hm => (h.listedLt m hm).trans (Nat.lt_succ_self _)
    walsLt := fun m hm => (h.walsLt m hm).trans (Nat.lt_succ_self _)
    newSst := fun sst hs => { h.newSst sst hs with lt := (h.newSst sst hs).lt.trans (Nat.lt_succ_self _) }
    wal := SeqOk.mono h.wal (Nat.le_succ _) (fun _ hg => hg) }

/-- A table that is built has the level, the seq and the name it is built for. -/
theorem buildSst_meta {level seq expected : Nat} {rs : List Record} {sst : SstMeta} {file : SstFile}
    (h : buildSst Γ level seq expected rs = .ok (sst, file)) :
    sst.level = level ∧ sst.seq = seq ∧ sst.name = ⟨level, seq⟩ := by
  unfold buildSst at h
  cases hb : (SsTableBuilder.withExpectedItems Γ expected).addAll rs with
  | error err => simp [hb, bind, Except.bind] at h
  | ok b =>
    cases hf : b.build with
    | error err => simp [hb, hf, bind, Except.bind] at h
    | ok f =>
      simp only [hb, hf, bind, Except.bind, pure, Except.pure, Except.ok.injEq, Prod.mk.injEq] at h
      rw [← h.1]
      exact ⟨rfl, rfl, rfl⟩

/-- A number is taken for a table of level `level`. -/
theorem SeqUp.fresh (h : SeqUp n) {level : Nat} {sst : SstMeta} (hl : sst.level = level)
    (hs : sst.seq = n.eng.nextSeq) (hn : sst.name = ⟨level, n.eng.nextSeq⟩) :
    Fresh (n.eng.nextSeq + 1) n.eng.levels n.disk.manifestLevels level sst where
  name := by rw [hn, hs]
  level := hl
  lt := by rw [hs]; exact Nat.lt_succ_self _
  live := by rw [hs]; exact h.live
  listed := by rw [hs]; exact h.listedLt

/-- The holder of `flush_lock` goes on to a stage that holds a new table. -/
theorem SeqUp.setNew (h : SeqUp n) {fl : FlushSection} {t : SstMeta} (hs : fl.newSst = some t)
    (hfresh : Fresh n.eng.nextSeq n.eng.levels n.disk.manifestLevels fl.newLevel t)
    (hp : ∀ p, fl.pending = some p → n.eng.immutables.head? = some p) (hm : fl.ManifestOk n.disk n.eng.levels)
    (hf : ∀ t ∈ fl.flushed, ∀ g ∈ n.eng.generations, t < g) : SeqUp { n with eng.flush := fl } :=
  { h with
    newSst := by
      intro sst' hs'
      rw [hs, Option.some.injEq] at hs'
      rw [← hs']
      exact hfresh
    pending := hp
    manifest := hm
    flushedLt := hf }

/-- An operation on the directory that keeps the logs and the MANIFEST. -/
theorem SeqUp.setDisk (h : SeqUp n) {d : Disk} (hm : d.manifest = n.disk.manifest)
    (ht : d.manifestTmp = n.disk.manifestTmp) (hk : d.wals.keys = n.disk.wals.keys) : SeqUp { n with disk := d } :=
  h.same ⟨rfl, rfl, rfl, rfl, rfl, hm, ht, hk, rfl, rfl⟩ h.wal

theorem manifestTmp_sstStage (d : Disk) (name : SstName) (file : SstFile) (st : Stage) :
    (d.sstStage name file st).manifestTmp = d.manifestTmp := by
  unfold Disk.sstStage
  split <;> rfl

/-- Taking the generation of the first immutable away leaves the others. -/
theorem immutables_filter {imms : List PendingImm} {p : PendingImm} (hp : imms.head? = some p)
    (hd : (imms.map PendingImm.walSeq).Nodup) : imms.filter (fun q => q.walSeq ≠ p.walSeq) = imms.tail := by
  cases imms with
  | nil => simp at hp
  | cons q rest =>
    simp only [List.head?_cons, Option.some.injEq] at hp
    subst hp
    rw [List.map_cons, List.nodup_cons] at hd
    simp only [List.filter_cons, ne_eq, not_true_eq_false, decide_false, Bool.false_eq_true, if_false, List.tail_cons]
    rw [List.filter_eq_self]
    intro a ha
    simp only [decide_eq_true_eq]
    exact fun heq => hd.1 (List.mem_map.2 ⟨a, ha, heq⟩)

/-- The generations of the immutables are distinct. -/
theorem SeqUp.immutables_nodup (h : SeqUp n) : (n.eng.immutables.map PendingImm.walSeq).Nodup := by
  obtain ⟨F, -, hasc, -⟩ := h.order
  have := (List.pairwise_append.1 (List.pairwise_append.1 hasc).2.1).1
  exact this.imp (fun hlt => hlt.ne)

/-- A table that is not in level 0 is not a source of it. -/
theorem sources_update_of_ne {h : Hist} {levels : List (List SstMeta)} {name : SstName} (w : Nat)
    (hne : ∀ m ∈ levels[0]?.getD [], m.name ≠ name) :
    Hist.sources { h with source := Function.update h.source name w } levels = h.sources levels := by
  unfold Hist.sources
  apply List.map_congr_left
  intro m hm
  exact Function.update_of_ne (hne m hm) _ _

/-- The tables of level 0 are in the stack. -/
theorem level0_mem_stack {levels : List (List SstMeta)} {m : SstMeta} (h : m ∈ levels[0]?.getD []) : m ∈ stack levels := by
  cases levels with
  | nil => simp at h
  | cons l0 rest =>
    rw [stack_cons]
    exact List.mem_append_right _ h

/-- A table has not the name of one with a higher seq. -/
theorem LevelsOk.name_ne {levels : List (List SstMeta)} (h : LevelsOk levels) {m : SstMeta} (hm : m ∈ stack levels)
    {name : SstName} (hlt : m.seq < name.seq) : m.name ≠ name := by
  obtain ⟨l, hl, hml⟩ := mem_stack.1 hm
  obtain ⟨i, hi⟩ := List.getElem?_of_mem hl
  rw [(h.named i l hi m hml).2]
  intro heq
  rw [← heq] at hlt
  exact Nat.lt_irrefl _ hlt

/-- The commit of a flush takes the oldest immutable. -/
theorem SeqUp.commits (h : SeqUp n) {c : FlushCaller} {fl : List Nat} {p : PendingImm} {sst : SstMeta}
    (hf : n.eng.flush = .committing c fl p sst) :
    ∃ rest, n.eng.immutables = p :: rest ∧ (n.commitFlush c fl p sst).eng.immutables = rest := by
  have hp : n.eng.immutables.head? = some p := h.pending p (by rw [hf]; rfl)
  have hfilter := immutables_filter hp h.immutables_nodup
  cases himm : n.eng.immutables with
  | nil => simp [himm] at hp
  | cons q rest =>
    obtain rfl : q = p := by simpa [himm] using hp
    rw [himm] at hfilter
    exact ⟨rest, rfl, by simpa [Node.commitFlush, himm] using hfilter⟩

/-- A flush commits. -/
theorem SeqUp.commitFlush (h : SeqUp n) {c : FlushCaller} {fl : List Nat} {p : PendingImm} {sst : SstMeta}
    (hf : n.eng.flush = .committing c fl p sst) : SeqUp (n.commitFlush c fl p sst) := by
  have hfresh : Fresh n.eng.nextSeq n.eng.levels n.disk.manifestLevels 0 sst := by
    have := h.newSst sst (by rw [hf]; rfl)
    rwa [hf] at this
  have hp : n.eng.immutables.head? = some p := h.pending p (by rw [hf]; rfl)
  have hfl : ∀ t ∈ fl, ∀ g ∈ n.eng.generations, t < g := by
    have := h.flushedLt
    rwa [hf] at this
  obtain ⟨F, hF, hasc, hsl, hsm⟩ := h.order
  obtain ⟨rest, himm, himms⟩ := h.commits hf
  have hgs : n.eng.generations = p.walSeq :: (n.commitFlush c fl p sst).eng.generations := by
    rw [Engine.generations, Engine.generations, himms, himm]
    rfl
  have hlevels : (n.commitFlush c fl p sst).eng.levels = flushedLevels n.eng.levels sst := rfl
  have hname : sst.name.seq = sst.seq := by rw [hfresh.name]
  have hsub : ∀ levels : List (List SstMeta), LevelsOk levels → (∀ m ∈ stack levels, m.seq < sst.seq) →
      (n.commitFlush c fl p sst).hist.sources levels = n.hist.sources levels := by
    intro levels hok hlt
    refine sources_update_of_ne _ (fun m hm => hok.name_ne (level0_mem_stack hm) ?_)
    rw [hname]
    exact hlt m (level0_mem_stack hm)
  exact {
    levels := h.levels.flushed hfresh.live hfresh.level hfresh.name
    live := by
      rw [hlevels, stack_flushedLevels hfresh.live]
      intro m hm
      rcases List.mem_append.1 hm with hm | hm
      · exact h.live m hm
      · rw [List.mem_singleton.1 hm]
        exact hfresh.lt
    settled := h.settled
    listed := h.listed
    listedLt := h.listedLt
    walsLt := h.walsLt
    newSst := fun _ hs => absurd hs (by simp [Node.commitFlush, FlushSection.newSst])
    pending := fun _ hs => absurd hs (by simp [Node.commitFlush, FlushSection.pending])
    manifest := trivial
    wal := SeqOk.mono h.wal (Nat.le_refl _) (fun g hg => by rw [hgs]; exact List.mem_cons_of_mem _ hg)
    onDisk := fun g hg => h.onDisk g (by rw [hgs]; exact List.mem_cons_of_mem _ hg)
    flushedLt := by
      intro t ht g hg
      rcases List.mem_append.1 (show t ∈ fl ++ [p.walSeq] from ht) with ht | ht
      · exact hfl t ht g (by rw [hgs]; exact List.mem_cons_of_mem _ hg)
      · rw [List.mem_singleton.1 ht]
        rw [hgs] at hasc
        exact (List.pairwise_cons.1 (List.pairwise_append.1 hasc).2.1).1 g hg
    order := by
      refine ⟨F ++ [p.walSeq], ?_, ?_, ?_, ?_⟩
      · rw [himms]
        change n.hist.frozen = _
        rw [hF, himm]
        simp
      · rw [hgs] at hasc
        simpa using hasc
      · rw [hlevels, flushedLevels_eq hfresh.live]
        have h0 : (n.commitFlush c fl p sst).hist.sources ((n.eng.levels[0]?.getD [] ++ [sst]) :: n.eng.levels.tail) =
            (n.commitFlush c fl p sst).hist.sources n.eng.levels ++ [p.walSeq] := by
          simp [Hist.sources, Node.commitFlush]
        rw [h0, hsub _ h.levels hfresh.live]
        exact hsl.append (List.Sublist.refl _)
      · rw [show (n.commitFlush c fl p sst).disk = n.disk from rfl, hsub _ h.listed hfresh.listed]
        exact hsm.trans (List.sublist_append_left _ _) }

/-- A compaction commits. -/
theorem SeqUp.commitCompaction (h : SeqUp n) {inputs : List SstMeta} {output : Option SstMeta}
    (hf : n.eng.flush = .installing inputs output) : SeqUp (n.commitCompaction inputs output) := by
  have hfresh : ∀ sst, output = some sst → Fresh n.eng.nextSeq n.eng.levels n.disk.manifestLevels 1 sst := by
    intro sst ho
    have := h.newSst sst (by rw [hf]; exact ho)
    rwa [hf] at this
  exact { h with
    levels := h.levels.compacted (fun sst ho => ⟨(hfresh sst ho).level, (hfresh sst ho).name⟩)
    live := by
      intro m hm
      rw [show (n.commitCompaction inputs output).eng.levels = Node.compactedLevels n.eng.levels output from rfl,
        stack_compacted h.levels.len] at hm
      exact (hfresh m (by simpa using hm)).lt
    newSst := fun _ hs => absurd hs (by simp [Node.commitCompaction, FlushSection.newSst])
    pending := fun _ hs => absurd hs (by simp [Node.commitCompaction, FlushSection.pending])
    manifest := ⟨rfl, trivial⟩
    flushedLt := fun t ht => absurd ht (by simp [Node.commitCompaction, FlushSection.flushed])
    order := by
      obtain ⟨F, hF, hasc, -, hsm⟩ := h.order
      refine ⟨F, hF, hasc, ?_, hsm⟩
      have : (n.commitCompaction inputs output).hist.sources (n.commitCompaction inputs output).eng.levels = [] := by
        simp only [Hist.sources, Node.commitCompaction, level0_compacted h.levels.len, List.map_nil]
      rw [this]
      exact List.nil_sublist _ }

/-- The MANIFEST is renamed into place. -/
theorem SeqUp.manifestRename (h : SeqUp n) {after : AfterManifest} {m : Manifest}
    (hf : n.eng.flush = .manifest after m .rename) {f : FlushSection} (hn : f.newSst = none) (hp : f.pending = none)
    (hm : ∀ d, f.ManifestOk d n.eng.levels) (hfl : ∀ t ∈ f.flushed, ∀ g ∈ n.eng.generations, t < g) :
    SeqUp { n with disk := n.disk.manifestStage m .rename, eng.flush := f } := by
  obtain ⟨hmeq, htmp⟩ : m = Manifest.ofLevels n.eng.levels ∧ n.disk.manifestTmp = some ⟨some m, some m⟩ := by
    have := h.manifest
    rwa [hf] at this
  have hlev : (n.disk.manifestStage m .rename).manifestLevels = m.levels := by
    rw [Disk.manifestLevels, Disk.manifestStage_rename_manifest, htmp]
    rfl
  have hstack : stack m.levels = stack n.eng.levels := by rw [hmeq, stack_ofLevels h.levels.ordered]
  exact { h with
    settled := by
      right
      exact ⟨m, by rw [Disk.manifestStage_rename_manifest, htmp]⟩
    listed := by rw [hlev, hmeq]; exact h.levels.ofLevels
    listedLt := by rw [hlev, hstack]; exact h.live
    walsLt := by simpa using h.walsLt
    newSst := by
      intro sst hs
      rw [hn] at hs
      exact absurd hs (by simp)
    pending := by
      intro p hs
      rw [hp] at hs
      exact absurd hs (by simp)
    manifest := hm _
    wal := by rw [Disk.manifestStage_wals]; exact h.wal
    onDisk := by rw [Disk.manifestStage_wals]; exact h.onDisk
    flushedLt := hfl
    order := by
      obtain ⟨F, hF, hasc, hsl, -⟩ := h.order
      refine ⟨F, hF, hasc, hsl, ?_⟩
      have : n.hist.sources m.levels = n.hist.sources n.eng.levels := by
        rw [Hist.sources, Hist.sources, hmeq, ofLevels_getD h.levels.ordered]
      rw [hlev, this]
      exact hsl }

/-- The temporary MANIFEST changes. -/
theorem SeqUp.setTmp (h : SeqUp n) {d : Disk} {fl : FlushSection} (hd : d.manifest = n.disk.manifest)
    (hk : d.wals = n.disk.wals) (hn : fl.newSst = none) (hp : fl.pending = none) (hm : fl.ManifestOk d n.eng.levels)
    (hf : ∀ t ∈ fl.flushed, ∀ g ∈ n.eng.generations, t < g) : SeqUp { n with disk := d, eng.flush := fl } := by
  have hml := manifestLevels_congr hd
  exact {
    levels := h.levels
    live := h.live
    settled := by rw [hd]; exact h.settled
    listed := by rw [hml]; exact h.listed
    listedLt := by rw [hml]; exact h.listedLt
    walsLt := by rw [hk]; exact h.walsLt
    newSst := fun sst hs => absurd hs (by simp [hn])
    pending := fun p hs => absurd hs (by simp [hp])
    manifest := hm
    wal := by rw [hk]; exact h.wal
    onDisk := by rw [hk]; exact h.onDisk
    flushedLt := hf
    order := by rw [hml]; exact h.order }

/-- The log of a flushed generation is removed. -/
theorem SeqUp.removeWal (h : SeqUp n) {c : FlushCaller} {w : Nat} {todo : List Nat}
    (hf : n.eng.flush = .unlinkWals c (w :: todo)) :
    SeqUp { n with disk := n.disk.removeWal w, eng.flush := .unlinkWals c todo } := by
  have hfl := h.flushedLt
  rw [hf] at hfl
  have hmem : ∀ x, x ∈ (n.disk.removeWal w).wals.keys ↔ x ∈ n.disk.wals.keys ∧ x ≠ w := by
    intro x
    rw [Disk.keys_removeWal, List.mem_filter]
    simp
  exact { h with
    walsLt := fun x hx => h.walsLt x ((hmem x).1 hx).1
    newSst := fun sst hs => absurd hs (by simp [FlushSection.newSst])
    pending := fun p hs => absurd hs (by simp [FlushSection.pending])
    manifest := trivial
    wal := by
      have hw := h.wal
      change n.eng.wal.SeqOk (n.disk.removeWal w).wals.keys n.eng.nextSeq n.eng.generations
      cases hwal : n.eng.wal with
      | rotating c newSeq =>
        rw [hwal] at hw
        exact ⟨hw.1, fun x hx => hw.2 x ((hmem x).1 hx).1⟩
      | created c newSeq =>
        rw [hwal] at hw
        refine ⟨(hmem _).2 ⟨hw.1, ?_⟩, hw.2⟩
        have hlast : n.eng.generation ∈ n.eng.generations := by simp [Engine.generations]
        have h1 := hfl w List.mem_cons_self _ hlast
        have h2 := hw.2 _ hlast
        omega
      | _ => trivial
    onDisk := fun g hg => (hmem g).2 ⟨h.onDisk g hg, (hfl w List.mem_cons_self g hg).ne'⟩
    flushedLt := fun t ht => hfl t (List.mem_cons_of_mem _ ht) }

/-- Every step of the holder of `flush_lock` keeps the numbers in order. -/
theorem SeqUp.flushMove (h : SeqUp n) {io : Io} {r : Node Γ × Out} (hm : FlushMove n io r) : SeqUp r.1 := by
  cases hm with
  | nothing | buildFails | flushDone => exact h.flushEnd _ _
  | drained hf hi hne =>
    refine h.setFlush rfl rfl ⟨rfl, trivial⟩ ?_
    have := h.flushedLt
    rwa [hf] at this
  | unbuilt => exact h.burn.flushEnd _ _
  | @built c fl p rest sst file hf hi hb =>
    obtain ⟨hl, hs, hn⟩ := buildSst_meta hb
    refine h.burn.setNew (t := sst) rfl (h.fresh hl hs hn) ?_ trivial ?_
    · intro q hq
      change some p = some q at hq
      change n.eng.immutables.head? = some q
      rw [← hq, hi]
      rfl
    · have := h.flushedLt
      rwa [hf] at this
  | @buildStage c fl p sst file st st' hf hio hst =>
    have hnew := h.newSst sst (by rw [hf]; rfl)
    have hpend := h.pending p (by rw [hf]; rfl)
    have hfl := h.flushedLt
    rw [hf] at hnew hfl
    have hd : SeqUp { n with disk := n.disk.sstStage sst.name file st } :=
      h.setDisk (by simp) (manifestTmp_sstStage _ _ _ _) (by simp)
    refine hd.setNew (t := sst) rfl ?_ (fun q hq => by rw [← hq]; exact hpend) trivial hfl
    rwa [manifestLevels_congr (Disk.sstStage_manifest _ _ _ _)]
  | @buildRename c fl p sst file hf hio =>
    have hnew := h.newSst sst (by rw [hf]; rfl)
    have hpend := h.pending p (by rw [hf]; rfl)
    have hfl := h.flushedLt
    rw [hf] at hnew hfl
    have hd : SeqUp { n with disk := n.disk.sstStage sst.name file .rename } :=
      h.setDisk (by simp) (manifestTmp_sstStage _ _ _ _) (by simp)
    refine hd.setNew (t := sst) rfl ?_ (fun q hq => by rw [← hq]; exact hpend) trivial hfl
    rwa [manifestLevels_congr (Disk.sstStage_manifest _ _ _ _)]
  | commit hf hl => exact h.commitFlush hf
  | mergedNone => exact h.setFlush rfl rfl trivial (fun t ht => absurd ht (by simp [FlushSection.flushed]))
  | mergedUnbuilt => exact h.burn.compactEnd _
  | @merged inputs runs rs sst file hf hm hne hb =>
    obtain ⟨hl, hs, hn⟩ := buildSst_meta hb
    exact h.burn.setNew (t := sst) rfl (h.fresh hl hs hn) (fun q hq => absurd hq (by simp [FlushSection.pending])) trivial
      (fun t ht => absurd ht (by simp [FlushSection.flushed]))
  | readOpen => exact h.same ⟨rfl, rfl, rfl, rfl, rfl, rfl, rfl, rfl, rfl, rfl⟩ h.wal
  | readFails | compactDone => exact h.compactEnd _
  | read => exact h.setFlush rfl rfl trivial (fun t ht => absurd ht (by simp [FlushSection.flushed]))
  | mergeFails => exact (h.setDisk (d := n.disk.removeSstTmp _) rfl rfl rfl).compactEnd _
  | @mergeStage inputs sst file st st' hf hio hst =>
    have hnew := h.newSst sst (by rw [hf]; rfl)
    rw [hf] at hnew
    have hd : SeqUp { n with disk := n.disk.sstStage sst.name file st } :=
      h.setDisk (by simp) (manifestTmp_sstStage _ _ _ _) (by simp)
    refine hd.setNew (t := sst) rfl ?_ (fun q hq => absurd hq (by simp [FlushSection.pending])) trivial
      (fun t ht => absurd ht (by simp [FlushSection.flushed]))
    rwa [manifestLevels_congr (Disk.sstStage_manifest _ _ _ _)]
  | @mergeRename inputs sst file hf hio =>
    have hnew := h.newSst sst (by rw [hf]; rfl)
    rw [hf] at hnew
    have hd : SeqUp { n with disk := n.disk.sstStage sst.name file .rename } :=
      h.setDisk (by simp) (manifestTmp_sstStage _ _ _ _) (by simp)
    refine hd.setNew (t := sst) rfl ?_ (fun q hq => absurd hq (by simp [FlushSection.pending])) trivial
      (fun t ht => absurd ht (by simp [FlushSection.flushed]))
    rwa [manifestLevels_congr (Disk.sstStage_manifest _ _ _ _)]
  | install hf hl => exact h.commitCompaction hf
  | @manifestFailsFlush c ws m st k hf hio =>
    have hfree : SeqUp { n with disk := n.disk.removeManifestTmp, eng.flush := .free } :=
      h.setTmp rfl rfl rfl rfl trivial (fun t ht => absurd ht (by simp [FlushSection.flushed]))
    have hstale : SeqUp { n with disk := n.disk.removeManifestTmp, hist.stale := true, eng.flush := .free } := { hfree with }
    exact hstale.flushEnd _ c
  | manifestFailsCompact hf hio =>
    have hfree : SeqUp { n with disk := n.disk.removeManifestTmp, eng.flush := .free } :=
      h.setTmp rfl rfl rfl rfl trivial (fun t ht => absurd ht (by simp [FlushSection.flushed]))
    exact { hfree with }
  | @manifestStage after m st st' hf hio hst =>
    have hman := h.manifest
    have hfl := h.flushedLt
    rw [hf] at hman hfl
    refine h.setTmp (Disk.manifestStage_manifest_of_ne _ _ ?_) (by simp) rfl rfl ⟨hman.1, ?_⟩ (by cases after <;> exact hfl)
    · rintro rfl
      simp [Stage.next] at hst
    · rw [Disk.manifestStage_manifestTmp]
      exact hman.2.next hst
  | @manifestFlush c ws m hf hio =>
    have hfl := h.flushedLt
    rw [hf] at hfl
    exact { h.manifestRename hf (f := .unlinkWals c ws) rfl rfl (fun _ => trivial) hfl with }
  | @manifestCompact inputs m hf hio =>
    exact { h.manifestRename hf (f := .unlinkInputs inputs) rfl rfl (fun _ => trivial)
      (fun t ht => absurd ht (by simp [FlushSection.flushed])) with }
  | unlinkWal hf hio => exact h.removeWal hf
  | unlinkWalFails hf hio =>
    refine h.setFlush rfl rfl trivial (fun t ht => ?_)
    have := h.flushedLt t
    rw [hf] at this
    exact this (List.mem_cons_of_mem _ ht)
  | unlinkInput hf hio =>
    exact (h.setDisk (d := n.disk.removeSst _) rfl rfl rfl).setFlush rfl rfl trivial
      (fun t ht => absurd ht (by simp [FlushSection.flushed]))
  | unlinkInputFails =>
    exact h.setFlush rfl rfl trivial (fun t ht => absurd ht (by simp [FlushSection.flushed]))

theorem SeqUp.getMove (h : SeqUp n) {i : Nat} {io : Io} {r : Node Γ × Out} (hm : GetMove n i io r) : SeqUp r.1 := by
  cases hm <;> exact h.same ⟨rfl, rfl, rfl, rfl, rfl, rfl, rfl, rfl, rfl, rfl⟩ h.wal

theorem SeqUp.handover (h : SeqUp n) (k : Nat) : SeqUp (n.handover k) := by
  refine h.same ⟨rfl, rfl, rfl, rfl, rfl, ?_, ?_, ?_, rfl, rfl⟩ h.wal
  · simp [Node.handover]
  · simp [Node.handover, manifestTmp_appendWal]
  · simp [Node.handover]

end Up

/-! ## The directory alone -/

section Down

variable {Γ : Ctx} {d : Disk} {hh : Hist}

/-- What a running engine leaves behind when it ends. -/
theorem SeqUp.down {n : Node Γ} (h : SeqUp n) : SeqDown n.disk n.hist := by
  obtain ⟨F, hF, hasc, -, hsm⟩ := h.order
  have hlast : n.eng.generation ∈ n.eng.generations := by simp [Engine.generations]
  rw [Engine.generations, ← List.append_assoc, ← hF] at hasc
  obtain ⟨h1, -, h2⟩ := List.pairwise_append.1 hasc
  refine ⟨h.settled, h.listed, h1, ?_, ?_⟩
  · rw [hF]
    exact hsm.trans (List.sublist_append_left _ _)
  · intro f hf
    exact ⟨n.eng.generation, h.onDisk _ hlast, h2 f hf _ (List.mem_singleton_self _)⟩

/-- A MANIFEST that is settled survives a crash. -/
theorem Settled.crash {f : Option (Stored Manifest)} (h : Settled f) (κ : CrashKind) : f.map (Stored.crash κ) = f := by
  rcases h with rfl | ⟨m, rfl⟩
  · rfl
  · cases κ <;> rfl

/-- A crash keeps the numbers of a directory in order. -/
theorem SeqDown.crash (h : SeqDown d hh) (κ : CrashKind) : SeqDown (d.crash κ) hh := by
  have hm : (d.crash κ).manifest = d.manifest := h.settled.crash κ
  have hml := manifestLevels_congr hm
  refine ⟨by rw [hm]; exact h.settled, by rw [hml]; exact h.listed, h.asc, by rw [hml]; exact h.sources, ?_⟩
  rw [Disk.keys_crash]
  exact h.above

/-- The logs change and the MANIFEST does not. -/
theorem SeqDown.setWals {d' : Disk} (h : SeqDown d hh) (hm : d'.manifest = d.manifest)
    (ha : ∀ f ∈ hh.frozen, ∃ w ∈ d'.wals.keys, f < w) : SeqDown d' hh := by
  have hml := manifestLevels_congr hm
  exact ⟨by rw [hm]; exact h.settled, by rw [hml]; exact h.listed, h.asc, by rw [hml]; exact h.sources, ha⟩

/-- The maximum is above all it is taken of. -/
theorem le_foldl_max {l : List Nat} {a x : Nat} (h : x ∈ l ∨ x ≤ a) : x ≤ l.foldl max a := by
  induction l generalizing a with
  | nil => simpa using h
  | cons y l ih =>
    apply ih
    rcases h with h | h
    · rcases List.mem_cons.1 h with rfl | h
      · right
        exact Nat.le_max_right _ _
      · exact .inl h
    · right
      exact h.trans (Nat.le_max_left _ _)

/-- The fresh log is above every log there is. -/
theorem Recovered.lt_walSeq (r : Recovered) {w : Nat} (hw : w ∈ r.walSeqs) : w < r.walSeq :=
  Nat.lt_succ_of_le (le_foldl_max (.inl (List.mem_append_right _ hw)))

/-- The fresh log is above every table the MANIFEST lists. -/
theorem Recovered.seq_lt_walSeq (r : Recovered) {m : SstMeta} (hm : m ∈ stack r.levels) : m.seq < r.walSeq := by
  refine Nat.lt_succ_of_le (le_foldl_max (.inl (List.mem_append_left _ (List.mem_map.2 ⟨m, ?_, rfl⟩))))
  obtain ⟨l, hl, hml⟩ := mem_stack.1 hm
  exact List.mem_flatten.2 ⟨l, hl, hml⟩

/-- The MANIFEST that is loaded has the listed levels. -/
theorem loadManifest_levels {m : Manifest} (h : loadManifest d = .ok m) : m.levels = d.manifestLevels := by
  unfold loadManifest at h
  cases hd : d.manifest with
  | none =>
    simp only [hd, Except.ok.injEq] at h
    rw [Disk.manifestLevels, hd, ← h]
    rfl
  | some f =>
    cases hc : f.cur with
    | none => simp [hd, hc] at h
    | some m' =>
      cases ho : checkOrder 0 m'.levels with
      | error err => simp [hd, hc, ho, bind, Except.bind] at h
      | ok _ =>
        simp only [hd, hc, ho, bind, Except.bind, pure, Except.pure, Except.ok.injEq] at h
        rw [Disk.manifestLevels, hd, ← h]
        simp [hc]

/-- What `recover` reads of names and numbers. -/
theorem recover_names {r : Recovered} (h : recover Γ d = .ok r) :
    r.levels = d.manifestLevels ∧ r.walSeqs = d.wals.keys := by
  unfold recover at h
  cases hl : loadManifest d with
  | error err => simp [hl, bind, Except.bind] at h
  | ok m =>
    have hm : m.levels = d.manifestLevels := loadManifest_levels hl
    simp only [hl, bind, Except.bind] at h
    split at h
    · simp [throw, throwThe, MonadExceptOf.throw] at h
    · cases hr : replayAll Γ d.wals.toList MemTable.new with
      | error err => simp [hr] at h
      | ok mem =>
        simp only [hr, pure, Except.pure, Except.ok.injEq] at h
        rw [← h]
        exact ⟨hm, rfl⟩

/-- An append that fails part way leaves the MANIFEST. -/
theorem tear_manifest (seq : Nat) (buf frame : Bytes) (k : Nat) : (d.tear seq buf frame k).manifest = d.manifest := by
  unfold Disk.tear
  split <;> simp

theorem tear_keys (seq : Nat) (buf frame : Bytes) (k : Nat) : (d.tear seq buf frame k).wals.keys = d.wals.keys := by
  unfold Disk.tear
  split <;> simp

/-- The engine at the end of an open. -/
theorem SeqDown.up (h : SeqDown d hh) {r : Recovered} {todo : List Nat} (hs : (OpenStage.removing r todo).SeqOk d hh)
    (h' : Hist) (hf : h'.frozen = hh.frozen) (hsrc : h'.source = hh.source) (options : LsmOptions) (buf : Bytes) :
    SeqUp ⟨d, h', r.engine Γ options buf⟩ := by
  obtain ⟨hlev, hmem, hle, -, hfr⟩ := hs
  have hgs : (r.engine Γ options buf).generations = [r.walSeq] := rfl
  have hsources : h'.sources d.manifestLevels = hh.sources d.manifestLevels := by rw [Hist.sources, Hist.sources, hsrc]
  have hlt : ∀ m ∈ stack d.manifestLevels, m.seq < r.walSeq + 1 := by
    intro m hm
    rw [← hlev] at hm
    exact (r.seq_lt_walSeq hm).trans (Nat.lt_succ_self _)
  exact {
    levels := by
      change LevelsOk r.levels
      rw [hlev]
      exact h.listed
    live := by
      change ∀ m ∈ stack r.levels, m.seq < r.walSeq + 1
      rw [hlev]
      exact hlt
    settled := h.settled
    listed := h.listed
    listedLt := hlt
    walsLt := fun w hw => Nat.lt_succ_of_le (hle w hw)
    newSst := fun sst hs => absurd hs (by simp [Recovered.engine, FlushSection.newSst])
    pending := fun p hs => absurd hs (by simp [Recovered.engine, FlushSection.pending])
    manifest := trivial
    wal := trivial
    onDisk := by
      rw [hgs]
      intro g hg
      rw [List.mem_singleton.1 hg]
      exact hmem
    flushedLt := fun t ht => absurd ht (by simp [Recovered.engine, FlushSection.flushed])
    order := by
      refine ⟨hh.frozen, ?_, ?_, ?_, ?_⟩
      · simp [hf, Recovered.engine]
      · rw [hgs]
        refine List.pairwise_append.2 ⟨h.asc, List.pairwise_singleton _ _, fun a ha b hb => ?_⟩
        rw [List.mem_singleton.1 hb]
        exact hfr a ha
      · change (h'.sources r.levels).Sublist _
        rw [hlev, hsources]
        exact h.sources
      · rw [hsources]
        exact h.sources }

end Down

/-! ## Every run -/

section Run

variable {Γ : Ctx}

/-- A step of an open keeps the numbers in order. -/
theorem seqInv_openMove {s : Sys Γ} {o : Opening} {io : Io} {x : Sys Γ × Out} (hd : SeqDown s.disk s.hist)
    (hs : o.stage.SeqOk s.disk s.hist) (hm : OpenMove s o io x) : SeqInv x.1 := by
  cases hm with
  | loadFails | createFails | refused | syncFails | runtimeFails => exact hd
  | loaded hst hio hr => exact ⟨hd, recover_names hr⟩
  | @createdEmpty r hst hio he =>
    rw [hst] at hs
    obtain ⟨hlev, hws⟩ := hs
    have habove : ∀ w ∈ s.disk.wals.keys, w < r.walSeq := fun w hw => r.lt_walSeq (by rw [hws]; exact hw)
    have hkeys := s.disk.keys_createWal habove
    have hfr : ∀ f ∈ s.hist.frozen, f < r.walSeq := by
      intro f hf
      obtain ⟨w, hw, hlt⟩ := hd.above f hf
      exact hlt.trans (habove w hw)
    have hmem : r.walSeq ∈ (s.disk.createWal r.walSeq).wals.keys := by rw [hkeys]; simp
    refine ⟨hd.setWals rfl (fun f hf => ⟨_, hmem, hfr f hf⟩), hlev, hmem, ?_, fun w hw => r.lt_walSeq hw, hfr⟩
    intro w hw
    rw [hkeys, List.mem_append, List.mem_singleton] at hw
    rcases hw with hw | rfl
    · exact (habove w hw).le
    · exact Nat.le_refl _
  | @created r hst hio he =>
    rw [hst] at hs
    obtain ⟨hlev, hws⟩ := hs
    have habove : ∀ w ∈ s.disk.wals.keys, w < r.walSeq := fun w hw => r.lt_walSeq (by rw [hws]; exact hw)
    have hkeys := s.disk.keys_createWal habove
    have hfr : ∀ f ∈ s.hist.frozen, f < r.walSeq := by
      intro f hf
      obtain ⟨w, hw, hlt⟩ := hd.above f hf
      exact hlt.trans (habove w hw)
    have hmem : r.walSeq ∈ (s.disk.createWal r.walSeq).wals.keys := by rw [hkeys]; simp
    exact ⟨hd.setWals rfl (fun f hf => ⟨_, hmem, hfr f hf⟩), hlev, by rw [hkeys, hws], hfr⟩
  | append hst =>
    rw [hst] at hs
    exact ⟨hd, hs⟩
  | torn hst =>
    refine hd.setWals (tear_manifest _ _ _ _) (fun f hf => ?_)
    obtain ⟨w, hw, hlt⟩ := hd.above f hf
    exact ⟨w, (tear_keys _ _ _ _).symm ▸ hw, hlt⟩
  | @sync r hst hio =>
    rw [hst] at hs
    obtain ⟨hlev, hkeys, hfr⟩ := hs
    have hk : ((s.disk.appendWal r.walSeq o.buf).syncWal r.walSeq).wals.keys = s.disk.wals.keys := by simp
    have hmem : r.walSeq ∈ ((s.disk.appendWal r.walSeq o.buf).syncWal r.walSeq).wals.keys := by rw [hk, hkeys]; simp
    refine ⟨hd.setWals (by simp) (by rw [hk]; exact hd.above), ?_, hmem, ?_, fun w hw => r.lt_walSeq hw, hfr⟩
    · rw [hlev]
      exact (manifestLevels_congr (by simp)).symm
    · rw [hk, hkeys]
      intro w hw
      rcases List.mem_append.1 hw with hw | hw
      · exact (r.lt_walSeq hw).le
      · rw [List.mem_singleton.1 hw]
  | @remove r w todo hst hio =>
    rw [hst] at hs
    obtain ⟨hlev, hmem, hle, htodo, hfr⟩ := hs
    have hmem' : r.walSeq ∈ (s.disk.removeWal w).wals.keys := by
      rw [Disk.keys_removeWal, List.mem_filter]
      exact ⟨hmem, by simpa using (htodo w List.mem_cons_self).ne'⟩
    refine ⟨hd.setWals rfl (fun f hf => ⟨_, hmem', hfr f hf⟩), hlev, hmem', fun x hx => hle x ?_,
      fun x hx => htodo x (List.mem_cons_of_mem _ hx), hfr⟩
    rw [Disk.keys_removeWal] at hx
    exact (List.mem_filter.1 hx).1
  | removeFails hst hio =>
    rw [hst] at hs
    obtain ⟨hlev, hmem, hle, htodo, hfr⟩ := hs
    exact ⟨hd, hlev, hmem, hle, fun x hx => htodo x (List.mem_cons_of_mem _ hx), hfr⟩
  | up hst hio =>
    rw [hst] at hs
    exact hd.up hs (s.hist.reopen _ _ _) rfl rfl _ _

theorem seqInv_nodeMove {n : Node Γ} (h : SeqUp n) {a : Act} {x : Sys Γ × Out} (hm : NodeMove n a x) : SeqInv x.1 := by
  cases hm with
  | write hm => exact h.write hm
  | flush hw =>
    have hg : n.eng.generation = n.eng.walSeq := generation_of_not_swapped (by rw [hw]; rfl)
    exact h.same ⟨rfl, rfl, rfl, rfl, hg.symm, rfl, rfl, rfl, rfl, rfl⟩ trivial
  | wal hm => exact h.walMove hm
  | @flushEnter i since hf hi =>
    have hfl : SeqUp { n with eng.flush := .draining (.flush since) [] } :=
      h.setFlush rfl rfl trivial (fun t ht => absurd ht (by simp [FlushSection.flushed]))
    exact hfl.same ⟨rfl, rfl, rfl, rfl, rfl, rfl, rfl, rfl, rfl, rfl⟩ hfl.wal
  | workerEnter hf =>
    exact h.setFlush rfl rfl trivial (fun t ht => absurd ht (by simp [FlushSection.flushed]))
  | compactNothing => exact h.compactEnd (.ok ())
  | compactEnter hf he =>
    exact h.setFlush rfl rfl trivial (fun t ht => absurd ht (by simp [FlushSection.flushed]))
  | flushStep hm => exact h.flushMove hm
  | get => exact h.same ⟨rfl, rfl, rfl, rfl, rfl, rfl, rfl, rfl, rfl, rfl⟩ h.wal
  | getStep hm => exact h.getMove hm
  | handover => exact h.handover _
  | @drop io hw hf hq hg =>
    change SeqDown _ _
    have hd := h.down
    simp only [Node.drop]
    split
    · refine hd.setWals (by simp) ?_
      simpa using hd.above
    · exact hd

/-- Every step keeps the order of the numbers, whatever fails. -/
theorem seqInv_step {s s' : Sys Γ} {a : Act} {o : Out} (h : SeqInv s) (hs : step Γ s a = some (s', o)) : SeqInv s' := by
  have hm := step_cases hs
  have hdown : SeqDown s.disk s.hist := by
    unfold SeqInv at h
    cases hp : s.proc with
    | down => rwa [hp] at h
    | opening o => rw [hp] at h; exact h.1
    | up e =>
      rw [hp] at h
      exact h.down
  generalize hx : (s', o) = x at hm
  have hs' : s' = x.1 := by rw [← hx]
  rw [hs']
  cases hm with
  | crash => exact hdown.crash _
  | openDir hp => exact ⟨hdown, trivial⟩
  | openStep hp hm =>
    rw [SeqInv, hp] at h
    exact seqInv_openMove h.1 h.2 hm
  | @openHandover k o hp =>
    rw [SeqInv, hp] at h
    unfold Opening.handover
    split
    · rename_i r todo hst
      have hok := h.2
      rw [hst] at hok
      refine ⟨h.1.setWals (by simp) (by simpa using h.1.above), ?_⟩
      rw [hst]
      refine ⟨?_, by simpa using hok.2.1, hok.2.2⟩
      rw [hok.1]
      exact (manifestLevels_congr (by simp)).symm
    · rw [SeqInv, hp]
      exact h
  | node hp hm =>
    rw [SeqInv, hp] at h
    exact seqInv_nodeMove h hm

/-- An empty directory has its numbers in order. -/
theorem seqInv_init : SeqInv (Sys.init Γ) :=
  ⟨.inl rfl, levelsOk_nil, List.Pairwise.nil, List.nil_sublist _, fun f hf => absurd hf (by simp [Sys.init])⟩

/-- The numbers of every reachable state are in order. -/
theorem seqInv_of_steps {ok : Sys Γ → Act → Prop} {s : Sys Γ} (h : Transition.Steps (step Γ) ok (Sys.init Γ) s) : SeqInv s :=
  h.invariant seqInv_init (fun hi _ hs => seqInv_step hi hs)

end Run

end LsmEngine
