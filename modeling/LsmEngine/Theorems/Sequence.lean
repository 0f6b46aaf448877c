import LsmEngine.Lemmas.Reads
import LsmEngine.Library.Run
import LsmEngine.Script

/-!
# Sequence numbers order the data

In every state that any run reaches, with failures, crashes and reopens, the numbers of the tables and of the logs are in
order, and the order in which `get` asks the tables picks the record that a merge of them would keep.
-/

namespace LsmEngine

open Transition MergeAux

variable {Γ : Ctx}

/-- What the numbers of a running engine say. -/
structure SeqOrdered (s : Sys Γ) (e : Engine Γ) : Prop where
  /-- there are two levels at most -/
  levels : e.levels.length ≤ 2
  /-- level 0 is strictly ascending -/
  l0 : (e.levels[0]?.getD []).Pairwise (fun a b => a.seq < b.seq)
  /-- in the order in which the generations of its tables were frozen -/
  freezeOrder : (s.hist.sources e.levels).Sublist s.hist.frozen ∧ s.hist.frozen.Pairwise (· < ·)
  l1 : (e.levels[1]?.getD []).length ≤ 1
  below : ∀ a ∈ e.levels[1]?.getD [], ∀ b ∈ e.levels[0]?.getD [], a.seq < b.seq
  tables : (e.levels.flatten.map SstMeta.seq).Nodup ∧ ∀ m ∈ e.levels.flatten, m.seq < e.nextSeq
  logs : s.disk.wals.keys.Nodup ∧ ∀ w ∈ s.disk.wals.keys, w < e.nextSeq
  /-- the pending immutables and the active MemTable have distinct logs, in order of freeze, and all are on disk -/
  generations : e.generations.Pairwise (· < ·) ∧ ∀ g ∈ e.generations, g ∈ s.disk.wals.keys
  /-- a table that is being written, and so its temporary file, has a name that no table of the levels or of the MANIFEST has -/
  newTable : ∀ sst, e.flush.newSst = some sst →
    ∀ m ∈ e.levels.flatten ++ s.disk.manifestLevels.flatten, m.name ≠ sst.name
  /-- and so has the table that takes the next number -/
  nextTable : ∀ level, ∀ m ∈ e.levels.flatten ++ s.disk.manifestLevels.flatten, m.name ≠ ⟨level, e.nextSeq⟩
  /-- a log that is about to be created is not there -/
  newLog : ∀ c seq, e.wal = .rotating c seq → seq ∉ s.disk.wals.keys
  nextLog : e.nextSeq ∉ s.disk.wals.keys
  /-- the first record of a key on the way of a `get` is the one of the highest-seq table, which the merge keeps -/
  lookup : ∀ (R : SstMeta → List Record) (k : Key), (lookupOrder e.levels).findSome? (fun m => SortedMap.find k (R m)) =
    (newest k (e.levels.flatten.map (fun m => ⟨m.seq, R m⟩))).map Prod.snd

/-- The stack has the tables of all levels. -/
theorem mem_flatten_iff_stack {levels : List (List SstMeta)} {m : SstMeta} : m ∈ levels.flatten ↔ m ∈ stack levels :=
  (stack_perm levels).symm.mem_iff

/-- Tables asked from the highest seq down: the first record of a key is the newest. -/
theorem findSome_reverse_eq_newest {l : List SstMeta} (hs : AscendingBySeq l) (R : SstMeta → List Record) (k : Key) :
    l.reverse.findSome? (fun m => SortedMap.find k (R m)) = (newest k (l.map (fun m => ⟨m.seq, R m⟩))).map Prod.snd := by
  induction l using List.reverseRecOn with
  | nil => rfl
  | append_singleton l m ih =>
    obtain ⟨hs1, -, hs2⟩ := List.pairwise_append.1 hs
    rw [List.reverse_append, List.reverse_singleton, List.singleton_append, List.findSome?_cons, List.map_append,
      List.map_singleton, newest_snoc]
    cases hf : SortedMap.find k (R m) with
    | none => rw [newestStep_none hf, ih hs1]
    | some e =>
      have hall : (newest k (l.map (fun m => (⟨m.seq, R m⟩ : Run)))).all (fun b => decide (m.seq > b.1)) = true := by
        cases hn : newest k (l.map (fun m => (⟨m.seq, R m⟩ : Run))) with
        | none => rfl
        | some b =>
          have hnd : ((l.map (fun m => (⟨m.seq, R m⟩ : Run))).map Run.seq).Nodup := by
            rw [List.map_map, List.nodup_iff_pairwise_ne, List.pairwise_map]
            exact hs1.imp (fun h => h.ne)
          obtain ⟨r, hr, hrs, -⟩ := (newest_iff hnd (s := b.1) (e := b.2)).1 hn
          obtain ⟨x, hx, rfl⟩ := List.mem_map.1 hr
          have := hs2 x hx m (by simp)
          simp only [Option.all_some, decide_eq_true_eq]
          simp only at hrs
          omega
      rw [newestStep_some hf, if_pos hall]
      rfl

/-- The order of lookups and the order of seqs agree, whatever order the levels are listed in. -/
theorem LevelsOk.lookup {levels : List (List SstMeta)} (h : LevelsOk levels) (R : SstMeta → List Record) (k : Key) :
    (lookupOrder levels).findSome? (fun m => SortedMap.find k (R m)) =
      (newest k (levels.flatten.map (fun m => ⟨m.seq, R m⟩))).map Prod.snd := by
  have hnd : (((stack levels).map (fun m => (⟨m.seq, R m⟩ : Run))).map Run.seq).Nodup := by
    rw [List.map_map, List.nodup_iff_pairwise_ne, List.pairwise_map]
    exact h.asc.imp (fun h => h.ne)
  rw [lookupOrder_eq, findSome_reverse_eq_newest h.asc, newest_perm hnd ((stack_perm levels).map _)]

/-- No two tables have one seq. -/
theorem LevelsOk.seqs_nodup {levels : List (List SstMeta)} (h : LevelsOk levels) : (levels.flatten.map SstMeta.seq).Nodup := by
  refine ((stack_perm levels).map SstMeta.seq).nodup_iff.1 ?_
  rw [List.nodup_iff_pairwise_ne, List.pairwise_map]
  exact h.asc.imp (fun h => h.ne)

/-- Level 0 stands on level 1. -/
theorem LevelsOk.split {levels : List (List SstMeta)} (h : LevelsOk levels) :
    stack levels = levels[1]?.getD [] ++ levels[0]?.getD [] := by
  match levels, h.len with
  | [], _ => rfl
  | [l0], _ => simp [stack]
  | [l0, l1], _ => simp [stack]

/-- A table has its seq in its name. -/
theorem LevelsOk.name_seq {levels : List (List SstMeta)} (h : LevelsOk levels) {m : SstMeta} (hm : m ∈ stack levels) :
    m.name.seq = m.seq := by
  obtain ⟨l, hl, hml⟩ := mem_stack.1 hm
  obtain ⟨i, hi⟩ := List.mem_iff_getElem?.1 hl
  rw [(h.named i l hi m hml).2]

/-- The numbers of a running engine are in order. -/
theorem SeqUp.ordered {n : Node Γ} (h : SeqUp n) : SeqOrdered n.toSys n.eng := by
  obtain ⟨F, hfr, hasc, hsrc, -⟩ := h.order
  have hsplit := h.levels.asc
  rw [h.levels.split] at hsplit
  obtain ⟨-, hl0, hbelow⟩ := List.pairwise_append.1 hsplit
  have hmem : ∀ {m : SstMeta}, m ∈ n.eng.levels.flatten ++ n.disk.manifestLevels.flatten →
      m ∈ stack n.eng.levels ∨ m ∈ stack n.disk.manifestLevels := by
    intro m hm
    simpa only [List.mem_append, mem_flatten_iff_stack] using hm
  refine ⟨h.levels.len, hl0, ⟨?_, ?_⟩, h.levels.single, hbelow, ⟨h.levels.seqs_nodup, ?_⟩, ⟨n.disk.wals.keys_nodup, h.walsLt⟩,
    ⟨(List.pairwise_append.1 hasc).2.1, h.onDisk⟩, ?_, ?_, ?_, ?_, h.levels.lookup⟩
  · change (n.hist.sources n.eng.levels).Sublist n.hist.frozen
    rw [hfr]
    exact hsrc.trans (List.sublist_append_left _ _)
  · change n.hist.frozen.Pairwise (· < ·)
    rw [hfr]
    rw [Engine.generations, ← List.append_assoc] at hasc
    exact (List.pairwise_append.1 hasc).1
  · intro m hm
    exact h.live m (mem_flatten_iff_stack.1 hm)
  · intro sst hsst m hm
    rcases hmem hm with hm | hm
    · exact (h.newSst sst hsst).name_ne_live h.levels m hm
    · exact (h.newSst sst hsst).name_ne_listed h.listed m hm
  · intro level m hm heq
    have hseq : m.name.seq = n.eng.nextSeq := by rw [heq]
    rcases hmem hm with hm | hm
    · have := h.live m hm
      rw [← h.levels.name_seq hm] at this
      omega
    · have := h.listedLt m hm
      rw [← h.listed.name_seq hm] at this
      omega
  · intro c seq hw hin
    have hwal := h.wal
    rw [show n.eng.wal = .rotating c seq from hw] at hwal
    exact Nat.lt_irrefl _ (hwal.2 seq hin)
  · intro hin
    exact Nat.lt_irrefl _ (h.walsLt _ hin)

/-- In every state a run reaches, whatever fails, crashes and is opened again, the numbers are in order: those of a running
engine, those the MANIFEST lists, and the number an open takes for its fresh log. They are natural numbers here and `u64`s in the source: the
two agree as long as the next number is below `2 ^ 64`, and from an empty directory a run gets there by steps of one. -/
theorem sequence_numbers_order {s : Sys Γ} (h : Steps (step Γ) (fun _ _ => True) (Sys.init Γ) s) :
    (∀ e, s.proc = .up e → SeqOrdered s e) ∧ LevelsOk s.disk.manifestLevels ∧
      ∀ o r, s.proc = .opening o → o.stage = .creating r → r.walSeq ∉ s.disk.wals.keys := by
  have hinv := seqInv_of_steps h
  unfold SeqInv at hinv
  cases hp : s.proc with
  | down =>
    simp only [hp] at hinv
    exact ⟨fun e he => by simp at he, hinv.listed, fun o r ho => by simp at ho⟩
  | opening o =>
    simp only [hp] at hinv
    refine ⟨fun e he => by simp at he, hinv.1.listed, ?_⟩
    intro o' r ho hst hin
    obtain rfl := Proc.opening.inj ho
    have hseq := hinv.2
    rw [hst] at hseq
    rw [← hseq.2] at hin
    exact Nat.lt_irrefl _ (r.lt_walSeq hin)
  | up e =>
    simp only [hp] at hinv
    refine ⟨?_, hinv.listed, fun o r ho => by simp at ho⟩
    intro e' he
    obtain rfl := Proc.up.inj he
    have hsys : s = Node.toSys ⟨s.disk, s.hist, e⟩ := by
      obtain ⟨d, hh, p⟩ := s
      simp only at hp
      rw [hp]
      rfl
    rw [hsys]
    exact hinv.ordered

/-- Two tables in level 0 over one in level 1, and two MemTables that wait: a table was compacted and one flushed, the process was killed
and the directory opened again, a third write was flushed, and the flush passes over the last two failed. -/
theorem sequence_numbers_order_flushed :
    ∃ (s : Sys Ctx.concrete) (e : Engine Ctx.concrete), s.proc = .up e ∧ e.levels.map List.length = [2, 1] ∧
      e.immutables.length = 2 ∧ s.disk.wals.keys.length = 3 ∧ SeqOrdered s e := by
  obtain ⟨s, e, hrun, hproc, hp⟩ := exists_up_of_play (fun _ _ => True) (Sys.init Ctx.concrete)
    (Script.openDir ⟨0, false, 0⟩ 0 0 ++ Script.put [1] [7] ++ Script.flush ++ Script.compact 1 ++ Script.put [2] [7] ++ Script.flush ++
      [.crash .kill] ++ Script.openDir ⟨0, false, 0⟩ 0 1 ++ Script.put [3] [7] ++ Script.flush ++
      Script.put [4] [7] ++ Script.flushStart ++ [.flushEnter 0, .flushStep .ok, .flushStep (.fail 0)] ++
      Script.put [5] [7] ++ Script.flushStart ++ [.flushEnter 0, .flushStep .ok, .flushStep (.fail 0)])
    (fun s e => decide (e.levels.map List.length = [2, 1] ∧ e.immutables.length = 2 ∧ s.disk.wals.keys.length = 3)) (by decide +kernel)
  obtain ⟨hlevels, himms, hwals⟩ := of_decide_eq_true hp
  exact ⟨s, e, hproc, hlevels, himms, hwals, (sequence_numbers_order hrun).1 e hproc⟩

end LsmEngine
