import Mathlib.Data.List.TakeWhile
import LsmEngine.SsTable
import LsmEngine.Lemmas.Wal

/-!
# What a table reads back

`build_reads_back`: the builder accepts records within the caps in strictly ascending order, and the table it writes opens,
lists the records, and answers a lookup with the record of the key. The data section is blocks of records one after another;
`BuilderInv` says which blocks, and how the index points to them.
-/

namespace LsmEngine

open Overlay Segment

namespace SsTableAux

/-- The bytes of a record in a data block. -/
def encRecord (r : Record) : Bytes :=
  leBytes 2 r.1.length ++ ([if r.2.2 then flagDeleted else 0] ++ (leBytes 4 r.2.1.length ++ (r.1 ++ r.2.1)))

/-- The bytes of records one after another. -/
def encRecords (rs : List Record) : Bytes := rs.flatMap encRecord

/-- A record is as long as its header, key and value. -/
@[simp] theorem encRecord_length (r : Record) : (encRecord r).length = recordLen r.1.length r.2.1.length := by
  simp [encRecord, recordLen, recordHeaderLen]
  omega

/-- No record is empty. -/
theorem encRecord_length_pos (r : Record) : 0 < (encRecord r).length := by
  simp [recordLen, recordHeaderLen]

@[simp] theorem encRecords_nil : encRecords [] = [] := rfl

@[simp] theorem encRecords_cons (r : Record) (rs : List Record) : encRecords (r :: rs) = encRecord r ++ encRecords rs := rfl

/-- Records are encoded one after another. -/
@[simp] theorem encRecords_append (rs ss : List Record) : encRecords (rs ++ ss) = encRecords rs ++ encRecords ss := by
  simp [encRecords]

/-- Only no records encode to no bytes. -/
theorem encRecords_eq_nil_iff (rs : List Record) : encRecords rs = [] ↔ rs = [] := by
  constructor
  · intro h
    cases rs with
    | nil => rfl
    | cons r rs =>
      have := congrArg List.length h
      have hp := encRecord_length_pos r
      rw [encRecords_cons, List.length_append, List.length_nil] at this
      omega
  · rintro rfl
    rfl

/-- There are no more records than bytes. -/
theorem length_le_encRecords (rs : List Record) : rs.length ≤ (encRecords rs).length := by
  induction rs with
  | nil => simp
  | cons r rs ih =>
    have := encRecord_length_pos r
    rw [encRecords_cons, List.length_append, List.length_cons]
    omega

/-- A record within the caps is written as its encoding. -/
theorem putRecord_eq (buf : Bytes) {r : Record} (hk : r.1.length ≤ maxKeyLen) (hv : r.2.1.length ≤ maxValueLen) :
    putRecord buf r.1 r.2.1 r.2.2 = .ok (buf ++ encRecord r) := by
  unfold putRecord
  rw [if_neg (by omega), if_neg (by omega)]
  simp [putU16, putU32, encRecord, List.append_assoc]

/-- A record is read back where it stands. -/
theorem readRecord_of_at {bytes : Bytes} {o : Nat} {r : Record} (hk : r.1.length ≤ maxKeyLen) (hv : r.2.1.length ≤ maxValueLen)
    (h : At bytes o (encRecord r)) : readRecord bytes o = .ok (r.1, r.2.1, r.2.2, (encRecord r).length) := by
  obtain ⟨k, v, d⟩ := r
  simp only at hk hv
  have hle := h.le
  rw [encRecord_length] at hle ⊢
  dsimp only at hle ⊢
  unfold encRecord at h
  have hflags := h.right
  have hvalLen := hflags.right
  have hkey := hvalLen.right
  simp only [leBytes_length, List.length_singleton] at hflags hvalLen hkey
  simp only [maxKeyLen] at hk
  simp only [maxValueLen] at hv
  have hkl : readU16 bytes o = .ok k.length := readU16_ok_iff.2 ⟨by omega, h.left⟩
  have hvl : readU32 bytes (o + 3) = .ok v.length := readU32_ok_iff.2 ⟨by omega, hvalLen.left⟩
  have hfl : bytes.getD (o + 2) 0 = if d then flagDeleted else 0 := hflags.left.getD 0
  have hkb : (bytes.drop (o + recordHeaderLen)).take k.length = k := hkey.left.slice
  have hvb : (bytes.drop (o + recordHeaderLen + k.length)).take v.length = v := hkey.right.slice
  unfold readRecord
  rw [if_neg (by simp only [recordLen] at hle; omega)]
  simp only [bind, Except.bind, pure, Except.pure]
  rw [hkl, hvl, hfl]
  simp only []
  rw [if_neg (by omega), hkb, hvb]
  cases d <;> simp [flagDeleted]

/-- A list of records is read back from the bytes of its records, wherever they start. -/
theorem readRecords_eq (pre : Bytes) {rs : List Record} (hc : Capped rs) (fuel : Nat) (hf : rs.length ≤ fuel) :
    SsTableReader.readRecords (pre ++ encRecords rs) fuel pre.length = .ok rs := by
  induction rs generalizing pre fuel with
  | nil =>
    cases fuel with
    | zero => rfl
    | succ fuel => simp [SsTableReader.readRecords]
  | cons r rs ih =>
    cases fuel with
    | zero => simp at hf
    | succ fuel =>
      obtain ⟨hk, hv⟩ := hc r List.mem_cons_self
      have hp := encRecord_length_pos r
      have hrest := ih (pre ++ encRecord r) (fun x hx => hc x (List.mem_cons_of_mem _ hx)) fuel (by simpa using hf)
      rw [List.length_append, List.append_assoc] at hrest
      rw [SsTableReader.readRecords, if_pos (by rw [encRecords_cons]; simp only [List.length_append]; omega),
        encRecords_cons, readRecord_of_at hk hv (at_middle pre _ _)]
      simp only [bind, Except.bind, pure, Except.pure]
      rw [hrest]

/-- What a lookup answers for a record. -/
def lookupValue (r : Value × Bool) : LookupValue := if r.2 then .deleted else .present r.1

/-- The scan of a block of ascending records answers with the record of the key. -/
theorem scanBlock_eq (pre : Bytes) {rs : List Record} (hc : Capped rs) (hs : Sorted rs) (key : Key) (fuel : Nat)
    (hf : rs.length ≤ fuel) :
    SsTableReader.scanBlock (pre ++ encRecords rs) key fuel pre.length =
      .ok ((SortedMap.find key rs).map lookupValue) := by
  induction rs generalizing pre fuel with
  | nil =>
    cases fuel with
    | zero => rfl
    | succ fuel => simp [SsTableReader.scanBlock, SortedMap.find]
  | cons r rs ih =>
    cases fuel with
    | zero => simp at hf
    | succ fuel =>
      obtain ⟨hk, hv⟩ := hc r List.mem_cons_self
      obtain ⟨hlt, hs'⟩ := List.pairwise_cons.1 hs
      have hp := encRecord_length_pos r
      have hrest := ih (pre ++ encRecord r) (fun x hx => hc x (List.mem_cons_of_mem _ hx)) hs' fuel (by simpa using hf)
      rw [List.length_append, List.append_assoc] at hrest
      rw [SsTableReader.scanBlock, if_pos (by rw [encRecords_cons]; simp only [List.length_append]; omega),
        encRecords_cons, readRecord_of_at hk hv (at_middle pre _ _)]
      simp only [bind, Except.bind, pure, Except.pure]
      by_cases heq : r.1 = key
      · simp [heq, SortedMap.find, lookupValue]
      · rw [if_neg heq]
        by_cases hgt : key < r.1
        · -- every later key is greater still
          rw [if_pos hgt, SortedMap.find_eq_none.2]
          · rfl
          · intro b hb
            rcases List.mem_cons.1 hb with rfl | hb
            · exact heq
            · exact (hgt.trans (hlt b hb)).ne'
        · rw [if_neg hgt, hrest, SortedMap.find, if_neg heq]

/-! ## Blocks and their index -/

/-- The index of blocks laid one after another from an offset. -/
def indexOf (offset : Nat) : List (List Record) → List IndexEntry
  | [] => []
  | blk :: blks =>
    ⟨(blk.head?.map Prod.fst).getD [], offset, (encRecords blk).length⟩ ::
      indexOf (offset + (encRecords blk).length) blks

/-- The index of blocks after others. -/
theorem indexOf_append (offset : Nat) (as bs : List (List Record)) :
    indexOf offset (as ++ bs) = indexOf offset as ++ indexOf (offset + (encRecords as.flatten).length) bs := by
  induction as generalizing offset with
  | nil => simp [indexOf]
  | cons a as ih => simp [indexOf, ih, Nat.add_assoc]

/-- The index has an entry for each block. -/
@[simp] theorem indexOf_length (offset : Nat) (bs : List (List Record)) : (indexOf offset bs).length = bs.length := by
  induction bs generalizing offset with
  | nil => rfl
  | cons b bs ih => simp [indexOf, ih]

/-- The first key of a block is the key of one of its records. -/
theorem indexOf_capped {offset : Nat} {bs : List (List Record)} (hne : ∀ b ∈ bs, b ≠ []) (hc : Capped bs.flatten)
    {e : IndexEntry} (he : e ∈ indexOf offset bs) : e.firstKey.length ≤ maxKeyLen := by
  induction bs generalizing offset with
  | nil => simp [indexOf] at he
  | cons b bs ih =>
    rcases List.mem_cons.1 he with rfl | he
    · cases b with
      | nil => exact absurd rfl (hne [] List.mem_cons_self)
      | cons r b => exact (hc r (by simp)).1
    · refine ih (fun x hx => hne x (List.mem_cons_of_mem _ hx)) (fun r hr => hc r ?_) he
      rw [List.flatten_cons]
      exact List.mem_append_right _ hr

/-- Whether a block starts at or before a key. -/
def startsBy (key : Key) (blk : List Record) : Bool := decide ((blk.head?.map Prod.fst).getD [] ≤ key)

/-- The entries up to the key are those of the blocks that start by it. -/
theorem takeWhile_indexOf_length (key : Key) (offset : Nat) (bs : List (List Record)) :
    ((indexOf offset bs).takeWhile (fun e => decide (e.firstKey ≤ key))).length =
      (bs.takeWhile (startsBy key)).length := by
  induction bs generalizing offset with
  | nil => rfl
  | cons b bs ih =>
    have hb : startsBy key b = decide ((b.head?.map Prod.fst).getD [] ≤ key) := rfl
    simp only [indexOf, List.takeWhile_cons]
    rw [← hb]
    cases startsBy key b
    · rfl
    · simp [ih]

/-- In ascending blocks, every key from a block that starts after `key` on is greater than `key`. -/
theorem gt_of_not_startsBy {key : Key} {blk : List Record} {post : List (List Record)} (hne : blk ≠ [])
    (hs : Sorted (blk :: post).flatten) (h : startsBy key blk = false) : ∀ r ∈ (blk :: post).flatten, key < r.1 := by
  cases blk with
  | nil => exact absurd rfl hne
  | cons r rs =>
    have h : key < r.1 := not_le.1 (of_decide_eq_false h)
    intro x hx
    rw [List.flatten_cons, List.cons_append] at hs hx
    rcases List.mem_cons.1 hx with rfl | hx
    · exact h
    · exact h.trans ((List.pairwise_cons.1 hs).1 x hx)

/-- A key that the first records have not is looked up in the others. -/
theorem find_append_of_not_mem {key : Key} {as bs : List Record} (h : ∀ r ∈ as, r.1 ≠ key) :
    SortedMap.find key (as ++ bs) = SortedMap.find key bs := by
  induction as with
  | nil => rfl
  | cons a as ih =>
    rw [List.cons_append, SortedMap.find, if_neg (h a List.mem_cons_self),
      ih (fun r hr => h r (List.mem_cons_of_mem _ hr))]

/-- A key that the last records have not is looked up in the others. -/
theorem find_append_of_not_mem_right {key : Key} {as bs : List Record} (h : ∀ r ∈ bs, r.1 ≠ key) :
    SortedMap.find key (as ++ bs) = SortedMap.find key as := by
  induction as with
  | nil => exact SortedMap.find_eq_none.2 h
  | cons a as ih => simp [SortedMap.find, ih]

/-- The blocks from the first one on that starts after a key do not hold it. -/
theorem ne_of_mem_dropWhile {blocks : List (List Record)} (hne : ∀ b ∈ blocks, b ≠ []) (hs : Sorted blocks.flatten) (key : Key) :
    ∀ r ∈ (blocks.dropWhile (startsBy key)).flatten, r.1 ≠ key := by
  cases hd : blocks.dropWhile (startsBy key) with
  | nil => simp
  | cons blk post =>
    have hsplit : blocks = blocks.takeWhile (startsBy key) ++ (blk :: post) := by
      rw [← hd, List.takeWhile_append_dropWhile]
    have hblk : startsBy key blk = false := by
      have h1 := List.head_dropWhile_not (startsBy key) (l := blocks) (by rw [hd]; simp)
      simpa [hd] using h1
    have hmem : blk ∈ blocks := by
      rw [hsplit]
      simp
    have hs' : Sorted (blk :: post).flatten := by
      rw [hsplit, List.flatten_append] at hs
      exact (List.pairwise_append.1 hs).2.1
    intro r hr
    exact (gt_of_not_startsBy (hne blk hmem) hs' hblk r hr).ne'

/-- The blocks before one that starts by a key do not hold it. -/
theorem ne_of_mem_before {key : Key} {pre blk rest : List Record} (hs : Sorted (pre ++ (blk ++ rest))) (hne : blk ≠ [])
    (hstart : startsBy key blk = true) : ∀ r ∈ pre, r.1 ≠ key := by
  intro r hr
  cases blk with
  | nil => exact absurd rfl hne
  | cons b bs =>
    have hlt := (List.pairwise_append.1 hs).2.2 r hr b (by simp)
    have hle : b.1 ≤ key := of_decide_eq_true hstart
    exact (hlt.trans_le hle).ne

/-- The search of the index finds the only block that can hold the key. -/
theorem locateBlock_indexOf {blocks : List (List Record)} (hne : ∀ b ∈ blocks, b ≠ []) (hs : Sorted blocks.flatten) (key : Key) :
    (locateBlock (indexOf 0 blocks) key = none ∧ SortedMap.find key blocks.flatten = none) ∨
      ∃ pre blk post, blocks = pre ++ blk :: post ∧ locateBlock (indexOf 0 blocks) key = some pre.length ∧
        SortedMap.find key blocks.flatten = SortedMap.find key blk := by
  have hafter := ne_of_mem_dropWhile hne hs key
  have hsplit := (List.takeWhile_append_dropWhile (p := startsBy key) (l := blocks)).symm
  have hloc : locateBlock (indexOf 0 blocks) key = if (blocks.takeWhile (startsBy key)).length = 0 then none
      else some ((blocks.takeWhile (startsBy key)).length - 1) := by
    simp only [locateBlock, partitionPoint, takeWhile_indexOf_length]
  rcases List.eq_nil_or_concat (blocks.takeWhile (startsBy key)) with hnil | ⟨pre, blk, hsnoc⟩
  · left
    refine ⟨by rw [hloc, hnil]; rfl, ?_⟩
    rw [hsplit, hnil, List.nil_append, SortedMap.find_eq_none.2 hafter]
  · right
    rw [List.concat_eq_append] at hsnoc
    have hstart : startsBy key blk = true :=
      List.mem_takeWhile_imp (l := blocks) (by rw [hsnoc]; simp)
    have hblk : blk ≠ [] := hne blk (by rw [hsplit, hsnoc]; simp)
    rw [hsnoc, List.append_assoc, List.singleton_append] at hsplit
    have hflat : blocks.flatten = pre.flatten ++ (blk ++ (blocks.dropWhile (startsBy key)).flatten) := by
      rw [← List.flatten_cons, ← List.flatten_append, ← hsplit]
    have hbefore : ∀ r ∈ pre.flatten, r.1 ≠ key := ne_of_mem_before (by rw [← hflat]; exact hs) hblk hstart
    refine ⟨pre, blk, _, hsplit, by rw [hloc, hsnoc]; simp, ?_⟩
    rw [hflat, find_append_of_not_mem hbefore, find_append_of_not_mem_right hafter]

/-- The index entry of a block. -/
theorem getElem?_indexOf (pre : List (List Record)) (blk : List Record) (post : List (List Record)) :
    (indexOf 0 (pre ++ blk :: post))[pre.length]? =
      some ⟨(blk.head?.map Prod.fst).getD [], (encRecords pre.flatten).length, (encRecords blk).length⟩ := by
  rw [indexOf_append, List.getElem?_append_right (by simp)]
  simp [indexOf]

/-- What a file of blocks answers: the lookup of the key among all the records. -/
theorem get_blocks {Γ : Ctx} (blocks : List (List Record)) (hne : ∀ b ∈ blocks, b ≠ []) (hs : Sorted blocks.flatten)
    (hc : Capped blocks.flatten) (bloom : Option BloomBlock) (filter : Option Γ.Filter)
    (hb : ∀ fl, filter = some fl → ∀ r ∈ blocks.flatten, Γ.contains fl r.1 = true) (key : Key) :
    SsTableReader.get (Γ := Γ) ⟨⟨encRecords blocks.flatten, indexOf 0 blocks, bloom⟩, filter⟩ key =
      .ok ((SortedMap.find key blocks.flatten).map lookupValue) := by
  unfold SsTableReader.get
  split_ifs with hprobe
  · -- a negative probe: no record has the key
    simp only [SsTableReader.bloomProbe, Option.map_eq_some_iff] at hprobe
    obtain ⟨fl, hfl, hcont⟩ := hprobe
    rw [SortedMap.find_eq_none.2]
    · rfl
    · intro r hr hk
      have := hb fl hfl r hr
      rw [hk, hcont] at this
      exact Bool.false_ne_true this
  · rcases locateBlock_indexOf hne hs key with ⟨hloc, hfind⟩ | ⟨pre, blk, post, hsplit, hloc, hfind⟩
    · simp only [hloc, hfind]
      rfl
    · have hent := getElem?_indexOf pre blk post
      have hat : At (encRecords blocks.flatten) (encRecords pre.flatten).length (encRecords blk) :=
        ⟨encRecords pre.flatten, encRecords post.flatten, by rw [hsplit]; simp, rfl⟩
      have hflat : blocks.flatten = pre.flatten ++ (blk ++ post.flatten) := by rw [hsplit]; simp
      have hcblk : Capped blk := fun r hr => hc r (by rw [hflat]; simp [hr])
      have hsblk : Sorted blk := by
        rw [hflat] at hs
        exact (List.pairwise_append.1 (List.pairwise_append.1 hs).2.1).1
      have hscan := scanBlock_eq [] hcblk hsblk key (encRecords blk).length (length_le_encRecords blk)
      rw [List.nil_append, List.length_nil] at hscan
      rw [← hsplit] at hent
      simp only [hloc, hent, SsTableReader.readBlockAt, hat.slice]
      rw [if_neg, hscan, hfind]
      have := hat.le
      simp only [SstFile.fileLen]
      omega

/-! ## The builder -/

/-- A record does not fit the active block. -/
def Splits (cur : List Record) (r : Record) : Prop :=
  cur ≠ [] ∧ targetBlockSize < (encRecords cur).length + (encRecord r).length

instance (cur : List Record) (r : Record) : Decidable (Splits cur r) := inferInstanceAs (Decidable (_ ∧ _))

/-- The finalized blocks and the active one after the split decision for a record. -/
def split (blocks : List (List Record)) (cur : List Record) (r : Record) : List (List Record) × List Record :=
  if Splits cur r then (blocks ++ [cur], []) else (blocks, cur)

/-- The finalized blocks and the active one after a record. -/
def pack (p : List (List Record) × List Record) (r : Record) : List (List Record) × List Record :=
  ((split p.1 p.2 r).1, (split p.1 p.2 r).2 ++ [r])

/-- The blocks once the active one is finalized. -/
def closed (blocks : List (List Record)) (cur : List Record) : List (List Record) := if cur = [] then blocks else blocks ++ [cur]

/-- The blocks a builder has filled: `blocks` finalized, `cur` active, together the records accepted so far. -/
structure BuilderInv (Γ : Ctx) (n : Nat) (rs : List Record) (b : SsTableBuilder Γ) (blocks : List (List Record))
    (cur : List Record) : Prop where
  all : blocks.flatten ++ cur = rs
  blocks_ne : ∀ blk ∈ blocks, blk ≠ []
  data : b.data = encRecords blocks.flatten
  current : b.current = encRecords cur
  currentFirstKey : b.currentFirstKey = cur.head?.map Prod.fst
  index : b.index = indexOf 0 blocks
  firstKey : b.firstKey = rs.head?.map Prod.fst
  lastKey : b.lastKey = rs.getLast?.map Prod.fst
  expectedItems : b.expectedItems = n
  bloom : b.bloom = if 0 < n ∧ rs ≠ [] then some ((rs.map Prod.fst).foldl Γ.insert (Γ.newBloom n)) else none

/-- A new builder holds nothing. -/
theorem builderInv_new (Γ : Ctx) (n : Nat) : BuilderInv Γ n [] (SsTableBuilder.withExpectedItems Γ n) [] [] where
  all := rfl
  blocks_ne := by simp
  data := rfl
  current := rfl
  currentFirstKey := rfl
  index := rfl
  firstKey := rfl
  lastKey := rfl
  expectedItems := rfl
  bloom := by simp [SsTableBuilder.withExpectedItems]

/-- Finalizing moves the active block to the blocks. -/
theorem BuilderInv.finalize {Γ : Ctx} {n : Nat} {rs : List Record} {b : SsTableBuilder Γ} {blocks : List (List Record)}
    {cur : List Record} (h : BuilderInv Γ n rs b blocks cur) :
    BuilderInv Γ n rs b.finalizeBlock (closed blocks cur) [] := by
  cases cur with
  | nil =>
    have hk : b.currentFirstKey = none := h.currentFirstKey
    have : b.finalizeBlock = b := by simp [SsTableBuilder.finalizeBlock, hk]
    rw [this, closed, if_pos rfl]
    exact h
  | cons r cur =>
    have hk : b.currentFirstKey = some r.1 := h.currentFirstKey
    rw [closed, if_neg (by simp)]
    constructor
    · rw [List.append_nil, ← h.all]
      simp
    · intro blk hblk
      rcases List.mem_append.1 hblk with hblk | hblk
      · exact h.blocks_ne blk hblk
      · rw [List.mem_singleton] at hblk
        simp [hblk]
    · simp [SsTableBuilder.finalizeBlock, hk, h.data, h.current]
    · simp [SsTableBuilder.finalizeBlock, hk]
    · simp [SsTableBuilder.finalizeBlock, hk]
    · simp [SsTableBuilder.finalizeBlock, hk, h.index, h.data, h.current, indexOf_append, indexOf]
    · simpa [SsTableBuilder.finalizeBlock, hk] using h.firstKey
    · simpa [SsTableBuilder.finalizeBlock, hk] using h.lastKey
    · simpa [SsTableBuilder.finalizeBlock, hk] using h.expectedItems
    · simpa [SsTableBuilder.finalizeBlock, hk] using h.bloom

/-- A list that is not empty keeps its head. -/
theorem head?_snoc_of_ne_nil {α : Type} {l : List α} (h : l ≠ []) (a : α) : (l ++ [a]).head? = l.head? := by
  cases l with
  | nil => exact absurd rfl h
  | cons b l => rfl

/-- A record within the caps and above the last key is accepted. -/
theorem BuilderInv.add {Γ : Ctx} {n : Nat} {rs : List Record} {b : SsTableBuilder Γ} {blocks : List (List Record)}
    {cur : List Record} (h : BuilderInv Γ n rs b blocks cur) {r : Record} (hk : r.1.length ≤ maxKeyLen)
    (hv : r.2.1.length ≤ maxValueLen) (hlt : ∀ x ∈ rs, x.1 < r.1) :
    ∃ b', b.add r.1 r.2.1 r.2.2 = .ok b' ∧
      BuilderInv Γ n (rs ++ [r]) b' (pack (blocks, cur) r).1 (pack (blocks, cur) r).2 := by
  have hord : b.lastKey.any (fun prev => decide (r.1 ≤ prev)) = false := by
    rw [h.lastKey]
    cases hl : rs.getLast? with
    | none => rfl
    | some x => simpa using hlt x (List.mem_of_getLast? hl)
  -- the builder after the split decision
  obtain ⟨b₁, hb₁, h₁⟩ : ∃ b₁, b₁ = (if b.current ≠ [] ∧
      b.current.length + recordLen r.1.length r.2.1.length > targetBlockSize then b.finalizeBlock else b) ∧
      BuilderInv Γ n rs b₁ (split blocks cur r).1 (split blocks cur r).2 := by
    have hcond : (b.current ≠ [] ∧ b.current.length + recordLen r.1.length r.2.1.length > targetBlockSize) ↔
        Splits cur r := by
      rw [h.current, Splits, encRecord_length, ne_eq, encRecords_eq_nil_iff]
    refine ⟨_, rfl, ?_⟩
    unfold split
    by_cases hsplit : Splits cur r
    · have h' := h.finalize
      rw [closed, if_neg hsplit.1] at h'
      rw [if_pos (hcond.2 hsplit), if_pos hsplit]
      exact h'
    · rw [if_neg (fun hc => hsplit (hcond.1 hc)), if_neg hsplit]
      exact h
  unfold pack
  generalize split blocks cur r = p at h₁ ⊢
  obtain ⟨blocks₁, cur₁⟩ := p
  dsimp only at h₁ ⊢
  unfold SsTableBuilder.add
  rw [if_neg (by omega), if_neg (by omega), if_neg (by rw [hord]; exact Bool.false_ne_true), ← hb₁]
  clear hb₁
  have hcur : b₁.current = [] ↔ cur₁ = [] := by rw [h₁.current, encRecords_eq_nil_iff]
  have hlast : b₁.lastKey = none ↔ rs = [] := by rw [h₁.lastKey]; simp
  have hput : ∀ buf, putRecord buf r.1 r.2.1 r.2.2 = .ok (buf ++ encRecord r) := fun buf => putRecord_eq buf hk hv
  simp only [hput, bind, Except.bind, pure, Except.pure]
  refine ⟨_, rfl, ?_⟩
  have hfold : ((rs ++ [r]).map Prod.fst).foldl Γ.insert (Γ.newBloom n) =
      Γ.insert ((rs.map Prod.fst).foldl Γ.insert (Γ.newBloom n)) r.1 := by simp
  have hbl : 0 < n → (b₁.bloom.getD (Γ.newBloom n)) = (rs.map Prod.fst).foldl Γ.insert (Γ.newBloom n) := by
    intro hn
    rw [h₁.bloom]
    by_cases hrs : rs = []
    · simp [hrs]
    · simp [hn, hrs]
  have hn := h₁.expectedItems
  constructor
  · rw [← List.append_assoc, h₁.all]
  · exact h₁.blocks_ne
  · split_ifs <;> exact h₁.data
  · split_ifs <;> simp [h₁.current]
  · by_cases hc : cur₁ = []
    · rw [if_pos (hcur.2 hc)]
      split_ifs <;> simp [hc]
    · rw [if_neg (fun h' => hc (hcur.1 h'))]
      have hh := head?_snoc_of_ne_nil hc r
      split_ifs <;> simp only [h₁.currentFirstKey, hh]
  · split_ifs <;> exact h₁.index
  · by_cases hrs : rs = []
    · have := hlast.2 hrs
      split_ifs <;> simp_all
    · have := fun h' => hrs (hlast.1 h')
      have hh := head?_snoc_of_ne_nil hrs r
      have hf := h₁.firstKey
      split_ifs <;> simp_all
  · simp
  · split_ifs <;> exact hn
  · by_cases hpos : 0 < n
    · have hpos' : b₁.expectedItems > 0 := by omega
      have := hbl hpos
      split_ifs <;> simp_all
    · have hz : b₁.bloom = none := by rw [h₁.bloom]; simp [hpos]
      have hpos' : ¬b₁.expectedItems > 0 := by omega
      split_ifs <;> simp_all

/-- Ascending records within the caps are all accepted. -/
theorem BuilderInv.addAll {Γ : Ctx} {n : Nat} (rs : List Record) : ∀ {done : List Record} {b : SsTableBuilder Γ}
    {p : List (List Record) × List Record}, BuilderInv Γ n done b p.1 p.2 → Capped rs → Sorted (done ++ rs) →
    ∃ b', b.addAll rs = .ok b' ∧ BuilderInv Γ n (done ++ rs) b' (rs.foldl pack p).1 (rs.foldl pack p).2 := by
  induction rs with
  | nil =>
    intro done b p h _ _
    exact ⟨b, rfl, by rwa [List.append_nil]⟩
  | cons r rs ih =>
    intro done b p h hc hs
    obtain ⟨hk, hv⟩ := hc r List.mem_cons_self
    have hlt : ∀ x ∈ done, x.1 < r.1 := fun x hx => (List.pairwise_append.1 hs).2.2 x hx r List.mem_cons_self
    obtain ⟨b₁, hadd, h₁⟩ := h.add hk hv hlt
    have hs' : Sorted ((done ++ [r]) ++ rs) := by rwa [List.append_assoc, List.singleton_append]
    obtain ⟨b₂, hall, h₂⟩ := ih h₁ (fun x hx => hc x (List.mem_cons_of_mem _ hx)) hs'
    rw [List.append_assoc, List.singleton_append] at h₂
    refine ⟨b₂, ?_, h₂⟩
    rw [SsTableBuilder.addAll, hadd]
    exact hall

/-- Ascending records within the caps, added to a new builder. -/
theorem builderInv_addAll (Γ : Ctx) (n : Nat) {rs : List Record} (hc : Capped rs) (hs : Sorted rs) :
    ∃ b, (SsTableBuilder.withExpectedItems Γ n).addAll rs = .ok b ∧
      BuilderInv Γ n rs b (rs.foldl pack ([], [])).1 (rs.foldl pack ([], [])).2 := by
  have := BuilderInv.addAll (p := ([], [])) rs (builderInv_new Γ n) hc (by simpa using hs)
  rwa [List.nil_append] at this

/-- A filter is rebuilt from the block it is written to. -/
theorem decodeBloom_encodeBloom {Γ : Ctx} {fl : Γ.Filter} (hn : 1 ≤ Γ.numHashes fl ∧ Γ.numHashes fl ≤ 255)
    (hw : Γ.words fl ≠ []) : decodeBloom Γ (encodeBloom Γ fl) = .ok (Γ.fromVec (Γ.words fl) (Γ.numHashes fl)) := by
  have hplausible : ¬((encodeBloom Γ fl).numHashes = 0 ∨ (encodeBloom Γ fl).numHashes > maxNumHashes) := by
    simp only [encodeBloom, maxNumHashes]
    omega
  have hwords : (encodeBloom Γ fl).words ≠ [] := hw
  rw [decodeBloom, if_neg hplausible, if_neg hwords]
  rfl

end SsTableAux

open SsTableAux

/-- A table file that opens, lists the records `rs`, and answers a lookup with the record of the key. -/
def ReadsBack (Γ : Ctx) (f : SstFile) (rs : List Record) : Prop :=
  ∃ rd, SsTableReader.openFile Γ f = .ok rd ∧ rd.records = .ok rs ∧
    ∀ k, rd.get k = .ok ((SortedMap.find k rs).map lookupValue)

/-- Records within the caps in strictly ascending order are accepted by the builder, whatever the size hint of its Bloom
filter, its key range is their first and last key, and the file it writes reads them back. -/
theorem build_reads_back (Γ : Ctx) (n : Nat) {rs : List Record} (hc : Capped rs) (hs : Sorted rs) :
    ∃ b f, (SsTableBuilder.withExpectedItems Γ n).addAll rs = .ok b ∧ b.build = .ok f ∧
      b.minKey = rs.head?.map Prod.fst ∧ b.maxKey = rs.getLast?.map Prod.fst ∧ ReadsBack Γ f rs := by
  obtain ⟨b, hadd, h⟩ := builderInv_addAll Γ n hc hs
  have h' := h.finalize
  generalize closed _ _ = blocks' at h'
  have hall : blocks'.flatten = rs := by
    have := h'.all
    rwa [List.append_nil] at this
  have hidx : encodeIndex b.finalizeBlock.index = .ok (indexOf 0 blocks') := by
    rw [h'.index, encodeIndex, List.find?_eq_none.2]
    intro e he
    have := indexOf_capped h'.blocks_ne (by rw [hall]; exact hc) he
    simpa using this
  refine ⟨b, ⟨encRecords rs, indexOf 0 blocks', b.bloom.map (encodeBloom Γ)⟩, hadd, ?_, h.firstKey, h.lastKey, ?_⟩
  · unfold SsTableBuilder.build
    simp only [hidx, bind, Except.bind, pure, Except.pure]
    rw [h'.data, hall, h'.bloom, h.bloom]
  · have hrecs : ∀ (filter : Option Γ.Filter) (bl : Option BloomBlock),
        SsTableReader.records (Γ := Γ) ⟨⟨encRecords rs, indexOf 0 blocks', bl⟩, filter⟩ = .ok rs := by
      intro filter bl
      have := readRecords_eq [] hc (encRecords rs).length (length_le_encRecords rs)
      simpa [SsTableReader.records] using this
    have hget : ∀ (filter : Option Γ.Filter) (bl : Option BloomBlock),
        (∀ fl, filter = some fl → ∀ r ∈ rs, Γ.contains fl r.1 = true) → ∀ k,
        SsTableReader.get (Γ := Γ) ⟨⟨encRecords rs, indexOf 0 blocks', bl⟩, filter⟩ k =
          .ok ((SortedMap.find k rs).map lookupValue) := by
      intro filter bl hfl k
      have := get_blocks (Γ := Γ) blocks' h'.blocks_ne (by rw [hall]; exact hs) (by rw [hall]; exact hc) bl filter
        (by rw [hall]; exact hfl) k
      rwa [hall] at this
    rw [h.bloom]
    by_cases hn : 0 < n ∧ rs ≠ []
    · rw [if_pos hn]
      obtain ⟨fl, hfl⟩ : ∃ fl, fl = (rs.map Prod.fst).foldl Γ.insert (Γ.newBloom n) := ⟨_, rfl⟩
      have hb1 := Γ.numHashes_bounds n (rs.map Prod.fst)
      have hb2 := Γ.words_ne_nil n (rs.map Prod.fst)
      rw [← hfl] at hb1 hb2 ⊢
      have hdec := decodeBloom_encodeBloom hb1 hb2
      refine ⟨⟨⟨encRecords rs, indexOf 0 blocks', some (encodeBloom Γ fl)⟩,
        some (Γ.fromVec (Γ.words fl) (Γ.numHashes fl))⟩, ?_, hrecs _ _, hget _ _ ?_⟩
      · simp only [SsTableReader.openFile, Option.map_some, hdec]
        rfl
      · intro fl' hfl' r hr
        rw [Option.some.injEq] at hfl'
        rw [← hfl', hfl]
        exact Γ.contains_rebuilt n (rs.map Prod.fst) r.1 (List.mem_map_of_mem hr)
    · rw [if_neg hn]
      exact ⟨_, rfl, hrecs none _, hget none _ (by simp)⟩

end LsmEngine
