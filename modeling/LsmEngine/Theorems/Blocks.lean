import LsmEngine.Library.Packing
import LsmEngine.Theorems.SsTable

/-!
# How many blocks a table has

The builder fills each block until the next record does not fit. So the sparse index, which has an entry for each block and is held
in memory by a reader, is as short as `TARGET_BLOCK_SIZE` allows.
-/

namespace LsmEngine

open SsTableAux

/-! ## Blocks as bins -/

/-- The bytes a record takes. -/
def recordSize (r : Record) : Nat := recordLen r.1.length r.2.1.length

/-- The load of a block is the length of its bytes. -/
theorem load_recordSize (rs : List Record) : Packing.load recordSize rs = (encRecords rs).length := by
  induction rs with
  | nil => rfl
  | cons r rs ih =>
    rw [Packing.load_cons, encRecords_cons, List.length_append, encRecord_length, ih]
    rfl

/-- The last block is closed at the end, and the blocks are then full and fit as before. -/
theorem Packed.closed {blocks : List (List Record)} {cur : List Record} (h : Packed blocks cur) :
    (∀ blk ∈ closed blocks cur, Packing.Fits recordSize targetBlockSize blk) ∧
      (closed blocks cur).IsChain (Packing.Full recordSize targetBlockSize) := by
  have hfits : ∀ blk ∈ blocks ++ [cur], Packing.Fits recordSize targetBlockSize blk := by
    intro blk hblk
    rcases Nat.lt_or_ge targetBlockSize (encRecords blk).length with hbig | hsmall
    · exact Or.inr (h.oversized blk hblk hbig)
    · exact Or.inl (by rwa [load_recordSize])
  have hfull : (blocks ++ [cur]).IsChain (Packing.Full recordSize targetBlockSize) := by
    refine h.full.imp ?_
    intro a b hab r hr
    have := hab r hr
    rwa [encRecord_length, ← load_recordSize] at this
  unfold SsTableAux.closed
  split
  · exact ⟨fun blk hblk => hfits blk (List.mem_append_left _ hblk), hfull.left_of_append⟩
  · exact ⟨hfits, hfull⟩

/-! ## Builders and readers -/

namespace SsTableFile

variable {Γ : Ctx}

/-- The blocks of an opened table that holds the records `rs`: no way to cut the records into blocks of at most
`TARGET_BLOCK_SIZE` or of one record has fewer, and there is at most one for each half `TARGET_BLOCK_SIZE`, and one more. -/
structure FewestBlocks (rd : SsTableReader Γ) (rs : List Record) : Prop where
  dataSize : rd.indexOffset = Packing.load recordSize rs
  fewest : IsLeast {n | ∃ blocks, Packing.Cut recordSize targetBlockSize rs blocks ∧ blocks.length = n} rd.numBlocks
  sparse : rd.numBlocks * targetBlockSize ≤ 2 * rd.indexOffset + targetBlockSize

/-- What a builder says of its size, and the table it writes. -/
structure Sized (b : SsTableBuilder Γ) (rs : List Record) : Prop where
  isEmpty : b.isEmpty = true ↔ rs = []
  dataSize : b.estimatedDataSize = Packing.load recordSize rs
  table : ∃ file, build b = .ok file ∧ b.estimatedDataSize + footerLen ≤ file.length ∧
    (file.length < 2 ^ 64 → ∀ path, ∃ rd, openFile Γ path file = .ok rd ∧ FewestBlocks rd rs)

/-- The blocks in the order they were filled, each until the next record did not fit. -/
theorem fewestBlocks {blocks : List (List Record)} {rs : List Record} {rd : SsTableReader Γ} (hall : blocks.flatten = rs)
    (hne : ∀ blk ∈ blocks, blk ≠ []) (hfits : ∀ blk ∈ blocks, Packing.Fits recordSize targetBlockSize blk)
    (hfull : blocks.IsChain (Packing.Full recordSize targetBlockSize)) (hdata : rd.indexOffset = (encRecords rs).length)
    (hindex : rd.index = indexOf 0 blocks) : FewestBlocks rd rs := by
  have hnum : rd.numBlocks = blocks.length := by rw [SsTableReader.numBlocks, hindex, indexOf_length]
  refine ⟨by rw [hdata, load_recordSize], ?_, ?_⟩
  · rw [hnum]
    exact Packing.isLeast_length ⟨hall, hfits⟩ hne hfull
  · rw [hnum, hdata, ← load_recordSize, ← hall]
    cases blocks with
    | nil => simp
    | cons blk blocks =>
      have hhalf := Packing.length_mul_le (fun b hb => hne b (List.mem_cons_of_mem _ hb)) hfull
      rw [List.length_cons, Nat.succ_mul]
      omega

/-- A builder that has filled some blocks, once it has written its table and that is opened. -/
theorem sized_of_build {n : Nat} {rs : List Record} {b : SsTableBuilder Γ} {blocks : List (List Record)} {cur : List Record}
    (h : BuilderInv Γ n rs b blocks cur) (hp : Packed blocks cur) {f : SstFile} (hbuild : b.build = .ok f)
    {rd : LsmEngine.SsTableReader Γ} (hopen : LsmEngine.SsTableReader.openFile Γ f = .ok rd) : Sized b rs := by
  have hsize : b.estimatedDataSize = (encRecords rs).length := by
    rw [SsTableBuilder.estimatedDataSize, h.data, h.current, ← List.length_append, ← encRecords_append, h.all]
  have h' := h.finalize
  have hall : (closed blocks cur).flatten = rs := by
    have := h'.all
    rwa [List.append_nil] at this
  -- `build` writes what the builder holds once its active block is finalized
  have hsections : f.data = encRecords rs ∧ f.index = indexOf 0 (closed blocks cur) := by
    unfold SsTableBuilder.build at hbuild
    obtain ⟨index, hindex, hbuild⟩ := Fallible.bind_eq_ok.1 hbuild
    obtain ⟨rfl, -⟩ := encodeIndex_ok hindex
    rw [← Except.ok.inj hbuild]
    exact ⟨by rw [h'.data, hall], h'.index⟩
  obtain ⟨hdata, hindex⟩ := hsections
  refine ⟨?_, by rw [hsize, load_recordSize], bytes f, by rw [build_bytes, hbuild]; rfl, ?_, fun hlen path => ?_⟩
  · rw [SsTableBuilder.isEmpty, Bool.and_eq_true, List.isEmpty_iff, List.isEmpty_iff, h.data, h.current, encRecords_eq_nil_iff,
      encRecords_eq_nil_iff, ← List.append_eq_nil_iff, h.all]
  · rw [hsize, bytes_length_eq, hdata]
    omega
  · have hfile := openFile_file hopen
    refine ⟨reader path rd, ?_, ?_⟩
    · rw [openFile_bytes Γ path (fileFits_of_build h hbuild hlen), hopen]
      rfl
    · obtain ⟨hfits, hfull⟩ := hp.closed
      refine fewestBlocks hall h'.blocks_ne hfits hfull ?_ ?_
      · rw [reader, hfile, hdata]
      · rw [reader, hfile, hindex]

/-- What a builder says of its size, whatever calls come. -/
theorem sized_withExpectedItems (Γ : Ctx) (n : Nat) (calls : List Record) :
    Sized ((SsTableBuilder.withExpectedItems Γ n).addCalls calls).1 ((SsTableBuilder.withExpectedItems Γ n).addCalls calls).2 := by
  obtain ⟨hacc, hall⟩ := (SsTableBuilder.withExpectedItems Γ n).addCalls_eq calls
  have hlast : (SsTableBuilder.withExpectedItems Γ n).lastKey = none := rfl
  rw [hlast] at hacc hall
  have hcap := acceptableCalls_capped none calls
  have hsorted := (acceptableCalls_ascends none calls).1
  obtain ⟨b, hadd, hinv⟩ := builderInv_addAll Γ n hcap hsorted
  obtain ⟨b', f, hadd', hbuild, -, -, rd, hopen, -⟩ := build_reads_back Γ n hcap hsorted
  obtain rfl : b = b' := Except.ok.inj (hadd.symm.trans hadd')
  obtain rfl : (SsTableBuilder.withExpectedItems Γ n |>.addCalls calls).1 = b := Except.ok.inj (hall.symm.trans hadd)
  rw [hacc]
  exact sized_of_build hinv (packed_foldl _ packed_nil) hbuild hopen

/-- Whatever is added to a builder, from either constructor: it is empty as long as nothing was accepted, its estimated size is the
length of the data section it will write, and the table it writes has the fewest blocks. -/
theorem tables_have_fewest_blocks (Γ : Ctx) (calls : List Record) :
    Sized ((SsTableBuilder.new Γ).addCalls calls).1 ((SsTableBuilder.new Γ).addCalls calls).2 ∧
      ∀ n, Sized ((SsTableBuilder.withExpectedItems Γ n).addCalls calls).1
        ((SsTableBuilder.withExpectedItems Γ n).addCalls calls).2 :=
  ⟨sized_withExpectedItems Γ 0 calls, fun n => sized_withExpectedItems Γ n calls⟩

/-- Four calls of which the second repeats the key of the first: the other three records do not fit one block. -/
theorem tables_have_fewest_blocks_pair :
    let calls : List Record := [([1], List.replicate 1500 7, false), ([1], [8], false), ([2], List.replicate 1500 7, false),
      ([3], List.replicate 1500 7, false)]
    let b := (SsTableBuilder.withExpectedItems Ctx.concrete 1).addCalls calls
    b.2.length = 3 ∧ b.1.isEmpty = false ∧ b.1.estimatedDataSize = 4524 ∧
      ∃ file, build b.1 = .ok file ∧ ∀ path, ∃ rd, openFile Ctx.concrete path file = .ok rd ∧ 2 ≤ rd.numBlocks ∧
        FewestBlocks rd b.2 := by
  intro calls b
  have hsized := (tables_have_fewest_blocks Ctx.concrete calls).2 1
  obtain ⟨file, hfile, -, htable⟩ := hsized.table
  have hlen : (build b.1).map List.length = .ok 4598 := by decide +kernel
  have hfit : file.length = 4598 := by simpa [b, hfile, Except.map] using hlen
  have hrecords : b.2.length = 3 := by decide +kernel
  have hdata : b.1.estimatedDataSize = 4524 := by decide +kernel
  refine ⟨hrecords, by decide +kernel, hdata, file, hfile, fun path => ?_⟩
  obtain ⟨rd, hopen, hfewest⟩ := htable (by omega) path
  obtain ⟨blocks, ⟨hall, hfits⟩, hnum⟩ := hfewest.fewest.1
  refine ⟨rd, hopen, ?_, hfewest⟩
  -- one block would have to hold all three records
  rw [← hnum]
  rcases blocks with _ | ⟨blk, _ | ⟨blk', blocks⟩⟩
  · rw [← hall] at hrecords
    simp at hrecords
  · have hblk : blk = b.2 := (List.flatten_singleton).symm.trans hall
    have hload : Packing.load recordSize blk = 4524 := by rw [hblk, ← hdata, ← hsized.dataSize]
    rcases hfits blk List.mem_cons_self with hfit' | hone
    · simp only [hload, targetBlockSize] at hfit'
      omega
    · rw [hblk, hrecords] at hone
      omega
  · simp

end SsTableFile

end LsmEngine
