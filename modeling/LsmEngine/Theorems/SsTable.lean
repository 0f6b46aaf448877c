import Mathlib.Data.List.Chain
import LsmEngine.Lemmas.SsTableFile

/-!
# How a builder lays its records out

Whatever calls of `add` a builder gets, its finalized blocks tile the data section, each block is whole records under its index
entry, and a block is closed only when the next record does not fit.
-/

namespace LsmEngine

open Segment SsTableAux

/-! ## The layout -/

/-- The entries tile the data from an offset to its end. -/
def Tiles (data : Bytes) : Nat → List IndexEntry → Prop
  | o, [] => o = data.length
  | o, e :: es => e.offset = o ∧ Tiles data (o + e.size) es

/-- `read_record` after `read_record`, from an offset to the end of the bytes. -/
def ParsesFrom (bytes : Bytes) : Nat → List Record → Prop
  | o, [] => o = bytes.length
  | o, r :: rs => ∃ consumed, readRecord bytes o = .ok (r.1, r.2.1, r.2.2, consumed) ∧ ParsesFrom bytes (o + consumed) rs

/-- The bytes an index entry points to. -/
def blockBytes (data : Bytes) (e : IndexEntry) : Bytes := (data.drop e.offset).take e.size

/-- The block of an index entry is the records `rs`. -/
structure BlockOf (data : Bytes) (e : IndexEntry) (rs : List Record) : Prop where
  size : (blockBytes data e).length = e.size
  parses : ParsesFrom (blockBytes data e) 0 rs
  nonempty : rs ≠ []
  first : rs.head?.map Prod.fst = some e.firstKey
  oversized : targetBlockSize < e.size → rs.length = 1

/-- A block comes before the next: its keys are smaller than the next first key, and the first record of the next did not fit. -/
def Before (a b : IndexEntry × List Record) : Prop :=
  (∀ r ∈ a.2, r.1 < b.1.firstKey) ∧ ∀ r ∈ b.2.head?, targetBlockSize < a.1.size + recordLen r.1.length r.2.1.length

/-- The data section and its index. -/
structure Layout (data : Bytes) (index : List IndexEntry) : Prop where
  tiles : Tiles data 0 index
  ascending : (index.map IndexEntry.firstKey).Pairwise (· < ·)
  blocks : ∃ blocks, List.Forall₂ (BlockOf data) index blocks ∧ (index.zip blocks).IsChain Before

/-! ## Packing -/

/-- What the split decisions leave: an oversized block is a single record, and a block is followed by a record that did not fit. -/
structure Packed (blocks : List (List Record)) (cur : List Record) : Prop where
  oversized : ∀ blk ∈ blocks ++ [cur], targetBlockSize < (encRecords blk).length → blk.length = 1
  full : (blocks ++ [cur]).IsChain (fun a b => ∀ r ∈ b.head?, targetBlockSize < (encRecords a).length + (encRecord r).length)
  active : cur = [] → blocks = []

/-- No blocks are packed. -/
theorem packed_nil : Packed [] [] where
  oversized := by simp [targetBlockSize]
  full := List.IsChain.singleton _
  active := fun _ => rfl

/-- A record that splits off opens a block of its own; any other joins a block that it fits. -/
theorem Packed.pack {p : List (List Record) × List Record} (h : Packed p.1 p.2) (r : Record) :
    Packed (pack p r).1 (pack p r).2 := by
  obtain ⟨blocks, cur⟩ := p
  dsimp only at h
  unfold SsTableAux.pack split
  by_cases hsplit : Splits cur r
  · rw [if_pos hsplit]
    dsimp only
    rw [List.nil_append]
    refine ⟨?_, ?_, by simp⟩
    · intro blk hblk hbig
      rcases List.mem_append.1 hblk with hblk | hblk
      · exact h.oversized blk hblk hbig
      · rw [List.mem_singleton.1 hblk]
        rfl
    · refine List.isChain_append.2 ⟨h.full, List.IsChain.singleton _, ?_⟩
      intro a ha b hb
      obtain rfl : cur = a := by simpa using ha
      obtain rfl : [r] = b := by simpa using hb
      intro r' hr'
      obtain rfl : r = r' := by simpa using hr'
      exact hsplit.2
  · rw [if_neg hsplit]
    dsimp only
    obtain ⟨hchain, -, hlast⟩ := List.isChain_append.1 h.full
    refine ⟨?_, ?_, by simp⟩
    · intro blk hblk hbig
      rcases List.mem_append.1 hblk with hblk | hblk
      · exact h.oversized blk (List.mem_append_left _ hblk) hbig
      · obtain rfl := List.mem_singleton.1 hblk
        by_cases hcur : cur = []
        · rw [hcur]
          rfl
        · refine absurd ⟨hcur, ?_⟩ hsplit
          simpa using hbig
    · refine List.isChain_append.2 ⟨hchain, List.IsChain.singleton _, ?_⟩
      intro a ha b hb
      obtain rfl : cur ++ [r] = b := by simpa using hb
      by_cases hcur : cur = []
      · rw [h.active hcur] at ha
        simp at ha
      · rw [head?_snoc_of_ne_nil hcur]
        exact hlast a ha cur (by simp)

/-- Records are packed one after another. -/
theorem packed_foldl (rs : List Record) {p : List (List Record) × List Record} (h : Packed p.1 p.2) :
    Packed (rs.foldl pack p).1 (rs.foldl pack p).2 := by
  induction rs generalizing p with
  | nil => exact h
  | cons r rs ih => exact ih (h.pack r)

/-! ## Blocks one after another -/

/-- The entries of the index tile the data. -/
theorem tiles_indexOf {data : Bytes} {o : Nat} {bs : List (List Record)} (h : o + (encRecords bs.flatten).length = data.length) :
    Tiles data o (indexOf o bs) := by
  induction bs generalizing o with
  | nil => simpa [Tiles, indexOf] using h
  | cons blk bs ih =>
    rw [List.flatten_cons, encRecords_append, List.length_append] at h
    exact ⟨rfl, ih (by dsimp only; omega)⟩

/-- Records that stand at an offset parse up to the end. -/
theorem parsesFrom_encRecords (pre : Bytes) {rs : List Record} (hc : Capped rs) :
    ParsesFrom (pre ++ encRecords rs) pre.length rs := by
  induction rs generalizing pre with
  | nil => simp [ParsesFrom]
  | cons r rs ih =>
    obtain ⟨hk, hv⟩ := hc r List.mem_cons_self
    refine ⟨(encRecord r).length, readRecord_of_at hk hv (at_middle pre _ _), ?_⟩
    have hrest := ih (pre ++ encRecord r) (fun x hx => hc x (List.mem_cons_of_mem _ hx))
    rwa [List.length_append, List.append_assoc, ← encRecords_cons] at hrest

/-- Where the records of a block stand in the data, its entry points to them. -/
theorem blockOf_indexOf {data : Bytes} {o : Nat} {blk : List Record} (hat : At data o (encRecords blk)) (hne : blk ≠ [])
    (hc : Capped blk) (hbig : targetBlockSize < (encRecords blk).length → blk.length = 1) :
    BlockOf data ⟨(blk.head?.map Prod.fst).getD [], o, (encRecords blk).length⟩ blk := by
  have hblock : blockBytes data ⟨(blk.head?.map Prod.fst).getD [], o, (encRecords blk).length⟩ = encRecords blk := hat.slice
  refine ⟨by rw [hblock], ?_, hne, ?_, hbig⟩
  · rw [hblock]
    exact parsesFrom_encRecords [] hc
  · cases blk with
    | nil => exact absurd rfl hne
    | cons r blk => rfl

/-- Each entry has its block in the data. -/
theorem blocksOf_indexOf (pre : Bytes) {bs : List (List Record)} (hne : ∀ b ∈ bs, b ≠ []) (hc : Capped bs.flatten)
    (hbig : ∀ b ∈ bs, targetBlockSize < (encRecords b).length → b.length = 1) :
    List.Forall₂ (BlockOf (pre ++ encRecords bs.flatten)) (indexOf pre.length bs) bs := by
  induction bs generalizing pre with
  | nil => exact .nil
  | cons blk bs ih =>
    have hdata : pre ++ encRecords (blk :: bs).flatten = (pre ++ encRecords blk) ++ encRecords bs.flatten := by
      rw [List.flatten_cons, encRecords_append, List.append_assoc]
    refine .cons ?_ ?_
    · refine blockOf_indexOf ?_ (hne blk List.mem_cons_self) (fun r hr => hc r (by simp [hr])) (hbig blk List.mem_cons_self)
      rw [List.flatten_cons, encRecords_append]
      exact at_middle pre _ _
    · have hrest := ih (pre ++ encRecords blk) (fun b hb => hne b (List.mem_cons_of_mem _ hb))
        (fun r hr => hc r (by rw [List.flatten_cons]; exact List.mem_append_right _ hr))
        (fun b hb => hbig b (List.mem_cons_of_mem _ hb))
      rwa [List.length_append, ← hdata] at hrest

/-- In ascending blocks, the keys of one are smaller than the first keys of those after it. -/
theorem lt_firstKey {blk : List Record} {bs : List (List Record)} (hne : ∀ b ∈ bs, b ≠ [])
    (hs : Sorted (blk ++ bs.flatten)) {o : Nat} : ∀ r ∈ blk, ∀ e ∈ indexOf o bs, r.1 < e.firstKey := by
  intro r hr
  induction bs generalizing o with
  | nil => simp [indexOf]
  | cons b bs ih =>
    rw [List.flatten_cons] at hs
    intro e he
    rcases List.mem_cons.1 he with rfl | he
    · cases b with
      | nil => exact absurd rfl (hne [] List.mem_cons_self)
      | cons x b => exact (List.pairwise_append.1 hs).2.2 r hr x (by simp)
    · refine ih (fun x hx => hne x (List.mem_cons_of_mem _ hx)) ?_ e he
      exact hs.sublist ((List.Sublist.refl blk).append (List.sublist_append_right b _))

/-- The first keys of the blocks ascend. -/
theorem ascending_indexOf {bs : List (List Record)} (hne : ∀ b ∈ bs, b ≠ []) (hs : Sorted bs.flatten) (o : Nat) :
    ((indexOf o bs).map IndexEntry.firstKey).Pairwise (· < ·) := by
  induction bs generalizing o with
  | nil => exact List.Pairwise.nil
  | cons blk bs ih =>
    rw [List.flatten_cons] at hs
    have hne' : ∀ b ∈ bs, b ≠ [] := fun b hb => hne b (List.mem_cons_of_mem _ hb)
    have hrest : Sorted bs.flatten := (List.pairwise_append.1 hs).2.1
    refine List.pairwise_cons.2 ⟨?_, ih hne' hrest _⟩
    intro k hk
    obtain ⟨e, he, rfl⟩ := List.mem_map.1 hk
    cases blk with
    | nil => exact absurd rfl (hne [] List.mem_cons_self)
    | cons r blk => exact lt_firstKey hne' hs r List.mem_cons_self e he

/-- Each block ends before the next begins, and was full. -/
theorem before_indexOf {bs : List (List Record)} (hne : ∀ b ∈ bs, b ≠ []) (hs : Sorted bs.flatten)
    (hfull : bs.IsChain (fun a b => ∀ r ∈ b.head?, targetBlockSize < (encRecords a).length + (encRecord r).length)) (o : Nat) :
    ((indexOf o bs).zip bs).IsChain Before := by
  induction bs generalizing o with
  | nil => exact .nil
  | cons blk bs ih =>
    rw [List.flatten_cons] at hs
    have hne' : ∀ b ∈ bs, b ≠ [] := fun b hb => hne b (List.mem_cons_of_mem _ hb)
    have hrest := ih hne' (List.pairwise_append.1 hs).2.1 hfull.tail (o + (encRecords blk).length)
    have hlt := lt_firstKey (o := o + (encRecords blk).length) hne' hs
    cases bs with
    | nil => exact .singleton _
    | cons next bs =>
      refine .cons_cons ⟨fun r hr => hlt r hr _ List.mem_cons_self, fun r hr => ?_⟩ hrest
      have := hfull.rel_head? (y := next) rfl r hr
      simpa using this

/-- Packed ascending blocks are laid out as they should be. -/
theorem layout_indexOf {bs : List (List Record)} (hne : ∀ b ∈ bs, b ≠ []) (hs : Sorted bs.flatten) (hc : Capped bs.flatten)
    (hbig : ∀ b ∈ bs, targetBlockSize < (encRecords b).length → b.length = 1)
    (hfull : bs.IsChain (fun a b => ∀ r ∈ b.head?, targetBlockSize < (encRecords a).length + (encRecord r).length)) :
    Layout (encRecords bs.flatten) (indexOf 0 bs) where
  tiles := tiles_indexOf (by omega)
  ascending := ascending_indexOf hne hs 0
  blocks := ⟨bs, blocksOf_indexOf [] hne hc hbig, before_indexOf hne hs hfull 0⟩

/-- The layout of a builder, before and after its active block is finalized. -/
theorem BuilderInv.layout {Γ : Ctx} {n : Nat} {rs : List Record} {b : SsTableBuilder Γ} {blocks : List (List Record)}
    {cur : List Record} (h : BuilderInv Γ n rs b blocks cur) (hp : Packed blocks cur) (hc : Capped rs) (hs : Sorted rs) :
    Layout b.data b.index ∧ Layout b.finalizeBlock.data b.finalizeBlock.index := by
  have hall := h.all
  constructor
  · rw [h.data, h.index]
    have hsub : blocks.flatten.Sublist rs := by
      rw [← hall]
      exact List.sublist_append_left _ _
    exact layout_indexOf h.blocks_ne (hs.sublist hsub) (fun r hr => hc r (hsub.subset hr))
      (fun blk hblk => hp.oversized blk (List.mem_append_left _ hblk)) hp.full.left_of_append
  · have h' := h.finalize
    have hclosed : (closed blocks cur).flatten = rs := by
      have := h'.all
      rwa [List.append_nil] at this
    rw [h'.data, h'.index]
    refine layout_indexOf h'.blocks_ne (by rw [hclosed]; exact hs) (by rw [hclosed]; exact hc) ?_ ?_
    · intro blk hblk
      refine hp.oversized blk ?_
      unfold closed at hblk
      split at hblk
      · exact List.mem_append_left _ hblk
      · exact hblk
    · unfold closed
      split
      · exact hp.full.left_of_append
      · exact hp.full

/-! ## Builders -/

/-- The builder is laid out as it should be, and so is the file it would write. -/
def LaidOut {Γ : Ctx} (b : SsTableBuilder Γ) : Prop :=
  Layout b.data b.index ∧ ∃ f, b.build = .ok f ∧ Layout f.data f.index ∧ SsTableFile.build b = .ok (SsTableFile.bytes f)

/-- What a builder lays out, whatever calls come. -/
theorem laidOut_withExpectedItems (Γ : Ctx) (n : Nat) (calls : List Record) :
    LaidOut ((SsTableBuilder.withExpectedItems Γ n).addCalls calls).1 := by
  obtain ⟨-, hall⟩ := (SsTableBuilder.withExpectedItems Γ n).addCalls_eq calls
  have hlast : (SsTableBuilder.withExpectedItems Γ n).lastKey = none := rfl
  rw [hlast] at hall
  have hcap := acceptableCalls_capped none calls
  have hsorted := (acceptableCalls_ascends none calls).1
  obtain ⟨b, hadd, hinv⟩ := builderInv_addAll Γ n hcap hsorted
  obtain ⟨b', f, hadd', hbuild, -⟩ := build_reads_back Γ n hcap hsorted
  obtain rfl : b = b' := Except.ok.inj (hadd.symm.trans hadd')
  obtain rfl : (SsTableBuilder.withExpectedItems Γ n |>.addCalls calls).1 = b := Except.ok.inj (hall.symm.trans hadd)
  obtain ⟨hlayout, hfinal⟩ := BuilderInv.layout hinv (packed_foldl _ packed_nil) hcap hsorted
  refine ⟨hlayout, f, hbuild, ?_, by rw [SsTableFile.build_bytes, hbuild]; rfl⟩
  -- `build` finalizes the active block and writes that
  unfold SsTableBuilder.build at hbuild
  obtain ⟨index, hindex, hbuild⟩ := Fallible.bind_eq_ok.1 hbuild
  obtain ⟨rfl, -⟩ := SsTableFile.encodeIndex_ok hindex
  rw [← Except.ok.inj hbuild]
  exact hfinal

/-- After any calls of `add`, accepted or rejected, on a builder from either constructor, and in the file it writes, the blocks
tile the data, are whole records in order under their entries, and are closed only by a record that does not fit. -/
theorem builder_lays_out_blocks (Γ : Ctx) (calls : List Record) :
    LaidOut ((SsTableBuilder.new Γ).addCalls calls).1 ∧
      ∀ n, LaidOut ((SsTableBuilder.withExpectedItems Γ n).addCalls calls).1 :=
  ⟨laidOut_withExpectedItems Γ 0 calls, fun n => laidOut_withExpectedItems Γ n calls⟩

end LsmEngine
