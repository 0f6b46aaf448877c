import LsmEngine.Theorems.SsTableFile

/-!
# Which files are tables

`SsTableReader::open` accepts exactly the files of the format `[data][index][bloom?][footer]`: those that are the bytes of sections whose
numbers fit their fields. The sections are the only ones with these bytes, and what is opened is made of them.
-/

namespace LsmEngine

namespace SsTableFile

open Fallible Segment

variable {Γ : Ctx}

/-! ## The Bloom block -/

/-- What `decode_bloom` asks of a block. -/
structure BloomFits (b : BloomBlock) : Prop where
  hashes : b.numHashes ≠ 0
  hashes_le : b.numHashes ≤ maxNumHashes
  words : b.words ≠ []

/-- Words that are read stand where they were read. -/
theorem readWords_ok {bs : Bytes} {n i : Nat} {ws : List UInt64} (h : readWords bs n i = .ok ws)
    (hle : 4 + (i + n) * 8 ≤ bs.length) : ws.length = n ∧ At bs (4 + i * 8) (wordBytes ws) := by
  induction n generalizing i ws with
  | zero =>
    obtain rfl := Except.ok.inj h
    have hat := at_slice (show 4 + i * 8 + 0 ≤ bs.length by omega)
    rw [List.take_zero] at hat
    exact ⟨rfl, hat⟩
  | succ n ih =>
    rw [readWords] at h
    obtain ⟨word, hword, h⟩ := bind_eq_ok.1 h
    obtain ⟨rest, hrest, h⟩ := bind_eq_ok.1 h
    obtain rfl := Except.ok.inj h
    obtain ⟨hlt, hat⟩ := readU64_ok_iff.1 hword
    obtain ⟨hlen, hats⟩ := ih hrest (by omega)
    refine ⟨by rw [List.length_cons, hlen], ?_⟩
    rw [wordBytes_cons, UInt64.toNat_ofNat_of_lt' (by omega)]
    refine hat.append ?_
    rwa [leBytes_length, show 4 + i * 8 + 8 = 4 + (i + 1) * 8 by omega]

/-- What stands at the start of a list and is as long is the list. -/
theorem eq_of_at_zero {l f : Bytes} (h : At l 0 f) (hlen : l.length = f.length) : l = f := by
  have hdrop := h.drop
  rwa [List.drop_zero, Nat.zero_add, List.drop_eq_nil_of_le hlen.le, List.append_nil] at hdrop

/-- The accepted blocks are the encoded ones. -/
theorem decodeBloom_ok_iff {bs : Bytes} {filter : Γ.Filter} :
    decodeBloom Γ bs = .ok filter ↔ ∃ b, BloomFits b ∧ bs = bloomBytes b ∧ filter = Γ.fromVec b.words b.numHashes := by
  constructor
  · intro h
    unfold decodeBloom at h
    obtain ⟨hlen, h⟩ := guard_eq_ok.1 h
    obtain ⟨numHashes, hhashes, h⟩ := bind_eq_ok.1 h
    obtain ⟨hbounded, h⟩ := guard_eq_ok.1 h
    obtain ⟨hnone, h⟩ := guard_eq_ok.1 h
    obtain ⟨words, hread, h⟩ := bind_eq_ok.1 h
    obtain ⟨hcount, hwords⟩ := readWords_ok hread (by omega)
    have hne : words ≠ [] := by
      rintro rfl
      exact hnone hcount.symm
    have hbytes : bs.length = (bloomBytes ⟨numHashes, words⟩).length := by
      rw [bloomBytes_length, hcount]
      omega
    refine ⟨⟨numHashes, words⟩, ⟨by tauto, Nat.le_of_not_lt (by tauto), hne⟩, ?_, (Except.ok.inj h).symm⟩
    refine eq_of_at_zero ((readU32_ok_iff.1 hhashes).2.append ?_) hbytes
    rwa [leBytes_length]
  · rintro ⟨b, hb, rfl, rfl⟩
    have hbounded := hb.hashes_le
    rw [decodeBloom_bytes Γ (by simp only [maxNumHashes] at hbounded; omega), LsmEngine.decodeBloom,
      if_neg (by simp [hb.hashes, hbounded]), if_neg hb.words]

/-! ## The file -/

/-- The sections of a table: numbers that fit their fields, and a Bloom block that is accepted and does not start the file. -/
structure TableFits (f : SstFile) : Prop where
  length : (bytes f).length < 2 ^ 64
  entries : ∀ e ∈ f.index, EntryFits e
  bloom : ∀ b, f.bloom = some b → BloomFits b
  bloomOffset_ne : ∀ b, f.bloom = some b → f.data.length + (indexBytes f.index).length ≠ 0

/-- A table that fits the format is framed by its footer. -/
theorem TableFits.framed {f : SstFile} (h : TableFits f) : Framed f where
  length := h.length
  entries := h.entries
  numHashes b hb := by
    have hbounded := (h.bloom b hb).hashes_le
    simp only [maxNumHashes] at hbounded
    omega
  bloomOffset_ne := h.bloomOffset_ne

/-- The reader of a table. -/
def readerOf (Γ : Ctx) (path : String) (f : SstFile) : SsTableReader Γ :=
  ⟨bytes f, (bytes f).length, f.data.length, f.index, f.bloom.map (fun b => Γ.fromVec b.words b.numHashes), path⟩

theorem TableFits.opens {f : SstFile} (h : TableFits f) (Γ : Ctx) (path : String) :
    openFile Γ path (bytes f) = .ok (readerOf Γ path f) := by
  rw [openFile_framed Γ path h.framed, LsmEngine.SsTableReader.openFile]
  cases hb : f.bloom with
  | none => simp only [Except.map, reader, readerOf, hb, Option.map_none]
  | some b =>
    have hfits := h.bloom b hb
    have hdec : LsmEngine.decodeBloom Γ b = .ok (Γ.fromVec b.words b.numHashes) := by
      rw [LsmEngine.decodeBloom, if_neg (by simp [hfits.hashes, hfits.hashes_le]), if_neg hfits.words]
    simp only [hdec, bind, Except.bind, pure, Except.pure, Except.map, reader, readerOf, hb, Option.map_some]

/-- Bytes that are read stand where they were read. -/
theorem readAt_ok {file bs : Bytes} {o len : Nat} (h : readAt file o len = .ok bs) (hle : o + len ≤ file.length) :
    bs.length = len ∧ At file o bs := by
  unfold readAt at h
  split at h
  · simp at h
  · obtain rfl := Except.ok.inj h
    refine ⟨?_, at_slice hle⟩
    rw [List.length_take, List.length_drop]
    omega

/-- Sections that stand one after another make up the file. -/
theorem eq_bytes {file : Bytes} {f : SstFile} (hdata : At file 0 f.data) (hindex : At file f.data.length (indexBytes f.index))
    (hbloom : At file (f.data.length + (indexBytes f.index).length) (bloomSection f))
    (hfoot : At file (f.data.length + (indexBytes f.index).length + (bloomSection f).length) (footer f))
    (hlen : file.length = f.data.length + (indexBytes f.index).length + (bloomSection f).length + footerLen) : file = bytes f := by
  have htail := hindex.append (hbloom.append hfoot)
  refine eq_of_at_zero (hdata.append ?_) (by rw [hlen]; exact (bytes_length_eq f).symm)
  rwa [Nat.zero_add]

/-- A file that is opened is laid out in sections. -/
theorem sections_of_open {path : String} {file : Bytes} {r : SsTableReader Γ} (h : openFile Γ path file = .ok r)
    (hlen : file.length < 2 ^ 64) : ∃ f, TableFits f ∧ file = bytes f := by
  unfold openFile at h
  obtain ⟨hshort, h⟩ := guard_eq_ok.1 h
  obtain ⟨foot, hfoot, h⟩ := bind_eq_ok.1 h
  obtain ⟨hmagic, h⟩ := guard_eq_ok.1 h
  obtain ⟨indexOffset, hindexOffset, h⟩ := bind_eq_ok.1 h
  obtain ⟨bloomOff, hbloomOff, h⟩ := bind_eq_ok.1 h
  obtain ⟨hoverlap, h⟩ := guard_eq_ok.1 h
  obtain ⟨hrange, h⟩ := guard_eq_ok.1 h
  obtain ⟨ibytes, hibytes, h⟩ := bind_eq_ok.1 h
  obtain ⟨index, hindex, h⟩ := bind_eq_ok.1 h
  generalize heoi : (if bloomOff = 0 then file.length - footerLen else bloomOff) = endOfIndex at hrange hibytes
  have hend : endOfIndex ≤ file.length - footerLen := by
    rw [← heoi]
    split <;> omega
  obtain ⟨hfl, hfat⟩ := readAt_ok hfoot (by omega)
  obtain ⟨hil, hiat⟩ := readAt_ok hibytes (by omega)
  obtain ⟨hentries, hdrop⟩ := parseFrom_ok hindex (by omega)
  rw [List.drop_zero] at hdrop
  rw [hdrop] at hil hiat
  have hfooter : foot = leBytes 8 indexOffset ++ (leBytes 8 bloomOff ++ magic) := by
    have hmag := at_slice (show footerLen - 8 + 8 ≤ foot.length by rw [hfl]; decide)
    rw [not_not.1 hmagic] at hmag
    refine eq_of_at_zero ((readU64_ok_iff.1 hindexOffset).2.append ?_) (by rw [hfl]; rfl)
    exact (readU64_ok_iff.1 hbloomOff).2.append hmag
  have hdata : At file 0 (file.take indexOffset) := ⟨[], file.drop indexOffset, by simp, rfl⟩
  have hdlen : (file.take indexOffset).length = indexOffset := by
    rw [List.length_take]
    omega
  dsimp only at h
  split at h
  case isTrue hzero =>
    -- no Bloom block: the index ends at the footer
    rw [if_pos hzero] at heoi
    have hf : file = bytes ⟨file.take indexOffset, index, none⟩ := by
      have hsum : (file.take indexOffset).length + (indexBytes index).length = file.length - footerLen := by omega
      have hnil := at_slice (show file.length - footerLen + 0 ≤ file.length by omega)
      rw [List.take_zero] at hnil
      refine eq_bytes hdata (by rwa [hdlen]) ?_ ?_ ?_
      · rw [hsum]
        exact hnil
      · rw [hsum, footer, hdlen, show bloomOffset ⟨file.take indexOffset, index, none⟩ = bloomOff from hzero.symm, ← hfooter]
        exact hfat
      · rw [hsum, show (bloomSection ⟨file.take indexOffset, index, none⟩).length = 0 from rfl]
        omega
    refine ⟨_, ⟨hf ▸ hlen, hentries, by simp, by simp⟩, hf⟩
  case isFalse hne =>
    rw [if_neg hne] at heoi
    obtain ⟨bbytes, hbbytes, h⟩ := bind_eq_ok.1 h
    obtain ⟨filter, hfilter, -⟩ := bind_eq_ok.1 h
    obtain ⟨b, hfits, rfl, -⟩ := decodeBloom_ok_iff.1 hfilter
    obtain ⟨hbl, hbat⟩ := readAt_ok hbbytes (by omega)
    have hoff : bloomOffset ⟨file.take indexOffset, index, some b⟩ = bloomOff := by
      simp only [bloomOffset, reduceCtorEq, if_false]
      omega
    have hf : file = bytes ⟨file.take indexOffset, index, some b⟩ := by
      have hsum : (file.take indexOffset).length + (indexBytes index).length = bloomOff := by omega
      refine eq_bytes hdata (by rwa [hdlen]) ?_ ?_ ?_
      · rw [hsum]
        exact hbat
      · rw [hsum, footer, hdlen, hoff, ← hfooter]
        change At file (bloomOff + (bloomBytes b).length) foot
        rwa [hbl, show bloomOff + (file.length - footerLen - bloomOff) = file.length - footerLen by omega]
      · rw [hsum]
        change file.length = bloomOff + (bloomBytes b).length + footerLen
        omega
    refine ⟨_, ⟨hf ▸ hlen, hentries, ?_, ?_⟩, hf⟩
    · rintro b' hb'
      obtain rfl := Option.some.inj hb'
      exact hfits
    · rintro b' -
      dsimp only
      omega

/-! ## Uniqueness -/

/-- A Bloom block is known from its bytes. -/
theorem bloomBytes_inj {b b' : BloomBlock} (hb : b.numHashes < 2 ^ 32) (hb' : b'.numHashes < 2 ^ 32)
    (h : bloomBytes b = bloomBytes b') : b = b' := by
  have hread : ∀ b : BloomBlock, b.numHashes < 2 ^ 32 → readU32 (bloomBytes b) 0 = .ok b.numHashes ∧
      readWords (bloomBytes b) b.words.length 0 = .ok b.words := by
    intro b hb
    have hwhole : At (bloomBytes b) 0 (leBytes 4 b.numHashes ++ wordBytes b.words) := ⟨[], [], by simp [bloomBytes], rfl⟩
    have hwords := hwhole.right
    rw [leBytes_length] at hwords
    exact ⟨readU32_ok_iff.2 ⟨by omega, hwhole.left⟩, readWords_of_at hwords⟩
  have hlen : b.words.length = b'.words.length := by
    have := congrArg List.length h
    rw [bloomBytes_length, bloomBytes_length] at this
    omega
  obtain ⟨hhashes, hwords⟩ := hread b hb
  obtain ⟨hhashes', hwords'⟩ := hread b' hb'
  rw [h] at hhashes hwords
  rw [hlen] at hwords
  have hn : b.numHashes = b'.numHashes := Except.ok.inj (hhashes.symm.trans hhashes')
  have hws : b.words = b'.words := Except.ok.inj (hwords.symm.trans hwords')
  obtain ⟨n, ws⟩ := b
  obtain ⟨n', ws'⟩ := b'
  exact congr (congrArg BloomBlock.mk hn) hws

/-- A file is of one table. -/
theorem TableFits.unique {f f' : SstFile} (h : TableFits f) (h' : TableFits f') (heq : bytes f = bytes f') : f = f' := by
  have hreader : readerOf Ctx.concrete "" f = readerOf Ctx.concrete "" f' := by
    have hopen := h.opens Ctx.concrete ""
    rw [heq, h'.opens Ctx.concrete ""] at hopen
    exact (Except.ok.inj hopen).symm
  have hdlen : f.data.length = f'.data.length := congrArg SsTableReader.indexOffset hreader
  have hindex : f.index = f'.index := congrArg SsTableReader.index hreader
  obtain ⟨hdata, hrest⟩ := List.append_inj heq hdlen
  rw [hindex] at hrest
  obtain ⟨hbloom, -⟩ := List.append_inj' (List.append_cancel_left hrest) (by rw [footer_length, footer_length])
  obtain ⟨data, index, bloom⟩ := f
  obtain ⟨data', index', bloom'⟩ := f'
  obtain rfl : data = data' := hdata
  obtain rfl : index = index' := hindex
  refine congrArg (SstFile.mk data index) ?_
  cases hb : bloom with
  | none =>
    cases hb' : bloom' with
    | none => rfl
    | some b' =>
      have hlen := congrArg List.length hbloom
      simp only [bloomSection, hb, hb', Option.map_none, Option.map_some, Option.getD_none, Option.getD_some, List.length_nil,
        bloomBytes_length] at hlen
      omega
  | some b =>
    cases hb' : bloom' with
    | none =>
      have hlen := congrArg List.length hbloom
      simp [bloomSection, hb, hb', bloomBytes_length] at hlen
    | some b' =>
      have hsame : bloomBytes b = bloomBytes b' := by simpa [bloomSection, hb, hb'] using hbloom
      rw [bloomBytes_inj (h.framed.numHashes b hb) (h'.framed.numHashes b' hb') hsame]

/-! ## What is refused -/

/-- Words that cannot be read are corruption. -/
theorem readWords_error {bs : Bytes} {n i : Nat} {err : LsmError} (h : readWords bs n i = .error err) :
    ∃ msg, err = .corruption msg := by
  induction n generalizing i with
  | zero => simp [readWords] at h
  | succ n ih =>
    rw [readWords] at h
    rcases bind_eq_error.1 h with h | ⟨word, -, h⟩
    · exact readLe_error h
    · rcases bind_eq_error.1 h with h | ⟨rest, -, h⟩
      · exact ih h
      · simp [pure, Except.pure] at h

/-- A Bloom block that cannot be decoded is corruption. -/
theorem decodeBloom_error {bs : Bytes} {err : LsmError} (h : decodeBloom Γ bs = .error err) : ∃ msg, err = .corruption msg := by
  unfold decodeBloom at h
  rcases guard_eq_error.1 h with ⟨-, rfl⟩ | ⟨-, h⟩
  · exact ⟨_, rfl⟩
  rcases bind_eq_error.1 h with h | ⟨numHashes, -, h⟩
  · exact readLe_error h
  rcases guard_eq_error.1 h with ⟨-, rfl⟩ | ⟨-, h⟩
  · exact ⟨_, rfl⟩
  rcases guard_eq_error.1 h with ⟨-, rfl⟩ | ⟨-, h⟩
  · exact ⟨_, rfl⟩
  rcases bind_eq_error.1 h with h | ⟨words, -, h⟩
  · exact readWords_error h
  · simp [pure, Except.pure] at h

/-- A read inside the file does not fail. -/
theorem readAt_ne_error {file : Bytes} {o len : Nat} {err : LsmError} (hle : o + len ≤ file.length) : readAt file o len ≠ .error err := by
  rw [readAt, if_neg (by omega)]
  simp

/-- A file that cannot be opened is corrupt. -/
theorem openFile_error {path : String} {file : Bytes} {err : LsmError} (h : openFile Γ path file = .error err) :
    ∃ msg, err = .corruption msg := by
  unfold openFile at h
  rcases guard_eq_error.1 h with ⟨-, rfl⟩ | ⟨hshort, h⟩
  · exact ⟨_, rfl⟩
  rcases bind_eq_error.1 h with h | ⟨foot, -, h⟩
  · exact absurd h (readAt_ne_error (by omega))
  rcases guard_eq_error.1 h with ⟨-, rfl⟩ | ⟨-, h⟩
  · exact ⟨_, rfl⟩
  rcases bind_eq_error.1 h with h | ⟨indexOffset, -, h⟩
  · exact readLe_error h
  rcases bind_eq_error.1 h with h | ⟨bloomOff, -, h⟩
  · exact readLe_error h
  rcases guard_eq_error.1 h with ⟨-, rfl⟩ | ⟨hoverlap, h⟩
  · exact ⟨_, rfl⟩
  rcases guard_eq_error.1 h with ⟨-, rfl⟩ | ⟨hrange, h⟩
  · exact ⟨_, rfl⟩
  rcases bind_eq_error.1 h with h | ⟨ibytes, -, h⟩
  · exact absurd h (readAt_ne_error (by omega))
  rcases bind_eq_error.1 h with h | ⟨index, -, h⟩
  · exact parseFrom_error h
  dsimp only at h
  split at h
  · simp [pure, Except.pure, bind, Except.bind] at h
  rcases bind_eq_error.1 h with h | ⟨bbytes, -, h⟩
  · exact absurd h (readAt_ne_error (by omega))
  rcases bind_eq_error.1 h with h | ⟨filter, -, h⟩
  · exact decodeBloom_error h
  · simp [pure, Except.pure, bind, Except.bind] at h

/-- A byte string is opened exactly when it is the bytes of sections that fit, these are then the only ones, and the reader is made of
them; every other byte string is corruption. -/
theorem open_accepts_tables (Γ : Ctx) (path : String) {file : Bytes} (hlen : file.length < 2 ^ 64) :
    (∀ r, openFile Γ path file = .ok r ↔ ∃ f, TableFits f ∧ file = bytes f ∧ r = readerOf Γ path f) ∧
    (∀ f f', TableFits f → TableFits f' → bytes f = bytes f' → f = f') ∧
    ∀ err, openFile Γ path file = .error err → ∃ msg, err = .corruption msg := by
  refine ⟨fun r => ⟨fun h => ?_, ?_⟩, fun f f' h h' heq => h.unique h' heq, fun err h => openFile_error h⟩
  · obtain ⟨f, hf, rfl⟩ := sections_of_open h hlen
    rw [hf.opens Γ path] at h
    exact ⟨f, hf, rfl, (Except.ok.inj h).symm⟩
  · rintro ⟨f, hf, rfl, rfl⟩
    exact hf.opens Γ path

/-- The file of two records with a Bloom block is such a table, and half of it is not. -/
theorem open_accepts_tables_pair :
    let b := ((SsTableBuilder.withExpectedItems Ctx.concrete 1).addCalls [([1], [7], false), ([2], [], true)]).1
    ∃ file, build b = .ok file ∧ (∃ f, TableFits f ∧ f.bloom ≠ none ∧ file = bytes f) ∧
      ∃ msg, openFile Ctx.concrete "L0_000001.sst" (file.take 36) = .error (.corruption msg) := by
  intro b
  have hall : (build b).toOption.any (fun file => decide (file.length = 72) &&
      (openFile Ctx.concrete "L0_000001.sst" file).toOption.any (fun r => r.bloom.isSome) &&
      (openFile Ctx.concrete "L0_000001.sst" (file.take 36)).toOption.isNone) = true := by decide +kernel
  cases hfile : build b with
  | error err => simp [hfile, Except.toOption] at hall
  | ok file =>
    simp only [hfile, Except.toOption, Option.any_some, Bool.and_eq_true, decide_eq_true_eq] at hall
    obtain ⟨⟨hlen, hsome⟩, hnone⟩ := hall
    have hlt : file.length < 2 ^ 64 := by omega
    have hhalf : (file.take 36).length < 2 ^ 64 := by
      rw [List.length_take]
      omega
    refine ⟨file, rfl, ?_, ?_⟩
    · cases hopen : openFile Ctx.concrete "L0_000001.sst" file with
      | error err => simp [hopen] at hsome
      | ok r =>
        obtain ⟨f, hf, rfl, rfl⟩ := ((open_accepts_tables Ctx.concrete "L0_000001.sst" hlt).1 r).1 hopen
        refine ⟨f, hf, fun hc => ?_, rfl⟩
        simp [hopen, readerOf, hc] at hsome
    · cases hopen : openFile Ctx.concrete "L0_000001.sst" (file.take 36) with
      | ok r => simp [hopen] at hnone
      | error err =>
        obtain ⟨msg, rfl⟩ := (open_accepts_tables Ctx.concrete "L0_000001.sst" hhalf).2.2 err hopen
        exact ⟨msg, rfl⟩

end SsTableFile

end LsmEngine
