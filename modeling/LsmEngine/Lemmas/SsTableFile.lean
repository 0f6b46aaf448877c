import LsmEngine.Lemmas.Bytes
import LsmEngine.Lemmas.SsTable
import LsmEngine.SsTableFile

/-!
# The bytes of a table and its sections

`build_bytes`, `openFile_bytes`, `records_bytes` and `get_bytes`: the file that a builder writes is the bytes of its sections, and the
reader over the bytes does what the reader over the sections does, as long as the numbers fit their fields and the index points into
the data.
-/

namespace LsmEngine

open Fallible Segment SsTableAux

namespace SsTableFile

/-! ## The sparse index -/

/-- The bytes of an index entry. -/
def entryBytes (e : IndexEntry) : Bytes :=
  leBytes 2 e.firstKey.length ++ (e.firstKey ++ (leBytes 8 e.offset ++ leBytes 8 e.size))

def indexBytes (es : List IndexEntry) : Bytes := es.flatMap entryBytes

/-- The numbers of an entry fit their fields. -/
structure EntryFits (e : IndexEntry) : Prop where
  key : e.firstKey.length ≤ maxKeyLen
  offset : e.offset < 2 ^ 64
  size : e.size < 2 ^ 64

/-- An entry of the index is as long as its header and key. -/
theorem entryBytes_length (e : IndexEntry) : (entryBytes e).length = indexEntryHeaderLen + e.firstKey.length := by
  simp only [entryBytes, List.length_append, leBytes_length, indexEntryHeaderLen]
  omega

@[simp] theorem indexBytes_nil : indexBytes [] = [] := rfl

@[simp] theorem indexBytes_cons (e : IndexEntry) (es : List IndexEntry) :
    indexBytes (e :: es) = entryBytes e ++ indexBytes es := rfl

/-- The index is as long as its entries together. -/
theorem indexBytes_length (es : List IndexEntry) :
    (indexBytes es).length = (es.map (fun e => indexEntryHeaderLen + e.firstKey.length)).sum := by
  induction es with
  | nil => rfl
  | cons e es ih => rw [indexBytes_cons, List.length_append, entryBytes_length, ih, List.map_cons, List.sum_cons]

/-- There are no more entries than bytes. -/
theorem length_le_indexBytes (es : List IndexEntry) : es.length ≤ (indexBytes es).length := by
  induction es with
  | nil => simp
  | cons e es ih =>
    rw [indexBytes_cons, List.length_append, entryBytes_length, List.length_cons]
    simp only [indexEntryHeaderLen]
    omega

/-- Entries are written one after another. -/
theorem foldl_putEntry (buf : Bytes) (es : List IndexEntry) : es.foldl putEntry buf = buf ++ indexBytes es := by
  induction es generalizing buf with
  | nil => simp
  | cons e es ih =>
    have hput : putEntry buf e = buf ++ entryBytes e := by
      simp only [putEntry, putU16, putU64, entryBytes, List.append_assoc]
    rw [List.foldl_cons, ih, hput, indexBytes_cons, List.append_assoc]

/-- The two forms of `encode_index` check the same, and write the same. -/
theorem encodeIndex_bytes (es : List IndexEntry) :
    encodeIndex [] es = (LsmEngine.encodeIndex es).map indexBytes := by
  unfold encodeIndex LsmEngine.encodeIndex
  cases es.find? (fun e => decide (e.firstKey.length > maxKeyLen)) with
  | some e => rfl
  | none =>
    dsimp only
    rw [foldl_putEntry, List.nil_append]
    rfl

/-- An entry is read exactly when it stands at the offset. -/
theorem readEntry_ok_iff {bytes : Bytes} {o n : Nat} {e : IndexEntry} :
    readEntry bytes o = .ok (e, n) ↔ EntryFits e ∧ At bytes o (entryBytes e) ∧ n = (entryBytes e).length := by
  constructor
  · intro h
    unfold readEntry at h
    dsimp only at h
    split at h
    · simp [bind, Except.bind, throw, throwThe, MonadExceptOf.throw] at h
    obtain ⟨keyLen, hlen, h⟩ := bind_eq_ok.1 h
    split at h
    · simp [bind, Except.bind, throw, throwThe, MonadExceptOf.throw] at h
    rename_i hshort hlong
    obtain ⟨offset, hoffset, h⟩ := bind_eq_ok.1 h
    obtain ⟨size, hsize, h⟩ := bind_eq_ok.1 h
    obtain ⟨rfl, rfl⟩ := Prod.mk.inj (Except.ok.inj h)
    obtain ⟨hl, hatl⟩ := readU16_ok_iff.1 hlen
    obtain ⟨ho, hato⟩ := readU64_ok_iff.1 hoffset
    obtain ⟨hs, hats⟩ := readU64_ok_iff.1 hsize
    simp only [indexEntryHeaderLen] at hlong
    have hkey : ((bytes.drop (o + 2)).take keyLen).length = keyLen := by
      rw [List.length_take, List.length_drop]
      omega
    refine ⟨⟨by rw [hkey]; simp only [maxKeyLen]; omega, by dsimp only; omega, by dsimp only; omega⟩, ?_, ?_⟩
    · unfold entryBytes
      dsimp only
      rw [hkey]
      refine hatl.append ?_
      rw [leBytes_length]
      refine (at_slice (by omega)).append ?_
      rw [hkey]
      refine hato.append ?_
      rwa [leBytes_length]
    · rw [entryBytes_length, hkey]
  · rintro ⟨he, h, rfl⟩
    have hle := h.le
    rw [entryBytes_length] at hle
    have hcap := he.key
    have hoff := he.offset
    have hsz := he.size
    simp only [maxKeyLen] at hcap
    have hlen : readU16 bytes o = .ok e.firstKey.length := readU16_ok_iff.2 ⟨by omega, h.left⟩
    have hkey : At bytes (o + 2) (e.firstKey ++ (leBytes 8 e.offset ++ leBytes 8 e.size)) := by
      have := h.right
      rwa [leBytes_length] at this
    have hoffset : readU64 bytes (o + 2 + e.firstKey.length) = .ok e.offset :=
      readU64_ok_iff.2 ⟨by omega, hkey.right.left⟩
    have hsize : readU64 bytes (o + 2 + e.firstKey.length + 8) = .ok e.size := by
      have := hkey.right.right
      rw [leBytes_length] at this
      exact readU64_ok_iff.2 ⟨by omega, this⟩
    unfold readEntry
    simp only [bind, Except.bind, pure, Except.pure]
    rw [if_neg (by omega), hlen]
    dsimp only
    rw [if_neg (by omega), hoffset]
    dsimp only
    rw [hsize, hkey.left.slice, entryBytes_length]

/-- An entry that cannot be read is corruption. -/
theorem readEntry_error {bytes : Bytes} {o : Nat} {err : LsmError} (h : readEntry bytes o = .error err) :
    ∃ msg, err = .corruption msg := by
  unfold readEntry at h
  dsimp only at h
  split at h
  · exact ⟨_, (Except.error.inj h).symm⟩
  rcases bind_eq_error.1 h with h | ⟨keyLen, -, h⟩
  · exact readLe_error h
  split at h
  · exact ⟨_, (Except.error.inj h).symm⟩
  rcases bind_eq_error.1 h with h | ⟨offset, -, h⟩
  · exact readLe_error h
  rcases bind_eq_error.1 h with h | ⟨size, -, h⟩
  · exact readLe_error h
  simp [pure, Except.pure] at h

/-- By induction on the entries: the bytes of an index parse to it. -/
theorem parseFrom_eq (pre : Bytes) {es : List IndexEntry} (he : ∀ e ∈ es, EntryFits e) (fuel : Nat) (hf : es.length ≤ fuel) :
    parseFrom (pre ++ indexBytes es) fuel pre.length = .ok es := by
  induction es generalizing pre fuel with
  | nil =>
    cases fuel with
    | zero => rfl
    | succ fuel => simp [parseFrom]
  | cons e es ih =>
    cases fuel with
    | zero => simp at hf
    | succ fuel =>
      have hat : At (pre ++ indexBytes (e :: es)) pre.length (entryBytes e) := at_middle pre (entryBytes e) (indexBytes es)
      have hlt : pre.length < (pre ++ indexBytes (e :: es)).length := by
        have := hat.le
        rw [entryBytes_length] at this
        simp only [indexEntryHeaderLen] at this
        omega
      have hrest := ih (pre ++ entryBytes e) (fun x hx => he x (List.mem_cons_of_mem _ hx)) fuel (by simpa using hf)
      rw [List.length_append, List.append_assoc, ← indexBytes_cons] at hrest
      rw [parseFrom, if_pos hlt, readEntry_ok_iff.2 ⟨he e List.mem_cons_self, hat, rfl⟩]
      simp only [bind, Except.bind, pure, Except.pure]
      rw [hrest]

/-- What the loop has read when it ends. -/
theorem parseFrom_ok {bytes : Bytes} {fuel o : Nat} {es : List IndexEntry} (h : parseFrom bytes fuel o = .ok es)
    (hfuel : bytes.length ≤ o + fuel) : (∀ e ∈ es, EntryFits e) ∧ bytes.drop o = indexBytes es := by
  induction fuel generalizing o es with
  | zero =>
    rw [← Except.ok.inj h, List.drop_of_length_le (by omega)]
    exact ⟨by simp, rfl⟩
  | succ fuel ih =>
    rw [parseFrom] at h
    split at h
    · obtain ⟨⟨e, n⟩, hread, h⟩ := bind_eq_ok.1 h
      obtain ⟨rest, hrest, h⟩ := bind_eq_ok.1 h
      obtain rfl := Except.ok.inj h
      obtain ⟨he, hat, rfl⟩ := readEntry_ok_iff.1 hread
      have hpos : 0 < (entryBytes e).length := by
        rw [entryBytes_length]
        simp only [indexEntryHeaderLen]
        omega
      obtain ⟨hes, hdrop⟩ := ih hrest (by omega)
      refine ⟨?_, by rw [indexBytes_cons, ← hdrop]; exact hat.drop⟩
      intro x hx
      rcases List.mem_cons.1 hx with rfl | hx
      · exact he
      · exact hes x hx
    · rw [← Except.ok.inj h, List.drop_of_length_le (by omega)]
      exact ⟨by simp, rfl⟩

/-- By induction on the fuel: every error of the parser is corruption. -/
theorem parseFrom_error {bytes : Bytes} {fuel o : Nat} {err : LsmError} (h : parseFrom bytes fuel o = .error err) :
    ∃ msg, err = .corruption msg := by
  induction fuel generalizing o with
  | zero => simp [parseFrom] at h
  | succ fuel ih =>
    rw [parseFrom] at h
    split at h
    · rcases bind_eq_error.1 h with h | ⟨⟨e, n⟩, -, h⟩
      · exact readEntry_error h
      · rcases bind_eq_error.1 h with h | ⟨rest, -, h⟩
        · exact ih h
        · simp [pure, Except.pure] at h
    · simp at h

/-- The index is read back. -/
theorem parseIndex_indexBytes {es : List IndexEntry} (he : ∀ e ∈ es, EntryFits e) : parseIndex (indexBytes es) = .ok es :=
  parseFrom_eq [] he _ (length_le_indexBytes es)

/-! ## The Bloom block -/

def wordBytes (ws : List UInt64) : Bytes := ws.flatMap (fun w => leBytes 8 w.toNat)

def bloomBytes (b : BloomBlock) : Bytes := leBytes 4 b.numHashes ++ wordBytes b.words

@[simp] theorem wordBytes_cons (w : UInt64) (ws : List UInt64) : wordBytes (w :: ws) = leBytes 8 w.toNat ++ wordBytes ws := rfl

/-- A word takes eight bytes. -/
theorem wordBytes_length (ws : List UInt64) : (wordBytes ws).length = 8 * ws.length := by
  induction ws with
  | nil => rfl
  | cons w ws ih =>
    rw [wordBytes_cons, List.length_append, leBytes_length, ih, List.length_cons]
    omega

/-- A Bloom block is as long as its count and its words. -/
theorem bloomBytes_length (b : BloomBlock) : (bloomBytes b).length = 4 + 8 * b.words.length := by
  rw [bloomBytes, List.length_append, leBytes_length, wordBytes_length]

/-- Words are written one after another. -/
theorem foldl_putWord (buf : Bytes) (ws : List UInt64) :
    ws.foldl (fun buf word => putU64 buf word.toNat) buf = buf ++ wordBytes ws := by
  induction ws generalizing buf with
  | nil => simp [wordBytes]
  | cons w ws ih => rw [List.foldl_cons, ih, putU64, wordBytes_cons, List.append_assoc]

/-- A filter is written as its Bloom block. -/
theorem encodeBloom_bytes (Γ : Ctx) (bloom : Γ.Filter) : encodeBloom Γ [] bloom = bloomBytes (LsmEngine.encodeBloom Γ bloom) := by
  rw [encodeBloom, foldl_putWord, putU32, List.nil_append]
  rfl

/-- Words are read where they stand. -/
theorem readWords_of_at {bytes : Bytes} {ws : List UInt64} {i : Nat} (h : At bytes (4 + i * 8) (wordBytes ws)) :
    readWords bytes ws.length i = .ok ws := by
  induction ws generalizing i with
  | nil => rfl
  | cons w ws ih =>
    rw [wordBytes_cons] at h
    have hword : readU64 bytes (4 + i * 8) = .ok w.toNat := by
      have hlt := w.toNat_lt
      exact readU64_ok_iff.2 ⟨by omega, h.left⟩
    have hrest : readWords bytes ws.length (i + 1) = .ok ws := by
      refine ih ?_
      have := h.right
      rwa [leBytes_length, show 4 + i * 8 + 8 = 4 + (i + 1) * 8 by omega] at this
    rw [List.length_cons, readWords, hword]
    simp only [bind, Except.bind, pure, Except.pure]
    rw [hrest, UInt64.ofNat_toNat]

/-- The two forms of `decode_bloom` check the same, and rebuild the same filter. -/
theorem decodeBloom_bytes (Γ : Ctx) {b : BloomBlock} (hn : b.numHashes < 2 ^ 32) :
    decodeBloom Γ (bloomBytes b) = LsmEngine.decodeBloom Γ b := by
  have hlen := bloomBytes_length b
  have hwhole : At (bloomBytes b) 0 (leBytes 4 b.numHashes ++ wordBytes b.words) := ⟨[], [], by simp [bloomBytes], rfl⟩
  have hhashes : readU32 (bloomBytes b) 0 = .ok b.numHashes := readU32_ok_iff.2 ⟨by omega, hwhole.left⟩
  have hwords : readWords (bloomBytes b) b.words.length 0 = .ok b.words := by
    refine readWords_of_at ?_
    have := hwhole.right
    rwa [leBytes_length] at this
  have hcount : ((bloomBytes b).length - 4) / 8 = b.words.length := by omega
  unfold decodeBloom LsmEngine.decodeBloom
  simp only [bind, Except.bind, pure, Except.pure, throw, throwThe, MonadExceptOf.throw]
  rw [if_neg (by omega), hhashes, hcount]
  dsimp only
  by_cases hplausible : b.numHashes = 0 ∨ b.numHashes > maxNumHashes
  · rw [if_pos hplausible, if_pos hplausible]
  · rw [if_neg hplausible, if_neg hplausible]
    by_cases hnil : b.words = []
    · rw [if_pos (by rw [hnil]; rfl), if_pos hnil]
    · rw [if_neg (fun h => hnil (List.length_eq_zero_iff.1 h)), if_neg hnil, hwords]

/-! ## The sections of a file -/

/-- The Bloom section. -/
def bloomSection (f : SstFile) : Bytes := (f.bloom.map bloomBytes).getD []

/-- The offset of the Bloom block in the footer: 0 when there is none. -/
def bloomOffset (f : SstFile) : Nat :=
  if f.bloom = none then 0 else f.data.length + (indexBytes f.index).length

def footer (f : SstFile) : Bytes := leBytes 8 f.data.length ++ (leBytes 8 (bloomOffset f) ++ magic)

/-- The bytes of a file. -/
def bytes (f : SstFile) : Bytes := f.data ++ (indexBytes f.index ++ (bloomSection f ++ footer f))

/-- The numbers of a file fit their fields, a Bloom block does not start the file, and the index points into the data. -/
structure FileFits (f : SstFile) : Prop where
  length : (bytes f).length < 2 ^ 64
  key : ∀ e ∈ f.index, e.firstKey.length ≤ maxKeyLen
  inside : ∀ e ∈ f.index, e.offset + e.size ≤ f.data.length
  numHashes : ∀ b, f.bloom = some b → b.numHashes < 2 ^ 32
  index_ne : f.bloom ≠ none → f.index ≠ []

/-- A footer is as long as the constant says. -/
theorem footer_length (f : SstFile) : (footer f).length = footerLen := by
  simp [footer, magic, footerLen]

/-- A file is as long as its sections and its footer. -/
theorem bytes_length_eq (f : SstFile) :
    (bytes f).length = f.data.length + (indexBytes f.index).length + (bloomSection f).length + footerLen := by
  simp only [bytes, List.length_append, footer_length]
  omega

theorem bytes_length (f : SstFile) : (bytes f).length = f.fileLen := by
  rw [bytes_length_eq, SstFile.fileLen, indexBytes_length]
  cases hb : f.bloom with
  | none => simp [bloomSection, hb]
  | some b => simp [bloomSection, hb, bloomBytes_length]

/-- The index stands after the data. -/
theorem at_index (f : SstFile) : At (bytes f) f.data.length (indexBytes f.index) :=
  at_middle _ _ _

/-- The Bloom section stands after the index. -/
theorem at_bloom (f : SstFile) : At (bytes f) (f.data.length + (indexBytes f.index).length) (bloomSection f) :=
  ⟨f.data ++ indexBytes f.index, footer f, by simp only [bytes, List.append_assoc], List.length_append⟩

/-- The footer stands at the end. -/
theorem at_footer (f : SstFile) : At (bytes f) ((bytes f).length - footerLen) (footer f) := by
  refine ⟨f.data ++ (indexBytes f.index ++ bloomSection f), [], by simp only [bytes, List.append_assoc, List.append_nil], ?_⟩
  rw [bytes_length_eq]
  simp only [List.length_append]
  omega

/-- A positional read gives what stands there. -/
theorem readAt_of_at {file g : Bytes} {o : Nat} (h : At file o g) : readAt file o g.length = .ok g := by
  have := h.le
  rw [readAt, if_neg (by omega), h.slice]

/-- `build` writes the bytes of the sections. -/
theorem build_bytes {Γ : Ctx} (b : SsTableBuilder Γ) : build b = b.build.map bytes := by
  unfold build SsTableBuilder.build
  simp only [bind, Except.bind, pure, Except.pure]
  rw [encodeIndex_bytes]
  cases LsmEngine.encodeIndex b.finalizeBlock.index with
  | error err => rfl
  | ok index =>
    cases hb : b.finalizeBlock.bloom with
    | none => simp [Except.map, bytes, bloomSection, footer, bloomOffset, putU64]
    | some bloom =>
      have hne : bloomBytes (LsmEngine.encodeBloom Γ bloom) ≠ [] := by
        intro h
        have := bloomBytes_length (LsmEngine.encodeBloom Γ bloom)
        rw [h, List.length_nil] at this
        omega
      simp [Except.map, bytes, bloomSection, footer, bloomOffset, putU64, encodeBloom_bytes, hne]

/-- The reader over the bytes of a file. -/
def reader {Γ : Ctx} (path : String) (r : LsmEngine.SsTableReader Γ) : SsTableReader Γ :=
  ⟨bytes r.file, (bytes r.file).length, r.file.data.length, r.file.index, r.bloom, path⟩

/-- The entries of a file that fits its format fit theirs. -/
theorem FileFits.entry {f : SstFile} (hf : FileFits f) {e : IndexEntry} (he : e ∈ f.index) : EntryFits e := by
  have hin := hf.inside e he
  have hlt := hf.length
  rw [bytes_length_eq] at hlt
  exact ⟨hf.key e he, by omega, by omega⟩

/-- With a Bloom block, its offset is not the 0 that stands for none. -/
theorem FileFits.bloomOffset_ne {f : SstFile} (hf : FileFits f) {b : BloomBlock} (hb : f.bloom = some b) :
    f.data.length + (indexBytes f.index).length ≠ 0 := by
  have hne : f.index ≠ [] := hf.index_ne (by simp [hb])
  have := length_le_indexBytes f.index
  have := List.length_pos_iff.2 hne
  omega

/-- The numbers of the entries and the hash count fit their fields, and a Bloom block does not start the file. -/
structure Framed (f : SstFile) : Prop where
  length : (bytes f).length < 2 ^ 64
  entries : ∀ e ∈ f.index, EntryFits e
  numHashes : ∀ b, f.bloom = some b → b.numHashes < 2 ^ 32
  bloomOffset_ne : ∀ b, f.bloom = some b → f.data.length + (indexBytes f.index).length ≠ 0

/-- A file that fits its format is framed by its footer. -/
theorem FileFits.framed {f : SstFile} (hf : FileFits f) : Framed f :=
  ⟨hf.length, fun _ he => hf.entry he, hf.numHashes, fun _ hb => hf.bloomOffset_ne hb⟩

/-- Opening the bytes of a file is opening its sections. -/
theorem openFile_framed (Γ : Ctx) (path : String) {f : SstFile} (hf : Framed f) :
    openFile Γ path (bytes f) = (LsmEngine.SsTableReader.openFile Γ f).map (reader path) := by
  have hlen := bytes_length_eq f
  have hlt := hf.length
  have hfooter : readAt (bytes f) ((bytes f).length - footerLen) footerLen = .ok (footer f) := by
    have := readAt_of_at (at_footer f)
    rwa [footer_length] at this
  have hmagic : (footer f).drop (footerLen - 8) = magic := by
    have hsplit : footer f = (leBytes 8 f.data.length ++ leBytes 8 (bloomOffset f)) ++ magic := by
      simp only [footer, List.append_assoc]
    rw [hsplit, List.drop_left' (by simp [footerLen])]
  have hwhole : At (footer f) 0 (leBytes 8 f.data.length ++ (leBytes 8 (bloomOffset f) ++ magic)) := ⟨[], [], by simp [footer], rfl⟩
  have hidx : readU64 (footer f) 0 = .ok f.data.length := readU64_ok_iff.2 ⟨by omega, hwhole.left⟩
  have hblo : readU64 (footer f) 8 = .ok (bloomOffset f) := by
    have := hwhole.right.left
    rw [leBytes_length] at this
    refine readU64_ok_iff.2 ⟨?_, this⟩
    unfold bloomOffset
    split <;> omega
  have hindex : readAt (bytes f) f.data.length (indexBytes f.index).length = .ok (indexBytes f.index) :=
    readAt_of_at (at_index f)
  have hparse : parseIndex (indexBytes f.index) = .ok f.index := parseIndex_indexBytes hf.entries
  unfold openFile
  simp only [bind, Except.bind, pure, Except.pure, throw, throwThe, MonadExceptOf.throw]
  rw [if_neg (by omega), hfooter]
  dsimp only
  rw [if_neg (by simp [hmagic]), hidx]
  dsimp only
  rw [hblo]
  dsimp only
  unfold LsmEngine.SsTableReader.openFile
  cases hb : f.bloom with
  | none =>
    have hoff : bloomOffset f = 0 := by simp [bloomOffset, hb]
    have hsec : (bloomSection f).length = 0 := by simp [bloomSection, hb]
    have hend : (bytes f).length - footerLen - f.data.length = (indexBytes f.index).length := by omega
    rw [hoff, if_neg (by simp), if_pos rfl, if_neg (by omega), hend, hindex]
    dsimp only
    rw [hparse]
    rfl
  | some b =>
    have hoff : bloomOffset f = f.data.length + (indexBytes f.index).length := by simp [bloomOffset, hb]
    have hne := hf.bloomOffset_ne b hb
    have hsec : bloomSection f = bloomBytes b := by simp [bloomSection, hb]
    have hend : f.data.length + (indexBytes f.index).length - f.data.length = (indexBytes f.index).length := by omega
    have hlast : (bytes f).length - footerLen - (f.data.length + (indexBytes f.index).length) = (bloomBytes b).length := by
      rw [← hsec]
      omega
    have hbloom : readAt (bytes f) (f.data.length + (indexBytes f.index).length) (bloomBytes b).length = .ok (bloomBytes b) := by
      rw [← hsec]
      exact readAt_of_at (at_bloom f)
    rw [hoff, if_neg (by omega), if_neg hne, if_neg (by omega), hend, hindex]
    dsimp only
    rw [hparse]
    dsimp only
    rw [if_neg hne, hlast, hbloom]
    dsimp only
    rw [decodeBloom_bytes Γ (hf.numHashes b hb)]
    cases LsmEngine.decodeBloom Γ b with
    | error err => rfl
    | ok bloom => rfl

/-- Opening the bytes of a table is opening the table. -/
theorem openFile_bytes (Γ : Ctx) (path : String) {f : SstFile} (hf : FileFits f) :
    openFile Γ path (bytes f) = (LsmEngine.SsTableReader.openFile Γ f).map (reader path) :=
  openFile_framed Γ path hf.framed

/-- A reader has the file that was opened. -/
theorem openFile_file {Γ : Ctx} {f : SstFile} {r : LsmEngine.SsTableReader Γ}
    (h : LsmEngine.SsTableReader.openFile Γ f = .ok r) : r.file = f := by
  unfold LsmEngine.SsTableReader.openFile at h
  split at h
  · rw [← Except.ok.inj h]
  · rename_i b _
    simp only [bind, Except.bind, pure, Except.pure] at h
    cases hd : LsmEngine.decodeBloom Γ b with
    | error err => simp [hd] at h
    | ok bloom =>
      simp only [hd] at h
      rw [← Except.ok.inj h]

/-- The records are read from the data section. -/
theorem records_bytes {Γ : Ctx} (path : String) (r : LsmEngine.SsTableReader Γ) : (reader path r).records = r.records := by
  have hdata : readAt (bytes r.file) 0 r.file.data.length = .ok r.file.data := readAt_of_at ⟨[], _, rfl, rfl⟩
  unfold SsTableReader.records SsTableReader.readBlockAt
  simp only [bind, Except.bind, reader]
  rw [hdata]
  rfl

/-- A lookup reads the block from the data section. -/
theorem get_bytes {Γ : Ctx} (path : String) {r : LsmEngine.SsTableReader Γ} (hf : FileFits r.file) (key : Key) :
    (reader path r).get key = r.get key := by
  have hlen := bytes_length_eq r.file
  have hlt := hf.length
  unfold SsTableReader.get LsmEngine.SsTableReader.get
  have hprobe : (reader path r).bloomProbe key = r.bloomProbe key := rfl
  have hindex : (reader path r).index = r.file.index := rfl
  rw [hprobe, hindex]
  split_ifs with h
  · rfl
  · cases locateBlock r.file.index key with
    | none => rfl
    | some i =>
      dsimp only
      cases he : r.file.index[i]? with
      | none => rfl
      | some entry =>
        have hin := hf.inside entry (List.mem_of_getElem? he)
        have hblock : readAt (bytes r.file) entry.offset entry.size = .ok ((r.file.data.drop entry.offset).take entry.size) := by
          have hat := (at_slice hin).extend (indexBytes r.file.index ++ (bloomSection r.file ++ footer r.file))
          have hread := readAt_of_at hat
          rwa [show ((r.file.data.drop entry.offset).take entry.size).length = entry.size by
            rw [List.length_take, List.length_drop]; omega] at hread
        dsimp only
        rw [if_neg (by omega), if_neg (by simp only [reader]; omega), if_neg (by rw [← bytes_length]; omega)]
        simp only [bind, Except.bind, SsTableReader.readBlockAt, reader]
        rw [hblock]
        rfl

/-! ## Built files -/

/-- The blocks lie inside the data. -/
theorem indexOf_inside {o : Nat} {bs : List (List Record)} {e : IndexEntry} (he : e ∈ indexOf o bs) :
    e.offset + e.size ≤ o + (encRecords bs.flatten).length := by
  induction bs generalizing o with
  | nil => simp [indexOf] at he
  | cons blk bs ih =>
    rw [List.flatten_cons, encRecords_append, List.length_append]
    rcases List.mem_cons.1 he with rfl | he
    · dsimp only
      omega
    · have := ih he
      omega

/-- An index that is encoded is itself, with keys that fit. -/
theorem encodeIndex_ok {es es' : List IndexEntry} (h : LsmEngine.encodeIndex es = .ok es') :
    es' = es ∧ ∀ e ∈ es, e.firstKey.length ≤ maxKeyLen := by
  unfold LsmEngine.encodeIndex at h
  split at h
  · simp at h
  · rename_i hfind
    refine ⟨(Except.ok.inj h).symm, fun e he => ?_⟩
    simpa using List.find?_eq_none.1 hfind e he

/-- The numbers of a file that a builder writes fit their fields when its length does. -/
theorem fileFits_of_build {Γ : Ctx} {n : Nat} {rs : List Record} {b : SsTableBuilder Γ} {blocks : List (List Record)}
    {cur : List Record} (h : BuilderInv Γ n rs b blocks cur) {f : SstFile} (hb : b.build = .ok f)
    (hlen : (bytes f).length < 2 ^ 64) : FileFits f := by
  have h' := h.finalize
  generalize closed blocks cur = blocks' at h'
  have hall : blocks'.flatten = rs := by
    have := h'.all
    rwa [List.append_nil] at this
  unfold SsTableBuilder.build at hb
  simp only [bind, Except.bind, pure, Except.pure] at hb
  cases hi : LsmEngine.encodeIndex b.finalizeBlock.index with
  | error err => simp [hi] at hb
  | ok index =>
    obtain ⟨rfl, hkeys⟩ := encodeIndex_ok hi
    simp only [hi, Except.ok.injEq] at hb
    subst hb
    refine ⟨hlen, hkeys, ?_, ?_, ?_⟩
    · intro e he
      dsimp only at he ⊢
      rw [h'.index] at he
      rw [h'.data]
      have := indexOf_inside he
      omega
    · intro block hblock
      dsimp only at hblock
      rw [h'.bloom] at hblock
      split_ifs at hblock with hn
      · have hbounds := Γ.numHashes_bounds n (rs.map Prod.fst)
        obtain rfl := Option.some.inj hblock
        simp only [LsmEngine.encodeBloom]
        omega
      · simp at hblock
    · intro hne hnil
      dsimp only at hne hnil
      -- a filter is made by the first record, which is in a block by now
      have hrs : rs ≠ [] := by
        rintro rfl
        rw [h'.bloom] at hne
        simp at hne
      rw [h'.index] at hnil
      have hblocks : blocks' = [] := by
        rw [← List.length_eq_zero_iff, ← indexOf_length 0 blocks', hnil, List.length_nil]
      rw [hblocks] at hall
      exact hrs hall.symm

end SsTableFile

/-! ## Calls of `add` -/

/-- A call within the length caps whose key is strictly greater than the last accepted one. -/
def Acceptable (last : Option Key) (r : Record) : Prop :=
  r.1.length ≤ maxKeyLen ∧ r.2.1.length ≤ maxValueLen ∧ ∀ prev ∈ last, prev < r.1

instance (last : Option Key) (r : Record) : Decidable (Acceptable last r) := inferInstanceAs (Decidable (_ ∧ _ ∧ _))

/-- Of some calls, those within the length caps whose key is strictly greater than that of the previous one kept. -/
def acceptableCalls (last : Option Key) : List Record → List Record
  | [] => []
  | r :: rs => if Acceptable last r then r :: acceptableCalls (some r.1) rs else acceptableCalls last rs

/-- What is accepted of the calls comes in their order. -/
theorem acceptableCalls_sublist (last : Option Key) (calls : List Record) : (acceptableCalls last calls).Sublist calls := by
  induction calls generalizing last with
  | nil => exact List.Sublist.refl _
  | cons r calls ih =>
    unfold acceptableCalls
    split
    · exact (ih _).cons_cons r
    · exact (ih _).cons r

theorem acceptableCalls_capped (last : Option Key) (calls : List Record) : Capped (acceptableCalls last calls) := by
  induction calls generalizing last with
  | nil => simp [acceptableCalls, Capped]
  | cons r calls ih =>
    unfold acceptableCalls
    split
    · rename_i hr
      intro x hx
      rcases List.mem_cons.1 hx with rfl | hx
      · exact ⟨hr.1, hr.2.1⟩
      · exact ih _ x hx
    · exact ih _

/-- What is kept ascends from the last accepted key on. -/
theorem acceptableCalls_ascends (last : Option Key) (calls : List Record) :
    Sorted (acceptableCalls last calls) ∧ ∀ r ∈ acceptableCalls last calls, ∀ prev ∈ last, prev < r.1 := by
  induction calls generalizing last with
  | nil => simp [acceptableCalls, Sorted]
  | cons r calls ih =>
    unfold acceptableCalls
    split
    · rename_i hr
      obtain ⟨hs, hgt⟩ := ih (some r.1)
      have hlt : ∀ x ∈ acceptableCalls (some r.1) calls, r.1 < x.1 := fun x hx => hgt x hx r.1 rfl
      refine ⟨List.pairwise_cons.2 ⟨hlt, hs⟩, ?_⟩
      intro x hx prev hprev
      have hfirst := hr.2.2 prev hprev
      rcases List.mem_cons.1 hx with rfl | hx
      · exact hfirst
      · exact hfirst.trans (hlt x hx)
    · exact ih last

namespace SsTableBuilder

variable {Γ : Ctx}

/-- A call of `add` that fails leaves the builder as it was. -/
theorem addCall_eq (b : SsTableBuilder Γ) (key : Key) (value : Value) (deleted : Bool) :
    b.addCall key value deleted =
      match b.add key value deleted with
      | .ok b' => (b', .ok ())
      | .error err => (b, .error err) := by
  unfold addCall add
  by_cases hk : key.length > maxKeyLen
  · rw [if_pos hk, if_pos hk]
  by_cases hv : value.length > maxValueLen
  · rw [if_neg hk, if_neg hk, if_pos hv, if_pos hv]
  by_cases hord : b.lastKey.any (fun prev => decide (key ≤ prev)) = true
  · rw [if_neg hk, if_neg hk, if_neg hv, if_neg hv, if_pos hord, if_pos hord]
  · -- the caps hold, so `put_record` does not fail
    have hput : ∀ buf, putRecord buf key value deleted = .ok (buf ++ encRecord (key, value, deleted)) :=
      fun buf => putRecord_eq (r := (key, value, deleted)) buf (by dsimp only; omega) (by dsimp only; omega)
    rw [if_neg hk, if_neg hk, if_neg hv, if_neg hv, if_neg hord, if_neg hord]
    simp only [hput, bind, Except.bind, pure, Except.pure]

/-- A key is above the last one, if there is one. -/
theorem any_le_eq_false {last : Option Key} {key : Key} :
    last.any (fun prev => decide (key ≤ prev)) = false ↔ ∀ prev ∈ last, prev < key := by
  cases last <;> simp

/-- An acceptable call is accepted, and its key becomes the last one. -/
theorem add_of_acceptable {b : SsTableBuilder Γ} {r : Record} (h : Acceptable b.lastKey r) :
    ∃ b', b.add r.1 r.2.1 r.2.2 = .ok b' ∧ b'.lastKey = some r.1 := by
  obtain ⟨hk, hv, hord⟩ := h
  have hput : ∀ buf, putRecord buf r.1 r.2.1 r.2.2 = .ok (buf ++ encRecord r) := fun buf => putRecord_eq buf hk hv
  unfold add
  rw [if_neg (by omega), if_neg (by omega), if_neg (by rw [any_le_eq_false.2 hord]; exact Bool.false_ne_true)]
  simp only [hput, bind, Except.bind, pure, Except.pure]
  exact ⟨_, rfl, rfl⟩

/-- Any other call is rejected. -/
theorem add_of_not_acceptable {b : SsTableBuilder Γ} {r : Record} (h : ¬Acceptable b.lastKey r) :
    ∃ err, b.add r.1 r.2.1 r.2.2 = .error err := by
  unfold add
  by_cases hk : r.1.length > maxKeyLen
  · exact ⟨_, if_pos hk⟩
  by_cases hv : r.2.1.length > maxValueLen
  · exact ⟨_, by rw [if_neg hk, if_pos hv]⟩
  by_cases hord : b.lastKey.any (fun prev => decide (r.1 ≤ prev)) = true
  · exact ⟨_, by rw [if_neg hk, if_neg hv, if_pos hord]⟩
  · refine absurd ⟨by omega, by omega, any_le_eq_false.1 ?_⟩ h
    exact Bool.eq_false_of_not_eq_true hord

/-- Of calls one after another the acceptable ones are accepted, and the others leave no trace in the builder. -/
theorem addCalls_eq (b : SsTableBuilder Γ) (calls : List Record) :
    (b.addCalls calls).2 = acceptableCalls b.lastKey calls ∧
      b.addAll (acceptableCalls b.lastKey calls) = .ok (b.addCalls calls).1 := by
  induction calls generalizing b with
  | nil => exact ⟨rfl, rfl⟩
  | cons r calls ih =>
    by_cases hr : Acceptable b.lastKey r
    · obtain ⟨b', hadd, hlast⟩ := add_of_acceptable hr
      obtain ⟨hacc, hall⟩ := ih b'
      have hcall : b.addCall r.1 r.2.1 r.2.2 = (b', .ok ()) := by rw [addCall_eq, hadd]
      rw [hlast] at hacc hall
      rw [addCalls, hcall, acceptableCalls, if_pos hr]
      refine ⟨by rw [← hacc], ?_⟩
      rw [addAll, hadd]
      exact hall
    · obtain ⟨err, hadd⟩ := add_of_not_acceptable hr
      have hcall : b.addCall r.1 r.2.1 r.2.2 = (b, .error err) := by rw [addCall_eq, hadd]
      rw [addCalls, hcall, acceptableCalls, if_neg hr]
      exact ih b

/-- Where every call is accepted, the calls are the loop over `add`. -/
theorem addCalls_of_addAll {b b' : SsTableBuilder Γ} {rs : List Record} (h : b.addAll rs = .ok b') :
    b.addCalls rs = (b', rs) := by
  induction rs generalizing b with
  | nil => rw [addCalls, Except.ok.inj h]
  | cons r rs ih =>
    simp only [addAll, bind, Except.bind] at h
    cases hadd : b.add r.1 r.2.1 r.2.2 with
    | error err => simp [hadd] at h
    | ok b₁ =>
      simp only [hadd] at h
      rw [addCalls, addCall_eq, hadd]
      dsimp only
      rw [ih h]

end SsTableBuilder

end LsmEngine
