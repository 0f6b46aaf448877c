import LsmEngine.Lemmas.SsTableFile

/-!
# Tables round trip

Whatever calls of `add` a builder gets, the file it writes is read back as the calls it accepted: opened from its bytes, scanned, and
asked for any key.
-/

namespace LsmEngine

open SsTableAux

namespace SsTableFile

variable {Γ : Ctx}

/-- The answers to lookups of every key that some records call for. -/
def Answers (rs : List Record) (get : Key → Except LsmError (Option LookupValue)) : Prop :=
  ∀ k, (∀ v, (k, v, false) ∈ rs → get k = .ok (some (.present v))) ∧
    (∀ v, (k, v, true) ∈ rs → get k = .ok (some .deleted)) ∧
    ((∀ r ∈ rs, r.1 ≠ k) → get k = .ok none)

/-- A file that opens, whatever its path, lists the records and answers every lookup from them. -/
def Holds (Γ : Ctx) (file : Bytes) (rs : List Record) : Prop :=
  ∀ path, ∃ rd, openFile Γ path file = .ok rd ∧ rd.records = .ok rs ∧ Answers rs rd.get

/-- The round trip of a builder `b` through the calls of `add` on it, with `rs` the calls that returned `Ok`. The length of a file is
a `u64`. -/
structure RoundTrip (b : SsTableBuilder Γ) (calls rs : List Record) : Prop where
  subsequence : rs = acceptableCalls none calls ∧ rs.Sublist calls
  same_file : (b.addCalls rs).2 = rs ∧ build (b.addCalls rs).1 = build (b.addCalls calls).1
  minKey : (b.addCalls calls).1.minKey = rs.head?.map Prod.fst
  maxKey : (b.addCalls calls).1.maxKey = rs.getLast?.map Prod.fst
  holds : ∃ file, build (b.addCalls calls).1 = .ok file ∧ (file.length < 2 ^ 64 → Holds Γ file rs)

/-- What the records of the keys say is what the lookups answer. -/
theorem answers_of_find {rs : List Record} (hs : Sorted rs) {get : Key → Except LsmError (Option LookupValue)}
    (h : ∀ k, get k = .ok ((SortedMap.find k rs).map lookupValue)) : Answers rs get := by
  intro k
  refine ⟨fun v hv => ?_, fun v hv => ?_, fun hne => ?_⟩
  · rw [h, SortedMap.find_eq_some_of_mem hs hv]
    rfl
  · rw [h, SortedMap.find_eq_some_of_mem hs hv]
    rfl
  · rw [h, SortedMap.find_eq_none.2 hne]
    rfl

/-- A file whose sections read the records back holds them in its bytes. -/
theorem holds_of_readsBack {f : SstFile} (hf : FileFits f) {rs : List Record} (hs : Sorted rs) (h : ReadsBack Γ f rs) :
    Holds Γ (bytes f) rs := by
  obtain ⟨rd, hopen, hrecords, hget⟩ := h
  have hfile : rd.file = f := openFile_file hopen
  intro path
  refine ⟨reader path rd, ?_, ?_, answers_of_find hs (fun k => ?_)⟩
  · rw [openFile_bytes Γ path hf, hopen]
    rfl
  · rw [records_bytes]
    exact hrecords
  · rw [get_bytes path (by rwa [hfile])]
    exact hget k

/-- What a builder writes is read back, whatever calls come. -/
theorem roundTrip_withExpectedItems (Γ : Ctx) (n : Nat) (calls : List Record) :
    RoundTrip (.withExpectedItems Γ n) calls ((SsTableBuilder.withExpectedItems Γ n).addCalls calls).2 := by
  obtain ⟨hacc, hall⟩ := (SsTableBuilder.withExpectedItems Γ n).addCalls_eq calls
  have hlast : (SsTableBuilder.withExpectedItems Γ n).lastKey = none := rfl
  rw [hlast] at hacc hall
  have hcap := acceptableCalls_capped none calls
  have hsorted := (acceptableCalls_ascends none calls).1
  obtain ⟨b, f, hadd, hbuild, hmin, hmax, hreads⟩ := build_reads_back Γ n hcap hsorted
  obtain ⟨b', hadd', hinv⟩ := builderInv_addAll Γ n hcap hsorted
  -- the two ways to the builder meet in what the calls leave
  obtain rfl : (SsTableBuilder.withExpectedItems Γ n |>.addCalls calls).1 = b := Except.ok.inj (hall.symm.trans hadd)
  obtain rfl := Except.ok.inj (hall.symm.trans hadd')
  have honly := SsTableBuilder.addCalls_of_addAll hall
  have hfile : build ((SsTableBuilder.withExpectedItems Γ n).addCalls calls).1 = .ok (bytes f) := by
    rw [build_bytes, hbuild]
    rfl
  rw [hacc]
  refine ⟨⟨rfl, acceptableCalls_sublist none calls⟩, by rw [honly]; exact ⟨rfl, rfl⟩, hmin, hmax, bytes f, hfile, fun hlen => ?_⟩
  exact holds_of_readsBack (fileFits_of_build hinv hbuild hlen) hsorted hreads

/-- Whatever is added to a builder, from either constructor, the accepted records are the acceptable calls, the file is the one they
alone make, and it is read back as them. -/
theorem table_round_trip (Γ : Ctx) (calls : List Record) :
    RoundTrip (.new Γ) calls ((SsTableBuilder.new Γ).addCalls calls).2 ∧
      ∀ n, RoundTrip (.withExpectedItems Γ n) calls ((SsTableBuilder.withExpectedItems Γ n).addCalls calls).2 :=
  ⟨roundTrip_withExpectedItems Γ 0 calls, fun n => roundTrip_withExpectedItems Γ n calls⟩

/-- Three calls of which the second repeats the key of the first: a file of 72 bytes with a Bloom block, read back as the other two. -/
theorem table_round_trip_repeated_key :
    let calls : List Record := [([1], [7], false), ([1], [8], false), ([2], [], true)]
    let b := (SsTableBuilder.withExpectedItems Ctx.concrete 1).addCalls calls
    b.2 = [([1], [7], false), ([2], [], true)] ∧
      ∃ file, build b.1 = .ok file ∧ file.length = 72 ∧ Holds Ctx.concrete file b.2 := by
  intro calls b
  obtain ⟨file, hfile, hholds⟩ := ((table_round_trip Ctx.concrete calls).2 1).holds
  have hlen : (build b.1).map List.length = .ok 72 := by decide
  have h72 : file.length = 72 := by simpa [b, hfile, Except.map] using hlen
  exact ⟨by decide, file, hfile, h72, hholds (by omega)⟩

/-! ## The index codec -/

/-- A call of `encode_index` that fails leaves the buffer as it was. -/
theorem encodeIndexInto_eq (buf : Bytes) (es : List IndexEntry) :
    encodeIndexInto buf es =
      match encodeIndex buf es with
      | .ok buf' => (buf', .ok ())
      | .error err => (buf, .error err) := by
  unfold encodeIndexInto encodeIndex
  cases es.find? (fun e => decide (e.firstKey.length > maxKeyLen)) with
  | some e => rfl
  | none => rfl

/-- An index is encoded exactly when its keys fit, after what the buffer holds. -/
theorem encodeIndexInto_ok_iff {buf buf' : Bytes} {es : List IndexEntry} :
    encodeIndexInto buf es = (buf', .ok ()) ↔ (∀ e ∈ es, e.firstKey.length ≤ maxKeyLen) ∧ buf' = buf ++ indexBytes es := by
  unfold encodeIndexInto
  cases hfind : es.find? (fun e => decide (e.firstKey.length > maxKeyLen)) with
  | some e =>
    have hmem := List.mem_of_find?_eq_some hfind
    have hlong : e.firstKey.length > maxKeyLen := by simpa using List.find?_some hfind
    dsimp only
    constructor
    · simp
    · rintro ⟨hkeys, -⟩
      have := hkeys e hmem
      omega
  | none =>
    have hkeys : ∀ e ∈ es, e.firstKey.length ≤ maxKeyLen := fun e he => by
      simpa using List.find?_eq_none.1 hfind e he
    dsimp only
    rw [foldl_putEntry]
    constructor
    · intro h
      exact ⟨hkeys, (Prod.mk.inj h).1.symm⟩
    · rintro ⟨-, rfl⟩
      rfl

/-- What parses is what is encoded; everything else is corruption; and an encoding that is refused leaves its buffer alone. The
offsets and sizes of entries are `u64`. -/
theorem index_codec_is_bijective :
    (∀ b es, parseIndex b = .ok es ↔
      (∀ e ∈ es, e.offset < 2 ^ 64 ∧ e.size < 2 ^ 64) ∧ encodeIndexInto [] es = (b, .ok ())) ∧
    (∀ b, (∃ es, parseIndex b = .ok es) ∨ ∃ msg, parseIndex b = .error (.corruption msg)) ∧
    ∀ buf es err, (encodeIndexInto buf es).2 = .error err → (encodeIndexInto buf es).1 = buf := by
  refine ⟨fun b es => ?_, fun b => ?_, fun buf es err h => ?_⟩
  · constructor
    · intro h
      obtain ⟨hfits, hbytes⟩ := parseFrom_ok h (by omega)
      rw [List.drop_zero] at hbytes
      exact ⟨fun e he => ⟨(hfits e he).offset, (hfits e he).size⟩,
        encodeIndexInto_ok_iff.2 ⟨fun e he => (hfits e he).key, by rw [List.nil_append, hbytes]⟩⟩
    · rintro ⟨hnum, henc⟩
      obtain ⟨hkeys, hb⟩ := encodeIndexInto_ok_iff.1 henc
      rw [hb, List.nil_append]
      exact parseIndex_indexBytes (fun e he => ⟨hkeys e he, (hnum e he).1, (hnum e he).2⟩)
  · cases h : parseIndex b with
    | ok es => exact .inl ⟨es, rfl⟩
    | error err =>
      obtain ⟨msg, rfl⟩ := parseFrom_error h
      exact .inr ⟨msg, rfl⟩
  · rw [encodeIndexInto_eq] at h ⊢
    cases henc : encodeIndex buf es with
    | ok buf' => simp [henc] at h
    | error err' => rfl

end SsTableFile

end LsmEngine
