import LsmEngine.Lemmas.Bytes
import LsmEngine.ManifestFile
import Mathlib.Data.String.Basic

/-!
# What the MANIFEST codec accepts

`decode_ok_iff`: the byte strings that decode are the magic and the records of some tables, one after another, each of which can be
pushed onto those before it. The rest is about pushing: which manifests tables pushed one after another make, and that the tables
of such a manifest, level by level, make it again.
-/

namespace LsmEngine

namespace ManifestFile

open Fallible Segment

/-! ## One record -/

/-- The lengths fit their fields. -/
def SstMeta.Fits (sst : SstMeta) : Prop :=
  (asBytes sst.name).length < 2 ^ 32 ∧ sst.min.length < 2 ^ 32 ∧ sst.max.length < 2 ^ 32

instance (sst : SstMeta) : Decidable sst.Fits := inferInstanceAs (Decidable (_ ∧ _ ∧ _))

/-- A length and the bytes it counts. -/
def sized (payload : Bytes) : Bytes := leBytes 4 payload.length ++ payload

/-- The record of a table. -/
def SstMeta.record (sst : SstMeta) : Bytes :=
  leBytes 4 sst.level.toNat ++ (leBytes 8 sst.seq.toNat ++ (sized (asBytes sst.name) ++ (sized sst.min ++ sized sst.max)))

/-- The length of the record of a table. -/
def SstMeta.recordLen (sst : SstMeta) : Nat :=
  fixedHeaderLen + (asBytes sst.name).length + (4 + sst.min.length) + (4 + sst.max.length)

/-- The records of some tables. -/
def records (ms : List SstMeta) : Bytes := ms.flatMap SstMeta.record

@[simp] theorem sized_length (payload : Bytes) : (sized payload).length = 4 + payload.length := by
  simp [sized]

/-- A record has the length that is written before it. -/
theorem SstMeta.record_length (sst : SstMeta) : sst.record.length = sst.recordLen := by
  simp only [SstMeta.record, SstMeta.recordLen, fixedHeaderLen, List.length_append, leBytes_length, sized_length]
  omega

/-- A record is at least as long as its fixed part. -/
theorem SstMeta.recordLen_ge (sst : SstMeta) : fixedHeaderLen ≤ sst.recordLen := by
  unfold SstMeta.recordLen
  omega

@[simp] theorem records_nil : records [] = [] := rfl

@[simp] theorem records_cons (sst : SstMeta) (ms : List SstMeta) : records (sst :: ms) = sst.record ++ records ms := rfl

@[simp] theorem records_append (ms ns : List SstMeta) : records (ms ++ ns) = records ms ++ records ns := by
  simp [records]

/-- The records are as long as their lengths together. -/
theorem records_length (ms : List SstMeta) : (records ms).length = (ms.map SstMeta.recordLen).sum := by
  induction ms with
  | nil => rfl
  | cons sst ms ih => rw [records_cons, List.length_append, ih, SstMeta.record_length, List.map_cons, List.sum_cons]

/-- A character takes at most four bytes. -/
theorem length_asBytes_le (s : String) : (asBytes s).length ≤ 4 * s.toList.length := by
  have hsize : (asBytes s).length = s.utf8ByteSize := by simp [asBytes]
  have hchars : s.utf8ByteSize = String.utf8Len s.toList := by
    rw [← String.utf8ByteSize_ofList, String.ofList_toList]
  rw [hsize, hchars]
  generalize s.toList = cs
  induction cs with
  | nil => simp
  | cons c cs ih =>
    have := c.utf8Size_le_four
    rw [String.utf8Len_cons, List.length_cons]
    omega

/-- The bytes of a string are UTF-8 of that string. -/
theorem fromUtf8_asBytes (s : String) : fromUtf8 (asBytes s) = some s := by
  have hbytes : (⟨(asBytes s).toArray⟩ : ByteArray) = s.toByteArray := by simp [asBytes]
  rw [fromUtf8, hbytes, String.fromUTF8?, dif_pos s.isValidUTF8]
  rfl

/-- UTF-8 bytes are those of the string they decode to. -/
theorem asBytes_of_fromUtf8 {bs : Bytes} {s : String} (h : fromUtf8 bs = some s) : asBytes s = bs := by
  unfold fromUtf8 String.fromUTF8? at h
  split at h
  · rw [← Option.some.inj h]
    simp [asBytes, String.fromUTF8]
  · simp at h

/-- A payload is written after its length. -/
theorem putPayload_eq (buf : Bytes) {payload : Bytes} (h : payload.length < 2 ^ 32) :
    putPayload buf payload = some (buf ++ sized payload) := by
  rw [putPayload, if_pos h, putU32, sized, List.append_assoc]

/-- The record of a table that stands in its level. -/
theorem putMeta_eq (buf : Bytes) {level : Nat} {sst : SstMeta} (hl : sst.level.toNat = level) (h : sst.Fits) :
    putMeta buf level sst = some (buf ++ sst.record) := by
  subst hl
  simp only [putMeta, putPayload_eq _ h.1, putPayload_eq _ h.2.1, putPayload_eq _ h.2.2, Option.bind_eq_bind,
    Option.bind_some, putU32, putU64, SstMeta.record, List.append_assoc]

/-- A sized payload is read exactly where it stands. -/
theorem readSized_ok_iff {bytes payload : Bytes} {o o' : Nat} {what : String} :
    readSized bytes o what = .ok (payload, o') ↔
      payload.length < 2 ^ 32 ∧ At bytes o (sized payload) ∧ o' = o + (sized payload).length := by
  constructor
  · intro h
    obtain ⟨len, hr, h⟩ := bind_eq_ok.1 h
    unfold readPayload at h
    split at h
    · simp at h
    · rename_i hle
      obtain ⟨hlt, hat⟩ := readU32_ok_iff.1 hr
      rw [Except.ok.injEq, Prod.mk.injEq] at h
      have hlen : payload.length = len := by
        rw [← h.1, List.length_take, List.length_drop]
        omega
      subst hlen
      refine ⟨by omega, hat.append ?_, ?_⟩
      · have hp := at_slice (l := bytes) (o := o + 4) (n := payload.length) (by omega)
        rw [h.1] at hp
        rwa [leBytes_length]
      · rw [← h.2, sized_length]
        omega
  · rintro ⟨hlt, hat, rfl⟩
    have hread : readU32 bytes o = .ok payload.length := readU32_ok_iff.2 ⟨by omega, hat.left⟩
    have hp := hat.right
    rw [leBytes_length] at hp
    have hle := hp.le
    refine bind_eq_ok.2 ⟨_, hread, ?_⟩
    rw [readPayload, if_neg (by omega), hp.slice, sized_length, Nat.add_assoc]

/-- A sized payload that cannot be read is corruption. -/
theorem readSized_error {bytes : Bytes} {o : Nat} {what : String} {err : LsmError} (h : readSized bytes o what = .error err) :
    ∃ msg, err = .corruption msg := by
  rcases bind_eq_error.1 h with h | ⟨len, -, h⟩
  · exact readLe_error h
  · unfold readPayload at h
    split at h
    · exact ⟨_, (Except.error.inj h).symm⟩
    · simp at h

/-- A record is read exactly when it stands at the offset. -/
theorem readMeta_ok_iff {bytes : Bytes} {sst : SstMeta} {o o' : Nat} :
    readMeta bytes o = .ok (sst, o') ↔ sst.Fits ∧ At bytes o sst.record ∧ o' = o + sst.record.length := by
  constructor
  · intro h
    unfold readMeta at h
    split at h
    · simp [bind, Except.bind, throw, throwThe, MonadExceptOf.throw] at h
    obtain ⟨level, hlevel, h⟩ := bind_eq_ok.1 h
    obtain ⟨seq, hseq, h⟩ := bind_eq_ok.1 h
    obtain ⟨⟨nameBytes, o1⟩, hname, h⟩ := bind_eq_ok.1 h
    dsimp only at h
    split at h
    · simp [throw, throwThe, MonadExceptOf.throw] at h
    rename_i name hutf
    obtain ⟨⟨min, o2⟩, hmin, h⟩ := bind_eq_ok.1 h
    obtain ⟨⟨max, o3⟩, hmax, h⟩ := bind_eq_ok.1 h
    obtain ⟨rfl, rfl⟩ := Prod.mk.inj (Except.ok.inj h)
    obtain ⟨hl, hatl⟩ := readU32_ok_iff.1 hlevel
    obtain ⟨hs, hats⟩ := readU64_ok_iff.1 hseq
    obtain ⟨hn, hatn, rfl⟩ := readSized_ok_iff.1 hname
    obtain ⟨hmn, hatmn, rfl⟩ := readSized_ok_iff.1 hmin
    obtain ⟨hmx, hatmx, rfl⟩ := readSized_ok_iff.1 hmax
    obtain rfl := asBytes_of_fromUtf8 hutf
    have hlev : (UInt32.ofNat level).toNat = level := by
      rw [UInt32.toNat_ofNat']
      exact Nat.mod_eq_of_lt (by simpa using hl)
    have hsq : (UInt64.ofNat seq).toNat = seq := by
      rw [UInt64.toNat_ofNat']
      exact Nat.mod_eq_of_lt (by simpa using hs)
    refine ⟨⟨hn, hmn, hmx⟩, ?_, ?_⟩
    · unfold SstMeta.record
      dsimp only
      rw [hlev, hsq]
      refine hatl.append ?_
      rw [leBytes_length]
      refine hats.append ?_
      rw [leBytes_length]
      exact hatn.append (hatmn.append hatmx)
    · simp only [SstMeta.record, List.length_append, leBytes_length]
      omega
  · rintro ⟨hfits, hat, rfl⟩
    have hle := hat.le
    have hlen := sst.record_length
    have hge := sst.recordLen_ge
    unfold SstMeta.record at hat
    have hlevel : readU32 bytes o = .ok sst.level.toNat := readU32_ok_iff.2 ⟨by have := sst.level.toNat_lt; omega, hat.left⟩
    have hat1 := hat.right
    rw [leBytes_length] at hat1
    have hseq : readU64 bytes (o + 4) = .ok sst.seq.toNat := readU64_ok_iff.2 ⟨by have := sst.seq.toNat_lt; omega, hat1.left⟩
    have hat2 := hat1.right
    rw [leBytes_length] at hat2
    have hname : readSized bytes (o + 4 + 8) "sst name" = .ok (asBytes sst.name, _) :=
      readSized_ok_iff.2 ⟨hfits.1, hat2.left, rfl⟩
    have hmin : readSized bytes _ "min key" = .ok (sst.min, _) := readSized_ok_iff.2 ⟨hfits.2.1, hat2.right.left, rfl⟩
    have hmax : readSized bytes _ "max key" = .ok (sst.max, _) := readSized_ok_iff.2 ⟨hfits.2.2, hat2.right.right, rfl⟩
    unfold readMeta
    simp only [bind, Except.bind, pure, Except.pure, throw, throwThe, MonadExceptOf.throw]
    rw [if_neg (by omega)]
    simp only [hlevel, hseq, hname, fromUtf8_asBytes, hmin, hmax, UInt32.ofNat_toNat, UInt64.ofNat_toNat]
    congr 2
    simp only [SstMeta.record, List.length_append, leBytes_length]
    omega

/-- A record that cannot be read is corruption. -/
theorem readMeta_error {bytes : Bytes} {o : Nat} {err : LsmError} (h : readMeta bytes o = .error err) :
    ∃ msg, err = .corruption msg := by
  unfold readMeta at h
  split at h
  · exact ⟨_, (Except.error.inj h).symm⟩
  rcases bind_eq_error.1 h with h | ⟨level, -, h⟩
  · exact readLe_error h
  rcases bind_eq_error.1 h with h | ⟨seq, -, h⟩
  · exact readLe_error h
  rcases bind_eq_error.1 h with h | ⟨⟨nameBytes, o1⟩, -, h⟩
  · exact readSized_error h
  dsimp only at h
  split at h
  · exact ⟨_, (Except.error.inj h).symm⟩
  rcases bind_eq_error.1 h with h | ⟨⟨min, o2⟩, -, h⟩
  · exact readSized_error h
  rcases bind_eq_error.1 h with h | ⟨⟨max, o3⟩, -, h⟩
  · exact readSized_error h
  simp [pure, Except.pure] at h

/-! ## All records -/

/-- Tables pushed one after another. -/
def Manifest.pushAll (m : Manifest) : List SstMeta → Except LsmError Manifest
  | [] => .ok m
  | sst :: ms => do
    let m ← m.push sst
    m.pushAll ms

/-- Records are pushed one after another. -/
theorem pushAll_append (m : Manifest) (ms ns : List SstMeta) :
    m.pushAll (ms ++ ns) = m.pushAll ms >>= fun m' => m'.pushAll ns := by
  induction ms generalizing m with
  | nil => rfl
  | cons sst ms ih =>
    simp only [List.cons_append, Manifest.pushAll, bind, Except.bind] at ih ⊢
    cases m.push sst with
    | error err => rfl
    | ok m' => exact ih m'

/-- A record that is out of order is corruption. -/
theorem push_error {m : Manifest} {sst : SstMeta} {err : LsmError} (h : m.push sst = .error err) : ∃ msg, err = .corruption msg := by
  unfold Manifest.push at h
  dsimp only at h
  split at h
  · split at h
    · exact ⟨_, (Except.error.inj h).symm⟩
    · simp at h
  · simp at h

/-- The records that follow an offset are pushed one after another. -/
theorem decodeFrom_records {bytes pre : Bytes} {ms : List SstMeta} (hf : ∀ x ∈ ms, x.Fits) {fuel : Nat} {m : Manifest}
    (hb : bytes = pre ++ records ms) (hfuel : (records ms).length ≤ fuel) :
    decodeFrom bytes fuel pre.length m = m.pushAll ms := by
  induction ms generalizing pre fuel m with
  | nil =>
    subst hb
    cases fuel with
    | zero => rfl
    | succ fuel => simp [decodeFrom, Manifest.pushAll]
  | cons sst ms ih =>
    have hpos : 0 < sst.record.length := by
      have := sst.recordLen_ge
      rw [SstMeta.record_length]
      simp only [fixedHeaderLen] at this
      omega
    rw [records_cons, List.length_append] at hfuel
    obtain ⟨fuel, rfl⟩ : ∃ k, fuel = k + 1 := ⟨fuel - 1, by omega⟩
    have hat : At bytes pre.length sst.record := ⟨pre, records ms, by rw [hb, records_cons], rfl⟩
    have hread := readMeta_ok_iff.2 ⟨hf sst List.mem_cons_self, hat, rfl⟩
    have hlt : pre.length < bytes.length := by
      have := hat.le
      omega
    rw [decodeFrom, if_pos hlt, Manifest.pushAll, hread]
    simp only [bind, Except.bind]
    cases m.push sst with
    | error err => rfl
    | ok m' =>
      rw [← List.length_append]
      exact ih (fun x hx => hf x (List.mem_cons_of_mem _ hx)) (by rw [hb, records_cons, List.append_assoc]) (by omega)

/-- Records that fit decode to what pushing them gives. -/
theorem decode_records {ms : List SstMeta} (hf : ∀ x ∈ ms, x.Fits) :
    decode (magicManifest ++ records ms) = Manifest.pushAll {} ms := by
  have htake : (magicManifest ++ records ms).take magicLen = magicManifest := List.take_left
  have hlen : (magicManifest ++ records ms).length = magicLen + (records ms).length := List.length_append
  rw [decode, if_neg (by rw [htake, hlen]; simp)]
  exact decodeFrom_records hf rfl (by omega)

/-- What the loop has read when it ends. -/
theorem decodeFrom_ok {bytes : Bytes} {fuel o : Nat} {m m' : Manifest} (h : decodeFrom bytes fuel o m = .ok m')
    (hfuel : bytes.length ≤ o + fuel) (ho : o ≤ bytes.length) :
    ∃ ms, (∀ x ∈ ms, x.Fits) ∧ bytes.drop o = records ms ∧ m.pushAll ms = .ok m' := by
  induction fuel generalizing o m with
  | zero =>
    refine ⟨[], by simp, ?_, h⟩
    rw [List.drop_of_length_le (by omega)]
    rfl
  | succ fuel ih =>
    rw [decodeFrom] at h
    split at h
    · obtain ⟨⟨sst, o'⟩, hr, h⟩ := bind_eq_ok.1 h
      obtain ⟨m1, hp, h⟩ := bind_eq_ok.1 h
      obtain ⟨hfits, hat, rfl⟩ := readMeta_ok_iff.1 hr
      have hge := sst.recordLen_ge
      rw [← sst.record_length] at hge
      simp only [fixedHeaderLen] at hge
      obtain ⟨ms, hf, hdrop, hpush⟩ := ih h (by omega) hat.le
      refine ⟨sst :: ms, ?_, ?_, ?_⟩
      · intro x hx
        rcases List.mem_cons.1 hx with rfl | hx
        · exact hfits
        · exact hf x hx
      · rw [records_cons, ← hdrop]
        exact hat.drop
      · exact bind_eq_ok.2 ⟨m1, hp, hpush⟩
    · refine ⟨[], by simp, ?_, h⟩
      rw [List.drop_of_length_le (by omega)]
      rfl

/-- The byte strings that decode are the magic and records that can be pushed one after another. -/
theorem decode_ok {bytes : Bytes} {m : Manifest} (h : decode bytes = .ok m) :
    ∃ ms, (∀ x ∈ ms, x.Fits) ∧ bytes = magicManifest ++ records ms ∧ Manifest.pushAll {} ms = .ok m := by
  unfold decode at h
  split at h
  · simp at h
  · rename_i hmagic
    obtain ⟨hlen, htake⟩ := not_or.1 hmagic
    obtain ⟨ms, hf, hdrop, hpush⟩ := decodeFrom_ok h (by omega) (by omega)
    refine ⟨ms, hf, ?_, hpush⟩
    rw [← hdrop, ← not_not.1 htake, List.take_append_drop]

/-- By induction on the fuel: every error of the decoder is corruption. -/
theorem decodeFrom_error {bytes : Bytes} {fuel o : Nat} {m : Manifest} {err : LsmError} (h : decodeFrom bytes fuel o m = .error err) :
    ∃ msg, err = .corruption msg := by
  induction fuel generalizing o m with
  | zero => simp [decodeFrom] at h
  | succ fuel ih =>
    rw [decodeFrom] at h
    split at h
    · cases hr : readMeta bytes o with
      | error err' =>
        obtain rfl : err' = err := by simpa [hr, bind, Except.bind] using h
        exact readMeta_error hr
      | ok r =>
      simp only [hr, bind, Except.bind] at h
      cases hp : m.push r.1 with
      | error err' =>
        obtain rfl : err' = err := by simpa [hp] using h
        exact push_error hp
      | ok m1 =>
      simp only [hp] at h
      exact ih h
    · simp at h

/-- Every error of `decode` is corruption. -/
theorem decode_error {bytes : Bytes} {err : LsmError} (h : decode bytes = .error err) : ∃ msg, err = .corruption msg := by
  unfold decode at h
  split at h
  · exact ⟨_, (Except.error.inj h).symm⟩
  · exact decodeFrom_error h

/-- The records of tables say which tables they are of. -/
theorem records_inj {ms ns : List SstMeta} (hm : ∀ x ∈ ms, x.Fits) (hn : ∀ x ∈ ns, x.Fits) {rest : Bytes}
    (h : records ms ++ rest = records ns) : ∃ os, ns = ms ++ os := by
  induction ms generalizing ns with
  | nil => exact ⟨ns, rfl⟩
  | cons x ms ih =>
    have hpos : 0 < x.record.length := by
      have := x.recordLen_ge
      rw [SstMeta.record_length]
      simp only [fixedHeaderLen] at this
      omega
    cases ns with
    | nil =>
      have := congrArg List.length h
      simp only [records_cons, records_nil, List.length_append, List.length_nil] at this
      omega
    | cons y ns =>
      -- both records stand at the start
      have hx : At (records (y :: ns)) 0 x.record := ⟨[], records ms ++ rest, by rw [← h, records_cons]; simp, rfl⟩
      have hy : At (records (y :: ns)) 0 y.record := ⟨[], records ns, by rw [records_cons]; rfl, rfl⟩
      have h1 := readMeta_ok_iff.2 ⟨hm x List.mem_cons_self, hx, rfl⟩
      rw [readMeta_ok_iff.2 ⟨hn y List.mem_cons_self, hy, rfl⟩, Except.ok.injEq, Prod.mk.injEq] at h1
      obtain rfl := h1.1
      rw [records_cons, records_cons, List.append_assoc] at h
      obtain ⟨os, rfl⟩ := ih (fun z hz => hm z (List.mem_cons_of_mem _ hz)) (fun z hz => hn z (List.mem_cons_of_mem _ hz))
        (List.append_cancel_left h)
      exact ⟨os, rfl⟩

/-- Of the first bytes of some records, those decode that are whole records. -/
theorem decode_take {ms : List SstMeta} (hf : ∀ x ∈ ms, x.Fits) (n : Nat) :
    (∃ j ≤ ms.length, (magicManifest ++ records ms).take n = magicManifest ++ records (ms.take j)) ∨
      ∃ msg, decode ((magicManifest ++ records ms).take n) = .error (.corruption msg) := by
  cases hd : decode ((magicManifest ++ records ms).take n) with
  | error err =>
    obtain ⟨msg, rfl⟩ := decode_error hd
    exact .inr ⟨msg, rfl⟩
  | ok m' =>
    left
    obtain ⟨ns, hfn, hb, -⟩ := decode_ok hd
    have hpre := List.take_append_drop n (magicManifest ++ records ms)
    rw [hb, List.append_assoc] at hpre
    obtain ⟨os, hos⟩ := records_inj hfn hf (List.append_cancel_left hpre)
    refine ⟨ns.length, by rw [hos, List.length_append]; omega, ?_⟩
    rw [hb, hos, List.take_left]

/-! ## Manifests level by level -/

/-- `ssts_at`. -/
def Manifest.sstsAt (m : Manifest) (level : Nat) : List SstMeta := m.levels[level]?.getD []

def Ascending (l : List SstMeta) : Prop := l.Pairwise (fun a b => a.seq < b.seq)

/-- Each level in ascending order of seq, each table carrying its level, no empty level at the end. -/
structure Manifest.Ordered (m : Manifest) : Prop where
  ascending : ∀ l, Ascending (m.sstsAt l)
  level : ∀ l, ∀ x ∈ m.sstsAt l, x.level.toNat = l
  last : ∀ metas, m.levels.getLast? = some metas → metas ≠ []

/-- The empty manifest is in order. -/
theorem ordered_empty : Manifest.Ordered {} where
  ascending := fun l => by simp [Manifest.sstsAt, Ascending]
  level := fun l x hx => by simp [Manifest.sstsAt] at hx
  last := fun metas h => by simp at h

/-- A manifest that has grown has the level. -/
theorem length_grown (m : Manifest) (k : Nat) : (m.grown k).length = max m.levels.length (k + 1) := by
  rw [Manifest.grown, List.length_append, List.length_replicate]
  omega

theorem grown_getD (m : Manifest) (k l : Nat) : (m.grown k)[l]?.getD [] = m.sstsAt l := by
  unfold Manifest.grown Manifest.sstsAt
  rw [List.getElem?_append]
  split
  · rfl
  · rename_i hl
    rw [List.getElem?_eq_none (l := m.levels) (by omega), List.getElem?_replicate]
    split <;> rfl

/-- A change of one level. -/
theorem sstsAt_modify (m : Manifest) (k l : Nat) (f : List SstMeta → List SstMeta) :
    Manifest.sstsAt ⟨(m.grown k).modify k f⟩ l = if l = k then f (m.sstsAt k) else m.sstsAt l := by
  have hk : k < (m.grown k).length := by
    rw [length_grown]
    omega
  simp only [Manifest.sstsAt, List.getElem?_modify]
  split
  · rename_i hlk
    subst hlk
    rw [if_pos rfl, List.getElem?_eq_getElem hk]
    have := grown_getD m k k
    rw [List.getElem?_eq_getElem hk, Option.getD_some] at this
    simp [this, Manifest.sstsAt]
  · rename_i hlk
    rw [if_neg (fun h => hlk h.symm)]
    have := grown_getD m k l
    cases hg : (m.grown k)[l]? <;> simp_all [Manifest.sstsAt]

/-- A level that is added to is not empty. -/
theorem last_modify {m : Manifest} (h : ∀ metas, m.levels.getLast? = some metas → metas ≠ []) (k : Nat)
    {f : List SstMeta → List SstMeta} (hf : ∀ l, f l ≠ []) :
    ∀ metas, ((m.grown k).modify k f).getLast? = some metas → metas ≠ [] := by
  intro metas hlast
  have hlen := length_grown m k
  rw [List.getLast?_eq_getElem?, List.length_modify, List.getElem?_modify] at hlast
  split at hlast
  · obtain ⟨x, -, rfl⟩ := Option.map_eq_some_iff.1 hlast
    exact hf x
  · rename_i hne
    -- the level that changes is not the last one
    refine h metas ?_
    have hsub : k + 1 - m.levels.length = 0 := by omega
    rw [List.getLast?_eq_getElem?]
    simpa [Manifest.grown, hsub] using hlast

/-- A manifest is what it lists at each level. -/
theorem manifest_ext {m m' : Manifest} (h : ∀ metas, m.levels.getLast? = some metas → metas ≠ [])
    (h' : ∀ metas, m'.levels.getLast? = some metas → metas ≠ []) (heq : ∀ l, m.sstsAt l = m'.sstsAt l) : m = m' := by
  -- of two lists of levels that differ in length, the longer one has a last level that the other lacks
  have hle : ∀ {a b : Manifest}, (∀ metas, a.levels.getLast? = some metas → metas ≠ []) → (∀ l, a.sstsAt l = b.sstsAt l) →
      a.levels.length ≤ b.levels.length := by
    intro a b ha hab
    by_contra hlt
    have hpos : a.levels.length - 1 < a.levels.length := by omega
    have hl := hab (a.levels.length - 1)
    rw [Manifest.sstsAt, Manifest.sstsAt, List.getElem?_eq_none (l := b.levels) (by omega), Option.getD_none,
      List.getElem?_eq_getElem hpos, Option.getD_some] at hl
    refine ha _ ?_ hl
    rw [List.getLast?_eq_getElem?, List.getElem?_eq_getElem hpos]
  have hlen : m.levels.length = m'.levels.length := Nat.le_antisymm (hle h heq) (hle h' (fun l => (heq l).symm))
  obtain ⟨ls⟩ := m
  obtain ⟨ls'⟩ := m'
  congr 1
  refine List.ext_getElem hlen (fun i hi hi' => ?_)
  have hl := heq i
  rwa [Manifest.sstsAt, Manifest.sstsAt, List.getElem?_eq_getElem hi, List.getElem?_eq_getElem hi', Option.getD_some,
    Option.getD_some] at hl

/-! ## Pushing and adding -/

/-- The manifest with a table at the end of its level. -/
def Manifest.appended (m : Manifest) (sst : SstMeta) : Manifest :=
  ⟨(m.grown sst.level.toNat).modify sst.level.toNat (· ++ [sst])⟩

/-- A record is pushed exactly when its seq is above the last of its level. -/
theorem push_ok_iff {m m' : Manifest} {sst : SstMeta} : m.push sst = .ok m' ↔
    (∀ prev, (m.sstsAt sst.level.toNat).getLast? = some prev → prev.seq < sst.seq) ∧ m' = m.appended sst := by
  unfold Manifest.push
  dsimp only
  rw [grown_getD]
  cases hlast : (m.sstsAt sst.level.toNat).getLast? with
  | none => simp [Manifest.appended, eq_comm]
  | some prev =>
    dsimp only
    split
    · rename_i hge
      simp only [Option.some.injEq, reduceCtorEq, forall_eq', false_iff, not_and]
      intro hlt
      exact absurd hlt (UInt64.not_lt.2 hge)
    · rename_i hlt
      simp [Manifest.appended, eq_comm, UInt64.not_le.1 hlt]

/-- What is below the last of an ascending level. -/
theorem Ascending.lt_of_last {l : List SstMeta} (h : Ascending l) {sst : SstMeta}
    (hlast : ∀ prev, l.getLast? = some prev → prev.seq < sst.seq) : ∀ x ∈ l, x.seq < sst.seq := by
  intro x hx
  rcases List.eq_nil_or_concat l with rfl | ⟨ys, y, rfl⟩
  · simp at hx
  · rw [List.concat_eq_append] at h hlast hx
    have hy := hlast y (by simp)
    rcases List.mem_append.1 hx with hx | hx
    · exact UInt64.lt_trans ((List.pairwise_append.1 h).2.2 x hx y (by simp)) hy
    · rwa [List.mem_singleton.1 hx]

/-- A table above all others keeps a level ascending. -/
theorem Ascending.append {l : List SstMeta} (h : Ascending l) {sst : SstMeta} (hlt : ∀ x ∈ l, x.seq < sst.seq) :
    Ascending (l ++ [sst]) :=
  List.pairwise_append.2 ⟨h, List.pairwise_singleton _ _, fun x hx y hy => by rw [List.mem_singleton.1 hy]; exact hlt x hx⟩

/-- A record that is pushed comes last in its level. -/
theorem sstsAt_appended (m : Manifest) (sst : SstMeta) (l : Nat) : (m.appended sst).sstsAt l =
    if l = sst.level.toNat then m.sstsAt sst.level.toNat ++ [sst] else m.sstsAt l := sstsAt_modify m _ l _

/-- A manifest stays in order when a record above its level is pushed. -/
theorem Manifest.Ordered.appended {m : Manifest} (h : m.Ordered) {sst : SstMeta}
    (hlt : ∀ x ∈ m.sstsAt sst.level.toNat, x.seq < sst.seq) : (m.appended sst).Ordered where
  ascending := fun l => by
    rw [sstsAt_appended]
    split
    · exact (h.ascending _).append hlt
    · exact h.ascending l
  level := fun l x hx => by
    rw [sstsAt_appended] at hx
    split at hx
    · rename_i hl
      rcases List.mem_append.1 hx with hx | hx
      · rw [hl]
        exact h.level _ x hx
      · rw [hl, List.mem_singleton.1 hx]
    · exact h.level l x hx
  last := last_modify h.last _ (by simp)

/-- A table above all others comes last. -/
theorem insertBySeq_of_lt {sst : SstMeta} {l : List SstMeta} (h : ∀ x ∈ l, x.seq < sst.seq) : insertBySeq sst l = l ++ [sst] := by
  have htw : l.takeWhile (fun m => decide (m.seq < sst.seq)) = l := by
    rw [List.takeWhile_eq_self_iff]
    intro x hx
    simpa using h x hx
  rw [insertBySeq, partitionPoint, htw, List.insertIdx_length_self]

/-- Adding a table above those of its level puts it at the end. -/
theorem add_eq_appended {m : Manifest} {sst : SstMeta} (h : ∀ x ∈ m.sstsAt sst.level.toNat, x.seq < sst.seq) :
    m.add sst = m.appended sst := by
  unfold Manifest.add Manifest.appended
  congr 1
  refine List.ext_getElem? (fun i => ?_)
  rw [List.getElem?_modify, List.getElem?_modify]
  split
  · rename_i hi
    subst hi
    have hg := grown_getD m sst.level.toNat sst.level.toNat
    cases hl : (m.grown sst.level.toNat)[sst.level.toNat]? with
    | none => rfl
    | some l =>
      rw [hl, Option.getD_some] at hg
      rw [hg] at *
      simp [insertBySeq_of_lt h]
  · rfl

/-- Tables whose levels are each in ascending order can be pushed one after another, which is to add them; and the manifest lists
them level by level. -/
theorem pushAll_of_ascending (ms : List SstMeta) (h : ∀ l, Ascending (ms.filter (fun x => x.level.toNat = l))) :
    ∃ m, Manifest.pushAll {} ms = .ok m ∧ m.Ordered ∧ (∀ l, m.sstsAt l = ms.filter (fun x => x.level.toNat = l)) ∧
      m = ms.foldl Manifest.add {} := by
  induction ms using List.reverseRecOn with
  | nil => exact ⟨{}, rfl, ordered_empty, fun l => by simp [Manifest.sstsAt], rfl⟩
  | append_singleton ms sst ih =>
    simp only [List.filter_append] at h
    obtain ⟨m, hpush, hord, hat, hadd⟩ := ih (fun l => (List.pairwise_append.1 (h l)).1)
    have hlt : ∀ x ∈ m.sstsAt sst.level.toNat, x.seq < sst.seq := by
      intro x hx
      rw [hat] at hx
      exact (List.pairwise_append.1 (h sst.level.toNat)).2.2 x hx sst (by simp)
    refine ⟨m.appended sst, ?_, hord.appended hlt, fun l => ?_, ?_⟩
    · have hone : m.push sst = .ok (m.appended sst) :=
        push_ok_iff.2 ⟨fun prev hprev => hlt prev (List.mem_of_getLast? hprev), rfl⟩
      rw [pushAll_append, hpush]
      simp only [bind, Except.bind, Manifest.pushAll, hone]
    · rw [sstsAt_appended, List.filter_append, hat, hat]
      by_cases hl : sst.level.toNat = l
      · simp [hl]
      · rw [if_neg (fun hc => hl hc.symm)]
        simp [hl]
    · rw [List.foldl_append, List.foldl_cons, List.foldl_nil, ← hadd, add_eq_appended hlt]

/-- Tables that can be pushed one after another have their levels each in ascending order. -/
theorem ascending_of_pushAll {ms : List SstMeta} {m : Manifest} (h : Manifest.pushAll {} ms = .ok m) :
    ∀ l, Ascending (ms.filter (fun x => x.level.toNat = l)) := by
  induction ms using List.reverseRecOn generalizing m with
  | nil => exact fun l => by simp [Ascending]
  | append_singleton ms sst ih =>
    rw [pushAll_append] at h
    obtain ⟨m1, hp, h⟩ := bind_eq_ok.1 h
    obtain ⟨m3, hone, -⟩ := bind_eq_ok.1 h
    have hasc := ih hp
    obtain ⟨m2, hp2, hord, hat, -⟩ := pushAll_of_ascending _ hasc
    obtain rfl : m1 = m2 := by simpa [hp] using hp2
    obtain ⟨hlast, -⟩ := push_ok_iff.1 hone
    have hlt := (hord.ascending sst.level.toNat).lt_of_last hlast
    rw [hat] at hlt
    intro l
    rw [List.filter_append]
    by_cases hl : sst.level.toNat = l
    · subst hl
      simpa using (hasc _).append hlt
    · simpa [hl] using hasc l

/-- The tables of a manifest, level by level, sorted out by their level. -/
theorem filter_flatten (levels : List (List SstMeta)) (k : Nat)
    (h : ∀ i, ∀ x ∈ levels[i]?.getD [], x.level.toNat = k + i) (l : Nat) :
    levels.flatten.filter (fun x => x.level.toNat = k + l) = levels[l]?.getD [] := by
  induction levels generalizing k l with
  | nil => simp
  | cons metas levels ih =>
    have hrest := ih (k + 1) (fun i x hx => by
      have := h (i + 1) x (by simpa using hx)
      omega)
    rw [List.flatten_cons, List.filter_append]
    cases l with
    | zero =>
      have h1 : metas.filter (fun x => x.level.toNat = k + 0) = metas := by
        rw [List.filter_eq_self]
        intro x hx
        simpa using h 0 x (by simpa using hx)
      have h2 : levels.flatten.filter (fun x => x.level.toNat = k + 0) = [] := by
        rw [List.filter_eq_nil_iff]
        intro x hx
        obtain ⟨l', hl', hxl⟩ := List.mem_flatten.1 hx
        obtain ⟨i, hi⟩ := List.mem_iff_getElem?.1 hl'
        have := h (i + 1) x (by simpa [hi] using hxl)
        simp
        omega
      rw [h1, h2]
      simp
    | succ l =>
      have h1 : metas.filter (fun x => x.level.toNat = k + (l + 1)) = [] := by
        rw [List.filter_eq_nil_iff]
        intro x hx
        have := h 0 x (by simpa using hx)
        simp
        omega
      have := hrest l
      rw [show k + 1 + l = k + (l + 1) by omega] at this
      rw [h1, this]
      simp

/-- The tables of an ordered manifest, level by level, make it again. -/
theorem Manifest.Ordered.pushAll {m : Manifest} (h : m.Ordered) :
    Manifest.pushAll {} m.levels.flatten = .ok m := by
  have hfil : ∀ l, m.levels.flatten.filter (fun x => x.level.toNat = l) = m.sstsAt l := by
    intro l
    have := filter_flatten m.levels 0 (fun i x hx => by simpa using h.level i x hx) l
    simpa [Manifest.sstsAt] using this
  obtain ⟨m', hpush, hord, hat, -⟩ := pushAll_of_ascending m.levels.flatten (fun l => by rw [hfil]; exact h.ascending l)
  rw [hpush, manifest_ext h.last hord.last (fun l => by rw [hat, hfil])]

/-! ## Manifests made by adding -/

/-- A table is inserted before the first whose seq is not lower. -/
theorem insertBySeq_eq (sst : SstMeta) (l : List SstMeta) : insertBySeq sst l =
    l.takeWhile (fun m => decide (m.seq < sst.seq)) ++ sst :: l.dropWhile (fun m => decide (m.seq < sst.seq)) := by
  unfold insertBySeq partitionPoint
  induction l with
  | nil => rfl
  | cons x l ih =>
    by_cases hx : x.seq < sst.seq
    · simp only [List.takeWhile_cons, List.dropWhile_cons, hx, decide_true, if_true, List.length_cons, List.insertIdx_succ_cons,
        List.cons_append, ih]
    · simp [hx]

/-- An insertion adds the table and nothing else. -/
theorem mem_insertBySeq {sst x : SstMeta} {l : List SstMeta} : x ∈ insertBySeq sst l ↔ x = sst ∨ x ∈ l := by
  conv_rhs => rw [← List.takeWhile_append_dropWhile (p := fun m => decide (m.seq < sst.seq)) (l := l)]
  rw [insertBySeq_eq]
  simp only [List.mem_append, List.mem_cons]
  tauto

/-- A table whose seq is new to its level is put in its place. -/
theorem Ascending.insertBySeq {l : List SstMeta} (h : Ascending l) {sst : SstMeta} (hne : ∀ x ∈ l, x.seq ≠ sst.seq) :
    Ascending (insertBySeq sst l) := by
  rw [insertBySeq_eq]
  have hsplit := h
  rw [Ascending, ← List.takeWhile_append_dropWhile (p := fun m => decide (m.seq < sst.seq)) (l := l)] at hsplit
  obtain ⟨h1, h2, h3⟩ := List.pairwise_append.1 hsplit
  have hbelow : ∀ x ∈ l.takeWhile (fun m => decide (m.seq < sst.seq)), x.seq < sst.seq := by
    intro x hx
    simpa using List.mem_takeWhile_imp hx
  have habove : ∀ x ∈ l.dropWhile (fun m => decide (m.seq < sst.seq)), sst.seq < x.seq := by
    intro x hx
    cases hd : l.dropWhile (fun m => decide (m.seq < sst.seq)) with
    | nil => simp [hd] at hx
    | cons y ys =>
      have hmem : ∀ z ∈ y :: ys, z ∈ l := fun z hz => List.dropWhile_subset _ (by rw [hd]; exact hz)
      have hy : sst.seq < y.seq := by
        have hge : ¬y.seq < sst.seq := by
          simpa [hd] using List.head_dropWhile_not (fun m : SstMeta => decide (m.seq < sst.seq)) (l := l) (by rw [hd]; simp)
        have hney := hne y (hmem y List.mem_cons_self)
        exact UInt64.lt_of_le_of_ne (UInt64.not_lt.1 hge) (fun hc => hney hc.symm)
      rw [hd] at hx h2
      rcases List.mem_cons.1 hx with rfl | hx
      · exact hy
      · exact UInt64.lt_trans hy ((List.pairwise_cons.1 h2).1 x hx)
  refine List.pairwise_append.2 ⟨h1, List.pairwise_cons.2 ⟨habove, h2⟩, fun x hx y hy => ?_⟩
  rcases List.mem_cons.1 hy with rfl | hy
  · exact hbelow x hx
  · exact h3 x hx y hy

/-- A table that is added is inserted in its level. -/
theorem sstsAt_add (m : Manifest) (sst : SstMeta) (l : Nat) : (m.add sst).sstsAt l =
    if l = sst.level.toNat then insertBySeq sst (m.sstsAt sst.level.toNat) else m.sstsAt l := sstsAt_modify m _ l _

/-- A manifest stays in order when a table with a new seq is added. -/
theorem Manifest.Ordered.add {m : Manifest} (h : m.Ordered) {sst : SstMeta}
    (hne : ∀ x ∈ m.sstsAt sst.level.toNat, x.seq ≠ sst.seq) : (m.add sst).Ordered where
  ascending := fun l => by
    rw [sstsAt_add]
    split
    · exact (h.ascending _).insertBySeq hne
    · exact h.ascending l
  level := fun l x hx => by
    rw [sstsAt_add] at hx
    split at hx
    · rename_i hl
      rcases mem_insertBySeq.1 hx with rfl | hx
      · exact hl.symm
      · rw [hl]
        exact h.level _ x hx
    · exact h.level l x hx
  last := last_modify h.last _ (fun l hc => by
    have : sst ∈ ManifestFile.insertBySeq sst l := mem_insertBySeq.2 (.inl rfl)
    rw [hc] at this
    simp at this)

/-- Tables added in any order, of which no two have a level and a seq in common, make an ordered manifest that lists exactly
them. -/
theorem addAll_ordered {ms : List SstMeta} (h : (ms.map (fun x => (x.level, x.seq))).Nodup) :
    (ms.foldl Manifest.add {}).Ordered ∧
      ∀ l x, x ∈ (ms.foldl Manifest.add {}).sstsAt l ↔ x ∈ ms ∧ x.level.toNat = l := by
  induction ms using List.reverseRecOn with
  | nil => exact ⟨ordered_empty, fun l x => by simp [Manifest.sstsAt]⟩
  | append_singleton ms sst ih =>
    rw [List.map_append, List.nodup_append] at h
    obtain ⟨hord, hmem⟩ := ih h.1
    rw [List.foldl_append, List.foldl_cons, List.foldl_nil]
    refine ⟨hord.add (fun x hx heq => ?_), fun l x => ?_⟩
    · obtain ⟨hx, hl⟩ := (hmem _ x).1 hx
      refine h.2.2 (x.level, x.seq) (List.mem_map.2 ⟨x, hx, rfl⟩) (sst.level, sst.seq) (by simp) ?_
      rw [heq, UInt32.toNat_inj.1 hl]
    · rw [sstsAt_add]
      split
      · rename_i hl
        subst hl
        rw [mem_insertBySeq, hmem, List.mem_append, List.mem_singleton]
        constructor
        · rintro (rfl | ⟨hx, hl⟩)
          · exact ⟨.inr rfl, rfl⟩
          · exact ⟨.inl hx, hl⟩
        · rintro ⟨hx | rfl, hl⟩
          · exact .inr ⟨hx, hl⟩
          · exact .inl rfl
      · rename_i hl
        rw [hmem, List.mem_append, List.mem_singleton]
        constructor
        · exact fun hx => ⟨.inl hx.1, hx.2⟩
        · rintro ⟨hx | rfl, hxl⟩
          · exact ⟨hx, hxl⟩
          · exact absurd hxl.symm hl

/-! ## Writing -/

/-- A level is written as its records. -/
theorem putLevel_eq {level : Nat} {metas : List SstMeta} (hl : ∀ x ∈ metas, x.level.toNat = level) (hf : ∀ x ∈ metas, x.Fits)
    (buf : Bytes) : putLevel level buf metas = some (buf ++ records metas) := by
  induction metas generalizing buf with
  | nil => simp [putLevel]
  | cons sst metas ih =>
    rw [putLevel, putMeta_eq buf (hl sst List.mem_cons_self) (hf sst List.mem_cons_self)]
    simp only [Option.bind_eq_bind, Option.bind_some]
    rw [ih (fun x hx => hl x (List.mem_cons_of_mem _ hx)) (fun x hx => hf x (List.mem_cons_of_mem _ hx)), records_cons,
      List.append_assoc]

/-- The levels are written as their records. -/
theorem putLevels_eq {levels : List (List SstMeta)} {level : Nat} (hl : ∀ i, ∀ x ∈ levels[i]?.getD [], x.level.toNat = level + i)
    (hf : ∀ x ∈ levels.flatten, x.Fits) (buf : Bytes) : putLevels buf level levels = some (buf ++ records levels.flatten) := by
  induction levels generalizing buf level with
  | nil => simp [putLevels]
  | cons metas levels ih =>
    rw [List.flatten_cons] at hf
    rw [putLevels, putLevel_eq (fun x hx => by simpa using hl 0 x (by simpa using hx))
      (fun x hx => hf x (List.mem_append_left _ hx))]
    simp only [Option.bind_eq_bind, Option.bind_some]
    rw [ih (fun i x hx => by
      have := hl (i + 1) x (by simpa using hx)
      omega) (fun x hx => hf x (List.mem_append_right _ hx)), List.flatten_cons, records_append, List.append_assoc]

/-- `encode` writes the records of the tables, level by level. -/
theorem Manifest.Ordered.encode {m : Manifest} (h : m.Ordered) (hf : ∀ x ∈ m.levels.flatten, x.Fits) :
    encode m = some (magicManifest ++ records m.levels.flatten) :=
  putLevels_eq (fun i x hx => by simpa using h.level i x hx) hf _

/-- A table of a manifest is in one of its levels. -/
theorem mem_flatten_iff {m : Manifest} {x : SstMeta} : x ∈ m.levels.flatten ↔ ∃ l, x ∈ m.sstsAt l := by
  rw [List.mem_flatten]
  constructor
  · rintro ⟨metas, hmem, hx⟩
    obtain ⟨i, hi⟩ := List.mem_iff_getElem?.1 hmem
    exact ⟨i, by simpa [Manifest.sstsAt, hi] using hx⟩
  · rintro ⟨l, hx⟩
    unfold Manifest.sstsAt at hx
    cases hl : m.levels[l]? with
    | none => simp [hl] at hx
    | some metas =>
      rw [hl, Option.getD_some] at hx
      exact ⟨metas, List.mem_of_getElem? hl, hx⟩

/-- An ordered manifest is read back from its bytes. -/
theorem Manifest.Ordered.decode {m : Manifest} (h : m.Ordered) (hf : ∀ x ∈ m.levels.flatten, x.Fits) :
    ManifestFile.decode (magicManifest ++ records m.levels.flatten) = .ok m := by
  rw [decode_records hf, h.pushAll]

end ManifestFile

end LsmEngine
