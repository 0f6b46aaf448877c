import LsmEngine.Lemmas.Machine
import LsmEngine.Lemmas.WalFrames

/-!
# The language of the log

A scan of any bytes ends without a fault. What it accepts is the concatenation of encodings and an unfinished tail, and what it
rejects holds a frame that is no encoding, but for one frame that `decode_entry` lets through and `encode_entry` does not write: a
delete with a value.
-/

namespace LsmEngine

variable {Γ : Ctx}

/-- What a scan says of the bytes, against the encoder: the entries it finds can be encoded, and the bytes are these encodings and
an unfinished tail; or it is corruption, and some frame that is fully present is no encoding. -/
def ScanExact (Γ : Ctx) (bytes : Bytes) : Prop :=
  match scan Γ bytes with
  | .ok es => ∃ encoded tail, es.mapM (fun e => encodeEntry Γ e.op e.key e.value []) = .ok encoded ∧
      bytes = encoded.flatten ++ tail ∧ Unfinished tail
  | .error err => (∃ msg, err = .corruption msg) ∧
      ∃ f ∈ frames bytes, ∀ op key value, encodeEntry Γ op key value [] ≠ .ok f

/-- An entry is encoded exactly when it is valid, as its frame. -/
theorem encodeEntry_nil_ok_iff {op : WalOp} {key : Key} {value : Value} {f : Bytes} :
    encodeEntry Γ op key value [] = .ok f ↔ (⟨op, key, value⟩ : WalEntry).Valid ∧ f = (⟨op, key, value⟩ : WalEntry).frame Γ :=
  encodeEntry_ok_iff Γ ⟨op, key, value⟩ [] f

/-- Valid entries are encoded as their frames. -/
theorem mapM_encodeEntry {es : List WalEntry} (h : ∀ e ∈ es, e.Valid) :
    es.mapM (fun e => encodeEntry Γ e.op e.key e.value []) = .ok (es.map (WalEntry.frame Γ)) := by
  induction es with
  | nil => rfl
  | cons e es ih =>
    rw [List.mapM_cons, encodeEntry_of_valid Γ (h e List.mem_cons_self), ih (fun x hx => h x (List.mem_cons_of_mem _ hx))]
    rfl

/-- Entries that are encoded are valid. -/
theorem valid_of_mapM {es : List WalEntry} {encoded : List Bytes}
    (h : es.mapM (fun e => encodeEntry Γ e.op e.key e.value []) = .ok encoded) : ∀ e ∈ es, e.Valid := by
  induction es generalizing encoded with
  | nil => exact fun e he => absurd he List.not_mem_nil
  | cons e es ih =>
    rw [List.mapM_cons] at h
    obtain ⟨f, hf, h⟩ := Fallible.bind_eq_ok.1 h
    obtain ⟨fs, hfs, -⟩ := Fallible.bind_eq_ok.1 h
    intro x hx
    rcases List.mem_cons.1 hx with rfl | hx
    · exact (encodeEntry_nil_ok_iff.1 hf).1
    · exact ih hfs x hx

/-- The frames of a scan that ends well are those of its entries, and an entry can be encoded unless its frame is a delete with a
value. -/
theorem decoded_frames {fs : List Bytes} {es : List WalEntry} (hw : ∀ f ∈ fs, WholeFrame f)
    (h : List.Forall₂ (fun f e => decodeEntry Γ f = .ok e) fs es) :
    fs = es.map (WalEntry.frame Γ) ∧ ((∀ e ∈ es, e.Valid) ↔ ∀ f ∈ fs, ¬ ValuedDelete f) := by
  induction h with
  | nil => exact ⟨rfl, by simp⟩
  | cons hdec _ ih =>
    obtain ⟨hfs, hval⟩ := ih (fun f hf => hw f (List.mem_cons_of_mem _ hf))
    have hwhole := hw _ List.mem_cons_self
    constructor
    · rw [List.map_cons, ← hfs, ← frame_of_decoded hwhole hdec]
    · rw [List.forall_mem_cons, List.forall_mem_cons, hval, valid_iff_of_decoded hwhole hdec]

/-- Frames that are decoded are not damaged. -/
theorem not_damaged_of_decoded {fs : List Bytes} {es : List WalEntry} (hw : ∀ f ∈ fs, WholeFrame f)
    (h : List.Forall₂ (fun f e => decodeEntry Γ f = .ok e) fs es) : ∀ f ∈ fs, ¬ Damaged Γ f := by
  intro f hf hd
  obtain ⟨err, herr⟩ := (decodeEntry_error_iff (hw f hf)).2 hd
  obtain ⟨i, hi, rfl⟩ := List.getElem_of_mem hf
  have hdec := h.get hi (h.length_eq ▸ hi)
  rw [List.get_eq_getElem, herr] at hdec
  exact absurd hdec (by simp)

/-- A scan that gives an entry no append accepts is not exact. -/
theorem not_scanExact {bytes : Bytes} {es : List WalEntry} (hscan : scan Γ bytes = .ok es) {e : WalEntry} (he : e ∈ es)
    (hinv : ¬ e.Valid) : ¬ ScanExact Γ bytes := by
  unfold ScanExact
  rw [hscan]
  rintro ⟨encoded, tail, henc, -⟩
  exact hinv (valid_of_mapM henc e he)

/-- A scan is exact but for deletes with a value. -/
theorem scanExact_iff (bytes : Bytes) :
    ScanExact Γ bytes ↔ (∀ f ∈ frames bytes, ¬ ValuedDelete f) ∨ ∃ f ∈ frames bytes, Damaged Γ f := by
  have hw : ∀ f ∈ frames bytes, WholeFrame f := fun f hf => wholeFrame_of_mem hf
  unfold ScanExact
  cases hscan : scan Γ bytes with
  | ok es =>
    obtain ⟨hall, tail, hbytes, htail⟩ := scanFrom_ok_frames (Nat.lt_succ_self _) hscan
    obtain ⟨hfs, hval⟩ := decoded_frames hw hall
    have hsound : ¬ ∃ f ∈ frames bytes, Damaged Γ f := fun ⟨f, hf, hd⟩ => not_damaged_of_decoded hw hall f hf hd
    rw [or_iff_left hsound]
    constructor
    · rintro ⟨encoded, -, henc, -⟩
      exact hval.1 (valid_of_mapM henc)
    · intro hdel
      exact ⟨_, tail, mapM_encodeEntry (hval.2 hdel), by rw [← hfs]; exact hbytes, htail⟩
  | error err =>
    obtain ⟨hmsg, f, hf, err', herr⟩ := scanFrom_error_frames hscan
    have hd := (decodeEntry_error_iff (hw f hf)).1 ⟨err', herr⟩
    refine ⟨fun _ => Or.inr ⟨f, hf, hd⟩, fun _ => ⟨hmsg, f, hf, fun op key value henc => ?_⟩⟩
    -- What the encoder writes decodes.
    obtain ⟨hvalid, hframe⟩ := encodeEntry_nil_ok_iff.1 henc
    have hdec := decodeEntry_frame Γ hvalid []
    rw [List.append_nil, ← hframe, herr] at hdec
    exact absurd hdec (by simp)

/-- On bytes of any content a scan ends, and comes to no fault of slicing or arithmetic. The decoder accepts exactly the language of
the encoder if and only if no frame that is fully present is a delete with a value, or one of them is damaged: it has an op byte that
stands for no operation, or a checksum that is wrong. -/
theorem scan_exact_but_for_valued_deletes (Γ : Ctx) (bytes : Bytes) :
    (bytes.length < 2 ^ 64 → Machine.scan Γ bytes = Checked.lift (scan Γ bytes)) ∧
      (ScanExact Γ bytes ↔ (∀ f ∈ frames bytes, ¬ ValuedDelete f) ∨ ∃ f ∈ frames bytes, Damaged Γ f) :=
  ⟨Machine.scan_eq Γ, scanExact_iff bytes⟩

/-- A frame with the right checksum for a delete of the key `[1]` that carries the value `[7]`. -/
def deleteWithValue : Bytes := [241, 75, 118, 72, 2, 1, 0, 1, 0, 0, 0, 1, 7]

/-- A log of this frame is read without an error, and no call of `encode_entry` writes it. -/
theorem valued_delete_is_accepted : scan Ctx.concrete deleteWithValue = .ok [⟨.delete, [1], [7]⟩] ∧
    encodeEntry Ctx.concrete .delete [1] [7] [] = .error (.invalidOp "delete entry must not carry a value") ∧
    ¬ ScanExact Ctx.concrete deleteWithValue := by
  have hscan : scan Ctx.concrete deleteWithValue = .ok [⟨.delete, [1], [7]⟩] := by decide +kernel
  exact ⟨hscan, rfl, not_scanExact hscan List.mem_cons_self (by decide)⟩

end LsmEngine
