import LsmEngine.Lemmas.Machine

/-!
# The reader of tables is safe on any file

Whatever the bytes of a file, opening it and reading from it end with a result or with `Corruption`: no index, slice or positional
read is outside, no sum wraps, no difference underflows, no buffer is longer than the file, and no loop goes on.
-/

namespace LsmEngine

namespace Machine

open Checked

/-- The error of a file that is not a table. -/
def IsCorruption (err : LsmError) : Prop := ∃ msg, err = .corruption msg

/-- A computation that ends with a result or with corruption, without a fault. -/
def Safe {α : Type} (x : Checked LsmError α) : Prop := (∃ a, x = .ok a) ∨ ∃ msg, x = .error (.corruption msg)

/-- A computation without faults whose errors are corruption is safe. -/
theorem safe_of_lift {α : Type} {x : Checked LsmError α} {y : Except LsmError α} (heq : x = lift y)
    (herr : ErrorsIn IsCorruption x) : Safe x := by
  cases y with
  | ok a => exact Or.inl ⟨a, heq⟩
  | error err =>
    obtain ⟨msg, rfl⟩ := herr err heq
    exact Or.inr ⟨msg, heq⟩

/-! ## Which errors the functions report -/

/-- Corruption is an error that may be returned. -/
theorem corruption_error {α : Type} (msg : String) : ErrorsIn IsCorruption (.error (.corruption msg) : Checked LsmError α) :=
  errorsIn_error ⟨msg, rfl⟩

/-- The reads of a buffer report corruption and nothing else. -/
theorem readExact_errors (bytes : Bytes) (offset size : Nat) : ErrorsIn IsCorruption (readExact bytes offset size) :=
  ErrorsIn.ite (corruption_error _) (ErrorsIn.ite (corruption_error _) (errorsIn_slice _ _ _))

theorem readU16_errors (bytes : Bytes) (offset : Nat) : ErrorsIn IsCorruption (readU16 bytes offset) :=
  (readExact_errors _ _ _).bind fun _ => errorsIn_ok _

theorem readU32_errors (bytes : Bytes) (offset : Nat) : ErrorsIn IsCorruption (readU32 bytes offset) :=
  (readExact_errors _ _ _).bind fun _ => errorsIn_ok _

theorem readU64_errors (bytes : Bytes) (offset : Nat) : ErrorsIn IsCorruption (readU64 bytes offset) :=
  (readExact_errors _ _ _).bind fun _ => errorsIn_ok _

/-- What is wrong with a record is corruption. -/
theorem readRecord_errors (limit : Nat) (bytes : Bytes) (offset : Nat) :
    ErrorsIn IsCorruption (readRecord limit bytes offset) := by
  refine ErrorsIn.ite (corruption_error _) ?_
  refine (readU16_errors _ _).bind fun keyLen => (errorsIn_add _ _).bind fun _ => (errorsIn_index _ _).bind fun _ =>
    (errorsIn_add _ _).bind fun _ => (readU32_errors _ _).bind fun valueLen => ?_
  refine ErrorsIn.bind ((errorsIn_add _ _).bind fun _ => errorsIn_add _ _) fun total => ErrorsIn.ite (corruption_error _) ?_
  exact (errorsIn_add _ _).bind fun _ => (errorsIn_add _ _).bind fun _ => (errorsIn_add _ _).bind fun _ =>
    (errorsIn_slice _ _ _).bind fun _ => (errorsIn_toVec _ _).bind fun _ => (errorsIn_slice _ _ _).bind fun _ =>
    (errorsIn_toVec _ _).bind fun _ => errorsIn_ok _

/-- What is wrong with an entry of the index is corruption. -/
theorem readEntry_errors (limit : Nat) (bytes : Bytes) (offset : Nat) :
    ErrorsIn IsCorruption (readEntry limit bytes offset) := by
  refine (errorsIn_sub _ _).bind fun remaining => ErrorsIn.ite (corruption_error _) ?_
  refine (readU16_errors _ _).bind fun keyLen => (errorsIn_add _ _).bind fun entryLen =>
    ErrorsIn.ite (corruption_error _) ?_
  exact (errorsIn_add _ _).bind fun _ => (errorsIn_add _ _).bind fun _ => (errorsIn_slice _ _ _).bind fun _ =>
    (errorsIn_toVec _ _).bind fun _ => (readU64_errors _ _).bind fun _ => (errorsIn_add _ _).bind fun _ =>
    (readU64_errors _ _).bind fun _ => errorsIn_ok _

/-- By induction on the fuel: what is wrong with an index is corruption. -/
theorem parseLoop_errors (limit : Nat) (bytes : Bytes) (fuel offset : Nat) (entries : List IndexEntry) :
    ErrorsIn IsCorruption (parseLoop limit bytes fuel offset entries) := by
  induction fuel generalizing offset entries with
  | zero => exact errorsIn_fault _
  | succ fuel ih =>
    refine ErrorsIn.ite ?_ (errorsIn_ok _)
    exact (readEntry_errors _ _ _).bind fun _ => (errorsIn_push _ _ _).bind fun _ => (errorsIn_add _ _).bind fun _ => ih _ _

/-- By induction on the words: what is wrong with the words of a filter is corruption. -/
theorem readWords_errors (bytes : Bytes) (n i : Nat) : ErrorsIn IsCorruption (readWords bytes n i) := by
  induction n generalizing i with
  | zero => exact errorsIn_ok _
  | succ n ih =>
    exact (errorsIn_mul _ _).bind fun _ => (errorsIn_add _ _).bind fun _ => (readU64_errors _ _).bind fun _ =>
      (ih _).bind fun _ => errorsIn_ok _

/-- What is wrong with a Bloom block is corruption. -/
theorem decodeBloom_errors (Γ : Ctx) (limit : Nat) (bytes : Bytes) : ErrorsIn IsCorruption (decodeBloom Γ limit bytes) := by
  refine ErrorsIn.ite (corruption_error _) ((errorsIn_sub _ _).bind fun _ => ErrorsIn.ite (corruption_error _) ?_)
  refine (readU32_errors _ _).bind fun _ => ErrorsIn.ite (corruption_error _) (ErrorsIn.ite (corruption_error _) ?_)
  exact (errorsIn_alloc _ _).bind fun _ => (readWords_errors _ _ _).bind fun _ => errorsIn_ok _

/-- A positional read returns no error of its own. -/
theorem readAt_errors (file : Bytes) (offset len : Nat) : ErrorsIn IsCorruption (readAt file offset len) :=
  ErrorsIn.ite (errorsIn_ok _) (errorsIn_fault _)

theorem readBuffer_errors (limit : Nat) (file : Bytes) (offset len : Nat) :
    ErrorsIn IsCorruption (readBuffer limit file offset len) :=
  (errorsIn_alloc _ _).bind fun _ => ErrorsIn.ite (readAt_errors _ _ _) (errorsIn_ok _)

/-- What is wrong with the Bloom section of a file is corruption. -/
theorem openBloom_errors (Γ : Ctx) (file : Bytes) (bloomOffset bloomEnd : Nat) :
    ErrorsIn IsCorruption (openBloom Γ file bloomOffset bloomEnd) := by
  refine ErrorsIn.ite (errorsIn_ok _) ?_
  exact (errorsIn_sub _ _).bind fun _ => (readBuffer_errors _ _ _ _).bind fun _ => (decodeBloom_errors _ _ _).bind fun _ =>
    errorsIn_ok _

/-- Every error of `open` is corruption. -/
theorem openFile_errors (Γ : Ctx) (path : String) (file : Bytes) : ErrorsIn IsCorruption (openFile Γ path file) := by
  refine ErrorsIn.ite (corruption_error _) ?_
  refine (errorsIn_sub _ _).bind fun _ => (readAt_errors _ _ _).bind fun _ => (errorsIn_sub _ _).bind fun _ =>
    (errorsIn_slice _ _ _).bind fun _ => ErrorsIn.ite (corruption_error _) ?_
  refine (readU64_errors _ _).bind fun _ => (readU64_errors _ _).bind fun _ => (errorsIn_sub _ _).bind fun _ =>
    ErrorsIn.ite (corruption_error _) ?_
  refine ErrorsIn.bind (ErrorsIn.ite (errorsIn_sub _ _) (errorsIn_ok _)) fun _ => ErrorsIn.ite (corruption_error _) ?_
  exact (errorsIn_sub _ _).bind fun _ => (readBuffer_errors _ _ _ _).bind fun _ => (parseLoop_errors _ _ _ _ _).bind fun _ =>
    (openBloom_errors _ _ _ _).bind fun _ => errorsIn_ok _

variable {Γ : Ctx}

/-- By induction on the fuel: every error of the scan of a block is corruption. -/
theorem scanBlock_errors (limit : Nat) (block : Bytes) (key : Key) (fuel offset : Nat) :
    ErrorsIn IsCorruption (scanBlock limit block key fuel offset) := by
  induction fuel generalizing offset with
  | zero => exact errorsIn_fault _
  | succ fuel ih =>
    refine ErrorsIn.ite ((readRecord_errors _ _ _).bind fun _ => ?_) (errorsIn_ok _)
    exact ErrorsIn.ite (errorsIn_ok _) (ErrorsIn.ite (errorsIn_ok _) ((errorsIn_add _ _).bind fun _ => ih _))

/-- Every error of a `get` after `locate_block` is corruption. -/
theorem getIn_errors (r : SsTableFile.SsTableReader Γ) (key : Key) (found : Option Nat) :
    ErrorsIn IsCorruption (getIn r key found) := by
  cases found with
  | none => exact errorsIn_ok _
  | some blockIdx =>
    refine (errorsIn_index _ _).bind fun _ => ErrorsIn.ite (corruption_error _) (ErrorsIn.ite (corruption_error _) ?_)
    exact (errorsIn_alloc _ _).bind fun _ => (readAt_errors _ _ _).bind fun _ => scanBlock_errors _ _ _ _ _

/-- Every error of `get` is corruption. -/
theorem get_errors (partitionPoint : PartitionPoint) (r : SsTableFile.SsTableReader Γ) (key : Key) :
    ErrorsIn IsCorruption (get partitionPoint r key) := by
  rw [get, locateBlock_eq, ok_bind]
  exact ErrorsIn.ite (errorsIn_ok _) (getIn_errors _ _ _)

/-- By induction on the fuel: every error of the loop of `records` is corruption. -/
theorem recordsLoop_errors (limit : Nat) (data : Bytes) (fuel offset : Nat) (out : List Record) :
    ErrorsIn IsCorruption (recordsLoop limit data fuel offset out) := by
  induction fuel generalizing offset out with
  | zero => exact errorsIn_fault _
  | succ fuel ih =>
    refine ErrorsIn.ite ((readRecord_errors _ _ _).bind fun _ => ?_) (errorsIn_ok _)
    exact (errorsIn_push _ _ _).bind fun _ => (errorsIn_add _ _).bind fun _ => ih _ _

/-- Every error of `records` is corruption. -/
theorem records_errors (r : SsTableFile.SsTableReader Γ) : ErrorsIn IsCorruption (records r) :=
  (readBuffer_errors _ _ _ _).bind fun _ => recordsLoop_errors _ _ _ _ _

/-! ## Safety -/

/-- On a file of any bytes, with lengths and offsets of 64 bits: `open` ends with a reader or with corruption, and so do `get`, for
every key and wherever `partition_point` puts it, and `records` on that reader. None of them comes to a fault. -/
theorem reader_is_safe (Γ : Ctx) (path : String) {file : Bytes} (hlen : file.length < 2 ^ 64) :
    Safe (openFile Γ path file) ∧ ∀ r, openFile Γ path file = .ok r →
      (∀ (partitionPoint : PartitionPoint) (key : Key), Safe (get partitionPoint r key)) ∧ Safe (records r) := by
  have hopen := openFile_eq Γ hlen path
  refine ⟨safe_of_lift hopen (openFile_errors Γ path file), fun r hr => ?_⟩
  rw [hopen] at hr
  have hopened : Opened file r := opened_of_openFile (lift_eq_ok.1 hr)
  exact ⟨fun partitionPoint key => safe_of_lift (get_eq hlen hopened partitionPoint key) (get_errors partitionPoint r key),
    safe_of_lift (records_eq hlen hopened) (records_errors r)⟩

/-- The file of a table with two records, of which the second declares a value longer than the file. -/
def damaged : Bytes :=
  ((SsTableFile.build ((SsTableBuilder.withExpectedItems Ctx.concrete 2).addCalls
    [([1], [7], false), ([3], [9], false)]).1).toOption.getD []).set 12 0xFF

/-- A search that finds where the entries stop to satisfy the predicate. -/
def search : PartitionPoint := fun p entries => ⟨LsmEngine.partitionPoint p entries, Nat.lt_succ_of_le (List.takeWhile_prefix p).length_le⟩

/-- The computation ends with corruption. -/
def corrupted {α : Type} : Checked LsmError α → Bool
  | .error (.corruption _) => true
  | _ => false

/-- It is opened, the first record is found, and a `get` of the second and `records` report it. -/
theorem reader_is_safe_damaged : ∃ r, openFile Ctx.concrete "t.sst" damaged = .ok r ∧
    get search r [1] = .ok (some (.present [7])) ∧ corrupted (get search r [3]) = true ∧ corrupted (records r) = true ∧
    (∀ (partitionPoint : PartitionPoint) (key : Key), Safe (get partitionPoint r key)) ∧ Safe (records r) := by
  have hlen : damaged.length < 2 ^ 64 := by decide +kernel
  have hend : (SsTableFile.openFile Ctx.concrete "t.sst" damaged).toOption.any (fun r =>
      decide (get search r [1] = .ok (some (.present [7]))) && corrupted (get search r [3]) && corrupted (records r)) = true := by
    decide +kernel
  cases hopen : SsTableFile.openFile Ctx.concrete "t.sst" damaged with
  | error err => simp [hopen, Except.toOption] at hend
  | ok r =>
    simp only [hopen, Except.toOption, Option.any_some, Bool.and_eq_true, decide_eq_true_eq] at hend
    obtain ⟨⟨hfound, hreported⟩, hrecords⟩ := hend
    have hr : openFile Ctx.concrete "t.sst" damaged = .ok r := by rw [openFile_eq _ hlen, hopen]; rfl
    exact ⟨r, hr, hfound, hreported, hrecords, (reader_is_safe Ctx.concrete "t.sst" hlen).2 r hr⟩

end Machine

end LsmEngine
