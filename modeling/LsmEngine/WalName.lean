import LsmEngine.Library.Decimal
import LsmEngine.Manifest

/-!
# The names of the logs

`open_with_options` and `freeze_active` name a log by its sequence number; `open_with_options` reads the directory and takes
every file whose name it can parse for a log, in order of the numbers.
-/

namespace LsmEngine

/-- `format!("wal_{seq:06}.wal")`. -/
def walName (seq : Nat) : String := "wal_" ++ pad6 seq ++ ".wal"

/-- The loop of `u64::from_str`: every character must be a digit and no step may exceed a `u64`. -/
def parseDigits (result : Nat) : List Char → Option Nat
  | [] => some result
  | c :: cs =>
    if c.isDigit then
      let result := result * 10 + (c.toNat - '0'.toNat)
      if result < 2 ^ 64 then parseDigits result cs else none
    else none

/-- `str::parse::<u64>`: digits, with or without a plus sign before them. -/
def parseU64 : List Char → Option Nat
  | [] => none
  | ['+'] => none
  | '+' :: digits => parseDigits 0 digits
  | digits => parseDigits 0 digits

def parseWalName (name : String) : Option Nat := do
  let rest ← name.toList.dropPrefix? "wal_".toList
  let seq ← rest.dropSuffix? ".wal".toList
  parseU64 seq

/-- The `wal_seqs` of `open_with_options`: the logs among the names of the directory, by `sort_by_key`. These are the files it
replays, in this order, and deletes. -/
def walSeqs (names : List String) : List (Nat × String) :=
  (names.filterMap (fun name => (parseWalName name).map (fun seq => (seq, name)))).mergeSort (fun a b => a.1 ≤ b.1)

end LsmEngine
