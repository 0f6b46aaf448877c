import LsmEngine.SsTable

/-!
# The k-way merge

`merge_runs` of `compaction/leveled.rs`. A run is the records of one table with the table's sequence number. Each round takes
the smallest current key, lets every run whose current key it is consume it, and emits the record of the highest-seq such run
unless that record is a tombstone. A cursor into a run is the part of its records not consumed yet.
-/

namespace LsmEngine

structure Run where
  seq : Nat
  records : List Record

/-- One run's part in the search for the smallest current key. -/
def minKeyStep (minKey : Option Key) (r : Run) : Option Key :=
  match r.records with
  | [] => minKey
  | rec :: _ => if minKey.all (fun mk => decide (rec.1 < mk)) then some rec.1 else minKey

/-- The smallest current key among the runs that still have records. -/
def minKeyOf (runs : List Run) : Option Key := runs.foldl minKeyStep none

/-- One run's part in the search for the winner of a round. -/
def winnerStep (minKey : Key) (winner : Option (Nat × Record)) (r : Run) : Option (Nat × Record) :=
  match r.records with
  | [] => winner
  | rec :: _ =>
    if rec.1 = minKey ∧ winner.all (fun best => decide (r.seq > best.1)) then some (r.seq, rec) else winner

/-- The record of `minKey` in the highest-seq run whose current key it is, with that seq. -/
def winnerOf (minKey : Key) (runs : List Run) : Option (Nat × Record) := runs.foldl (winnerStep minKey) none

/-- A run whose current key is `minKey` consumes it. -/
def advanceRun (minKey : Key) (r : Run) : Run :=
  match r.records with
  | [] => r
  | rec :: rest => if rec.1 = minKey then { r with records := rest } else r

/-- The loop of `merge_runs`. `none` stands for the failed `expect` on the winner, and for a loop that has not ended after
`fuel` rounds. -/
def mergeLoop : Nat → List Run → Option (List Record)
  | 0, _ => none
  | fuel + 1, runs =>
    match minKeyOf runs with
    | none => some []
    | some minKey =>
      match winnerOf minKey runs with
      | none => none
      | some (_, winner) =>
        (mergeLoop fuel (runs.map (advanceRun minKey))).map (fun out =>
          if winner.2.2 then out else (winner.1, winner.2.1, false) :: out)

/-- The number of records of the runs, which bounds the rounds of the merge. -/
def totalRecords (runs : List Run) : Nat := (runs.map (fun r => r.records.length)).sum

def mergeRuns (runs : List Run) : Option (List Record) :=
  mergeLoop (totalRecords runs + 1) (runs.filter (fun r => r.records ≠ []))

/-! ## What a merge is for -/

def newestStep (k : Key) (best : Option (Nat × Value × Bool)) (r : Run) : Option (Nat × Value × Bool) :=
  match SortedMap.find k r.records with
  | none => best
  | some e => if best.all (fun b => decide (r.seq > b.1)) then some (r.seq, e) else best

/-- The entry of a key in the highest-seq run that holds it, with that seq. -/
def newest (k : Key) (runs : List Run) : Option (Nat × Value × Bool) := runs.foldl (newestStep k) none

/-- What the merge emits for a key whose newest entry is `b`. -/
def emitted (b : Option (Nat × Value × Bool)) : Option (Value × Bool) :=
  match b with
  | none => none
  | some (_, v, d) => if d then none else some (v, false)

end LsmEngine
