import Mathlib.Data.List.Basic
import Mathlib.Data.Set.Finite.Lattice
import Mathlib.Logic.Function.Basic

/-!
# A directory of files

Files by name, the operations of an operating system on them, and what each leaves alone. A file knows how many of its bytes an
fsync has covered; creating, renaming and removing a name is durable at once.
-/

namespace Files

variable {ν β : Type*} [DecidableEq ν]

/-- A file: its bytes as the operating system has them, and how many are fsynced. -/
structure File (β : Type*) where
  bytes : List β
  synced : Nat
  deriving DecidableEq, Repr

abbrev Dir (ν β : Type*) := ν → Option (File β)

inductive FileOp (ν β : Type*) where
  /-- a new file, or an old one truncated -/
  | create (name : ν)
  /-- bytes written at the end -/
  | append (name : ν) (bytes : List β)
  /-- fsync -/
  | sync (name : ν)
  /-- a file given another name, in place of the file that had it -/
  | rename (old new : ν)
  | remove (name : ν)

/-- The names an operation is about. -/
def FileOp.names : FileOp ν β → List ν
  | .create name | .append name _ | .sync name | .remove name => [name]
  | .rename old new => [old, new]

/-- The directory after an operation. Nothing comes of an operation on a file that is not there. -/
def FileOp.run (d : Dir ν β) : FileOp ν β → Dir ν β
  | .create name => Function.update d name (some ⟨[], 0⟩)
  | .append name bytes => Function.update d name ((d name).map (fun f => { f with bytes := f.bytes ++ bytes }))
  | .sync name => Function.update d name ((d name).map (fun f => { f with synced := f.bytes.length }))
  | .rename old new =>
    match d old with
    | none => d
    | some f => Function.update (Function.update d old none) new (some f)
  | .remove name => Function.update d name none

def runAll (d : Dir ν β) (ops : List (FileOp ν β)) : Dir ν β := ops.foldl FileOp.run d

/-- What is left of a file after a power loss. -/
def File.powerLoss (f : File β) : File β := ⟨f.bytes.take f.synced, (f.bytes.take f.synced).length⟩

/-- All of a file is fsynced. -/
def File.Settled (f : File β) : Prop := f.synced = f.bytes.length

/-- A file that is fsynced survives a power loss. -/
theorem File.Settled.powerLoss {f : File β} (h : f.Settled) : f.powerLoss = f := by
  unfold File.powerLoss
  rw [h, List.take_length]
  exact congrArg _ h.symm

/-- An operation touches the files it names only. -/
theorem FileOp.run_of_ne {op : FileOp ν β} {name : ν} (h : name ∉ op.names) (d : Dir ν β) : op.run d name = d name := by
  cases op with
  | rename old new =>
    simp only [FileOp.names, List.mem_cons, List.not_mem_nil, or_false, not_or] at h
    cases hold : d old with
    | none => simp only [FileOp.run, hold]
    | some f => simp only [FileOp.run, hold, Function.update_of_ne h.1, Function.update_of_ne h.2]
  | create | append | sync | remove =>
    simp only [FileOp.names, List.mem_singleton] at h
    exact Function.update_of_ne h _ _

/-- Operations leave the files alone that they are not about. -/
theorem runAll_of_ne {ops : List (FileOp ν β)} {name : ν} (h : ∀ op ∈ ops, name ∉ op.names) (d : Dir ν β) :
    runAll d ops name = d name := by
  induction ops generalizing d with
  | nil => rfl
  | cons op ops ih =>
    exact (ih (fun op' hop' => h op' (List.mem_cons_of_mem op hop')) _).trans (FileOp.run_of_ne (h op List.mem_cons_self) d)

/-- A directory with finitely many files in it keeps finitely many. -/
theorem runAll_finite {d : Dir ν β} (h : {name | d name ≠ none}.Finite) (ops : List (FileOp ν β)) :
    {name | runAll d ops name ≠ none}.Finite := by
  refine (h.union (List.finite_toSet (ops.flatMap FileOp.names))).subset (fun name hname => ?_)
  by_cases hmem : ∃ op ∈ ops, name ∈ op.names
  · exact .inr (List.mem_flatMap.2 hmem)
  · left
    rwa [Set.mem_ofPred_eq, runAll_of_ne (fun op hop hn => hmem ⟨op, hop, hn⟩)] at hname

@[simp] theorem runAll_nil (d : Dir ν β) : runAll d [] = d := rfl
@[simp] theorem runAll_cons (d : Dir ν β) (op : FileOp ν β) (ops : List (FileOp ν β)) :
    runAll d (op :: ops) = runAll (op.run d) ops := rfl

@[simp] theorem run_create (d : Dir ν β) (name : ν) : (FileOp.create name).run d name = some ⟨[], 0⟩ := Function.update_self _ _ _
@[simp] theorem run_append (d : Dir ν β) (name : ν) (bytes : List β) :
    (FileOp.append name bytes).run d name = (d name).map (fun f => { f with bytes := f.bytes ++ bytes }) := Function.update_self _ _ _
@[simp] theorem run_sync (d : Dir ν β) (name : ν) :
    (FileOp.sync name).run d name = (d name).map (fun f => { f with synced := f.bytes.length }) := Function.update_self _ _ _
@[simp] theorem run_remove (d : Dir ν β) (name : ν) : (FileOp.remove name).run d name = none := Function.update_self _ _ _

@[simp] theorem run_create_of_ne (d : Dir ν β) {name other : ν} (h : other ≠ name) : (FileOp.create name).run d other = d other :=
  Function.update_of_ne h _ _
@[simp] theorem run_append_of_ne (d : Dir ν β) {name other : ν} (h : other ≠ name) (bytes : List β) :
    (FileOp.append name bytes).run d other = d other :=
  Function.update_of_ne h _ _
@[simp] theorem run_sync_of_ne (d : Dir ν β) {name other : ν} (h : other ≠ name) : (FileOp.sync name).run d other = d other :=
  Function.update_of_ne h _ _
@[simp] theorem run_remove_of_ne (d : Dir ν β) {name other : ν} (h : other ≠ name) : (FileOp.remove name).run d other = d other :=
  Function.update_of_ne h _ _

/-- A file that is renamed is found under its new name. -/
theorem run_rename_new {d : Dir ν β} {old : ν} {f : File β} (h : d old = some f) (new : ν) :
    (FileOp.rename old new).run d new = some f := by
  simp only [FileOp.run, h, Function.update_self]

theorem run_rename_old {d : Dir ν β} {old : ν} {f : File β} (h : d old = some f) {new : ν} (hne : old ≠ new) :
    (FileOp.rename old new).run d old = none := by
  simp only [FileOp.run, h, Function.update_of_ne hne, Function.update_self]

/-! ## Other names -/

variable {μ : Type*} [DecidableEq μ]

/-- The operation under other names. -/
def FileOp.map (f : ν → μ) : FileOp ν β → FileOp μ β
  | .create name => .create (f name)
  | .append name bytes => .append (f name) bytes
  | .sync name => .sync (f name)
  | .rename old new => .rename (f old) (f new)
  | .remove name => .remove (f name)

/-- An operation under injective names is the operation. -/
theorem FileOp.run_map {f : ν → μ} (hf : Function.Injective f) (op : FileOp ν β) (d : Dir μ β) :
    (fun name => (op.map f).run d (f name)) = op.run (fun name => d (f name)) := by
  funext name
  cases op with
  | rename old new =>
    simp only [FileOp.map, FileOp.run]
    cases d (f old) <;> simp [Function.update_apply, hf.eq_iff]
  | create | append | sync | remove => simp [FileOp.map, FileOp.run, Function.update_apply, hf.eq_iff]

/-- Under the names that the operations are about, the directory is what they make of it there. -/
theorem runAll_map {f : ν → μ} (hf : Function.Injective f) (ops : List (FileOp ν β)) (d : Dir μ β) :
    (fun name => runAll d (ops.map (FileOp.map f)) (f name)) = runAll (fun name => d (f name)) ops := by
  induction ops generalizing d with
  | nil => rfl
  | cons op ops ih => rw [List.map_cons, runAll_cons, ih, FileOp.run_map hf, runAll_cons]

omit [DecidableEq ν] in
/-- Under every other name it is as it was. -/
theorem runAll_map_of_not_range {f : ν → μ} {name : μ} (h : ∀ n, f n ≠ name) (ops : List (FileOp ν β)) (d : Dir μ β) :
    runAll d (ops.map (FileOp.map f)) name = d name := by
  refine runAll_of_ne (fun op hop hmem => ?_) d
  obtain ⟨op', -, rfl⟩ := List.mem_map.1 hop
  cases op' with
  | rename old new =>
    rcases List.mem_pair.1 hmem with rfl | rfl
    · exact h old rfl
    · exact h new rfl
  | create n | append n | sync n | remove n => exact h n (List.mem_singleton.1 hmem).symm

end Files
