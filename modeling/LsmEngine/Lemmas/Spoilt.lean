import LsmEngine.Lemmas.Content

/-!
# Calls on an engine with spoilt handles

The handle of a table keeps the result of its first open, so a table whose first open has failed is spoilt for as long as the engine
runs. A `get` needs the tables it comes to, a compaction needs its inputs; the call returns the error of the first of them that is
spoilt, and what it is for when none is.
-/

namespace LsmEngine

open Overlay Transition SsTableAux

variable {Γ : Ctx} {n n' : Node Γ}

/-! ## A compaction among others -/

/-- What reading the inputs that are left comes to: the compaction returns the error of the first spoilt one, or all are read. -/
inductive InputsRead (n : Node Γ) (inputs todo : List SstMeta) : Node Γ → List Out → Prop where
  | spoilt {readers : SstName → Option (Except String (SsTableReader Γ))} {err : LsmError} {os : List Out}
      (ho : ReadersOpened n.eng.readers readers) (hs : todo.findSome? n.eng.handleError = some err) (hos : ∀ o ∈ os, o = .silent) :
      InputsRead n inputs todo { n with eng.readers := readers, eng.flush := .free } (os ++ [.compacted (.error err)])
  | read {readers : SstName → Option (Except String (SsTableReader Γ))} {runs : List Run} {os : List Out}
      (ho : ReadersOpened n.eng.readers readers) (hs : todo.findSome? n.eng.handleError = none) (hos : ∀ o ∈ os, o = .silent) :
      InputsRead n inputs todo { n with eng.readers := readers, eng.flush := .reading inputs [] runs } os

/-- A step before that opens a table or reads one. -/
theorem InputsRead.step {inputs todo todo' : List SstMeta} {readers : SstName → Option (Except String (SsTableReader Γ))}
    {flush : FlushSection} {m : Node Γ} {os : List Out} (ho : ReadersOpened n.eng.readers readers)
    (hs : todo.findSome? n.eng.handleError = todo'.findSome? n.eng.handleError)
    (h : InputsRead { n with eng.readers := readers, eng.flush := flush } inputs todo' m os) :
    InputsRead n inputs todo m (.silent :: os) := by
  have herr : Engine.handleError { n.eng with readers := readers, flush := flush } = n.eng.handleError :=
    ReadersOpened.handleError (e := n.eng) ho
  cases h with
  | @spoilt _ err os ho' hs' hos =>
    have hsilent : ∀ o ∈ Out.silent :: os, o = .silent := by simpa using hos
    exact .spoilt (ho.trans ho') (by rw [hs, ← herr]; exact hs') hsilent
  | read ho' hs' hos => exact .read (ho.trans ho') (by rw [hs, ← herr]; exact hs') (by simpa using hos)

/-- One more step of the holder of `flush_lock` at the start of its run. -/
theorem play_flush {r : Node Γ × Out} {fuel : Nat} {m : Node Γ} {os : List Out} (h : n.flushStep .ok = some r)
    (hplay : play (step Γ) (List.replicate fuel (.flushStep .ok)) r.1.toSys = some (m.toSys, os)) :
    play (step Γ) (List.replicate (fuel + 1) (.flushStep .ok)) n.toSys = some (m.toSys, r.2 :: os) := by
  rw [List.replicate_succ, play, step_flush h]
  dsimp only
  rw [hplay]
  rfl

/-- A compaction reads the inputs that are left. -/
theorem TablesUp.reads_inputs (h : TablesUp n) {inputs todo : List SstMeta} {runs : List Run}
    (hf : n.eng.flush = .reading inputs todo runs) : ∃ fuel m os, InputsRead n inputs todo m os ∧ TablesUp m ∧
      play (LsmEngine.step Γ) (List.replicate fuel (.flushStep .ok)) n.toSys = some (m.toSys, os) := by
  induction todo generalizing n runs with
  | nil =>
    have hsame : ({ n with eng.flush := .reading inputs [] runs } : Node Γ) = n := by rw [← hf]
    have hend : InputsRead n inputs [] { n with eng.flush := .reading inputs [] runs } [] :=
      .read (ReadersOpened.refl n.eng.readers) rfl (fun _ ho => absurd ho List.not_mem_nil)
    exact ⟨0, n, [], by rwa [hsame] at hend, h, rfl⟩
  | cons m rest ih =>
    have hstep : ∀ {n : Node Γ}, n.eng.flush = .reading inputs (m :: rest) runs →
        n.flushStep .ok = some (n.readInput inputs m rest runs .ok) := by
      intro n hf
      simp only [Node.flushStep, hf]
    -- the table is open
    have hread : ∀ {n : Node Γ} {rd : SsTableReader Γ}, TablesUp n → n.eng.flush = .reading inputs (m :: rest) runs →
        n.eng.readers m.name = some (.ok rd) → ∃ fuel m' os, InputsRead n inputs (m :: rest) m' os ∧ TablesUp m' ∧
          play (LsmEngine.step Γ) (List.replicate fuel (.flushStep .ok)) n.toSys = some (m'.toSys, os) := by
      intro n rd h hf hr
      have hrecords := (h.tables.reads (h.tables.reading_live h.seq.levels.len hf) hr).1
      have hgo := hstep hf
      rw [Node.readInput, hr] at hgo
      simp only [hrecords] at hgo
      obtain ⟨fuel, m', os, hend, hm', hplay⟩ := ih (h.nodeMove (.flushStep (flushStep_cases hgo)) rfl) rfl
      refine ⟨fuel + 1, m', .silent :: os, hend.step (ReadersOpened.refl n.eng.readers) ?_, hm', play_flush hgo hplay⟩
      rw [List.findSome?_cons, Engine.handleError, hr]
    have hgo := hstep hf
    rw [Node.readInput] at hgo
    cases hr : n.eng.readers m.name with
    | none =>
      simp only [hr] at hgo
      obtain ⟨rd, hopen⟩ := live_opens h.tables (h.tables.reading_live h.seq.levels.len hf)
      have hset : Function.update n.eng.readers m.name (some (openReader Γ n.disk m.name .ok)) m.name = some (.ok rd) := by
        rw [hopen, Function.update_self]
      obtain ⟨fuel, m', os, hend, hm', hplay⟩ := hread (h.nodeMove (.flushStep (flushStep_cases hgo)) rfl) hf hset
      refine ⟨fuel + 1, m', .silent :: os, hend.step ?_ rfl, hm', play_flush hgo hplay⟩
      rw [hopen]
      exact ReadersOpened.update hr rd
    | some res =>
      cases res with
      | ok rd => exact hread h hf hr
      | error err =>
        simp only [hr] at hgo
        refine ⟨1, _, [.compacted (.error (readerError m.name err))], .spoilt (ReadersOpened.refl n.eng.readers) ?_
          (fun _ ho => absurd ho List.not_mem_nil), h.nodeMove (.flushStep (flushStep_cases hgo)) rfl,
          play_flush hgo rfl⟩
        rw [List.findSome?_cons, Engine.handleError, hr]

/-- The compaction, if there is one, has read its inputs. -/
def FlushSection.allRead : FlushSection → Bool
  | .reading _ (_ :: _) _ => false
  | _ => true

/-- A compaction of the tables of `n₀` that has read them. -/
structure Finishing (n₀ n : Node Γ) : Prop where
  unlocked : Unlocked n
  progress : Progress n₀ n n.eng.flush
  allRead : n.eng.flush.allRead = true
  map : n.eng.map n.disk = n₀.eng.map n₀.disk

/-- A compaction whose inputs are read goes on or returns `Ok`, with the map it began with. -/
theorem Finishing.step {n₀ : Node Γ} (hlen : n₀.eng.levels.length ≤ 2) (h : Finishing n₀ n) {r : Node Γ × Out}
    (hm : FlushMove n .ok r) : (r.2 = .silent ∧ Finishing n₀ r.1) ∨
      r.2 = .compacted (.ok ()) ∧ r.1.eng.map r.1.disk = n₀.eng.map n₀.disk := by
  have hup := h.unlocked.1
  have hmap := (hm.keeps_map hup).trans h.map
  have hread : r.1.eng.flush.allRead = true := by
    have hall := h.allRead
    cases hm with
    | readOpen hf | read hf =>
      rw [hf] at hall
      simp [FlushSection.allRead] at hall
    | @nothing c | @unbuilt c | @buildFails c | @manifestFailsFlush c | @flushDone c => cases c <;> rfl
    | _ => rfl
  have herr := fun (err : LsmError) (ho : r.2.reply = [.done (.error err)]) =>
    hm.error_cases hup.tables hup.seq.levels.len hup.mems.flushable ho
  have hun := h.unlocked.flushMove hm
  cases h.progress.step hlen hup.seq hup.tables hm with
  | on hp => exact .inl ⟨rfl, hun, hp, hread, hmap⟩
  | done => exact .inr ⟨rfl, hmap⟩
  | @failed _ err =>
    rcases herr err rfl with ⟨-, k, hio⟩ | ⟨inputs, todo, sst, runs, e, hf, -⟩
    · simp at hio
    · have hall := h.allRead
      rw [hf] at hall
      simp [FlushSection.allRead] at hall

/-- A compaction that has read its inputs returns `Ok` when nothing fails. -/
theorem Finishing.returns {n₀ : Node Γ} (hlen : n₀.eng.levels.length ≤ 2) (h : Finishing n₀ n) : ∃ fuel m os,
    play (LsmEngine.step Γ) (List.replicate fuel (.flushStep .ok)) n.toSys = some (Node.toSys m, os ++ [.compacted (.ok ())]) ∧
      (∀ o ∈ os, o = .silent) ∧ m.eng.map m.disk = n₀.eng.map n₀.disk := by
  have hgoes : ∀ m : Node Γ, Finishing n₀ m →
      SeqUp m ∧ TablesOk m ∧ m.eng.wal.holdsStateLock = false ∧ m.eng.flush.busy = true := by
    intro m hm
    refine ⟨hm.unlocked.1.seq, hm.unlocked.1.tables, hm.unlocked.2, ?_⟩
    have hp := hm.progress
    cases hf : m.eng.flush with
    | free =>
      rw [hf] at hp
      exact hp.elim
    | _ => rfl
  obtain ⟨fuel, m, os, o, hplay, hos, rfl, hmap⟩ := flush_returns (A := fun io => io = .ok)
    (Q := fun m o => o = .compacted (.ok ()) ∧ m.eng.map m.disk = n₀.eng.map n₀.disk) hgoes
    (fun m io r hm hio hmove => hm.step hlen (hio ▸ hmove)) (fun _ => .ok) (fun _ => rfl) h
  rw [List.map_const', List.length_range] at hplay
  exact ⟨fuel, m, os, hplay, hos, hmap⟩

/-- A compaction that finds tables in level 0, takes `flush_lock` and moves on while nobody else does returns `Ok`; but the error of
the first of its inputs that is spoilt, if there is one, and then it leaves the engine as it was. -/
theorem TablesUp.compact_returns (h : TablesUp n) (hl : n.eng.wal.holdsStateLock = false) (hf : n.eng.flush = .free)
    (hne : n.eng.levels[0]?.getD [] ≠ []) : ∃ fuel m os,
      play (LsmEngine.step Γ) (.compactEnter :: List.replicate fuel (.flushStep .ok)) n.toSys =
        some (Node.toSys m, os ++ [.compacted (n.eng.unlessSpoilt (inputsOf n.eng.levels) ())]) ∧ (∀ o ∈ os, o = .silent) ∧
      m.eng.map m.disk = n.eng.map n.disk ∧ ∀ err, (inputsOf n.eng.levels).findSome? n.eng.handleError = some err →
        ∃ readers, ReadersOpened n.eng.readers readers ∧ m = { n with eng.readers := readers } := by
  have hstep := compactEnter_reads hf hne
  have hstart : TablesUp { n with eng.flush := .reading (inputsOf n.eng.levels) (inputsOf n.eng.levels) [] } :=
    h.nodeMove (.compactEnter hf hne) rfl
  obtain ⟨fuel, m, os, hend, hm, hplay⟩ := hstart.reads_inputs rfl
  cases hend with
  | @spoilt readers err os ho hs hos =>
    have hfirst : (inputsOf n.eng.levels).findSome? n.eng.handleError = some err := hs
    rw [Engine.unlessSpoilt, hfirst]
    have hsame : ({ n with
        eng.readers := readers
        eng.flush := .free } : Node Γ) = { n with eng.readers := readers } := by rw [← hf]
    refine ⟨fuel, { n with eng.readers := readers }, .silent :: os, ?_, by simpa using hos, rfl, fun _ _ => ⟨readers, ho, rfl⟩⟩
    rw [play, hstep]
    dsimp only
    rw [hplay, ← hsame]
    rfl
  | @read readers runs os ho hs hos =>
    have hfirst : (inputsOf n.eng.levels).findSome? n.eng.handleError = none := hs
    have hfinish : Finishing n { n with
        eng.readers := readers
        eng.flush := .reading (inputsOf n.eng.levels) [] runs } := ⟨⟨hm, hl⟩, ⟨rfl, fun _ _ => rfl⟩, rfl, rfl⟩
    obtain ⟨fuel', m', os', hplay', hos', hmap⟩ := hfinish.returns h.seq.levels.len
    rw [Engine.unlessSpoilt, hfirst]
    refine ⟨fuel + fuel', m', .silent :: (os ++ os'), ?_, ?_, hmap, fun err herr => by simp at herr⟩
    · rw [List.replicate_add, play, hstep]
      dsimp only
      rw [play_trans hplay hplay']
      simp
    · intro o ho
      rcases List.mem_cons.1 ho with rfl | ho
      · rfl
      · exact (List.mem_append.1 ho).elim (hos o) (hos' o)

end LsmEngine
