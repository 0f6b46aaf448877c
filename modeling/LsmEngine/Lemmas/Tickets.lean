import LsmEngine.Lemmas.Worker
import Mathlib.Algebra.BigOperators.Group.List.Basic
import Mathlib.Algebra.Order.Group.Multiset
import Mathlib.Data.List.Perm.Basic
import Mathlib.Data.Multiset.Replicate
import Mathlib.Tactic.Abel

/-!
# Calls and returns

A call takes a ticket when it begins and gives it back when it returns. What the machine holds at any time are the tickets of the
calls in progress.
-/

namespace LsmEngine

open Transition

variable {Γ : Ctx} {n n' : Node Γ}

/-- A call, by what identifies it to its caller. `pass` is `flush_all_pending` of the worker. -/
inductive Ticket where
  | opening
  | write (w : WalEntry)
  | flush
  | pass
  | compaction
  | get (key : Key)
  deriving DecidableEq, Repr

def WalCaller.ticket : WalCaller → Ticket
  | .write w => .write w
  | .flush _ => .flush

def FlushCaller.ticket : FlushCaller → Ticket
  | .flush _ => .flush
  | .worker => .pass

/-- The call inside the wal mutex. -/
def WalSection.tickets : WalSection → Multiset Ticket
  | .free => 0
  | .logged w | .synced w | .applied w => {.write w}
  | .syncing _ => {.flush}
  | .freezing c | .rotating c _ | .created c _ | .swapped c _ => {c.ticket}

/-- The call under `flush_lock`. -/
def FlushSection.tickets : FlushSection → Multiset Ticket
  | .free => 0
  | .draining c _ | .building c _ _ _ _ _ | .committing c _ _ _ | .manifest (.removeWals c _) _ _ | .unlinkWals c _ => {c.ticket}
  | .reading _ _ _ | .merging _ _ _ _ | .installing _ _ | .manifest (.removeInputs _) _ _ | .unlinkInputs _ => {.compaction}

def flusherTickets (flushers : List Nat) : Multiset Ticket := Multiset.replicate flushers.length .flush

def getTickets (gets : List GetCall) : Multiset Ticket := (gets.map (fun g => Ticket.get g.key) : List Ticket)

/-- The calls in progress. -/
def Node.tickets (n : Node Γ) : Multiset Ticket :=
  n.eng.wal.tickets + n.eng.flush.tickets + flusherTickets n.eng.flushers + getTickets n.eng.gets

def Sys.tickets (s : Sys Γ) : Multiset Ticket :=
  match s.proc with
  | .down => 0
  | .opening _ => {.opening}
  | .up e => (Node.mk s.disk s.hist e).tickets

/-- The call that begins with the action. -/
def Act.begins : Act → Multiset Ticket
  | .openDir _ => {.opening}
  | .write w _ => {.write w}
  | .flush => {.flush}
  | .workerEnter => {.pass}
  | .compactEnter => {.compaction}
  | .get key => {.get key}
  | _ => 0

/-- The call that returns. -/
def Out.returns : Out → Multiset Ticket
  | .silent => 0
  | .opened _ => {.opening}
  | .wrote w _ => {.write w}
  | .flushed _ _ => {.flush}
  | .passed _ => {.pass}
  | .compacted _ => {.compaction}
  | .got key _ _ => {.get key}

/-- A call that returns under the wal mutex gives its ticket back, or waits with it for `flush_lock`. -/
theorem tickets_finish (n : Node Γ) (c : WalCaller) :
    (n.finish c).1.tickets + (n.finish c).2.returns = {c.ticket} + (n.eng.flush.tickets + flusherTickets n.eng.flushers +
      getTickets n.eng.gets) := by
  cases c with
  | write w =>
    simp only [Node.finish, Node.tickets, WalSection.tickets, Out.returns, WalCaller.ticket, zero_add]
    exact add_comm _ _
  | flush since =>
    simp only [Node.finish, Node.tickets, WalSection.tickets, Out.returns, WalCaller.ticket, zero_add, add_zero, flusherTickets,
      List.length_append, List.length_singleton, Multiset.replicate_succ, ← Multiset.singleton_add]
    abel

/-- A call that fails under the wal mutex gives its ticket back. -/
theorem tickets_abort (n : Node Γ) (err : LsmError) (c : WalCaller) :
    (n.abort err c).1.tickets + (n.abort err c).2.returns = {c.ticket} + (n.eng.flush.tickets + flusherTickets n.eng.flushers +
      getTickets n.eng.gets) := by
  cases c <;> simp only [Node.abort, Node.tickets, WalSection.tickets, Out.returns, WalCaller.ticket, zero_add] <;>
    exact add_comm _ _

/-- A step under the wal mutex loses no ticket and makes none. -/
theorem WalMove.tickets {io : Io} {r : Node Γ × Out} (hm : WalMove n io r) : r.1.tickets + r.2.returns = n.tickets := by
  have hsilent : ∀ {m : Node Γ}, m.eng.wal.tickets = n.eng.wal.tickets → m.eng.flush = n.eng.flush →
      m.eng.flushers = n.eng.flushers → m.eng.gets = n.eng.gets → m.tickets + Out.silent.returns = n.tickets := by
    intro m h1 h2 h3 h4
    simp only [Node.tickets, h1, h2, h3, h4, Out.returns, add_zero]
  have hreturns : ∀ {x : Ticket}, n.eng.wal.tickets = {x} → n.tickets = {x} + (n.eng.flush.tickets +
      flusherTickets n.eng.flushers + getTickets n.eng.gets) := by
    intro x hx
    simp only [Node.tickets, hx, add_assoc]
  cases hm with
  | sync hw | apply hw | applySynced hw | exceeds hw | flushSync hw | takeSeq hw | create hw | swap hw =>
    exact hsilent (by rw [hw]; rfl) rfl rfl rfl
  | @done w hw => rw [tickets_finish n (.write w), hreturns (x := .write w) (by rw [hw]; rfl)]; rfl
  | @nothing c hw => rw [tickets_finish n c, hreturns (x := c.ticket) (by rw [hw]; rfl)]
  | @replace c newSeq hw =>
    rw [tickets_finish (n.replaceWriter newSeq io) c, hreturns (x := c.ticket) (by rw [hw]; rfl)]
    rfl
  | @syncFails w _ hw => rw [tickets_abort n .io (.write w), hreturns (x := .write w) (by rw [hw]; rfl)]; rfl
  | @flushSyncFails since _ hw => rw [tickets_abort n .io (.flush since), hreturns (x := .flush) (by rw [hw]; rfl)]; rfl
  | @createFails c _ _ hw => rw [tickets_abort n .io c, hreturns (x := c.ticket) (by rw [hw]; rfl)]

/-- The call under `flush_lock`, by its caller. -/
theorem tickets_of_busy {f : FlushSection} (h : f.busy = true) (res : Except LsmError Unit) :
    f.tickets = (Out.toCaller f.caller res).returns := by
  cases f with
  | free => simp [FlushSection.busy] at h
  | draining c | building c | committing c | unlinkWals c => cases c <;> rfl
  | reading | merging | installing | unlinkInputs => rfl
  | manifest after =>
    cases after with
    | removeWals c => cases c <;> rfl
    | removeInputs => rfl

theorem FlushMove.tickets {io : Io} {r : Node Γ × Out} (hm : FlushMove n io r) : r.1.tickets + r.2.returns = n.tickets := by
  have hb : n.eng.flush.busy = true := hm.busy
  obtain ⟨hgets, hq⟩ := hm.same
  have hw := hm.sameWrites.wal
  rcases hm.returns with ⟨ho, hb', hc⟩ | ⟨hfree, res, ho⟩
  · have hf : r.1.eng.flush.tickets = n.eng.flush.tickets := by
      rw [tickets_of_busy hb' (.ok ()), tickets_of_busy hb (.ok ()), hc]
    simp only [Node.tickets, hf, hgets, hq, hw, ho, Out.returns, add_zero]
  · have hnone : FlushSection.free.tickets = 0 := rfl
    simp only [Node.tickets, hfree, hgets, hq, hw, ho, tickets_of_busy hb res, hnone]
    abel

/-- A `get` that goes on keeps its ticket. -/
theorem getTickets_set {l : List GetCall} {i : Nat} {g : GetCall} (hg : l[i]? = some g) (walk : GetWalk) :
    getTickets (l.set i { g with walk := walk }) = getTickets l := by
  obtain ⟨hi, rfl⟩ := List.getElem?_eq_some_iff.1 hg
  unfold getTickets
  rw [List.map_set]
  congr 1
  refine List.ext_getElem (by simp) (fun j h1 h2 => ?_)
  rw [List.getElem_set]
  split
  · rename_i heq
    subst heq
    simp
  · rfl

/-- A `get` that leaves takes its ticket with it. -/
theorem getTickets_eraseIdx {l : List GetCall} {i : Nat} {g : GetCall} (hg : l[i]? = some g) :
    getTickets (l.eraseIdx i) + {.get g.key} = getTickets l := by
  obtain ⟨hi, rfl⟩ := List.getElem?_eq_some_iff.1 hg
  have hperm := Multiset.coe_eq_coe.2 ((List.getElem_cons_eraseIdx_perm hi).map (fun g => Ticket.get g.key))
  rw [List.map_cons, ← Multiset.cons_coe] at hperm
  rw [add_comm, Multiset.singleton_add]
  exact hperm

/-- A step of a `get` loses no ticket and makes none. -/
theorem GetMove.tickets {i : Nat} {io : Io} {r : Node Γ × Out} (hm : GetMove n i io r) : r.1.tickets + r.2.returns = n.tickets := by
  have hanswer : ∀ {g : GetCall}, n.eng.gets[i]? = some g → ∀ res,
      (n.answer i g res).1.tickets + (n.answer i g res).2.returns = n.tickets := by
    intro g hg res
    simp only [Node.answer, Node.tickets, Out.returns]
    rw [← getTickets_eraseIdx hg]
    abel
  have hwalk : ∀ {g : GetCall} {walk : GetWalk}, n.eng.gets[i]? = some g →
      (n.walkOn i g walk).1.tickets + (n.walkOn i g walk).2.returns = n.tickets := by
    intro g walk hg
    simp only [Node.walkOn, Node.tickets, Out.returns, getTickets_set hg, add_zero]
  cases hm with
  | activeHit hg | immHit hg | tablesEnd hg | fails hg | tableHit hg => exact hanswer hg _
  | activeMiss hg | immMiss hg | immEnd hg | skip hg | tableMiss hg => exact hwalk hg
  | openTable => exact add_zero _

/-- An action makes the tickets of the calls it begins, and loses none. -/
theorem NodeMove.tickets {a : Act} {x : Sys Γ × Out} (hm : NodeMove n a x) : x.1.tickets + x.2.returns = n.tickets + a.begins := by
  cases hm with
  | wal hw => exact hw.tickets.trans (add_zero _).symm
  | flushStep hf => exact hf.tickets.trans (add_zero _).symm
  | getStep hg => exact hg.tickets.trans (add_zero _).symm
  | @write w io n' o hw =>
    cases hw with
    | logged hf =>
      simp only [Sys.tickets, Node.toSys, Node.logWrite, Node.tickets, hf, WalSection.tickets, Out.returns, Act.begins]
      abel
    | refused | torn => rfl
  | flush hw =>
    simp only [Sys.tickets, Node.toSys, Node.tickets, hw, WalSection.tickets, Out.returns, Act.begins]
    abel
  | @flushEnter i since hf hi =>
    obtain ⟨hlt, -⟩ := List.getElem?_eq_some_iff.1 hi
    have hq : flusherTickets n.eng.flushers = {.flush} + flusherTickets (n.eng.flushers.eraseIdx i) := by
      rw [flusherTickets, flusherTickets, List.length_eraseIdx, if_pos hlt, Multiset.singleton_add, ← Multiset.replicate_succ]
      congr 1
      omega
    simp only [Sys.tickets, Node.toSys, Node.tickets, hf, hq, FlushSection.tickets, FlushCaller.ticket, Out.returns, Act.begins]
    abel
  | workerEnter hf | compactEnter hf =>
    simp only [Sys.tickets, Node.toSys, Node.tickets, hf, FlushSection.tickets, FlushCaller.ticket, Out.returns, Act.begins]
    abel
  | compactNothing hf =>
    simp only [Sys.tickets, Node.toSys, Node.compactEnd, Node.tickets, hf, FlushSection.tickets, Out.returns, Act.begins]
  | @get key =>
    have hg : getTickets (n.get key).1.eng.gets = getTickets n.eng.gets + {.get key} := by
      rw [getTickets, getTickets, Node.get, List.map_append, ← Multiset.coe_add]
      rfl
    change n.eng.wal.tickets + n.eng.flush.tickets + flusherTickets n.eng.flushers + getTickets (n.get key).1.eng.gets + 0 = _
    rw [hg]
    simp only [Node.tickets, Act.begins, add_zero, add_assoc]
  | handover => rfl
  | drop hw hf hq hg =>
    simp [Sys.tickets, Node.drop, Node.tickets, hw, hf, hq, hg, WalSection.tickets, FlushSection.tickets, flusherTickets,
      getTickets, Out.returns, Act.begins]

/-- Every step but a crash: what is in progress after it or returned by it was in progress before it or begins with it. -/
theorem step_tickets {s t : Sys Γ} {a : Act} {o : Out} (hs : step Γ s a = some (t, o)) (ha : a.isCrash = false) :
    t.tickets + o.returns = s.tickets + a.begins := by
  cases step_cases hs with
  | crash => simp [Act.isCrash] at ha
  | openDir hp => simp [Sys.tickets, hp, Out.returns, Act.begins]
  | openStep hp hm =>
    have hs : s.tickets = {.opening} := by simp only [Sys.tickets, hp]
    rw [hs]
    cases hm with
    | up => simp [Sys.tickets, Recovered.engine, Node.tickets, WalSection.tickets, FlushSection.tickets, flusherTickets, getTickets,
        Out.returns, Act.begins]
    | _ => simp [Sys.tickets, Out.returns, Act.begins]
  | @openHandover k op hp =>
    unfold Opening.handover
    split
    · simp [Sys.tickets, hp, Out.returns, Act.begins]
    · simp [Out.returns, Act.begins]
  | @node _ e _ hp hm =>
    have hs : s.tickets = (Node.mk s.disk s.hist e).tickets := by simp only [Sys.tickets, hp]
    rw [hs]
    exact hm.tickets

end LsmEngine
