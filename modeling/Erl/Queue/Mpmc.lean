import Erl.Lib.System
import Erl.Lib.Ring
import Mathlib.Logic.Function.Basic

/-!
# `BoundedMPMC`: the step relation

Any number of threads run `try_push` and `try_pop` (`_impl/queue/mpmc_bounded.hpp`).
The steps are the individual loads, stores and compare-exchanges and the element
construction or move, sequentially consistent; the weak exchange may fail although the
position matches. Positions are unbounded naturals, so the sign of `dif` is the order
of the two numbers. A position that an exchange takes is a ticket; the logs of claimed
tickets, constructed elements and delivered elements are ghost state.
-/

namespace Erl.Queue.Mpmc
open TransitionSystem Function

/-- `cell_t`; `data` is `none` while it holds no element (never constructed, or moved
from). -/
structure Cell (T : Type) where
  sequence : Nat
  data : Option T

/-- The members of `BoundedMPMC<T, N>`. -/
structure BoundedMPMC (T : Type) where
  cells : Nat → Cell T
  writePos : Nat
  readPos : Nat

/-- Where a thread is: each constructor names the step it takes next, with the locals
that step reads. -/
inductive Pc (T : Type) where
  | idle
  | pushLoad (data : T) (pos : Nat)
  | pushExchange (data : T) (pos : Nat)
  | pushReload (data : T)
  | pushConstruct (data : T) (pos : Nat)
  | pushPublish (data : T) (pos : Nat)
  | popLoad (pos : Nat)
  | popExchange (pos : Nat)
  | popReload
  | popMove (pos : Nat)
  | popPublish (target : Option T) (pos : Nat)

structure State (Tid T : Type) where
  queue : BoundedMPMC T
  thread : Tid → Pc T
  /-- Winning exchanges on `write_pos`, in order: thread, ticket and value. -/
  pushClaims : List (Tid × Nat × T)
  /-- Winning exchanges on `read_pos`, in order: thread and ticket. -/
  popClaims : List (Tid × Nat)
  /-- Finished constructions: ticket and element. -/
  constructed : List (Nat × T)
  /-- Elements moved to their target: ticket and what was found in the cell. -/
  delivered : List (Nat × Option T)

/-- A thread starts a call, takes its next step, or has its weak exchange fail. -/
inductive Action (Tid T : Type) where
  | push (t : Tid) (data : T)
  | pop (t : Tid)
  | step (t : Tid)
  | spurious (t : Tid)

section
variable {Tid T : Type} [DecidableEq Tid] (N : Ring.Size)

def State.goto (s : State Tid T) (t : Tid) (pc : Pc T) : State Tid T :=
  { s with thread := update s.thread t pc }

/-- `buffer[pos & buffer_mask]`. -/
def State.cell (s : State Tid T) (pos : Nat) : Cell T := s.queue.cells (pos &&& N.mask)

def State.setCell (s : State Tid T) (pos : Nat) (c : Cell T) : State Tid T :=
  { s with queue.cells := update s.queue.cells (pos &&& N.mask) c }

/-- `write_pos.load()`, at the start of `try_push` and in its retry branch. -/
def loadWrite (s : State Tid T) (t : Tid) (data : T) : State Tid T :=
  s.goto t (.pushLoad data s.queue.writePos)

/-- `sequence.load()` and the branch on `dif` in `try_push`. -/
def pushDecide (s : State Tid T) (t : Tid) (data : T) (pos : Nat) : State Tid T :=
  let seq := (s.cell N pos).sequence
  s.goto t (if seq = pos then .pushExchange data pos else if seq < pos then .idle else .pushReload data)

/-- `write_pos.compare_exchange_weak(pos, pos + 1)`; on failure `pos` is reloaded. -/
def pushExchange (s : State Tid T) (t : Tid) (data : T) (pos : Nat) : State Tid T :=
  if s.queue.writePos = pos then
    { s.goto t (.pushConstruct data pos) with
      queue.writePos := pos + 1
      pushClaims := s.pushClaims ++ [(t, pos, data)] }
  else loadWrite s t data

/-- `new (&cell->data) T(std::forward<U>(data))`. -/
def pushConstruct (s : State Tid T) (t : Tid) (data : T) (pos : Nat) : State Tid T :=
  { (s.setCell N pos { s.cell N pos with data := some data }).goto t (.pushPublish data pos) with
    constructed := s.constructed ++ [(pos, data)] }

/-- `cell->sequence.store(pos + 1)`, `return true`. -/
def pushPublish (s : State Tid T) (t : Tid) (pos : Nat) : State Tid T :=
  (s.setCell N pos { s.cell N pos with sequence := pos + 1 }).goto t .idle

/-- `read_pos.load()`, at the start of `try_pop` and in its retry branch. -/
def loadRead (s : State Tid T) (t : Tid) : State Tid T :=
  s.goto t (.popLoad s.queue.readPos)

/-- `sequence.load()` and the branch on `dif` in `try_pop`. -/
def popDecide (s : State Tid T) (t : Tid) (pos : Nat) : State Tid T :=
  let seq := (s.cell N pos).sequence
  s.goto t (if seq = pos + 1 then .popExchange pos else if seq < pos + 1 then .idle else .popReload)

/-- `read_pos.compare_exchange_weak(pos, pos + 1)`; on failure `pos` is reloaded. -/
def popExchange (s : State Tid T) (t : Tid) (pos : Nat) : State Tid T :=
  if s.queue.readPos = pos then
    { s.goto t (.popMove pos) with
      queue.readPos := pos + 1
      popClaims := s.popClaims ++ [(t, pos)] }
  else loadRead s t

/-- `new (target) T(std::move(cell->data))`. -/
def popMove (s : State Tid T) (t : Tid) (pos : Nat) : State Tid T :=
  { (s.setCell N pos { s.cell N pos with data := none }).goto t (.popPublish (s.cell N pos).data pos) with
    delivered := s.delivered ++ [(pos, (s.cell N pos).data)] }

/-- `cell->sequence.store(pos + buffer_mask + 1)`, `return true`. -/
def popPublish (s : State Tid T) (t : Tid) (pos : Nat) : State Tid T :=
  (s.setCell N pos { s.cell N pos with sequence := pos + N.mask + 1 }).goto t .idle

/-- One step, if the thread named by the action can take it. -/
def exec (s : State Tid T) : Action Tid T → Option (State Tid T)
  | .push t data =>
    match s.thread t with
    | .idle => some (loadWrite s t data)
    | _ => none
  | .pop t =>
    match s.thread t with
    | .idle => some (loadRead s t)
    | _ => none
  | .spurious t =>
    match s.thread t with
    | .pushExchange data _ => some (loadWrite s t data)
    | .popExchange _ => some (loadRead s t)
    | _ => none
  | .step t =>
    match s.thread t with
    | .idle => none
    | .pushLoad data pos => some (pushDecide N s t data pos)
    | .pushExchange data pos => some (pushExchange s t data pos)
    | .pushReload data => some (loadWrite s t data)
    | .pushConstruct data pos => some (pushConstruct N s t data pos)
    | .pushPublish _ pos => some (pushPublish N s t pos)
    | .popLoad pos => some (popDecide N s t pos)
    | .popExchange pos => some (popExchange s t pos)
    | .popReload => some (loadRead s t)
    | .popMove pos => some (popMove N s t pos)
    | .popPublish _ pos => some (popPublish N s t pos)

/-- The constructed queue: cell `i` has sequence `i`, every thread is outside a call. -/
def start : State Tid T where
  queue := ⟨fun i => ⟨i, none⟩, 0, 0⟩
  thread _ := .idle
  pushClaims := []
  popClaims := []
  constructed := []
  delivered := []

/-- Any interleaving of the threads, each making any calls. -/
def system : System (State Tid T) := ofActions start (exec N)

/-! ## Tickets in progress -/

/-- The ticket of a push between its winning exchange and its sequence store. -/
def Pc.pushing : Pc T → Option Nat
  | .pushConstruct _ pos => some pos
  | .pushPublish _ pos => some pos
  | _ => none

/-- The ticket of a pop between its winning exchange and its sequence store. -/
def Pc.popping : Pc T → Option Nat
  | .popMove pos => some pos
  | .popPublish _ pos => some pos
  | _ => none

/-- The thread is between its winning exchange and its sequence store on cell `c`. -/
def Busy (s : State Tid T) (t : Tid) (c : Nat) : Prop :=
  ∃ p, p % N.size = c ∧ ((s.thread t).pushing = some p ∨ (s.thread t).popping = some p)

/-- What a thread at `pc` knows about the queue and the logs. -/
def PcInv (s : State Tid T) (t : Tid) : Pc T → Prop
  | .idle | .pushLoad .. | .pushReload _ | .popLoad _ | .popReload => True
  | .pushExchange _ pos => pos ≤ (s.cell N pos).sequence
  | .pushConstruct data pos =>
    pos < s.queue.writePos ∧ (s.cell N pos).sequence = pos ∧ (t, pos, data) ∈ s.pushClaims
  | .pushPublish data pos =>
    pos < s.queue.writePos ∧ (s.cell N pos).sequence = pos ∧ (t, pos, data) ∈ s.pushClaims ∧
      (s.cell N pos).data = some data ∧ (pos, data) ∈ s.constructed
  | .popExchange pos => pos + 1 ≤ (s.cell N pos).sequence
  | .popMove pos =>
    pos < s.queue.readPos ∧ (s.cell N pos).sequence = pos + 1 ∧ (t, pos) ∈ s.popClaims ∧
      (∃ u v, (s.cell N pos).data = some v ∧ (u, pos, v) ∈ s.pushClaims ∧ (pos, v) ∈ s.constructed) ∧
      ∀ d ∈ s.delivered, d.1 ≠ pos
  | .popPublish target pos =>
    pos < s.queue.readPos ∧ (s.cell N pos).sequence = pos + 1 ∧ (t, pos) ∈ s.popClaims ∧
      (pos, target) ∈ s.delivered

/-- A cell waits for the push of ticket `p`, or holds the element of ticket `p` until
its pop is done. -/
inductive CellInv (s : State Tid T) (c : Nat) : Prop where
  | free (p : Nat) (slot : p % N.size = c) (seq : (s.queue.cells c).sequence = p)
      (lo : s.queue.readPos ≤ p) (hi : p < s.queue.readPos + N.size)
      (claimed : p < s.queue.writePos → ∃ t, (s.thread t).pushing = some p)
  | full (p : Nat) (slot : p % N.size = c) (seq : (s.queue.cells c).sequence = p + 1)
      (lo : p < s.queue.writePos) (hi : s.queue.writePos ≤ p + N.size)
      (stored : s.queue.readPos ≤ p → ∃ u v, (s.queue.cells c).data = some v ∧
        (u, p, v) ∈ s.pushClaims ∧ (p, v) ∈ s.constructed)
      (claimed : p < s.queue.readPos → ∃ t, (s.thread t).popping = some p)

/-- The global invariant: the two counters are at most a lap apart, every cell is in
step with them, every thread knows what it should, and the logs list the tickets. -/
structure Inv (s : State Tid T) : Prop where
  read_le : s.queue.readPos ≤ s.queue.writePos
  write_le : s.queue.writePos ≤ s.queue.readPos + N.size
  cell : ∀ c < N.size, CellInv N s c
  thread : ∀ t, PcInv N s t (s.thread t)
  pushTickets : s.pushClaims.map (·.2.1) = List.range s.queue.writePos
  popTickets : s.popClaims.map (·.2) = List.range s.queue.readPos
  delivered : ∀ d ∈ s.delivered, d.1 < s.queue.readPos ∧
    ∃ u v, d.2 = some v ∧ (u, d.1, v) ∈ s.pushClaims ∧ (d.1, v) ∈ s.constructed
  once : (s.delivered.map (·.1)).Nodup
  arrived : ∀ p < s.queue.readPos, (∃ d ∈ s.delivered, d.1 = p) ∨ ∃ t, s.thread t = .popMove p

end

end Erl.Queue.Mpmc
