import Erl.Queue.Pipe
import Erl.Queue.MpmcBlocking
import Mathlib.Data.Fintype.Basic

/-!
# Messages in the queue of an `EventQueue`

`EventQueue` (`erl/rpc`) sends `HybridBuffer`s through a `BoundedMPMC`, whose cells are
buffers that live from its construction on. `try_push` constructs the message over a cell,
by copy or by move as its argument has it, and `try_pop` moves a cell over the target
(`_impl/queue/mpmc_bounded.hpp`). Any number of threads are in `push` and `pop`
(`_impl/queue/base.hpp`), which try until an attempt succeeds.

Positions and program counters are those of `Mpmc`, step by step; the elements it carries
are ghosts here, the bytes that the messages stand for.
-/

namespace Erl.Queue.Events
open TransitionSystem Message Blocks Function
open Pipe (Place constructCopy constructDefault)

/-- `push(obj)`, of an lvalue or an rvalue, and `pop`, with its `obj`. -/
inductive Call where
  | push (source : Nat) (rvalue : Bool)
  | pop (target : Nat)
deriving DecidableEq

def Call.object : Call → Nat
  | .push i _ => i
  | .pop i => i

/-- A message that is copied may be the argument of several calls. -/
def Call.shares : Call → Bool
  | .push _ rvalue => !rvalue
  | .pop _ => false

structure State (Tid : Type) where
  ring : Mpmc.State Tid (List UInt8)
  world : World Place
  /-- The call each thread is in. -/
  call : Tid → Option Call

/-- `user` is anything a thread does outside of its calls; `step` continues a call, or has
the weak exchange of its attempt fail; `stop` ends a `pop` whose stop token has been asked
to. -/
inductive Action (Tid : Type) where
  | user (op : Op Place)
  | push (t : Tid) (source : Nat) (rvalue : Bool)
  | pop (t : Tid) (target : Nat)
  | step (t : Tid)
  | spurious (t : Tid)
  | stop (t : Tid)

section
variable {Tid : Type} [DecidableEq Tid] [Fintype Tid] (N : Ring.Size) (inlineCapacity : Nat) (A : Allocator)

/-- No call in progress is about the object. -/
def State.free (s : State Tid) : Place → Bool
  | .cell _ => false
  | .object i => decide (∀ t, ∀ c ∈ s.call t, c.object ≠ i)

/-- The calls in progress that are about the object only copy it. -/
def State.shared (s : State Tid) (i : Nat) : Prop := ∀ t, ∀ c ∈ s.call t, c.object = i → c.shares = true

instance (s : State Tid) (i : Nat) : Decidable (s.shared i) := inferInstanceAs (Decidable (∀ _, _))

/-- `new (place) T(std::move(other))`, whatever is at `place`. -/
def constructMove (w : World Place) (place other : Place) : Option (Except Fault (World Place)) :=
  (w.buffers other).map fun b =>
    (HybridBuffer.moveConstruct inlineCapacity b).map fun r =>
      ⟨w.move place other w.heap r, update (update w.contents place (w.contents other)) other (some [])⟩

/-- What a step of `try_push(object i)` does to the buffers. -/
def pushEffect (s : State Tid) (t : Tid) (i : Nat) (rvalue : Bool) : Option (Except Fault (World Place)) :=
  match s.ring.thread t with
  | .pushConstruct _ pos =>
    if rvalue then constructMove inlineCapacity s.world (.cell (pos &&& N.mask)) (.object i)
    else constructCopy inlineCapacity A s.world (.cell (pos &&& N.mask)) (.object i)
  | _ => some (.ok s.world)

/-- What a step of `try_pop(&object i)` does to the buffers. -/
def popEffect (s : State Tid) (t : Tid) (i : Nat) : Option (Except Fault (World Place)) :=
  match s.ring.thread t with
  | .popMove pos => constructMove inlineCapacity s.world (.object i) (.cell (pos &&& N.mask))
  | _ => some (.ok s.world)

/-- `call` ends with this step. -/
def State.after (s : State Tid) (t : Tid) (last : Bool) : Tid → Option Call :=
  if last then update s.call t none else s.call

/-- A step of the call a thread is in, or the next attempt. -/
def callStep (s : State Tid) (t : Tid) : Call → Option (Except Fault (State Tid))
  | .push i rvalue =>
    let r := Mpmc.pushStep N s.ring t ((s.world.contents (.object i)).getD [])
    (pushEffect N inlineCapacity A s t i rvalue).map fun x => x.map fun w => ⟨r.1, w, s.after t r.2⟩
  | .pop i =>
    let r := Mpmc.popStep N s.ring t
    (popEffect N inlineCapacity s t i).map fun x => x.map fun w => ⟨r.1, w, s.after t r.2.isSome⟩

/-- One step, if it is possible. -/
def step (s : State Tid) : Action Tid → Option (Except Fault (State Tid))
  | .user op =>
    if op.places.all s.free then
      (perform inlineCapacity A s.world.toMemory op).map fun r => r.map fun m =>
        { s with world := ⟨m, op.effect s.world.contents⟩ }
    else none
  | .push t i rvalue =>
    match s.call t, s.world.buffers (.object i) with
    | none, some _ =>
      if (if rvalue then s.free (.object i) else decide (s.shared i)) then
        some (.ok { s with call := update s.call t (some (.push i rvalue)) })
      else none
    | _, _ => none
  | .pop t i =>
    match s.call t, s.world.buffers (.object i) with
    | none, none =>
      some (.ok { s with
        world := constructDefault inlineCapacity s.world (.object i) s.world.heap
        call := update s.call t (some (.pop i)) })
    | _, _ => none
  | .step t => (s.call t).bind (callStep N inlineCapacity A s t)
  | .spurious t => (Mpmc.exec N s.ring (.spurious t)).map fun ring => .ok { s with ring }
  | .stop t =>
    -- `return {};`: `obj` ends and the result is another empty buffer.
    match s.call t, s.ring.thread t with
    | some (.pop i), .idle =>
      (s.world.buffers (.object i)).map fun b => (b.destroy s.world.heap).map fun h =>
        { s with world := constructDefault inlineCapacity s.world (.object i) h, call := update s.call t none }
    | _, _ => none

/-- After a memory fault nothing happens any more. -/
def exec : Except Fault (State Tid) → Action Tid → Option (Except Fault (State Tid))
  | .ok s, a => step N inlineCapacity A s a
  | .error _, _ => none

/-- The constructed queue; its users have no buffers yet. -/
def start : Except Fault (State Tid) := .ok ⟨Mpmc.start, (Pipe.State.initial N inlineCapacity).world, fun _ => none⟩

/-- Any number of threads, each making any calls. -/
def system : System (Except Fault (State Tid)) := ofActions (start N inlineCapacity) (exec N inlineCapacity A)

end

/-- Each block obtained and not freed yet is owned by exactly one live buffer. -/
def State.Clean {Tid : Type} (s : State Tid) : Prop := ∀ p, s.world.heap.block p ≠ none → ∃! k, s.world.owner k = some p

/-- Where the next step of a thread constructs a buffer by placement new. -/
def State.constructs {Tid : Type} (N : Ring.Size) (s : State Tid) (t : Tid) : Option Place :=
  match s.call t, s.ring.thread t with
  | some (.push _ _), .pushConstruct _ pos => some (.cell (pos &&& N.mask))
  | some (.pop i), .popMove _ => some (.object i)
  | _, _ => none

end Erl.Queue.Events
