import Erl.Message.Buffers
import Erl.Queue.Spsc

/-!
# Messages in the queues of a `Pipe`

`Pipe` (`erl/rpc`) sends `HybridBuffer`s through a `BoundedSPSC`. The cells of the queue
are buffers that live from its construction on. `try_push` constructs a copy of the
message over a cell and `try_pop` a copy of a cell over the target
(`_impl/queue/spsc_bounded.hpp`); nothing ends the lifetime of what is there.
`QueueBase::push` and `pop` (`_impl/queue/base.hpp`) try until an attempt succeeds.

Positions and program counters are those of `Spsc`, step by step; the elements it carries
are ghosts here, the bytes that the messages stand for.
-/

namespace Erl.Queue.Pipe
open TransitionSystem Message Blocks Function

/-- The buffers of a program: the cells of a queue and the objects of its users. -/
inductive Place where
  | cell (i : Nat)
  | object (i : Nat)
deriving DecidableEq

structure State where
  ring : Spsc.State (List UInt8)
  world : World Place
  /-- The argument of the `push` in progress. -/
  source : Option Nat
  /-- `obj` of the `pop` in progress. -/
  target : Option Nat
  /-- Ghost: the messages copied into cells so far, as they were at that time. -/
  copied : List HybridBuffer

/-- `push` and `pop` begin a call of `QueueBase`, `producer` and `consumer` continue it;
`stop` ends a `pop` whose stop token has been asked to. -/
inductive Action where
  | user (op : Op Place)
  | push (i : Nat)
  | producer
  | pop (i : Nat)
  | consumer
  | stop

section
variable (N : Ring.Size) (inlineCapacity : Nat) (A : Allocator)

/-- The object belongs to no call in progress. -/
def State.free (s : State) : Place → Bool
  | .cell _ => false
  | .object i => s.source ≠ some i && s.target ≠ some i

/-- `new (place) T(other)`: a copy of `other` is constructed, whatever is at `place`. -/
def constructCopy (w : World Place) (place other : Place) : Option (Except Fault (World Place)) :=
  (w.buffers other).map fun b =>
    (HybridBuffer.copyConstruct inlineCapacity A b w.heap).map fun r =>
      ⟨w.put place r, update w.contents place (w.contents other)⟩

/-- `T obj;` -/
def constructDefault (w : World Place) (place : Place) (h : Heap) : World Place :=
  ⟨w.put place (h, .construct inlineCapacity), update w.contents place (some [])⟩

/-- A step of `try_push(object i)`, or the next attempt. -/
def producerStep (s : State) (i : Nat) : Option (Except Fault State) :=
  match s.ring.producer with
  | .idle => some (.ok { s with ring := Spsc.beginPush N s.ring ((s.world.contents (.object i)).getD []) })
  | .reload data pos => some (.ok { s with ring := Spsc.reloadRead N s.ring data pos })
  | .construct data pos =>
    (constructCopy inlineCapacity A s.world (.cell pos) (.object i)).map fun r => r.map fun w =>
      { s with
        ring := Spsc.constructElement s.ring data pos
        world := w
        copied := s.copied ++ (s.world.buffers (.object i)).toList }
  | .publish data pos => some (.ok { s with ring := Spsc.publishPush N s.ring data pos, source := none })

/-- A step of `try_pop(&obj)`, or the next attempt. -/
def consumerStep (s : State) (i : Nat) : Option (Except Fault State) :=
  match s.ring.consumer with
  | .idle => some (.ok { s with ring := Spsc.beginPop s.ring })
  | .reload pos => some (.ok { s with ring := Spsc.reloadWrite s.ring pos })
  | .copy pos =>
    (constructCopy inlineCapacity A s.world (.object i) (.cell pos)).map fun r => r.map fun w =>
      { s with ring := Spsc.copyElement s.ring pos, world := w }
  | .publish value pos => some (.ok { s with ring := Spsc.publishPop N s.ring value pos, target := none })

/-- One step, if it is possible. -/
def step (s : State) : Action → Option (Except Fault State)
  | .user op =>
    if op.places.all s.free then
      (perform inlineCapacity A s.world.toMemory op).map fun r => r.map fun m =>
        { s with world := ⟨m, op.effect s.world.contents⟩ }
    else none
  | .push i =>
    match s.source, s.world.buffers (.object i) with
    | none, some _ => if s.target ≠ some i then some (.ok { s with source := some i }) else none
    | _, _ => none
  | .producer => s.source.bind (producerStep N inlineCapacity A s)
  | .pop i =>
    match s.target, s.world.buffers (.object i) with
    | none, none =>
      some (.ok { s with world := constructDefault inlineCapacity s.world (.object i) s.world.heap, target := some i })
    | _, _ => none
  | .consumer => s.target.bind (consumerStep N inlineCapacity A s)
  | .stop =>
    -- `return {};`: `obj` ends and the result is another empty buffer.
    match s.target, s.ring.consumer with
    | some i, .idle =>
      (s.world.buffers (.object i)).map fun b => (b.destroy s.world.heap).map fun h =>
        { s with world := constructDefault inlineCapacity s.world (.object i) h, target := none }
    | _, _ => none

/-- After a memory fault nothing happens any more. -/
def exec : Except Fault State → Action → Option (Except Fault State)
  | .ok s, a => step N inlineCapacity A s a
  | .error _, _ => none

/-- The constructed queue; its users have no buffers yet. -/
def State.initial : State where
  ring := Spsc.start
  world :=
    { heap := .empty
      buffers := fun
        | .cell i => if i < N.size then some (.construct inlineCapacity) else none
        | .object _ => none
      contents := fun
        | .cell i => if i < N.size then some [] else none
        | .object _ => none }
  source := none
  target := none
  copied := []

def start : Except Fault State := .ok (State.initial N inlineCapacity)

end

/-- Each block obtained and not freed yet is owned by exactly one live buffer. -/
def State.Clean (s : State) : Prop := ∀ p, s.world.heap.block p ≠ none → ∃! k, s.world.owner k = some p

/-- Where a step constructs a buffer by placement new. -/
def State.constructs (s : State) : Action → Option Place
  | .producer =>
    match s.ring.producer with
    | .construct _ pos => some (.cell pos)
    | _ => none
  | .consumer =>
    match s.ring.consumer with
    | .copy _ => s.target.map .object
    | _ => none
  | _ => none

/-- A step without a memory fault that constructs over no buffer with a block and leaves
no block behind. -/
def CleanStep (r : Except Fault State) (a : Action) (r' : Except Fault State) : Prop :=
  ∃ s s', r = .ok s ∧ r' = .ok s' ∧ s'.Clean ∧ ∀ k, s.constructs a = some k → s.world.owner k = none

section
variable (N : Ring.Size) (inlineCapacity : Nat) (A : Allocator)

/-- No block leaks in the run of these actions. -/
def Lossless (actions : List Action) : Prop :=
  (State.initial N inlineCapacity).Clean ∧
    ∀ r a r', Takes (start N inlineCapacity) (exec N inlineCapacity A) actions r a r' → CleanStep r a r'

/-- If the step copies a message into a cell, the one copied there a lap before, `N`
messages back, was in inline mode. -/
def LapInline (r : Except Fault State) (a : Action) : Prop :=
  ∀ s data pos m, r = .ok s → a = .producer → s.ring.producer = .construct data pos →
    N.size ≤ s.copied.length → s.copied[s.copied.length - N.size]? = some m → m.isHeap = false

end

end Erl.Queue.Pipe
