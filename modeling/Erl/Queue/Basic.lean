import Erl.Lib.System
import Mathlib.Data.Fintype.Basic
import Mathlib.Logic.Function.Basic

/-!
# `BasicQueue`: the step relation

Any number of threads call the members of `BasicQueue` (`_impl/queue/basic.hpp`): a
`std::queue` under a mutex, with a condition variable on which `pop` waits. A thread
blocked on the mutex takes no step. `try_lock` may fail although the mutex is free, and a
wait may end without a notification. The history lists what each critical section did to
the queue; it and the lists of calls, begun and returned, are ghost state.
-/

namespace Erl.Queue.Basic
open TransitionSystem Function

/-- The member functions; a default `stop_token` is `none`. -/
inductive Call (Token T : Type) where
  | push (data : T)
  | tryPush (data : T)
  | pop (token : Option Token)
  | tryPop
  | isEmpty
  | notifyAll

/-- What a critical section did: stored an element, took one, found none to take (`pop`
and `try_pop`) or looked whether there is one. -/
inductive Event (Token T : Type) where
  | put (data : T)
  | took (value : T)
  | gaveUp (token : Option Token)
  | missed
  | looked (empty : Bool)

/-- What a call returns; `popped none` is `{}` or `false`. -/
inductive Answer (T : Type) where
  | pushed (ok : Bool)
  | popped (value : Option T)
  | empty (yes : Bool)
  | notified

/-- Where a thread is: each constructor names the step it takes next. -/
inductive Pc (Token T : Type) where
  | idle
  | pushLock (data : T)
  | tryPushLock (data : T)
  | pushQueue (data : T)
  | pushNotify (data : T)
  | popLock (token : Option Token)
  | popCheck (token : Option Token)
  | popSleep (token : Option Token)
  | sleeping (token : Option Token)
  | popRelock (token : Option Token)
  | popTake (token : Option Token)
  | tryPopLock
  | tryPopTake
  | emptyLock
  | emptyRead
  | unlock (done : Event Token T)
  | notifyAll

structure State (Tid Token T : Type) where
  queue : List T
  /-- The owner of `m`. -/
  lock : Option Tid
  stopped : Token → Bool
  thread : Tid → Pc Token T
  history : List (Tid × Event Token T)
  /-- The calls that have begun. -/
  calls : List (Tid × Call Token T)
  /-- Returned calls: what their critical section did, if they had one, and the answer. -/
  returned : List (Tid × Option (Event Token T) × Answer T)

/-- A thread starts a call, takes its next step, ends `notify_one` with a sleeping thread
to wake or none, has `try_lock` fail, or wakes up without a reason; `request_stop` is
called on a token. -/
inductive Action (Tid Token T : Type) where
  | call (t : Tid) (c : Call Token T)
  | step (t : Tid)
  | notify (t : Tid) (woken : Option Tid)
  | refuse (t : Tid)
  | spurious (t : Tid)
  | stop (token : Token)

section
variable {Tid Token T : Type}

def Event.answer : Event Token T → Answer T
  | .put _ => .pushed true
  | .took value => .popped (some value)
  | .gaveUp _ | .missed => .popped none
  | .looked empty => .empty empty

def Pc.start : Call Token T → Pc Token T
  | .push data => .pushLock data
  | .tryPush data => .tryPushLock data
  | .pop token => .popLock token
  | .tryPop => .tryPopLock
  | .isEmpty => .emptyLock
  | .notifyAll => .notifyAll

/-- A notified or spuriously woken thread goes on to take the mutex again. -/
def Pc.wake : Pc Token T → Pc Token T
  | .sleeping token => .popRelock token
  | pc => pc

def Pc.asleep : Pc Token T → Bool
  | .sleeping _ => true
  | _ => false

/-- `stop_token.stop_requested()`. -/
def State.stopRequested (s : State Tid Token T) : Option Token → Bool
  | none => false
  | some token => s.stopped token

variable [DecidableEq Tid]

def State.goto (s : State Tid Token T) (t : Tid) (pc : Pc Token T) : State Tid Token T :=
  { s with thread := update s.thread t pc }

/-- The mutex, if it is free. -/
def acquire (s : State Tid Token T) (t : Tid) (pc : Pc Token T) : Option (State Tid Token T) :=
  match s.lock with
  | none => some { s.goto t pc with lock := some t }
  | some _ => none

/-- The effect of a critical section on the queue. -/
def act (s : State Tid Token T) (t : Tid) (queue : List T) (e : Event Token T) (pc : Pc Token T) : State Tid Token T :=
  { s.goto t pc with queue := queue, history := s.history ++ [(t, e)] }

/-- The call returns. -/
def State.answer (s : State Tid Token T) (t : Tid) (e : Option (Event Token T)) (a : Answer T) : State Tid Token T :=
  { s.goto t .idle with returned := s.returned ++ [(t, e, a)] }

/-- `try_lock` fails. -/
def refuse (s : State Tid Token T) (t : Tid) : Option (State Tid Token T) :=
  match s.thread t with
  | .tryPushLock _ => some (s.answer t none (.pushed false))
  | .tryPopLock => some (s.answer t none (.popped none))
  | _ => none

/-- The predicate of the wait: `!queue.empty() || stop_token.stop_requested()`. -/
def popCheck (s : State Tid Token T) (t : Tid) (token : Option Token) : State Tid Token T :=
  s.goto t (if !s.queue.isEmpty || s.stopRequested token then .popTake token else .popSleep token)

/-- The rest of `pop`: the oldest element, or `{}`. -/
def popTake (s : State Tid Token T) (t : Tid) (token : Option Token) : State Tid Token T :=
  match s.queue with
  | [] => act s t [] (.gaveUp token) (.unlock (.gaveUp token))
  | value :: rest => act s t rest (.took value) (.unlock (.took value))

/-- The rest of `try_pop`. -/
def tryPopTake (s : State Tid Token T) (t : Tid) : State Tid Token T :=
  match s.queue with
  | [] => act s t [] .missed (.unlock .missed)
  | value :: rest => act s t rest (.took value) (.unlock (.took value))

/-- The next step of a thread, apart from `notify_one`. -/
def next (s : State Tid Token T) (t : Tid) : Option (State Tid Token T) :=
  match s.thread t with
  | .idle | .sleeping _ | .pushNotify _ => none
  | .pushLock data => acquire s t (.pushQueue data)
  | .tryPushLock data => acquire s t (.pushQueue data)
  | .pushQueue data => some (act s t (s.queue ++ [data]) (.put data) (.pushNotify data))
  | .popLock token => acquire s t (.popCheck token)
  | .popCheck token => some (popCheck s t token)
  | .popSleep token => some { s.goto t (.sleeping token) with lock := none }
  | .popRelock token => acquire s t (.popCheck token)
  | .popTake token => some (popTake s t token)
  | .tryPopLock => acquire s t .tryPopTake
  | .tryPopTake => some (tryPopTake s t)
  | .emptyLock => acquire s t .emptyRead
  | .emptyRead => some (act s t s.queue (.looked s.queue.isEmpty) (.unlock (.looked s.queue.isEmpty)))
  | .unlock e => some { s.answer t (some e) e.answer with lock := none }
  | .notifyAll => some ({ s with thread := fun u => (s.thread u).wake }.answer t none .notified)

/-- `notify_one`: one of the sleeping threads wakes, if there is any. -/
def notify [Fintype Tid] (s : State Tid Token T) (t : Tid) (data : T) : Option Tid → Option (State Tid Token T)
  | some u => if (s.thread u).asleep then some ((s.goto u (s.thread u).wake).goto t (.unlock (.put data))) else none
  | none => if ∀ u, (s.thread u).asleep = false then some (s.goto t (.unlock (.put data))) else none

variable [DecidableEq Token] [Fintype Tid]

def exec (s : State Tid Token T) : Action Tid Token T → Option (State Tid Token T)
  | .call t c =>
    match s.thread t with
    | .idle => some { s.goto t (.start c) with calls := s.calls ++ [(t, c)] }
    | _ => none
  | .step t => next s t
  | .notify t woken =>
    match s.thread t with
    | .pushNotify data => notify s t data woken
    | _ => none
  | .refuse t => refuse s t
  | .spurious t => if (s.thread t).asleep then some (s.goto t (s.thread t).wake) else none
  | .stop token => some { s with stopped := update s.stopped token true }

omit [DecidableEq Tid] [DecidableEq Token] [Fintype Tid] in
/-- The constructed queue: empty, unlocked, every thread outside a call. -/
def start : State Tid Token T where
  queue := []
  lock := none
  stopped _ := false
  thread _ := .idle
  history := []
  calls := []
  returned := []

/-- Any interleaving of the threads, each making any calls. -/
def system : System (State Tid Token T) := ofActions start exec

end

end Erl.Queue.Basic
