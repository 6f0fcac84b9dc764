import Erl.Util.Strings

/-!
# `LoggingService`

The state of the logging thread and its callbacks (`src/logging/logger.cpp`,
`_impl/log/logger.hpp`, `_impl/log/message.hpp`): the registered sinks and a table of what
is known about each thread. `calls` is a ghost: the calls made on the sinks, in order.
-/

namespace Erl.Logging
open Util

/-- Characters as bytes, the way `std::string` keeps them. -/
def bytes (text : String) : List UInt8 := text.toList.map fun c => UInt8.ofNat c.toNat

structure CachedThreadInfo where
  id : UInt64 := 0
  name : List UInt8 := bytes "<unnamed>"
  parent : UInt64 := 0
deriving DecidableEq, Repr

structure Location where
  file : List UInt8 := []
  function : List UInt8 := []
  line : UInt32 := 0
  column : UInt32 := 0
deriving DecidableEq, Repr

/-- `Severity`; its underlying type is fixed, so every byte is a value of it. -/
abbrev Severity := UInt8

/-- `TRACE`, `DEBUG`, `INFO`, `WARN`, `ERROR` and `FATAL` count from 0. -/
def info : Severity := 2

/-- `timepoint_t`: ticks of the system clock. -/
abbrev Timepoint := Int64

/-- `to_timepoint`. -/
def toTimepoint (timestamp : UInt64) : Timepoint := timestamp.toInt64

structure LogMessage where
  severity : Severity
  thread : CachedThreadInfo
  timestamp : Timepoint
  location : Location
  text : List UInt8
deriving DecidableEq, Repr

/-- The virtual functions of `Sink`, with their arguments. -/
inductive SinkCall where
  | print (message : LogMessage)
  | spawn (timestamp : Timepoint) (thread : CachedThreadInfo)
  | exit (timestamp : Timepoint) (thread : CachedThreadInfo)
  | rename (timestamp : Timepoint) (thread : CachedThreadInfo) (name : List UInt8)
  | setParent (timestamp : Timepoint) (thread parent : CachedThreadInfo)
deriving DecidableEq, Repr

/-- The address of a `Sink`. -/
abbrev SinkPtr := UInt64

structure LoggingService where
  sinks : List SinkPtr := []
  threads : UInt64 → Option CachedThreadInfo := fun _ => none
  calls : List (SinkPtr × SinkCall) := []

namespace LoggingService

/-- The value of `threads[thread]`, which inserts a default entry. -/
def entry (s : LoggingService) (thread : UInt64) : CachedThreadInfo := (s.threads thread).getD {}

/-- An assignment to `threads[thread]`. -/
def store (s : LoggingService) (thread : UInt64) (info : CachedThreadInfo) : LoggingService :=
  { s with threads := fun i => if i = thread then some info else s.threads i }

/-- `threads.erase(thread)`. -/
def erase (s : LoggingService) (thread : UInt64) : LoggingService :=
  { s with threads := fun i => if i = thread then none else s.threads i }

/-- `LoggingService::dispatch`: one call on every sink. -/
def dispatch (s : LoggingService) (call : SinkCall) : LoggingService :=
  { s with calls := s.calls ++ s.sinks.map fun sink => (sink, call) }

/-- `thread_get_info`. -/
def threadGetInfo (s : LoggingService) (thread : UInt64) : CachedThreadInfo :=
  match s.threads thread with
  | some info => info
  | none => { id := thread }

def spawn (timestamp thread : UInt64) (s : LoggingService) : LoggingService :=
  let info := { s.entry thread with id := thread }
  (s.store thread info).dispatch (.spawn (toTimepoint timestamp) info)

def exit (timestamp thread : UInt64) (s : LoggingService) : LoggingService :=
  let s := match s.threads thread with
    | some info => s.dispatch (.exit (toTimepoint timestamp) info)
    | none => s.dispatch (.exit (toTimepoint timestamp) { id := thread })
  s.erase thread

def rename (timestamp thread : UInt64) (name : List UInt8) (s : LoggingService) : LoggingService :=
  let info := s.entry thread
  let s := (s.store thread info).dispatch (.rename (toTimepoint timestamp) info name)
  s.store thread { info with name := name }

/-- `info` and `parent` are references into the table, to one entry when the thread is its
own parent. -/
def setParent (timestamp thread parent_id : UInt64) (s : LoggingService) : LoggingService :=
  let s := s.store thread (s.entry thread)
  let s := s.store parent_id (s.entry parent_id)
  let s := if (s.entry parent_id).id ≠ parent_id then
      -- parent just created
      s.store parent_id { s.entry parent_id with id := parent_id }
    else s
  let s := s.dispatch (.setParent (toTimepoint timestamp) (s.entry thread) (s.entry parent_id))
  s.store thread { s.entry thread with parent := parent_id }

def addSink (sink : SinkPtr) (s : LoggingService) : LoggingService := { s with sinks := s.sinks ++ [sink] }

/-- `std::erase(sinks, sink)`. -/
def removeSink (sink : SinkPtr) (s : LoggingService) : LoggingService :=
  { s with sinks := s.sinks.filter (· ≠ sink) }

@[simp] theorem threads_dispatch (s : LoggingService) (call : SinkCall) : (s.dispatch call).threads = s.threads := rfl

@[simp] theorem threads_store (s : LoggingService) (thread : UInt64) (info : CachedThreadInfo) (k : UInt64) :
    (s.store thread info).threads k = if k = thread then some info else s.threads k := rfl

@[simp] theorem entry_dispatch (s : LoggingService) (call : SinkCall) (k : UInt64) :
    (s.dispatch call).entry k = s.entry k := rfl

@[simp] theorem entry_store (s : LoggingService) (thread : UInt64) (info : CachedThreadInfo) (k : UInt64) :
    (s.store thread info).entry k = if k = thread then info else s.entry k := by
  unfold entry
  rw [threads_store]
  split <;> rfl

end LoggingService

/-- A callback of the service, with its arguments. -/
inductive Event where
  | spawn (timestamp thread : UInt64)
  | exit (timestamp thread : UInt64)
  | rename (timestamp thread : UInt64) (name : List UInt8)
  | setParent (timestamp thread parent_id : UInt64)
  | addSink (sink : SinkPtr)
  | removeSink (sink : SinkPtr)
deriving DecidableEq, Repr

def Event.handle : Event → LoggingService → LoggingService
  | .spawn timestamp thread => LoggingService.spawn timestamp thread
  | .exit timestamp thread => LoggingService.exit timestamp thread
  | .rename timestamp thread name => LoggingService.rename timestamp thread name
  | .setParent timestamp thread parent_id => LoggingService.setParent timestamp thread parent_id
  | .addSink sink => LoggingService.addSink sink
  | .removeSink sink => LoggingService.removeSink sink

/-- The service after the events, from `LoggingService{}`. -/
def after (events : List Event) : LoggingService := events.foldl (fun s e => e.handle s) {}

theorem after_append (events : List Event) (e : Event) : after (events ++ [e]) = e.handle (after events) := by
  unfold after
  rw [List.foldl_append]
  rfl

/-- A state the callbacks lead to. -/
def Reachable (s : LoggingService) : Prop := ∃ events, s = after events

end Erl.Logging
