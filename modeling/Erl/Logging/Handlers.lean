import Erl.Logging.Service
import Erl.Rpc.Order

/-!
# What the logging thread runs

The dispatcher of `LoggingService`: six callbacks behind `FunctionDispatcher`, and
`handle_print` behind `CustomDispatcher` (`_impl/rpc/proxy.hpp`, `_impl/log/logger.hpp`).
`handle_print` takes a `LoggingEvent` apart and calls the formatter whose address it holds
on the bytes behind it (`_impl/log/format.hpp`). Initialisers run from left to right here.

`std::format` and the code at an address are parameters.
-/

namespace Erl.Logging
open Reflect Rpc Decoding Scheduling

def char : Ty := .integral ⟨"char", .signed .w8⟩

def string : Ty := .sequence "std::string" char

/-- As a parameter type; it is decoded to a `std::string`. -/
def stringView : Ty := .sequence "std::string_view" char

def sinkPointer : Ty := .integral ⟨"Sink*", .unsigned .w64⟩

/-- The value of an unsigned 64-bit integer or of a pointer. -/
def wordVal (x : UInt64) : Val := .int x.toNat

def charVal (c : UInt8) : Val := .int ((IntKind.signed .w8).ofNat c.toNat)

def textVal (text : List UInt8) : Val := .list (text.map charVal)

def wordOf : Val → UInt64
  | .int i => UInt64.ofNat i.toNat
  | _ => 0

def charOf : Val → UInt8
  | .int i => UInt8.ofNat ((IntKind.signed .w8).toNat i)
  | _ => 0

def textOf : Val → List UInt8
  | .list vs => vs.map charOf
  | _ => []

@[simp] theorem wordOf_wordVal (x : UInt64) : wordOf (wordVal x) = x := by simp [wordOf, wordVal]

theorem admits_wordVal (order : Containers) (name : String) (x : UInt64) :
    (Ty.integral ⟨name, .unsigned .w64⟩).admits order (wordVal x) = true := decide_eq_true (inRange_word x)

section
variable (order : Containers)

/-- A method of the service that returns nothing. -/
def callback (params : List Ty) (proper : Ty.properAll params = true)
    (run : List Val → LoggingService → LoggingService) : Method LoggingService order where
  params := params
  result := none
  body s args := (none, run args s)
  proper := ⟨proper, by simp⟩
  returns _ _ _ := rfl

def spawnMethod : Method LoggingService order :=
  callback order [uint64, uint64] rfl fun
    | [timestamp, thread] => LoggingService.spawn (wordOf timestamp) (wordOf thread)
    | _ => id

def exitMethod : Method LoggingService order :=
  callback order [uint64, uint64] rfl fun
    | [timestamp, thread] => LoggingService.exit (wordOf timestamp) (wordOf thread)
    | _ => id

def renameMethod : Method LoggingService order :=
  callback order [uint64, uint64, stringView] rfl fun
    | [timestamp, thread, name] => LoggingService.rename (wordOf timestamp) (wordOf thread) (textOf name)
    | _ => id

def setParentMethod : Method LoggingService order :=
  callback order [uint64, uint64, uint64] rfl fun
    | [timestamp, thread, parent_id] => LoggingService.setParent (wordOf timestamp) (wordOf thread) (wordOf parent_id)
    | _ => id

def addSinkMethod : Method LoggingService order :=
  callback order [sinkPointer] rfl fun
    | [sink] => LoggingService.addSink (wordOf sink)
    | _ => id

def removeSinkMethod : Method LoggingService order :=
  callback order [sinkPointer] rfl fun
    | [sink] => LoggingService.removeSink (wordOf sink)
    | _ => id

def callbacks : List (Method LoggingService order) :=
  [spawnMethod order, exitMethod order, renameMethod order, setParentMethod order, addSinkMethod order,
    removeSinkMethod order]

/-! ## Log messages -/

/-- `LoggingEvent`: severity, `ThreadInfo`, timestamp and the address of the formatter. -/
def loggingEvent : Ty :=
  .aggregate "LoggingEvent"
    [.enumeration "Severity" ⟨"unsigned char", .unsigned .w8⟩, .aggregate "ThreadInfo" [uint64], uint64,
      .integral ⟨"formatter_type", .unsigned .w64⟩]

structure LoggingEvent where
  severity : Severity
  thread : UInt64
  timestamp : UInt64
  handler : UInt64
deriving DecidableEq, Repr

def LoggingEvent.val (e : LoggingEvent) : Val :=
  .aggregate [.int e.severity.toNat, .aggregate [wordVal e.thread], wordVal e.timestamp, wordVal e.handler]

def LoggingEvent.ofVal : Val → LoggingEvent
  | .aggregate [.int severity, .aggregate [thread], timestamp, handler] =>
    ⟨UInt8.ofNat severity.toNat, wordOf thread, wordOf timestamp, wordOf handler⟩
  | _ => ⟨0, 0, 0, 0⟩

structure FormattingResult where
  location : Location
  text : List UInt8

/-- `formatter_type`. -/
abbrev Formatter := List UInt8 → Except Failure FormattingResult

/-- `std::format`, which may throw. -/
abbrev StdFormat := List UInt8 → List Passed → Except Failure (List UInt8)

/-- `logging::impl::format<fmt, loc, Args...>`. -/
def format (h : Host) (std_format : StdFormat) (fmt : List UInt8) (loc : Location) (ts : List Ty) : Formatter :=
  fun data => do
    let args ← formatArguments order h ts (.leftToRight _) data
    let text ← std_format fmt args
    pure ⟨loc, text⟩

/-- `handle_print`; `code` is what is at an address. -/
def handlePrint (h : Host) (code : UInt64 → Formatter) (data : List UInt8) : Serving LoggingService Unit :=
  match decode (deserialize order h loggingEvent) ⟨data, 0⟩ with
  | .error f => throw f
  | .ok (event, reader) =>
    let event := LoggingEvent.ofVal event
    match code event.handler (reader.buffer.drop reader.cursor) with
    | .error f => throw f
    | .ok result => modify fun s =>
        s.dispatch (.print ⟨event.severity, s.threadGetInfo event.thread, toTimepoint event.timestamp,
          result.location, result.text⟩)

/-- `CustomDispatcher<handle_print, Idx, Protocol>::dispatch`. -/
def customDispatcher (h : Host) (code : UInt64 → Formatter) (index : Nat) : Handler LoggingService := fun data => do
  handlePrint order h code data
  pure (makeResponse h index none)

/-- `Dispatcher<LoggingService, protocol>`. -/
def handlers (h : Host) (code : UInt64 → Formatter) : List (Handler LoggingService) :=
  members h (callbacks order) ++ [customDispatcher order h code (callbacks order).length]

/-- No callback answers with more than an index, which every message has room for. -/
theorem answering_callbacks (T : Message.MessageType) (h : Host) :
    answering T h (callbacks order) = members h (callbacks order) := by
  rw [answering, members, List.mapIdx_eq_mapIdx_iff]
  intro i bound
  have void : ∀ m ∈ callbacks order, m.result = none := by simp [callbacks, spawnMethod, exitMethod, renameMethod,
    setParentMethod, addSinkMethod, removeSinkMethod, callback]
  exact ((callbacks order)[i].respond_of_void (void _ (List.getElem_mem bound)) T h i)

end

/-- What `RPCProtocol::request(index, payload)` calls on its `message`. -/
def payloadCalls (h : Host) (index : Nat) (payload : Message) : List Call :=
  serializeIndex h index ++ [.reserve (payload.length % 2 ^ 32), .write payload]

/-- What `LoggingService::print` calls on its `message`, with the event `make_prelude` returns. -/
def printCalls (h : Host) (prelude : LoggingEvent) (ts : List Ty) (args : List Val) : List Call :=
  serialize h loggingEvent prelude.val ++ serializeAll h ts args

/-- `LoggingService::message_type`. -/
def messageType (A : Blocks.Allocator) (heap : Blocks.Heap) : Message.MessageType := ⟨58, A, heap⟩

/-- `client().print(severity, formatter, args...)`, which is `CustomProxy` with index 6, up to
`send`: a message with the event and the arguments, then one with the index and those. -/
def sendPrint (T T' : Message.MessageType) (h : Host) (prelude : LoggingEvent) (ts : List Ty) (args : List Val) :
    Except Failure Message := do
  let payload ← build T (printCalls h prelude ts args)
  build T' (payloadCalls h 6 payload)

/-- The bytes that `RPCProtocol::request(index, payload)` writes. -/
def requestPayload (h : Host) (index : Nat) (payload : Message) : Message := written (payloadCalls h index payload)

/-- The bytes that `LoggingService::print` writes. -/
def print (h : Host) (prelude : LoggingEvent) (ts : List Ty) (args : List Val) : Message :=
  written (printCalls h prelude ts args)

/-- The bytes of both. -/
def printRequest (h : Host) (prelude : LoggingEvent) (ts : List Ty) (args : List Val) : Message :=
  requestPayload h 6 (print h prelude ts args)

theorem requestPayload_eq (h : Host) (index : Nat) (payload : Message) :
    requestPayload h index payload = uint32.kind.image (index % 2 ^ 32 : Nat) ++ payload := by
  unfold requestPayload payloadCalls
  rw [written_append, serializeIndex, written_serializeInt]
  simp [written]

theorem print_eq (h : Host) (prelude : LoggingEvent) (ts : List Ty) (args : List Val) :
    print h prelude ts args = encode h loggingEvent prelude.val ++ encodeAll h ts args := written_append ..

end Erl.Logging
