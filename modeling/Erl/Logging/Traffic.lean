import Erl.Logging.Print
import Erl.Rpc.EventDelivery

/-!
# Logging from any number of threads

`Logger` keeps one `EventQueue`: every thread sends its events and log messages to it, and
the thread in `handle_messages` serves them (`_impl/log/logger.hpp`). What the service goes
through is one interleaving of what the threads have done, each in its own order.
-/

namespace Erl.Logging
open Reflect Rpc Decoding Interleaving Message

/-! ## What the calls send -/

/-- What the proxy of a callback, called with all its arguments, calls on its message. -/
def Event.requestCalls (h : Host) : Event → List Call
  | .spawn timestamp thread => Rpc.requestCalls h 0 [uint64, uint64] [wordVal timestamp, wordVal thread]
  | .exit timestamp thread => Rpc.requestCalls h 1 [uint64, uint64] [wordVal timestamp, wordVal thread]
  | .rename timestamp thread name =>
    Rpc.requestCalls h 2 [uint64, uint64, stringView] [wordVal timestamp, wordVal thread, textVal name]
  | .setParent timestamp thread parent_id =>
    Rpc.requestCalls h 3 [uint64, uint64, uint64] [wordVal timestamp, wordVal thread, wordVal parent_id]
  | .addSink sink => Rpc.requestCalls h 4 [sinkPointer] [wordVal sink]
  | .removeSink sink => Rpc.requestCalls h 5 [sinkPointer] [wordVal sink]

/-- The bytes it sends. -/
def Event.request (h : Host) (e : Event) : Rpc.Message := written (e.requestCalls h)

section
variable (order : Containers) (server : Host) (std_format : StdFormat) (code : UInt64 → Formatter)

/-- A call of a thread on the logger. -/
inductive LogCall where
  | event (e : Event)
  /-- `print(severity, format, args...)`, with the event `make_prelude` returns. -/
  | print (prelude : LoggingEvent) (f : FormatString order server std_format code) (args : List Val)

end

section
variable {order : Containers} {server : Host} {std_format : StdFormat} {code : UInt64 → Formatter}

namespace LogCall

/-- The bytes the call sends. -/
def message (client : Host) : LogCall order server std_format code → Rpc.Message
  | .event e => e.request client
  | .print prelude f args => printRequest client prelude f.args args

/-- The call up to `send`, with what is on the heap at each message. -/
def send (A : Blocks.Allocator) (heap heap' : Blocks.Heap) (client : Host) :
    LogCall order server std_format code → Except Failure Rpc.Message
  | .event e => build (messageType A heap) (e.requestCalls client)
  | .print prelude f args => sendPrint (messageType A heap) (messageType A heap') client prelude f.args args

/-- What the call does to the service. -/
def effect : LogCall order server std_format code → LoggingService → LoggingService
  | .event e, s => e.handle s
  | .print prelude f args, s =>
    match std_format f.fmt (f.passed args) with
    | .ok text => s.dispatch (.print (s.printed prelude f.loc text))
    | .error _ => s

/-- The message fits into the buffers and the length prefixes can count what is in it; the
arguments are those of the format string, none of them a character array, and
`std::format` does not throw on them. -/
def Sound (client : Host) : LogCall order server std_format code → Prop
  | .event e => Fillable 0 (e.requestCalls client) ∧ ∀ timestamp thread name,
      e = .rename timestamp thread name → name.length < 2 ^ 32
  | .print prelude f args => prelude.handler = f.format ∧ Ty.properAll f.args = true ∧
      Ty.admitsAll order f.args args = true ∧ Val.smallAll args = true ∧ (∀ t ∈ f.args, isCharArray t = false) ∧
      (∃ text, std_format f.fmt (f.passed args) = .ok text) ∧
      Fillable 0 (printCalls client prelude f.args args) ∧ (printRequest client prelude f.args args).length < 2147483648

/-- A sound call sends its message, whatever is on the heap. -/
theorem send_eq {client : Host} {c : LogCall order server std_format code} (sound : c.Sound client) (A : Blocks.Allocator)
    (heap heap' : Blocks.Heap) : c.send A heap heap' client = .ok (c.message client) := by
  cases c with
  | event e => exact build_eq _ sound.1
  | print prelude f args =>
    obtain ⟨-, -, -, -, -, -, fits, bytes⟩ := sound
    exact sendPrint_eq _ _ fits bytes

end LogCall

theorem charOf_charVal (c : UInt8) : charOf (charVal c) = c := by
  have bound : c.toNat < 256 ^ (IntKind.signed .w8).size := c.toNat_lt
  rw [charVal, charOf, IntKind.toNat_ofNat bound, UInt8.ofNat_toNat]

theorem textOf_textVal (text : List UInt8) : textOf (textVal text) = text := by
  rw [textVal, textOf, List.map_map]
  exact List.map_id'' charOf_charVal text

theorem admits_textVal (order : Containers) (text : List UInt8) : stringView.admits order (textVal text) = true := by
  show (text.map charVal).all (char.admits order) = true
  rw [List.all_eq_true]
  intro v hv
  obtain ⟨c, -, rfl⟩ := List.mem_map.mp hv
  have bound : c.toNat < 256 ^ (IntKind.signed .w8).size := c.toNat_lt
  exact decide_eq_true (IntKind.inRange_ofNat bound nofun)

theorem small_textVal {text : List UInt8} (fits : text.length < 2 ^ 32) : (textVal text).small = true := by
  rw [textVal, Val.small, Bool.and_eq_true, Val.smallAll_iff]
  refine ⟨decide_eq_true (by rwa [List.length_map]), ?_⟩
  intro v hv
  obtain ⟨c, -, rfl⟩ := List.mem_map.mp hv
  rfl

/-- The request of a callback, called at its parameter types, runs it. -/
theorem dispatch_callback (server client : Host) (code : UInt64 → Formatter) (index : Nat)
    (m : Method LoggingService order) (args : List Val)
    (found : (handlers order server code)[index]? = some (m.dispatch server index))
    (typed : Ty.admitsAll order m.params args = true) (small : Val.smallAll args = true) (s : LoggingService) :
    ∃ reply, (dispatch server (handlers order server code) (Rpc.request client index m.params args)).run s =
      (.ok reply, (m.body s args).2) := by
  have image := wireAll_serializeAll client m.params args m.proper.1 typed small
  rw [request_eq, dispatch_of_handler server (Nat.le_of_ble_eq_true rfl) found]
  exact ⟨_, m.dispatch_eq server index ((denotes_deserializeAll order server m.params).decodes_all_iff.mpr image) s⟩

theorem answers_event (client : Host) (e : Event) (s : LoggingService)
    (counted : ∀ timestamp thread name, e = .rename timestamp thread name → name.length < 2 ^ 32) :
    ∃ reply, (dispatch server (handlers order server code) (e.request client)).run s = (.ok reply, e.handle s) := by
  have word (x : UInt64) : uint64.admits order (wordVal x) = true := admits_wordVal order _ x
  have pointer (x : UInt64) : sinkPointer.admits order (wordVal x) = true := admits_wordVal order _ x
  cases e with
  | spawn timestamp thread =>
    have run := dispatch_callback server client code 0 (spawnMethod order) [wordVal timestamp, wordVal thread] rfl
      (by simp [spawnMethod, callback, Ty.admitsAll, word]) rfl s
    simpa [spawnMethod, callback, Event.handle, Event.request, Event.requestCalls, Rpc.request] using run
  | exit timestamp thread =>
    have run := dispatch_callback server client code 1 (exitMethod order) [wordVal timestamp, wordVal thread] rfl
      (by simp [exitMethod, callback, Ty.admitsAll, word]) rfl s
    simpa [exitMethod, callback, Event.handle, Event.request, Event.requestCalls, Rpc.request] using run
  | rename timestamp thread name =>
    have small : (textVal name).small = true := small_textVal (counted timestamp thread name rfl)
    have run := dispatch_callback server client code 2 (renameMethod order)
      [wordVal timestamp, wordVal thread, textVal name] rfl
      (by simp [renameMethod, callback, Ty.admitsAll, word, admits_textVal order name])
      (by simp [Val.smallAll, small, wordVal, Val.small]) s
    simpa [renameMethod, callback, Event.handle, Event.request, Event.requestCalls, Rpc.request, textOf_textVal] using run
  | setParent timestamp thread parent_id =>
    have run := dispatch_callback server client code 3 (setParentMethod order)
      [wordVal timestamp, wordVal thread, wordVal parent_id] rfl
      (by simp [setParentMethod, callback, Ty.admitsAll, word]) rfl s
    simpa [setParentMethod, callback, Event.handle, Event.request, Event.requestCalls, Rpc.request] using run
  | addSink sink =>
    have run := dispatch_callback server client code 4 (addSinkMethod order) [wordVal sink] rfl
      (by simp [addSinkMethod, callback, Ty.admitsAll, pointer]) rfl s
    simpa [addSinkMethod, callback, Event.handle, Event.request, Event.requestCalls, Rpc.request] using run
  | removeSink sink =>
    have run := dispatch_callback server client code 5 (removeSinkMethod order) [wordVal sink] rfl
      (by simp [removeSinkMethod, callback, Ty.admitsAll, pointer]) rfl s
    simpa [removeSinkMethod, callback, Event.handle, Event.request, Event.requestCalls, Rpc.request] using run

/-- The server answers what a sound call sends with the effect of the call. -/
theorem LogCall.answers (client : Host) (c : LogCall order server std_format code) (sound : c.Sound client) :
    Events.Answers (LogCall.message client) LogCall.effect server (handlers order server code) c := by
  cases c with
  | event e =>
    refine ⟨?_, fun s => answers_event client e s sound.2⟩
    cases e <;> exact mt List.eq_nil_of_length_eq_zero (request_ne_nil _ _ _ _)
  | print prelude f args =>
    obtain ⟨handler, proper, typed, small, arrays, ⟨text, formats⟩, -⟩ := sound
    constructor
    · show (printRequest client prelude f.args args).length ≠ 0
      rw [printRequest, requestPayload_eq, List.length_append, IntKind.length_image]
      simp [uint32, IntKind.size, Width.bytes]
    · intro s
      refine ⟨makeResponse server 6 none, ?_⟩
      show (dispatch server (handlers order server code) (printRequest client prelude f.args args)).run s = _
      rw [dispatch_print _ f prelude handler args (formatArguments_encodeAll proper typed small arrays) s, LogCall.effect,
        formats, ← f.passed_eq typed arrays, formats]

end

/-- **Logging is an interleaving.** Any number of threads make any sound calls on the
logger, any of them may shut it down, and the messages pass through the ring in any order
of atomic steps. Every call sends its message. In every reachable state there is one order
of calls that each thread's calls appear in in the order in which the thread makes them,
each once; the logging thread has handled an initial part of it without an exception and
its state is what those calls make of a new service; it stops only at a shutdown. -/
theorem logging_interleaves {Tid : Type} [DecidableEq Tid] (N : Ring.Size) (order : Containers) (client server : Host)
    (std_format : StdFormat) (code : UInt64 → Formatter)
    (calls : Tid → List (Option (LogCall order server std_format code))) (sound : ∀ t c, some c ∈ calls t → c.Sound client)
    {s : Events.State Tid LoggingService}
    (h : TransitionSystem.Reachable (Events.system N server (handlers order server code) {} fun t =>
      (calls t).map (Events.outgoing (LogCall.message client))) s) :
    (∀ t c, some c ∈ calls t → ∀ A heap heap', c.send A heap heap' client = .ok (c.message client)) ∧
    ∃ all : List (Events.Thread Tid × Option (LogCall order server std_format code)),
      all.map (fun e => (e.1, Events.outgoing (LogCall.message client) e.2)) = s.events.entries ∧
      (∀ t, part all t <+: Events.scripts calls t) ∧
      (∃ done : List (LogCall order server std_format code), (all.take s.handled).map (·.2) = done.map some ∧
        s.service = done.foldl (fun s c => c.effect s) {}) ∧
      (∀ f, s.server ≠ .failed f) ∧
      (s.server = .stopped → ∃ t, all[s.handled]? = some (t, none)) :=
  ⟨fun t c hc A heap heap' => LogCall.send_eq (sound t c hc) A heap heap',
    Events.calls_interleave (fun t c hc => c.answers client (sound t c hc)) h⟩

def anyOrder : Containers := fun _ => .byKey (fun _ => 0) true

def littleHost : Host := ⟨.little, fun _ => 1⟩

def textCode : UInt64 → Formatter := fun _ => format anyOrder littleHost formatText (bytes "{}") {} [string]

/-- A thread registers a sink, is spawned and shuts the logger down. -/
def sinkCalls (_ : Unit) : List (Option (LogCall anyOrder littleHost formatText textCode)) :=
  [some (.event (.addSink 7)), some (.event (.spawn 3 5)), none]

/-- The sink has been told of the thread. -/
theorem logging_interleaves_sink :
    ∃ s, TransitionSystem.Reachable (Events.system Ring.Size.two littleHost (handlers anyOrder littleHost textCode) {} fun t =>
        (sinkCalls t).map (Events.outgoing (LogCall.message littleHost))) s ∧
      s.service.calls = [(7, .spawn (toTimepoint 3) { id := 5 })] ∧ s.handled = 2 ∧ ∀ f, s.server ≠ .failed f := by
  have sound : ∀ t c, some c ∈ sinkCalls t → c.Sound littleHost := by
    intro t c hc
    simp only [sinkCalls, List.mem_cons, List.not_mem_nil, Option.some.injEq, reduceCtorEq, or_false] at hc
    rcases hc with rfl | rfl <;> exact ⟨.of_sum (Nat.le_of_ble_eq_true rfl), nofun⟩
  have reached : TransitionSystem.Reachable (Events.system Ring.Size.two littleHost
      (handlers anyOrder littleHost textCode) {} _) _ :=
    TransitionSystem.reachable_of_actions (Events.start {} fun t => (sinkCalls t).map (Events.outgoing (LogCall.message littleHost)))
      (Events.exec Ring.Size.two littleHost (handlers anyOrder littleHost textCode))
      (List.replicate 10 (.client ()) ++ List.replicate 12 .server) rfl
  obtain ⟨-, -, -, -, -, safe, -⟩ := logging_interleaves Ring.Size.two anyOrder littleHost littleHost formatText textCode sinkCalls
    sound reached
  exact ⟨_, reached, rfl, rfl, safe⟩

end Erl.Logging
