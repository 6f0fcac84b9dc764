import Erl.Logging.Handlers

/-!
# Log messages arrive

`print` puts a `LoggingEvent` in front of the arguments, the proxy an index in front of
both, each in a buffer of its own. `dispatch` takes the index away, `handle_print` the
event, and the formatter reads the arguments up to the last byte.
-/

namespace Erl.Logging
open Reflect Rpc Decoding Scheduling Message

/-- A `FormatString<Args...>`: the address of the formatter that was instantiated for it. -/
structure FormatString (order : Containers) (h : Host) (std_format : StdFormat) (code : UInt64 → Formatter) where
  format : UInt64
  fmt : List UInt8
  loc : Location
  args : List Ty
  points : code format = Logging.format order h std_format fmt loc args

/-- What the formatter passes to `std::format`: for a character array a pointer to memory
that is gone. -/
def FormatString.passed {order : Containers} {h : Host} {std_format : StdFormat} {code : UInt64 → Formatter}
    (f : FormatString order h std_format code) (args : List Val) : List Passed := List.zipWith unwrap f.args args

theorem LoggingEvent.ofVal_val (e : LoggingEvent) : LoggingEvent.ofVal e.val = e := by
  simp [LoggingEvent.ofVal, LoggingEvent.val]

theorem LoggingEvent.admits_val (order : Containers) (e : LoggingEvent) : loggingEvent.admits order e.val = true := by
  have hseverity : (Ty.enumeration "Severity" ⟨"unsigned char", .unsigned .w8⟩).admits order
      (.int e.severity.toNat) = true := by
    have := e.severity.toNat_lt
    refine decide_eq_true ⟨by omega, ?_⟩
    show (e.severity.toNat : Int) < 2 ^ 8
    omega
  simp only [loggingEvent, val, Ty.admits, Ty.admitsAll, uint64, Bool.and_eq_true, and_true]
  exact ⟨hseverity, admits_wordVal order _ e.thread, admits_wordVal order _ e.timestamp, admits_wordVal order _ e.handler⟩

variable {order : Containers} {client server : Host}

theorem LoggingEvent.wire_encode (client : Host) (e : LoggingEvent) :
    Wire order loggingEvent (encode client loggingEvent e.val) e.val :=
  wire_serialize client loggingEvent e.val rfl (e.admits_val order) rfl

/-- In front of any bytes the event is read, and nothing more. -/
theorem LoggingEvent.deserialize_encode (order : Containers) (client server : Host) (e : LoggingEvent) (rest : List UInt8) :
    deserialize order server loggingEvent ⟨encode client loggingEvent e.val ++ rest, 0⟩ =
      .ok (e.val, ⟨encode client loggingEvent e.val ++ rest, (encode client loggingEvent e.val).length⟩) := by
  have h := (denotes_deserialize order server loggingEvent).decodes (e.wire_encode client) [] rest
  rwa [List.nil_append, List.length_nil, Nat.zero_add] at h

/-- A payload is copied into a message if one can count the bytes of both. -/
theorem fillable_payload {h : Host} {index : Nat} {payload : Rpc.Message}
    (bytes : (requestPayload h index payload).length < 2147483648) : Fillable 0 (payloadCalls h index payload) := by
  have size := bytes
  rw [requestPayload_eq, List.length_append, IntKind.length_image] at size
  have index_size : uint32.kind.size = 4 := rfl
  refine .of_room (by rwa [Nat.zero_add]) ?_
  rw [payloadCalls, serializeIndex, List.map_append, List.sum_append, sum_serializeInt]
  simp only [List.map_cons, List.map_nil, List.sum_cons, List.sum_nil, amount]
  omega

theorem sendPrint_eq (T T' : MessageType) {h : Host} {prelude : LoggingEvent} {ts : List Ty} {args : List Val}
    (fits : Fillable 0 (printCalls h prelude ts args)) (bytes : (printRequest h prelude ts args).length < 2147483648) :
    sendPrint T T' h prelude ts args = .ok (printRequest h prelude ts args) := by
  rw [sendPrint, build_eq T fits]
  exact build_eq T' (fillable_payload bytes)

/-- The message the sinks get. -/
def LoggingService.printed (s : LoggingService) (prelude : LoggingEvent) (loc : Location) (text : List UInt8) :
    LogMessage :=
  ⟨prelude.severity, s.threadGetInfo prelude.thread, toTimepoint prelude.timestamp, loc, text⟩

variable (client) in
/-- Whatever the formatter reads, `dispatch` prints what it makes of it. -/
theorem dispatch_print {std_format : StdFormat} {code : UInt64 → Formatter}
    (f : FormatString order server std_format code) (prelude : LoggingEvent) (hp : prelude.handler = f.format)
    (args : List Val) {passed : List Passed}
    (hargs : formatArguments order server f.args (.leftToRight _) (encodeAll client f.args args) = .ok passed)
    (s : LoggingService) :
    (dispatch server (handlers order server code) (printRequest client prelude f.args args)).run s =
      match std_format f.fmt passed with
      | .ok text => (.ok (makeResponse server 6 none), s.dispatch (.print (s.printed prelude f.loc text)))
      | .error e => (.error e, s) := by
  have hfound : (handlers order server code)[6]? = some (customDispatcher order server code 6) := rfl
  have hevent := decode_ok
    (prelude.deserialize_encode order client server
      (encodeAll client f.args args))
  have hcode : code prelude.handler (encodeAll client f.args args) =
      (std_format f.fmt passed).map fun text => ⟨f.loc, text⟩ := by
    rw [hp, f.points]
    simp only [format, hargs]
    change (std_format f.fmt passed >>= fun text => .ok (FormattingResult.mk f.loc text)) = _
    cases std_format f.fmt passed <;> rfl
  unfold printRequest
  rw [requestPayload_eq, dispatch_of_handler server (Nat.le_of_ble_eq_true rfl) hfound, print_eq]
  unfold customDispatcher handlePrint
  simp only [hevent, LoggingEvent.ofVal_val, List.drop_left, hcode]
  cases std_format f.fmt passed <;> rfl

/-- Small arguments, none of them a character array, reach `std::format`. -/
theorem formatArguments_encodeAll {ts : List Ty} {args : List Val} (proper : Ty.properAll ts = true)
    (typed : Ty.admitsAll order ts args = true) (small : Val.smallAll args = true)
    (arrays : ∀ t ∈ ts, isCharArray t = false) :
    formatArguments order server ts (.leftToRight _) (encodeAll client ts args) = .ok (args.map .value) := by
  have hts : (Schedule.leftToRight ts.length).arrange ts = ts := Schedule.arrange_leftToRight rfl
  have hargs : (Schedule.leftToRight ts.length).arrange args = args :=
    Schedule.arrange_leftToRight (Ty.length_of_admitsAll typed)
  have image := wireAll_serializeAll client ts args proper typed small
  rw [← payload_request client 0, formatArguments_request _ 0 typed]
  refine ⟨⟨_, [], (List.append_nil _).symm, ?_⟩, arrays⟩
  rwa [hts, hargs]

/-- Arguments other than character arrays are passed as they are. -/
theorem FormatString.passed_eq {std_format : StdFormat} {code : UInt64 → Formatter}
    (f : FormatString order server std_format code) {args : List Val} (typed : Ty.admitsAll order f.args args = true)
    (arrays : ∀ t ∈ f.args, isCharArray t = false) : f.passed args = args.map .value :=
  (zipWith_unwrap_iff args (Ty.length_of_admitsAll typed)).mpr ⟨rfl, arrays⟩

/-- **Log messages.** A `print` whose message fits into the buffers sends it. Dispatching it
prints one message on every registered sink, in order of registration, and changes nothing
else: severity, timestamp and location of the call, the sender's entry of the thread table,
and the text `std::format` returns for exactly the logged arguments. If `std::format`
throws, nothing is printed. The event and the arguments use the payload up, each byte once. -/
theorem print_arrives (order : Containers) (client server : Host) (std_format : StdFormat) (code : UInt64 → Formatter)
    (A : Blocks.Allocator) (heap heap' : Blocks.Heap) (f : FormatString order server std_format code) (severity : Severity)
    (thread timestamp : UInt64) (args : List Val) (s : LoggingService) (proper : Ty.properAll f.args = true)
    (typed : Ty.admitsAll order f.args args = true) (small : Val.smallAll args = true)
    (arrays : ∀ t ∈ f.args, isCharArray t = false)
    (fits : Fillable 0 (printCalls client ⟨severity, thread, timestamp, f.format⟩ f.args args))
    (bytes : (printRequest client ⟨severity, thread, timestamp, f.format⟩ f.args args).length < 2147483648) :
    let prelude : LoggingEvent := ⟨severity, thread, timestamp, f.format⟩
    ∃ message, sendPrint (messageType A heap) (messageType A heap') client prelude f.args args = .ok message ∧
      ((dispatch server (handlers order server code) message).run s =
        match std_format f.fmt (args.map .value) with
        | .ok text =>
          (.ok (makeResponse server 6 none),
            { s with calls := s.calls ++ s.sinks.map fun sink =>
                (sink, .print ⟨severity, s.threadGetInfo thread, toTimepoint timestamp, f.loc, text⟩) })
        | .error e => (.error e, s)) ∧
      ∃ n, deserialize order server loggingEvent ⟨payload message, 0⟩ = .ok (prelude.val, ⟨payload message, n⟩) ∧
        deserializeAll order server f.args ⟨(payload message).drop n, 0⟩ =
          .ok (args, ⟨(payload message).drop n, ((payload message).drop n).length⟩) := by
  intro prelude
  have hpayload : payload (printRequest client prelude f.args args) =
      encode client loggingEvent prelude.val ++ encodeAll client f.args args := by
    show (printRequest client prelude f.args args).drop _ = _
    rw [printRequest, requestPayload_eq, print_eq]
    exact List.drop_left' (IntKind.length_image ..)
  refine ⟨_, sendPrint_eq _ _ fits bytes, ?_⟩
  refine ⟨dispatch_print client f prelude rfl args (formatArguments_encodeAll proper typed small arrays) s, ?_⟩
  rw [hpayload]
  refine ⟨_, prelude.deserialize_encode order client server _, ?_⟩
  rw [List.drop_left]
  exact (denotes_deserializeAll order server f.args).decodes_all_iff.mpr
    (wireAll_serializeAll client f.args args proper typed small)

/-- `std::format("{}", text)` for a string. -/
def formatText : StdFormat := fun _ args =>
  match args with
  | [.value v] => .ok (textOf v)
  | _ => .ok []

/-- `"{}"` with a `std::string`, its formatter at 4096. -/
def oneText (order : Containers) (h : Host) :
    FormatString order h formatText fun _ => format order h formatText (bytes "{}") {} [string] where
  format := 4096
  fmt := bytes "{}"
  loc := {}
  args := [string]
  points := rfl

/-- `hi`, printed by thread 7 on two sinks. -/
theorem print_arrives_hi :
    let order : Containers := fun _ => .byKey (fun _ => 0) true
    let host : Host := ⟨.little, fun _ => 1⟩
    let s : LoggingService := { sinks := [1, 2] }
    let call : SinkCall := .print ⟨info, { id := 7 }, 3, {}, bytes "hi"⟩
    ∃ message, sendPrint (messageType .bump .empty) (messageType .bump .empty) host ⟨info, 7, 3, 4096⟩ [string]
        [textVal (bytes "hi")] = .ok message ∧
      (((dispatch host (handlers order host fun _ => format order host formatText (bytes "{}") {} [string])
        message).run s).2).calls = [(1, call), (2, call)] := by
  intro order host s call
  obtain ⟨message, sent, run, -⟩ := print_arrives order host host formatText _ .bump .empty .empty (oneText order host) info
    7 3 [textVal (bytes "hi")] s rfl rfl rfl (by decide) (.of_sum (Nat.le_of_ble_eq_true rfl)) (Nat.le_of_ble_eq_true rfl)
  exact ⟨message, sent, congrArg (fun r => r.2.calls) run⟩

/-! ## Arguments that do not fit -/

/-- Tells an empty container from others. -/
def formatEmpty : StdFormat := fun _ args =>
  match args with
  | [.value (.list [])] => .ok (bytes "empty")
  | _ => .ok (bytes "full")

/-- `"{}"` with a vector of `t`, its formatter at 4096. -/
def oneVector (order : Containers) (h : Host) (t : Ty) :
    FormatString order h formatEmpty fun _ => format order h formatEmpty (bytes "{}") {} [.sequence "vector" t] where
  format := 4096
  fmt := bytes "{}"
  loc := {}
  args := [.sequence "vector" t]
  points := rfl

/-- The event of an `info` of thread 7. -/
def seventh : LoggingEvent := ⟨info, 7, 3, 4096⟩

theorem printCalls_vector (h : Host) {t : Ty} {vs : List Val} :
    printCalls h seventh [.sequence "vector" t] [.list vs] =
      serialize h loggingEvent seventh.val ++ serialize h (.sequence "vector" t) (.list vs) :=
  congrArg (serialize h loggingEvent seventh.val ++ ·) (List.append_nil _)

section
variable (order : Containers) {vs : List Val}

/-- The `2 ^ 31` characters are written one by one, until the cursor has wrapped around. -/
theorem sendPrint_chars (size : vs.length = 2 ^ 31) (zero : ∀ v ∈ vs, v = .int 0) :
    sendPrint (messageType .bump .empty) (messageType .bump .empty) paddedHost seventh [.sequence "vector" char] [.list vs] =
      .error (.memory .outOfBounds) := by
  have one : ∀ v ∈ vs, serialize paddedHost char v = [.write [0]] := by
    intro v hv
    rw [zero v hv]
    rfl
  have fillable : Fillable 0 (serialize paddedHost loggingEvent seventh.val ++ header paddedHost char (2 ^ 31)) :=
    .of_room (Nat.le_of_ble_eq_true rfl) (Nat.le_of_ble_eq_true rfl)
  rw [sendPrint, printCalls_vector, build, build_of_elements size (by decide) fillable one (Nat.le_of_ble_eq_true rfl)]
  rfl

/-- Reserving four bytes less than `2 ^ 32` behind 29 asks for a block of 25. -/
theorem sendPrint_gaps (size : vs.length = 2 ^ 30 - 1) :
    sendPrint (messageType .bump .empty) (messageType .bump .empty) paddedHost seventh [.sequence "vector" padded] [.list vs] =
      .error (.memory .outOfBounds) := by
  have broken : (messageType .bump .empty).fill
      (serialize paddedHost loggingEvent seventh.val ++ header paddedHost padded (2 ^ 30 - 1)) = .error .outOfBounds := rfl
  rw [sendPrint, printCalls_vector, build, build_of_header size broken]
  rfl

/-- A vector whose length the prefix cannot count arrives empty. -/
theorem formatArguments_overflow (client : Host) (t : Ty) (size : vs.length = 2 ^ 32) :
    formatArguments order server [.sequence "vector" t] (.leftToRight _) (encodeAll client [.sequence "vector" t] [.list vs]) =
      .ok [.value (.list [])] := by
  have hbytes : encodeAll client [.sequence "vector" t] [.list vs] =
      uint32.kind.image 0 ++ written (vs.flatMap (serialize client t)) := by
    show written (serialize client (.sequence "vector" t) (.list vs) ++ []) = _
    rw [List.append_nil, serialize, written_append, written_serializeInt, written_reserve, size]
    rfl
  have image : WireAll order [.sequence "vector" t] (uint32.kind.image 0) [.list []] :=
    ⟨.list [], [], uint32.kind.image 0, [], rfl, ⟨[], [], by decide, rfl, rfl, rfl⟩, ⟨rfl, rfl⟩, rfl⟩
  have heval : evalArguments order server [.sequence "vector" t] (.leftToRight _)
      (encodeAll client [.sequence "vector" t] [.list vs]) = .ok [.list []] := by
    rw [evalArguments_iff _ rfl]
    exact ⟨_, _, hbytes, image⟩
  unfold formatArguments
  rw [heval]
  rfl

/-- A vector of `2 ^ 32` empty classes is sent. -/
theorem sendPrint_nothing (size : vs.length = 2 ^ 32) (nothing : ∀ v ∈ vs, v = .aggregate []) :
    sendPrint (messageType .bump .empty) (messageType .bump .empty) paddedHost seventh [.sequence "vector" emptyClass]
      [.list vs] = .ok (printRequest paddedHost seventh [.sequence "vector" emptyClass] [.list vs]) := by
  have none : vs.flatMap (serialize paddedHost emptyClass) = [] := by
    rw [List.flatMap_eq_nil_iff]
    intro v hv
    rw [nothing v hv]
    rfl
  have calls : printCalls paddedHost seventh [.sequence "vector" emptyClass] [.list vs] =
      serialize paddedHost loggingEvent seventh.val ++ header paddedHost emptyClass (2 ^ 32) := by
    rw [printCalls_vector, serialize_sequence size, none, List.append_nil]
  refine sendPrint_eq _ _ ?_ ?_
  · rw [calls]
    exact .of_sum (Nat.le_of_ble_eq_true rfl)
  · rw [printRequest, print, calls]
    exact Nat.le_of_ble_eq_true rfl

end

/-- One byte too many for the cursor, a reservation too many for the capacity, and
elements too many for the prefix: the first two break the sender, of the third the sink is
told that there are none. -/
theorem print_breaks :
    let order : Containers := fun _ => .byKey (fun _ => 0) true
    let send := sendPrint (messageType .bump .empty) (messageType .bump .empty) paddedHost seventh
    let code : UInt64 → Formatter := fun _ => format order paddedHost formatEmpty (bytes "{}") {} [.sequence "vector" emptyClass]
    let chars : List Val := List.replicate (2 ^ 31) (.int 0)
    let gaps : List Val := List.replicate (2 ^ 30 - 1) (.aggregate [.int 0])
    let nothing : List Val := List.replicate (2 ^ 32) (.aggregate [])
    (Ty.admitsAll order [.sequence "vector" char] [.list chars] = true ∧
      send [.sequence "vector" char] [.list chars] = .error (.memory .outOfBounds)) ∧
    (Ty.admitsAll order [.sequence "vector" padded] [.list gaps] = true ∧
      send [.sequence "vector" padded] [.list gaps] = .error (.memory .outOfBounds)) ∧
    (Ty.admitsAll order [.sequence "vector" emptyClass] [.list nothing] = true ∧
      ∃ message, send [.sequence "vector" emptyClass] [.list nothing] = .ok message ∧
        ((dispatch paddedHost (handlers order paddedHost code) message).run { sinks := [1] }).2.calls =
          [(1, .print ⟨info, { id := 7 }, 3, {}, bytes "empty"⟩)] ∧
        formatEmpty (bytes "{}") [.value (.list nothing)] = .ok (bytes "full")) := by
  intro order send code chars gaps nothing
  have manyChars : chars.length = 2 ^ 31 := List.length_replicate
  have manyGaps : gaps.length = 2 ^ 30 - 1 := List.length_replicate
  have tooMany : nothing.length = 2 ^ 32 := List.length_replicate
  have zero : ∀ v ∈ chars, v = .int 0 := fun v => List.eq_of_mem_replicate
  have gap : ∀ v ∈ gaps, v = .aggregate [.int 0] := fun v => List.eq_of_mem_replicate
  have null : ∀ v ∈ nothing, v = .aggregate [] := fun v => List.eq_of_mem_replicate
  have typed {t : Ty} {vs : List Val} (all : ∀ v ∈ vs, t.admits order v = true) :
      Ty.admitsAll order [.sequence "vector" t] [.list vs] = true := by
    show (vs.all (t.admits order) && true) = true
    rw [Bool.and_true]
    exact List.all_eq_true.mpr all
  clear_value chars gaps nothing
  refine ⟨⟨?_, sendPrint_chars manyChars zero⟩, ⟨?_, sendPrint_gaps manyGaps⟩, ?_, _, sendPrint_nothing tooMany null, ?_, ?_⟩
  · exact typed fun v hv => zero v hv ▸ rfl
  · exact typed fun v hv => gap v hv ▸ rfl
  · exact typed fun v hv => null v hv ▸ rfl
  · have run := dispatch_print paddedHost (oneVector order paddedHost emptyClass) seventh rfl [.list nothing]
      (formatArguments_overflow order paddedHost emptyClass tooMany) { sinks := [1] }
    exact congrArg (fun r => r.2.calls) run
  · cases nothing with
    | nil => cases tooMany
    | cons => rfl

end Erl.Logging
