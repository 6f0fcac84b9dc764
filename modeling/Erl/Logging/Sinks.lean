import Erl.Logging.Threads
import Erl.Logging.Traffic

/-!
# What the sinks hear

A sink is called once for each of its registrations, for every callback about a thread and
for every message, in the order in which the logging thread handles them. What it is told
is a function of the earlier callbacks: the table is only a memory of them.
-/

namespace Erl.Logging
open Reflect

section
variable {order : Containers} {server : Host} {std_format : StdFormat} {code : UInt64 → Formatter}

/-- What a callback tells the sinks, after the `earlier` ones. -/
def Event.report (earlier : List Event) : Event → Option SinkCall
  | .spawn timestamp thread =>
    some (.spawn (toTimepoint timestamp) { told thread (recent thread earlier) with id := thread })
  | .exit timestamp thread =>
    some (.exit (toTimepoint timestamp) ((known thread (recent thread earlier)).getD { id := thread }))
  | .rename timestamp thread name => some (.rename (toTimepoint timestamp) (told thread (recent thread earlier)) name)
  | .setParent timestamp thread parent_id =>
    let parent := { told parent_id (recent parent_id earlier) with id := parent_id }
    some (.setParent (toTimepoint timestamp)
      (if thread = parent_id then parent else told thread (recent thread earlier)) parent)
  | .addSink _ | .removeSink _ => none

/-- The callbacks since `sink` was last removed, the latest first. -/
def sinceRemoved (sink : SinkPtr) (events : List Event) : List Event :=
  events.reverse.takeWhile (· ≠ .removeSink sink)

/-- How often `sink` is registered. -/
def registrations (sink : SinkPtr) (events : List Event) : Nat := (sinceRemoved sink events).count (.addSink sink)

namespace LogCall

def events : LogCall order server std_format code → List Event
  | .event e => [e]
  | .print .. => []

def report (earlier : List Event) : LogCall order server std_format code → Option SinkCall
  | .event e => e.report earlier
  | .print prelude f args =>
    match std_format f.fmt (f.passed args) with
    | .ok text => some (.print ⟨prelude.severity, (known prelude.thread (recent prelude.thread earlier)).getD
        { id := prelude.thread }, toTimepoint prelude.timestamp, f.loc, text⟩)
    | .error _ => none

end LogCall

/-- The calls on `sink` after the `earlier` callbacks. -/
def heard (sink : SinkPtr) : List Event → List (LogCall order server std_format code) → List SinkCall
  | _, [] => []
  | earlier, c :: rest =>
    (c.report earlier).toList.flatMap (List.replicate (registrations sink earlier)) ++ heard sink (earlier ++ c.events) rest

/-! ## What is heard -/

/-- The calls made on `sink`. -/
def LoggingService.callsOn (s : LoggingService) (sink : SinkPtr) : List SinkCall :=
  s.calls.filterMap fun c => if c.1 = sink then some c.2 else none

variable {s : LoggingService} {sink : SinkPtr}

/-- The service is in the state the callbacks lead to; it may have called sinks. -/
structure Remembers (s : LoggingService) (events : List Event) : Prop where
  threads : ∀ k, s.threads k = known k (recent k events)
  sinks : ∀ sink, s.sinks.count sink = registrations sink events

theorem Remembers.entry {events : List Event} (h : Remembers s events) (k : UInt64) :
    s.entry k = told k (recent k events) := by
  rw [LoggingService.entry, h.threads, getD_known]

theorem callsOn_dispatch (s : LoggingService) (sink : SinkPtr) (call : SinkCall) :
    (s.dispatch call).callsOn sink = s.callsOn sink ++ List.replicate (s.sinks.count sink) call := by
  unfold LoggingService.dispatch LoggingService.callsOn
  rw [List.filterMap_append]
  congr 1
  induction s.sinks with
  | nil => rfl
  | cons p rest ih =>
    by_cases same : p = sink
    · simp [same, ih, List.replicate_succ]
    · simp [same, ih]

theorem threadGetInfo_eq (k : UInt64) : s.threadGetInfo k = (s.threads k).getD { id := k } := by
  unfold LoggingService.threadGetInfo
  cases s.threads k <;> rfl

/-- The table when `set_parent` calls the sinks: both entries are there, the parent's has
its id. -/
def LoggingService.related (s : LoggingService) (thread parent_id : UInt64) : LoggingService :=
  let s := s.store thread (s.entry thread)
  let s := s.store parent_id (s.entry parent_id)
  if (s.entry parent_id).id ≠ parent_id then s.store parent_id { s.entry parent_id with id := parent_id } else s

theorem setParent_eq (timestamp thread parent_id : UInt64) :
    let r := s.related thread parent_id
    s.setParent timestamp thread parent_id =
      (r.dispatch (.setParent (toTimepoint timestamp) (r.entry thread) (r.entry parent_id))).store thread
        { r.entry thread with parent := parent_id } := rfl

theorem related_frame (thread parent_id : UInt64) :
    (s.related thread parent_id).sinks = s.sinks ∧ (s.related thread parent_id).calls = s.calls := by
  unfold LoggingService.related
  dsimp only
  split <;> exact ⟨rfl, rfl⟩

theorem related_entry (thread parent_id k : UInt64) :
    (s.related thread parent_id).entry k =
      if k = parent_id then { s.entry parent_id with id := parent_id } else s.entry k := by
  have table : (s.related thread parent_id).threads k = _ :=
    threads_parentId (s.store thread (s.entry thread)) parent_id k
  have stored (k : UInt64) : (s.store thread (s.entry thread)).entry k = s.entry k := by
    rw [LoggingService.entry_store]
    split
    · rename_i same
      rw [same]
    · rfl
  rw [LoggingService.entry, table, stored]
  by_cases same : k = parent_id
  · rw [if_pos same, if_pos same]
    rfl
  · rw [if_neg same, if_neg same]
    exact stored k

/-- A thread that is its own parent is told as such twice. -/
theorem callsOn_setParent (timestamp thread parent_id : UInt64) :
    (s.setParent timestamp thread parent_id).callsOn sink = s.callsOn sink ++ List.replicate (s.sinks.count sink)
      (.setParent (toTimepoint timestamp)
        (if thread = parent_id then { s.entry parent_id with id := parent_id } else s.entry thread)
        { s.entry parent_id with id := parent_id }) := by
  obtain ⟨sinks, calls⟩ := related_frame (s := s) thread parent_id
  have called := callsOn_dispatch (s.related thread parent_id) sink
    (.setParent (toTimepoint timestamp) ((s.related thread parent_id).entry thread)
      ((s.related thread parent_id).entry parent_id))
  rw [related_entry, related_entry, if_pos rfl, sinks] at called
  rw [setParent_eq, related_entry, related_entry, if_pos rfl]
  refine Eq.trans called ?_
  rw [LoggingService.callsOn, calls]
  rfl

theorem known_snoc (events : List Event) (e : Event) (k : UInt64) :
    known k (recent k (events ++ [e])) = e.effect k (known k (recent k events)) := by
  rw [← threads_after, ← threads_after, after_append, Event.threads_handle]

theorem registrations_snoc (sink : SinkPtr) (events : List Event) (e : Event) :
    registrations sink (events ++ [e]) =
      if e = .removeSink sink then 0 else registrations sink events + if e = .addSink sink then 1 else 0 := by
  unfold registrations sinceRemoved
  rw [List.reverse_append, List.reverse_singleton, List.singleton_append, List.takeWhile_cons]
  by_cases removed : e = .removeSink sink
  · simp [removed]
  · simp [removed, List.count_cons, beq_iff_eq]

/-- Only `add_sink` and `remove_sink` change the list of sinks. -/
theorem Event.sinks_handle (e : Event) (s : LoggingService) (sink : SinkPtr) :
    (e.handle s).sinks.count sink =
      if e = .removeSink sink then 0 else s.sinks.count sink + if e = .addSink sink then 1 else 0 := by
  cases e with
  | spawn timestamp thread => rfl
  | exit timestamp thread =>
    show (s.exit timestamp thread).sinks.count sink = _
    unfold LoggingService.exit
    cases s.threads thread <;> rfl
  | rename timestamp thread name => rfl
  | setParent timestamp thread parent_id =>
    show (s.setParent timestamp thread parent_id).sinks.count sink = _
    rw [setParent_eq]
    show (s.related thread parent_id).sinks.count sink = _
    rw [(related_frame thread parent_id).1]
    rfl
  | addSink p =>
    by_cases same : p = sink
    · simp [handle, LoggingService.addSink, same]
    · simp [handle, LoggingService.addSink, same]
  | removeSink p =>
    by_cases same : p = sink
    · simp [handle, LoggingService.removeSink, same, List.count_eq_zero]
    · have kept : (s.sinks.filter (· ≠ p)).count sink = s.sinks.count sink :=
        List.count_filter (by simpa using Ne.symm same)
      simpa [handle, LoggingService.removeSink, same] using kept

theorem Remembers.step {events : List Event} (h : Remembers s events) (e : Event) :
    Remembers (e.handle s) (events ++ [e]) where
  threads k := by rw [Event.threads_handle, h.threads, known_snoc]
  sinks sink := by rw [Event.sinks_handle, h.sinks, registrations_snoc]

/-- The sinks are told what is remembered of the earlier callbacks. -/
theorem Remembers.callsOn_event {events : List Event} (h : Remembers s events) (e : Event) (sink : SinkPtr) :
    (e.handle s).callsOn sink =
      s.callsOn sink ++ (e.report events).toList.flatMap (List.replicate (registrations sink events)) := by
  rw [← h.sinks]
  cases e with
  | spawn timestamp thread =>
    simp only [Event.report, Option.toList_some, List.flatMap_cons, List.flatMap_nil, List.append_nil]
    rw [← h.entry]
    exact callsOn_dispatch _ sink _
  | exit timestamp thread =>
    simp only [Event.report, Option.toList_some, List.flatMap_cons, List.flatMap_nil, List.append_nil]
    rw [← h.threads]
    show (s.exit timestamp thread).callsOn sink = _
    unfold LoggingService.exit
    cases s.threads thread <;> exact callsOn_dispatch s sink _
  | rename timestamp thread name =>
    simp only [Event.report, Option.toList_some, List.flatMap_cons, List.flatMap_nil, List.append_nil]
    rw [← h.entry]
    exact callsOn_dispatch _ sink _
  | setParent timestamp thread parent_id =>
    simp only [Event.report, Option.toList_some, List.flatMap_cons, List.flatMap_nil, List.append_nil]
    rw [← h.entry, ← h.entry]
    exact callsOn_setParent timestamp thread parent_id
  | addSink p =>
    simp only [Event.report, Option.toList_none, List.flatMap_nil, List.append_nil]
    rfl
  | removeSink p =>
    simp only [Event.report, Option.toList_none, List.flatMap_nil, List.append_nil]
    rfl

theorem LogCall.effect_print (prelude : LoggingEvent) (f : FormatString order server std_format code) (args : List Val) :
    (LogCall.print prelude f args).effect s = s ∨
      ∃ text, (LogCall.print prelude f args).effect s = s.dispatch (.print (s.printed prelude f.loc text)) := by
  simp only [LogCall.effect]
  split
  · exact .inr ⟨_, rfl⟩
  · exact .inl rfl

theorem Remembers.effect {events : List Event} (h : Remembers s events) (c : LogCall order server std_format code) :
    Remembers (c.effect s) (events ++ c.events) := by
  cases c with
  | event e => exact h.step e
  | print prelude f args =>
    rw [LogCall.events, List.append_nil]
    rcases LogCall.effect_print (s := s) prelude f args with same | ⟨text, called⟩
    · rw [same]
      exact h
    · rw [called]
      exact ⟨h.threads, h.sinks⟩

theorem Remembers.callsOn_effect {events : List Event} (h : Remembers s events)
    (c : LogCall order server std_format code) (sink : SinkPtr) :
    (c.effect s).callsOn sink =
      s.callsOn sink ++ (c.report events).toList.flatMap (List.replicate (registrations sink events)) := by
  cases c with
  | event e => exact h.callsOn_event e sink
  | print prelude f args =>
    cases text : std_format f.fmt (f.passed args) with
    | ok text =>
      simp only [LogCall.effect, LogCall.report, *, Option.toList_some, List.flatMap_cons, List.flatMap_nil, List.append_nil]
      rw [callsOn_dispatch, h.sinks, LoggingService.printed, threadGetInfo_eq, h.threads]
    | error e => simp [LogCall.effect, LogCall.report, text]

theorem Remembers.run {events : List Event} (h : Remembers s events) (calls : List (LogCall order server std_format code))
    (sink : SinkPtr) :
    (calls.foldl (fun s c => c.effect s) s).callsOn sink = s.callsOn sink ++ heard sink events calls := by
  induction calls generalizing s events with
  | nil => exact (List.append_nil _).symm
  | cons c rest ih =>
    rw [List.foldl_cons, ih (h.effect c), h.callsOn_effect, heard, List.append_assoc]

/-- **What a sink hears.** Whatever calls the logging thread handles, a sink is called for
each of them as often as it was registered at that time, in order, with what the earlier
callbacks have said about the thread. -/
theorem sinks_hear (calls : List (LogCall order server std_format code)) (sink : SinkPtr) :
    (calls.foldl (fun s c => c.effect s) ({} : LoggingService)).callsOn sink = heard sink [] calls :=
  (Remembers.run ⟨fun _ => rfl, fun _ => rfl⟩ calls sink).trans (List.nil_append _)

end

end Erl.Logging
