import Erl.Logging.Sinks

/-!
# `Terminal`

The sink that writes to the standard output (`_impl/log/sinks/terminal.hpp`), with the log
format (`_impl/log/format/log.hpp`) and the colours (`_impl/log/format/color.hpp`) it uses.
The format function that the format string compiles to, the time zone and the file name of
a path are parameters.

A severity is any byte; `LogFormat` has a level for those beyond `FATAL`, but the table of
colours has no entry for them, and the terminal looks there first.
-/

namespace Erl.Logging
open Util

def trace : Severity := 0

def fatal : Severity := 5

/-- `enumerator_names<Severity>`. -/
def severityNames : List (List UInt8) :=
  [bytes "TRACE", bytes "DEBUG", bytes "INFO", bytes "WARN", bytes "ERROR", bytes "FATAL"]

/-- What `std::format` makes of an unsigned number for `{}`. -/
def decimal (value : UInt64) : List UInt8 := (utos value).map fun c => UInt8.ofNat c.toNat

/-- `make_ansi_code` of one option. -/
def makeAnsiCode (option : UInt64) : List UInt8 := 0x1B :: bytes "[" ++ decimal option ++ bytes "m"

/-- `formatter_impl::MessageArgs`; the timestamp is local. -/
structure MessageArgs where
  level_id : Severity
  level : List UInt8
  thread_id : UInt64
  thread : List UInt8
  timestamp : Int
  file : List UInt8
  file_name : List UInt8
  function : List UInt8
  line : UInt32
  column : UInt32
  message : List UInt8

/-- The format function and what the standard library knows of its surroundings. -/
structure LogFormat where
  format : MessageArgs → List UInt8
  toLocal : Timepoint → Int
  fileName : List UInt8 → List UInt8

/-- The name of the severity, in its colour. -/
def levelText (severity : Severity) (color : List UInt8) : List UInt8 :=
  let level := if severity > fatal then bytes "INVALID" else severityNames.getD severity.toNat []
  if color ≠ [] then color ++ level ++ makeAnsiCode 0 else level

/-- `LogFormat::operator()`. -/
def LogFormat.apply (f : LogFormat) (msg : LogMessage) (color : List UInt8) : List UInt8 :=
  f.format {
    level_id := msg.severity
    level := levelText msg.severity color
    thread_id := msg.thread.id
    thread := msg.thread.name
    timestamp := f.toLocal msg.timestamp
    file := msg.location.file
    file_name := f.fileName msg.location.file
    function := msg.location.function
    line := msg.location.line
    column := msg.location.column
    message := msg.text }

/-- One entry for each enumerator of `Severity`. -/
abbrev ColorMap := Fin 6 → List UInt8

/-- `color_map`: later mappings win, severities without an entry are skipped. -/
def colorMap (mappings : List (Severity × List UInt8)) : ColorMap :=
  mappings.foldl (fun ret m => fun i => if i.val = m.1.toNat then m.2 else ret i) fun _ => []

structure Terminal where
  formatter : LogFormat
  minimum_severity : Severity := 1
  color_map : ColorMap := fun _ => []

namespace Terminal

/-- The message a callback prints. -/
def message : SinkCall → LogMessage
  | .print m => m
  | .spawn timestamp thread =>
    { severity := trace, thread, timestamp, location := {}, text := bytes "thread " ++ decimal thread.id ++ bytes " started" }
  | .exit timestamp thread =>
    { severity := trace, thread, timestamp, location := {}
      text := bytes "thread " ++ decimal thread.id ++ bytes " `" ++ thread.name ++ bytes "` exited" }
  | .rename timestamp thread name =>
    { severity := trace, thread, timestamp, location := {}
      text := bytes "thread " ++ decimal thread.id ++ bytes " `" ++ thread.name ++ bytes "` renamed to `" ++ name ++
        bytes "`" }
  | .setParent timestamp thread parent =>
    { severity := trace, thread, timestamp, location := {}
      text := bytes "thread " ++ decimal thread.id ++ bytes " `" ++ thread.name ++ bytes "` parent set to " ++
        decimal parent.id ++ bytes " `" ++ parent.name ++ bytes "`" }

/-- `Terminal::print`: the lines passed to `puts`; `none` if the colour is read from behind
the table. -/
def print (t : Terminal) (m : LogMessage) : Option (List (List UInt8)) :=
  if m.severity < t.minimum_severity then some []
  else if inside : m.severity.toNat < 6 then some [t.formatter.apply m (t.color_map ⟨m.severity.toNat, inside⟩)]
  else none

/-- The output after the calls. -/
def run (t : Terminal) : List SinkCall → Option (List (List UInt8))
  | [] => some []
  | c :: calls => do return (← t.print (message c)) ++ (← t.run calls)

/-- The line a message is shown as. -/
def line (t : Terminal) (m : LogMessage) : List UInt8 :=
  t.formatter.apply m (if inside : m.severity.toNat < 6 then t.color_map ⟨m.severity.toNat, inside⟩ else [])

variable (t : Terminal)

theorem print_eq (m : LogMessage) : t.print m =
    if t.minimum_severity ≤ m.severity ∧ fatal < m.severity then none
    else some (if t.minimum_severity ≤ m.severity then [t.line m] else []) := by
  unfold print line
  have beyond : fatal < m.severity ↔ ¬ m.severity.toNat < 6 := by
    rw [UInt8.lt_iff_toNat_lt]
    show 5 < _ ↔ _
    omega
  by_cases low : m.severity < t.minimum_severity
  · rw [if_pos low, if_neg (fun h => absurd low (UInt8.not_lt.mpr h.1)), if_neg (UInt8.not_le.mpr low)]
  · have high : t.minimum_severity ≤ m.severity := UInt8.not_lt.mp low
    rw [if_neg low, if_pos high]
    by_cases inside : m.severity.toNat < 6
    · rw [dif_pos inside, dif_pos inside, if_neg (fun h => beyond.mp h.2 inside)]
    · rw [dif_neg inside, if_pos ⟨high, beyond.mpr inside⟩]

/-- All calls are shown, or one of them has no colour. -/
theorem run_eq_some_iff (calls : List SinkCall) (out : List (List UInt8)) : t.run calls = some out ↔
    (∀ c ∈ calls, t.minimum_severity ≤ (message c).severity → (message c).severity ≤ fatal) ∧
      out = ((calls.map message).filter fun m => t.minimum_severity ≤ m.severity).map t.line := by
  induction calls generalizing out with
  | nil => simp [run, eq_comm]
  | cons c calls ih =>
    have first := t.print_eq (message c)
    by_cases beyond : t.minimum_severity ≤ (message c).severity ∧ fatal < (message c).severity
    · rw [if_pos beyond] at first
      have stuck : t.run (c :: calls) = none := by simp [run, first]
      rw [stuck]
      constructor
      · intro h
        cases h
      · rintro ⟨all, -⟩
        exact absurd (all c List.mem_cons_self beyond.1) (UInt8.not_le.mpr beyond.2)
    · rw [if_neg beyond] at first
      have split : t.run (c :: calls) = some out ↔ ∃ rest, t.run calls = some rest ∧
          (if t.minimum_severity ≤ (message c).severity then [t.line (message c)] else []) ++ rest = out := by
        simp [run, first, Option.bind_eq_some_iff]
      have fine : t.minimum_severity ≤ (message c).severity → (message c).severity ≤ fatal := by
        intro high
        exact UInt8.not_lt.mp fun more => beyond ⟨high, more⟩
      rw [split]
      simp only [ih, List.mem_cons, forall_eq_or_imp, List.map_cons]
      constructor
      · rintro ⟨rest, ⟨all, rfl⟩, rfl⟩
        refine ⟨⟨fine, all⟩, ?_⟩
        by_cases high : t.minimum_severity ≤ (message c).severity <;> simp [high]
      · rintro ⟨⟨-, all⟩, rfl⟩
        refine ⟨_, ⟨all, rfl⟩, ?_⟩
        by_cases high : t.minimum_severity ≤ (message c).severity <;> simp [high]

end Terminal

/-! ## A terminal on the logger -/

section
open Reflect
variable {order : Containers} {server : Host} {std_format : StdFormat} {code : UInt64 → Formatter}

/-- What a registered sink is told of a call comes from the call. -/
theorem mem_heard {sink : SinkPtr} {call : SinkCall} (calls : List (LogCall order server std_format code))
    (earlier : List Event) : call ∈ heard sink earlier calls ↔
      ∃ before c after, calls = before ++ c :: after ∧
        c.report (earlier ++ before.flatMap LogCall.events) = some call ∧
        0 < registrations sink (earlier ++ before.flatMap LogCall.events) := by
  induction calls generalizing earlier with
  | nil => simp [heard]
  | cons c rest ih =>
    have first : call ∈ (c.report earlier).toList.flatMap (List.replicate (registrations sink earlier)) ↔
        c.report earlier = some call ∧ 0 < registrations sink earlier := by
      cases c.report earlier with
      | none => simp
      | some told => simp [List.mem_replicate, Nat.pos_iff_ne_zero, and_comm, eq_comm]
    rw [heard, List.mem_append, first, ih]
    constructor
    · rintro (⟨reported, registered⟩ | ⟨before, d, after, rfl, reported, registered⟩)
      · exact ⟨[], c, rest, rfl, by simpa using reported, by simpa using registered⟩
      · refine ⟨c :: before, d, after, rfl, ?_, ?_⟩
        · simpa [List.append_assoc] using reported
        · simpa [List.append_assoc] using registered
    · rintro ⟨before, d, after, split, reported, registered⟩
      cases before with
      | nil =>
        cases split
        left
        exact ⟨by simpa using reported, by simpa using registered⟩
      | cons b before =>
        cases split
        right
        refine ⟨before, d, after, rfl, ?_, ?_⟩
        · simpa [List.append_assoc] using reported
        · simpa [List.append_assoc] using registered

/-- A message comes from a call of `print` that could be formatted. -/
theorem report_print_iff {earlier : List Event} {c : LogCall order server std_format code} {severity : Severity} :
    (∃ m, c.report earlier = some (.print m) ∧ m.severity = severity) ↔
      ∃ prelude f args text, c = .print prelude f args ∧ std_format f.fmt (f.passed args) = .ok text ∧
        prelude.severity = severity := by
  cases c with
  | event e => cases e <;> simp [LogCall.report, Event.report]
  | print prelude f args =>
    cases formatted : std_format f.fmt (f.passed args) with
    | ok text =>
      simp only [LogCall.report, formatted]
      constructor
      · rintro ⟨m, same, rfl⟩
        cases same
        exact ⟨prelude, f, args, text, rfl, formatted, rfl⟩
      · rintro ⟨prelude', f', args', text', same, -, rfl⟩
        cases same
        exact ⟨_, rfl, rfl⟩
    | error e =>
      simp only [LogCall.report, formatted]
      constructor
      · rintro ⟨m, same, -⟩
        cases same
      · rintro ⟨prelude', f', args', text', same, formatted', -⟩
        cases same
        cases formatted.symm.trans formatted'

/-- **What a terminal shows.** The output of a terminal that is a sink of the logger is
defined exactly if no message was printed while it was registered with a severity beyond
`FATAL` that it does not suppress; then it is a line for each call it hears that is not
below its minimum, in order. -/
theorem terminal_shows (t : Terminal) (calls : List (LogCall order server std_format code)) (sink : SinkPtr)
    (out : List (List UInt8)) :
    t.run ((calls.foldl (fun s c => c.effect s) ({} : LoggingService)).callsOn sink) = some out ↔
      (∀ before prelude f args after text, calls = before ++ .print prelude f args :: after →
        std_format f.fmt (f.passed args) = .ok text → 0 < registrations sink (before.flatMap LogCall.events) →
        t.minimum_severity ≤ prelude.severity → prelude.severity ≤ fatal) ∧
      out = (((heard sink [] calls).map Terminal.message).filter fun m => t.minimum_severity ≤ m.severity).map t.line := by
  have hears : (calls.foldl (fun s c => c.effect s) ({} : LoggingService)).callsOn sink = heard sink [] calls :=
    (Remembers.run ⟨fun _ => rfl, fun _ => rfl⟩ calls sink).trans (List.nil_append _)
  rw [hears, Terminal.run_eq_some_iff]
  refine and_congr_left fun _ => ?_
  constructor
  · intro all before prelude f args after text split formatted registered high
    obtain ⟨m, reported, same⟩ : ∃ m, (LogCall.print prelude f args).report ([] ++ before.flatMap LogCall.events) =
        some (.print m) ∧ m.severity = prelude.severity :=
      report_print_iff.mpr ⟨prelude, f, args, text, rfl, formatted, rfl⟩
    have shown := all (.print m) ((mem_heard calls []).mpr ⟨before, _, after, split, reported, registered⟩)
    rw [← same] at high ⊢
    exact shown high
  · intro all call mem high
    obtain ⟨before, c, after, split, reported, registered⟩ := (mem_heard calls []).mp mem
    cases call with
    | print m =>
      obtain ⟨prelude, f, args, text, rfl, formatted, same⟩ := report_print_iff.mp ⟨m, reported, rfl⟩
      show m.severity ≤ fatal
      rw [← same]
      exact all before prelude f args after text split formatted registered (same ▸ high)
    | spawn | exit | rename | setParent =>
      have low : trace ≤ fatal := by decide
      exact low

end

end Erl.Logging
