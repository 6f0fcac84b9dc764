import Erl.Config.OptionNames

/-!
# What happens to the value tokens

`Called` lists the calls of `Argument::Unevaluated::do_parse` in a run of `parse_args`,
`Executed` the lists of recorded arguments that the run executes, and `Collects` says which
list a call's record is in (`_impl/config/args.hpp`). Every executed record comes from a call
that consumed its token; it is a good one unless the token looks like a negative number.
Where all are, the class gets what `parse_value` makes of the tokens, and nothing else.
-/

namespace Erl.Config
open Util Outcome

variable {R V O ε σ : Type}

/-- A dash and a digit. -/
def LooksNegative : StringView → Prop
  | '-' :: c :: _ => isDigit c = true
  | _ => False

instance : DecidablePred LooksNegative := fun token => by
  unfold LooksNegative
  split <;> infer_instance

theorem valid_of_current {p : ArgParser} {token : StringView} (here : p.current = some token) : p.valid = true := by
  rw [p.current_eq] at here
  cases rest : p.rest with
  | nil => simp [rest] at here
  | cons token toks => rw [p.valid_eq, rest, List.isEmpty_cons, Bool.not_false]

/-- Where `arguments` are tried in turn from `p` on, an argument is tried on a parser. One
that takes nothing is passed over where `skips` allows it, and ends the row otherwise. -/
inductive Tried (ε σ : Type) (skips : Argument R → Bool) :
    List (Argument R) → ArgParser → Argument R → ArgParser → Prop where
  | here {a : Argument R} {rest : List (Argument R)} {p : ArgParser} : Tried ε σ skips (a :: rest) p a p
  | taken {a b : Argument R} {rest : List (Argument R)} {p p' q : ArgParser} {u : Argument.Unevaluated R} :
      (a.doParse {} p : Run ε σ _) = pure (true, u, p') → Tried ε σ skips rest p' b q →
      Tried ε σ skips (a :: rest) p b q
  | skipped {a b : Argument R} {rest : List (Argument R)} {p p' q : ArgParser} {u : Argument.Unevaluated R} :
      (a.doParse {} p : Run ε σ _) = pure (false, u, p') → skips a = true → Tried ε σ skips rest p' b q →
      Tried ε σ skips (a :: rest) p b q

section
variable (spec : Spec R) (target : Target R V O ε σ) (args_in : List StringView) (s : σ)

/-- The run that starts in `s` calls the parser of an argument on an `ArgParser`. -/
inductive Called : Argument R → ArgParser → Prop where
  | positional {program : StringView} {s₁ : σ} {a : Argument R} {p : ArgParser} :
      args_in.head? = some program → (own (target.setName program)).run.run s = (.ok (), s₁) →
      Tried ε σ (fun _ => false) spec.arguments (ArgParser.advance { args := args_in }) a p → Called a p
  | entry {parser : ArgParser} {opts : List (OptionEntry.Unevaluated R)} {s₁ : σ} {token : StringView}
      {o : OptionEntry R} {a : Argument R} {p : ArgParser} :
      AtTurn spec target args_in s parser opts s₁ → parser.current = some token → 2 ≤ token.length →
      (spec.commands ++ spec.options).find? (fun o => token.drop 2 = o.name) = some o →
      Tried ε σ Argument.is_optional o.arguments parser.advance a p → Called a p

/-- The run hands these recorded arguments to `callAll`. -/
inductive Executed : List (Argument.Unevaluated R) → Prop where
  | positionals {r : Parsed R} {s₁ : σ} :
      (parseLine spec target args_in).run.run s = (.ok r, s₁) → Executed r.parsed_args
  | command {parser parser' : ArgParser} {opts : List (OptionEntry.Unevaluated R)} {s₁ s₂ : σ}
      {option : OptionEntry.Unevaluated R} :
      AtTurn spec target args_in s parser opts s₁ → parser.valid = true →
      (parseAny spec.commands {} parser : Run ε σ _).run.run s₁ = (.ok (true, option, parser'), s₂) →
      Executed option.arguments
  | option {r : Parsed R} {s₁ : σ} {option : OptionEntry.Unevaluated R} :
      (parseLine spec target args_in).run.run s = (.ok r, s₁) → option ∈ r.parsed_opts → Executed option.arguments

/-- A run that gets as far has collected the records of these calls in a list. -/
inductive Collects : Argument R → ArgParser → List (Argument.Unevaluated R) → Prop where
  | positional {program : StringView} {s₁ s₂ : σ} {a : Argument R} {p : ArgParser} {r : Parsed R} :
      args_in.head? = some program → (own (target.setName program)).run.run s = (.ok (), s₁) →
      Tried ε σ (fun _ => false) spec.arguments (ArgParser.advance { args := args_in }) a p →
      (parseLine spec target args_in).run.run s = (.ok r, s₂) → Collects a p r.parsed_args
  | command {parser parser' : ArgParser} {opts : List (OptionEntry.Unevaluated R)} {s₁ s₂ : σ} {token : StringView}
      {o : OptionEntry R} {a : Argument R} {p : ArgParser} {option : OptionEntry.Unevaluated R} :
      AtTurn spec target args_in s parser opts s₁ → parser.current = some token → 2 ≤ token.length →
      spec.commands.find? (fun o => token.drop 2 = o.name) = some o →
      Tried ε σ Argument.is_optional o.arguments parser.advance a p →
      (parseAny spec.commands {} parser : Run ε σ _).run.run s₁ = (.ok (true, option, parser'), s₂) →
      Collects a p option.arguments
  | option {parser parser' : ArgParser} {opts : List (OptionEntry.Unevaluated R)} {s₁ s₂ s₃ : σ} {token : StringView}
      {o : OptionEntry R} {a : Argument R} {p : ArgParser} {option : OptionEntry.Unevaluated R} {r : Parsed R} :
      AtTurn spec target args_in s parser opts s₁ → parser.current = some token → 2 ≤ token.length →
      spec.commands.find? (fun o => token.drop 2 = o.name) = none →
      spec.options.find? (fun o => token.drop 2 = o.name) = some o →
      Tried ε σ Argument.is_optional o.arguments parser.advance a p →
      (parseAny spec.options {} parser : Run ε σ _).run.run s₁ = (.ok (true, option, parser'), s₂) →
      (parseLine spec target args_in).run.run s = (.ok r, s₃) → Collects a p option.arguments

/-- The record comes from a call of the run that consumed a token. -/
def FromCall (u : Argument.Unevaluated R) : Prop :=
  ∃ a p p', Called spec target args_in s a p ∧ (a.doParse {} p : Run ε σ _) = pure (true, u, p')

/-- The option has a handler, and its records come from calls. -/
structure Parses (option : OptionEntry.Unevaluated R) : Prop where
  handle : ∃ r, option.handle = some r
  arguments : ∀ x ∈ option.arguments, FromCall spec target args_in s x

/-- Each of these tokens was consumed by a call for this argument. -/
def Consumed (values : List (Argument R × StringView)) : Prop :=
  ∀ x ∈ values, ∃ p, Called spec target args_in s x.1 p ∧ p.current = some x.2

/-- The arguments' slots get what `parse_value` makes of the tokens, in order. -/
def storeValues : List (Argument R × StringView) → (Nat → Option V) → Run ε σ (Nat → Option V)
  | [], tuple => pure tuple
  | (a, token) :: rest, tuple => do
    let value ← own (target.parseValue a.reflection token)
    storeValues rest fun i => if i = a.index then some value else tuple i

/-- The records are those of tokens that were consumed. -/
def Recorded (us : List (Argument.Unevaluated R)) (values : List (Argument R × StringView)) : Prop :=
  us = values.map (fun x => record x.1 x.2) ∧ Consumed spec target args_in s values

/-- The option is called with the values of tokens that were consumed. -/
def CalledWith (option : OptionEntry.Unevaluated R) : Prop :=
  ∃ values handle, Recorded spec target args_in s option.arguments values ∧
    ∀ object, option.call target object = (do
      let tuple ← storeValues target values fun _ => none
      own (target.invoke handle object tuple))

/-- Every value token is delivered: a call that consumes one records its text with the
argument's handler, the record is in a list that the run executes, and what the run does with
these lists is to store what `parse_value` makes of such tokens. -/
structure Delivers : Prop where
  recorded : ∀ a p u p', Called spec target args_in s a p → (a.doParse {} p : Run ε σ _) = pure (true, u, p') →
    ∃ token, p.current = some token ∧ u = record a token
  collected : ∀ a p us u p', Collects spec target args_in s a p us →
    (a.doParse {} p : Run ε σ _) = pure (true, u, p') → u ∈ us ∧ Executed spec target args_in s us
  positionals : ∀ r s₁, (parseLine spec target args_in).run.run s = (.ok r, s₁) →
    ∃ values, Recorded spec target args_in s r.parsed_args values ∧
      (parseArgs spec target args_in).run.run s = (do
        let tuple ← storeValues target values fun _ => none
        requireOptional (spec.arguments.drop values.length)
        let object ← own (target.defaultConstruct tuple)
        forM r.parsed_opts fun option => option.call target (some object)
        pure object : Run ε σ O).run.run s₁
  option : ∀ r s₁, (parseLine spec target args_in).run.run s = (.ok r, s₁) →
    ∀ option ∈ r.parsed_opts, CalledWith spec target args_in s option
  command : ∀ parser opts s₁ option parser' s₂, AtTurn spec target args_in s parser opts s₁ → parser.valid = true →
    (parseAny spec.commands {} parser : Run ε σ _).run.run s₁ = (.ok (true, option, parser'), s₂) →
    CalledWith spec target args_in s option ∧
      (turn spec target parser opts).run.run s₁ =
        (option.call target none >>= fun _ => pure (parser', opts)).run.run s₂

end

theorem not_looksNegative_of_isValue {token : StringView} (value : IsValue token) : ¬ LooksNegative token := by
  intro negative
  unfold LooksNegative at negative
  split at negative
  · exact value.2 rfl
  · exact negative

/-- A call of `do_parse` takes nothing, stops at an empty token, or takes the token. -/
theorem Argument.doParse_cases (a : Argument R) (p : ArgParser) :
    (a.doParse {} p : Run ε σ _) = pure (false, {}, p) ∨ (a.doParse {} p : Run ε σ _) = throw .undefined ∨
      ∃ token, p.current = some token ∧
        (a.doParse {} p : Run ε σ _) = pure (true, if LooksNegative token then {} else record a token, p.advance) := by
  cases rest : p.rest with
  | nil => exact .inl (a.doParse_stop {} (.inl rest))
  | cons token toks =>
    have here : p.current = some token := by rw [p.current_eq, rest, List.head?_cons]
    by_cases value : IsValue token
    · refine .inr (.inr ⟨token, here, ?_⟩)
      rw [if_neg (not_looksNegative_of_isValue value)]
      exact a.doParse_value {} rest value
    · have valid : p.valid = true := by rw [p.valid_eq, rest, List.isEmpty_cons, Bool.not_false]
      unfold Argument.doParse
      simp only [valid, currentToken_of here, pure_bind, Bool.not_true, Bool.false_eq_true, if_false]
      split
      · exact .inr (.inl rfl)
      · split
        · rename_i c tail
          by_cases digit : isDigit c = true
          · refine .inr (.inr ⟨_, here, ?_⟩)
            simp only [LooksNegative, digit, if_true]
          · left
            simp only [digit, Bool.false_eq_true, if_false]
        · exact .inl rfl
      · rename_i ne dash
        have : IsValue token := by
          refine ⟨ne, fun head => ?_⟩
          obtain ⟨tail, cut⟩ := List.head?_eq_some_iff.mp head
          exact dash tail cut
        exact absurd this value

/-- A record with a handler stores what its token is parsed to. -/
theorem call_record (target : Target R V O ε σ) (a : Argument R) (token : StringView) (tuple : Nat → Option V) :
    (record a token).call target tuple = (do
      let value ← own (target.parseValue a.reflection token)
      pure fun i => if i = a.index then some value else tuple i) := rfl

/-! ## All calls of a run -/

/-- The arguments of an entry record what calls of theirs have consumed. -/
theorem parseArguments_all (name : StringView) (P : Argument.Unevaluated R → Prop) :
    ∀ (arguments : List (Argument R)) (u : OptionEntry.Unevaluated R) (p : ArgParser),
      (∀ a q x q', Tried ε σ Argument.is_optional arguments p a q →
        (a.doParse {} q : Run ε σ _) = pure (true, x, q') → P x) →
      (∀ x ∈ u.arguments, P x) →
      Ends (parseArguments name arguments u p : Run ε σ _) (fun _ => True) fun r => ∀ x ∈ r.1.arguments, P x := by
  intro arguments
  induction arguments with
  | nil => intro u p _ before; exact Ends.pure before
  | cons a arguments ih =>
    intro u p calls before
    rw [parseArguments]
    rcases a.doParse_cases (ε := ε) (σ := σ) p with none | undefined | ⟨token, here, taken⟩
    · rw [none, pure_bind]
      simp only [Bool.false_eq_true, if_false]
      cases optional : a.is_optional with
      | false => exact Ends.throw trivial
      | true =>
        refine ih u p (fun b q x q' tried => ?_) before
        exact calls b q x q' (.skipped none optional tried)
    · rw [undefined]
      exact Ends.throw trivial
    · rw [taken, pure_bind]
      simp only [if_true]
      have last := calls a p _ _ .here taken
      refine ih _ _ (fun b q x q' tried => ?_) (List.forall_mem_append.mpr ⟨before, List.forall_mem_singleton.mpr last⟩)
      exact calls b q x q' (.taken taken tried)

/-- So do the positional arguments. -/
theorem parsePositional_all (P : Argument.Unevaluated R → Prop) :
    ∀ (arguments : List (Argument R)) (parsed_args : List (Argument.Unevaluated R)) (p : ArgParser),
      (∀ a q x q', Tried ε σ (fun _ => false) arguments p a q →
        (a.doParse {} q : Run ε σ _) = pure (true, x, q') → P x) →
      (∀ x ∈ parsed_args, P x) →
      Ends (parsePositional arguments parsed_args p : Run ε σ _) (fun _ => True) fun r => ∀ x ∈ r.1, P x := by
  intro arguments
  induction arguments with
  | nil => intro parsed_args p _ before; exact Ends.pure before
  | cons a arguments ih =>
    intro parsed_args p calls before
    rw [parsePositional]
    rcases a.doParse_cases (ε := ε) (σ := σ) p with none | undefined | ⟨token, here, taken⟩
    · rw [none, pure_bind]
      exact Ends.pure before
    · rw [undefined]
      exact Ends.throw trivial
    · rw [taken, pure_bind]
      simp only [if_true]
      have last := calls a p _ _ .here taken
      refine ih _ _ (fun b q x q' tried => ?_) (List.forall_mem_append.mpr ⟨before, List.forall_mem_singleton.mpr last⟩)
      exact calls b q x q' (.taken taken tried)

section
variable {spec : Spec R} {target : Target R V O ε σ} {args_in : List StringView} {s : σ}

/-- The arguments of the entry that a token selects come from calls of the run. -/
theorem AtTurn.arguments {parser : ArgParser} {opts : List (OptionEntry.Unevaluated R)} {s₁ : σ}
    (at_turn : AtTurn spec target args_in s parser opts s₁) {token : StringView} (here : parser.current = some token)
    (long : 2 ≤ token.length) {o : OptionEntry R}
    (selected : (spec.commands ++ spec.options).find? (fun o => token.drop 2 = o.name) = some o) (name : StringView) :
    Ends (parseArguments name o.arguments {} parser.advance : Run ε σ _) (fun _ => True)
      fun r => ∀ x ∈ r.1.arguments, FromCall spec target args_in s x :=
  parseArguments_all name _ o.arguments {} parser.advance
    (fun a q x q' tried taken => ⟨a, q, q', .entry at_turn here long selected tried, taken⟩) (by simp)

theorem find?_options {spec : Spec R} {selects : OptionEntry R → Bool} {o : OptionEntry R}
    (commands : spec.commands.find? selects = none) (options : spec.options.find? selects = some o) :
    (spec.commands ++ spec.options).find? selects = some o := by
  rw [List.find?_append, commands, options]
  rfl

theorem find?_commands {spec : Spec R} {selects : OptionEntry R → Bool} {o : OptionEntry R}
    (commands : spec.commands.find? selects = some o) :
    (spec.commands ++ spec.options).find? selects = some o := by
  rw [List.find?_append, commands]
  rfl

/-- A command is run with arguments that come from calls of the run. -/
theorem AtTurn.command {parser : ArgParser} {opts : List (OptionEntry.Unevaluated R)} {s₁ : σ}
    (at_turn : AtTurn spec target args_in s parser opts s₁) {token : StringView} (here : parser.current = some token) :
    Ends (parseAny spec.commands {} parser : Run ε σ _) (fun _ => True)
      fun r => r.1 = true → Parses spec target args_in s r.2.1 := by
  rcases Nat.lt_or_ge token.length 2 with short | long
  · cases commands : spec.commands with
    | nil => exact Ends.pure nofun
    | cons o rest =>
      rw [parseAny_of_short here short]
      exact Ends.throw trivial
  · rw [parseAny_eq here long]
    cases selected : spec.commands.find? fun o => token.drop 2 = o.name with
    | none => exact Ends.pure nofun
    | some o =>
      refine (at_turn.arguments here long (find?_commands selected) _).bind fun r from_calls => ?_
      exact Ends.pure fun _ => ⟨⟨_, rfl⟩, from_calls⟩

/-- A turn records options whose arguments come from calls of the run. -/
theorem AtTurn.turn_all {parser : ArgParser} {opts : List (OptionEntry.Unevaluated R)} {s₁ : σ}
    (at_turn : AtTurn spec target args_in s parser opts s₁) {token : StringView} (here : parser.current = some token)
    (before : ∀ option ∈ opts, Parses spec target args_in s option) :
    Ends (turn spec target parser opts) (fun _ => True) fun r => ∀ option ∈ r.2, Parses spec target args_in s option := by
  by_cases empty : spec.commands ++ spec.options = []
  · rw [turn_of_none spec target here empty]
    exact Ends.throw trivial
  rcases Nat.lt_or_ge token.length 2 with short | long
  · rw [turn_of_short spec target here short empty]
    exact Ends.throw trivial
  rw [turn_eq spec target here long, turnOn]
  cases command : spec.commands.find? fun o => token.drop 2 = o.name with
  | some o =>
    refine (at_turn.arguments here long (find?_commands command) _).bind fun r _ => ?_
    refine (ends_option_call target _ none (fun _ => True) (fun _ => trivial) (fun _ => trivial)
      (fun _ _ _ => trivial)).bind fun _ _ => ?_
    exact Ends.pure before
  | none =>
    cases option : spec.options.find? fun o => token.drop 2 = o.name with
    | some o =>
      refine (at_turn.arguments here long (find?_options command option) _).bind fun r from_calls => ?_
      exact Ends.pure (List.forall_mem_append.mpr ⟨before, List.forall_mem_singleton.mpr ⟨⟨_, rfl⟩, from_calls⟩⟩)
    | none => exact Ends.throw trivial

theorem current_of_valid {p : ArgParser} (valid : p.valid = true) : ∃ token, p.current = some token := by
  rw [p.valid_eq] at valid
  cases rest : p.rest with
  | nil => simp [rest] at valid
  | cons token toks => exact ⟨token, by rw [p.current_eq, rest, List.head?_cons]⟩

/-- In every state of the loop the recorded options have their arguments from calls. -/
theorem AtTurn.recorded {parser : ArgParser} {opts : List (OptionEntry.Unevaluated R)} {s₁ : σ}
    (at_turn : AtTurn spec target args_in s parser opts s₁) :
    ∀ option ∈ opts, Parses spec target args_in s option := by
  induction at_turn with
  | first => simp
  | next at_turn valid run ih =>
    obtain ⟨token, here⟩ := current_of_valid valid
    exact (at_turn.turn_all here ih).of_run run

/-- The loop ends in one of its states. -/
theorem AtTurn.parseOptions {fuel : Nat} {parser parser' : ArgParser} {opts opts' : List (OptionEntry.Unevaluated R)}
    {s₁ s₂ : σ} (at_turn : AtTurn spec target args_in s parser opts s₁)
    (run : (parseOptions spec target fuel parser opts).run.run s₁ = (.ok (parser', opts'), s₂)) :
    AtTurn spec target args_in s parser' opts' s₂ := by
  induction fuel generalizing parser opts s₁ with
  | zero =>
    unfold Config.parseOptions at run
    split at run <;> cases run
    exact at_turn
  | succ fuel ih =>
    unfold Config.parseOptions at run
    split at run
    · rename_i valid
      obtain ⟨⟨p, o⟩, s₃, one, rest⟩ := run_bind_ok.mp run
      exact ih (.next at_turn valid one) rest
    · cases run
      exact at_turn

/-- The parts of a run that gets to the end of its loop. -/
theorem parseLine_ok {r : Parsed R} {s₁ : σ} (run : (parseLine spec target args_in).run.run s = (.ok r, s₁)) :
    ∃ program s₂ parser s₃, args_in.head? = some program ∧
      (own (target.setName program)).run.run s = (.ok (), s₂) ∧
      (parsePositional spec.arguments [] (ArgParser.advance { args := args_in }) : Run ε σ _).run.run s₂ =
        (.ok (r.parsed_args, parser), s₃) ∧
      (parseOptions spec target args_in.length parser []).run.run s₃ = (.ok (r.parser, r.parsed_opts), s₁) := by
  unfold parseLine at run
  cases head : args_in.head? with
  | none =>
    have read : (currentToken { args := args_in } : Run ε σ StringView) = throw .undefined := by
      unfold currentToken ArgParser.current
      rw [← List.head?_eq_getElem?, head]
    simp only [read] at run
    cases run
  | some program =>
    have read : (currentToken { args := args_in } : Run ε σ _) = pure program :=
      currentToken_of (by rw [ArgParser.current, ← List.head?_eq_getElem?, head])
    simp only [read, pure_bind] at run
    obtain ⟨⟨⟩, s₂, named, run⟩ := run_bind_ok.mp run
    obtain ⟨⟨parsed_args, parser⟩, s₃, positional, run⟩ := run_bind_ok.mp run
    obtain ⟨⟨parser', parsed_opts⟩, s₄, loop, run⟩ := run_bind_ok.mp run
    cases run
    exact ⟨program, s₂, parser, s₃, rfl, named, positional, loop⟩

/-- A line that is parsed has its records from calls. -/
theorem parseLine_recorded {r : Parsed R} {s₁ : σ} (run : (parseLine spec target args_in).run.run s = (.ok r, s₁)) :
    (∀ x ∈ r.parsed_args, FromCall spec target args_in s x) ∧
      ∀ option ∈ r.parsed_opts, Parses spec target args_in s option := by
  obtain ⟨program, s₂, parser, s₃, head, named, positional, loop⟩ := parseLine_ok run
  constructor
  · have all := parsePositional_all (FromCall spec target args_in s) spec.arguments []
      (ArgParser.advance { args := args_in })
      (fun a q x q' tried taken => ⟨a, q, q', .positional head named tried, taken⟩) (by simp)
    exact all.of_run positional
  · exact ((AtTurn.first head named positional).parseOptions loop).recorded

/-! ## Where the records go -/

/-- Records stay among those of the positional arguments. -/
theorem parsePositional_keeps {ε σ : Type} :
    ∀ (arguments : List (Argument R)) (parsed_args : List (Argument.Unevaluated R)) (p : ArgParser),
      Ends (parsePositional arguments parsed_args p : Run ε σ _) (fun _ => True) fun r => ∀ x ∈ parsed_args, x ∈ r.1 := by
  intro arguments
  induction arguments with
  | nil => intro parsed_args p; exact Ends.pure fun _ mem => mem
  | cons a arguments ih =>
    intro parsed_args p
    rw [parsePositional]
    rcases a.doParse_cases (ε := ε) (σ := σ) p with none | undefined | ⟨token, here, taken⟩
    · rw [none, pure_bind]
      exact Ends.pure fun _ mem => mem
    · rw [undefined]
      exact Ends.throw trivial
    · rw [taken, pure_bind]
      exact (ih _ p.advance).mono fun r kept x mem => kept x (List.mem_append_left _ mem)

/-- So do the records of an entry. -/
theorem parseArguments_keeps {ε σ : Type} (name : StringView) :
    ∀ (arguments : List (Argument R)) (u : OptionEntry.Unevaluated R) (p : ArgParser),
      Ends (parseArguments name arguments u p : Run ε σ _) (fun _ => True)
        fun r => ∀ x ∈ u.arguments, x ∈ r.1.arguments := by
  intro arguments
  induction arguments with
  | nil => intro u p; exact Ends.pure fun _ mem => mem
  | cons a arguments ih =>
    intro u p
    rw [parseArguments]
    rcases a.doParse_cases (ε := ε) (σ := σ) p with none | undefined | ⟨token, here, taken⟩
    · rw [none, pure_bind]
      simp only [Bool.false_eq_true, if_false]
      cases a.is_optional with
      | false => exact Ends.throw trivial
      | true => exact ih u p
    · rw [undefined]
      exact Ends.throw trivial
    · rw [taken, pure_bind]
      exact (ih _ p.advance).mono fun r kept x mem => kept x (List.mem_append_left _ mem)

/-- A positional argument that consumes a token has its record among them. -/
theorem Tried.parsePositional_mem {arguments : List (Argument R)} {p q q' : ArgParser} {a : Argument R}
    {u : Argument.Unevaluated R} (tried : Tried ε σ (fun _ => false) arguments p a q)
    (taken : (a.doParse {} q : Run ε σ _) = pure (true, u, q')) (parsed_args : List (Argument.Unevaluated R)) :
    Ends (parsePositional arguments parsed_args p : Run ε σ _) (fun _ => True) fun r => u ∈ r.1 := by
  induction tried generalizing parsed_args with
  | here =>
    rw [parsePositional, taken, pure_bind]
    exact (parsePositional_keeps _ _ _).mono fun r kept => kept u (List.mem_append_right _ List.mem_cons_self)
  | taken first _ ih =>
    rw [parsePositional, first, pure_bind]
    exact ih taken _
  | skipped _ skips _ _ => cases skips

/-- So has an argument of an entry. -/
theorem Tried.parseArguments_mem {arguments : List (Argument R)} {p q q' : ArgParser} {a : Argument R}
    {x : Argument.Unevaluated R} (tried : Tried ε σ Argument.is_optional arguments p a q)
    (taken : (a.doParse {} q : Run ε σ _) = pure (true, x, q')) (name : StringView) (u : OptionEntry.Unevaluated R) :
    Ends (parseArguments name arguments u p : Run ε σ _) (fun _ => True) fun r => x ∈ r.1.arguments := by
  induction tried generalizing u with
  | here =>
    rw [parseArguments, taken, pure_bind]
    exact (parseArguments_keeps name _ _ _).mono fun r kept => kept x (List.mem_append_right _ List.mem_cons_self)
  | taken first _ ih =>
    rw [parseArguments, first, pure_bind]
    exact ih taken _
  | skipped first optional _ ih =>
    rw [parseArguments, first, pure_bind]
    simp only [Bool.false_eq_true, if_false, optional, if_true]
    exact ih taken u

theorem turn_keeps (spec : Spec R) (target : Target R V O ε σ) (parser : ArgParser)
    (opts : List (OptionEntry.Unevaluated R)) :
    Ends (turn spec target parser opts) (fun _ => True) fun r => ∀ option ∈ opts, option ∈ r.2 := by
  unfold turn
  refine (Ends.any _).bind ?_
  rintro ⟨found, option, p⟩ -
  cases found with
  | true => exact (Ends.any _).bind fun _ _ => Ends.pure fun _ mem => mem
  | false =>
    refine (Ends.any _).bind ?_
    rintro ⟨found, option, p⟩ -
    cases found with
    | true => exact Ends.pure fun _ mem => List.mem_append_left _ mem
    | false => exact (Ends.any _).bind fun _ _ => Ends.throw trivial

/-- Options that are recorded stay so to the end of the loop. -/
theorem parseOptions_keeps (spec : Spec R) (target : Target R V O ε σ) :
    ∀ (fuel : Nat) (parser : ArgParser) (opts : List (OptionEntry.Unevaluated R)),
      Ends (parseOptions spec target fuel parser opts) (fun _ => True) fun r => ∀ option ∈ opts, option ∈ r.2 := by
  intro fuel
  induction fuel with
  | zero =>
    intro parser opts
    unfold parseOptions
    split
    · exact Ends.throw trivial
    · exact Ends.pure fun _ mem => mem
  | succ fuel ih =>
    intro parser opts
    unfold parseOptions
    split
    · refine (turn_keeps spec target parser opts).bind fun r kept => ?_
      exact (ih r.1 r.2).mono fun _ later option mem => later option (kept option mem)
    · exact Ends.pure fun _ mem => mem

section
variable {spec : Spec R} {target : Target R V O ε σ} {args_in : List StringView} {s : σ}

/-- A run that gets to the end of its loop goes on from each state of the loop. -/
theorem AtTurn.goes_on {parser : ArgParser} {opts : List (OptionEntry.Unevaluated R)} {s₁ s₂ : σ} {r : Parsed R}
    (at_turn : AtTurn spec target args_in s parser opts s₁)
    (run : (parseLine spec target args_in).run.run s = (.ok r, s₂)) :
    ∃ fuel, (Config.parseOptions spec target fuel parser opts).run.run s₁ = (.ok (r.parser, r.parsed_opts), s₂) := by
  induction at_turn with
  | @first program parsed_args parser s₁ s₃ head named positional =>
    obtain ⟨program', s₄, parser', s₅, head', named', positional', loop⟩ := parseLine_ok run
    cases head.symm.trans head'
    cases named.symm.trans named'
    cases positional.symm.trans positional'
    exact ⟨_, loop⟩
  | next _ valid one ih =>
    obtain ⟨fuel, loop⟩ := ih
    cases fuel with
    | zero =>
      unfold Config.parseOptions at loop
      rw [if_pos valid] at loop
      cases loop
    | succ fuel =>
      unfold Config.parseOptions at loop
      rw [if_pos valid] at loop
      obtain ⟨⟨p, o⟩, s₃, one', rest⟩ := run_bind_ok.mp loop
      cases one.symm.trans one'
      exact ⟨fuel, rest⟩

/-- An option that a turn parses is recorded when the loop ends. -/
theorem AtTurn.option_mem {parser parser' : ArgParser} {opts : List (OptionEntry.Unevaluated R)} {s₁ s₂ s₃ : σ}
    {token : StringView} {option : OptionEntry.Unevaluated R} {r : Parsed R}
    (at_turn : AtTurn spec target args_in s parser opts s₁) (here : parser.current = some token)
    (long : 2 ≤ token.length) (commands : spec.commands.find? (fun o => token.drop 2 = o.name) = none)
    (parsed : (parseAny spec.options {} parser : Run ε σ _).run.run s₁ = (.ok (true, option, parser'), s₂))
    (run : (parseLine spec target args_in).run.run s = (.ok r, s₃)) : option ∈ r.parsed_opts := by
  have one : (turn spec target parser opts).run.run s₁ = (.ok (parser', opts ++ [option]), s₂) := by
    unfold turn
    rw [parseAny_eq here long, commands]
    simp only [pure_bind, Bool.false_eq_true, if_false]
    exact run_bind_ok.mpr ⟨_, _, parsed, rfl⟩
  obtain ⟨fuel, loop⟩ := (AtTurn.next at_turn (valid_of_current here) one).goes_on run
  exact (parseOptions_keeps spec target fuel parser' _).of_run loop option
    (List.mem_append_right _ List.mem_cons_self)

/-- A call that consumes a token has its record in a list that is executed. -/
theorem Collects.mem {a : Argument R} {p p' : ArgParser} {us : List (Argument.Unevaluated R)}
    {u : Argument.Unevaluated R} (collects : Collects spec target args_in s a p us)
    (taken : (a.doParse {} p : Run ε σ _) = pure (true, u, p')) : u ∈ us ∧ Executed spec target args_in s us := by
  cases collects with
  | positional _ _ tried run =>
    refine ⟨?_, .positionals run⟩
    obtain ⟨_, _, _, _, _, _, positional, _⟩ := parseLine_ok run
    exact (tried.parsePositional_mem taken []).of_run positional
  | command at_turn here long selected tried parsed =>
    refine ⟨?_, .command at_turn (valid_of_current here) parsed⟩
    rw [parseAny_eq here long, selected] at parsed
    obtain ⟨⟨u', p'⟩, s₃, arguments, rest⟩ := run_bind_ok.mp parsed
    cases rest
    exact (tried.parseArguments_mem taken _ {}).of_run arguments
  | option at_turn here long commands selected tried parsed run =>
    refine ⟨?_, .option run (at_turn.option_mem here long commands parsed run)⟩
    rw [parseAny_eq here long, selected] at parsed
    obtain ⟨⟨u', p'⟩, s₃, arguments, rest⟩ := run_bind_ok.mp parsed
    cases rest
    exact (tried.parseArguments_mem taken _ {}).of_run arguments

end

/-- A token that looks like a negative number is taken, but not recorded. -/
theorem Argument.doParse_negative (a : Argument R) {p : ArgParser} {token : StringView}
    (here : p.current = some token) (negative : LooksNegative token) :
    (a.doParse {} p : Run ε σ _) = pure (true, {}, p.advance) := by
  have valid := valid_of_current here
  unfold LooksNegative at negative
  split at negative
  · unfold Argument.doParse
    simp only [valid, currentToken_of here, pure_bind, Bool.not_true, Bool.false_eq_true, if_false, negative, if_true]
  · exact absurd negative id

/-- A call that consumes a token records it, unless it looks like a negative number. -/
theorem recorded_of_not_negative {a : Argument R} {p p' : ArgParser} {u : Argument.Unevaluated R}
    (positive : ∀ token, p.current = some token → ¬ LooksNegative token)
    (taken : (a.doParse {} p : Run ε σ _) = pure (true, u, p')) (s : σ) :
    ∃ token, p.current = some token ∧ u = record a token := by
  have at_state {x y : Run ε σ (Bool × Argument.Unevaluated R × ArgParser)} (same : x = y) :
    x.run.run s = y.run.run s := congrArg (fun z => z.run.run s) same
  rcases a.doParse_cases (ε := ε) (σ := σ) p with none | undefined | ⟨token, here, one⟩
  · cases at_state (none.symm.trans taken)
  · cases at_state (undefined.symm.trans taken)
  · have same := at_state (one.symm.trans taken)
    rw [if_neg (positive token here)] at same
    cases same
    exact ⟨token, here, rfl⟩

end

section
variable {spec : Spec R} {target : Target R V O ε σ} {args_in : List StringView} {s : σ}

/-- Records of calls are records of values, where no token looks like a negative number. -/
theorem exists_recorded {us : List (Argument.Unevaluated R)}
    (positive : ∀ a p token, Called spec target args_in s a p → p.current = some token → ¬ LooksNegative token)
    (from_calls : ∀ x ∈ us, FromCall spec target args_in s x) : ∃ values, Recorded spec target args_in s us values := by
  induction us with
  | nil => exact ⟨[], rfl, nofun⟩
  | cons u us ih =>
    obtain ⟨values, rest, consumed⟩ := ih fun x mem => from_calls x (List.mem_cons_of_mem _ mem)
    obtain ⟨a, p, p', called, taken⟩ := from_calls u List.mem_cons_self
    obtain ⟨token, here, recorded⟩ := recorded_of_not_negative (fun token here => positive a p token called here) taken s
    refine ⟨(a, token) :: values, ?_, List.forall_mem_cons.mpr ⟨⟨p, called, here⟩, consumed⟩⟩
    rw [recorded, rest, List.map_cons]

/-- Records of values store them. -/
theorem callAll_recorded (target : Target R V O ε σ) (values : List (Argument R × StringView)) (tuple : Nat → Option V) :
    callAll target (values.map fun x => record x.1 x.2) tuple = storeValues target values tuple := by
  induction values generalizing tuple with
  | nil => rfl
  | cons x values ih =>
    rw [List.map_cons, callAll, call_record, storeValues, bind_assoc]
    simp only [pure_bind, ih]

theorem runOptions_eq_forM (target : Target R V O ε σ) (object : Option O) (options : List (OptionEntry.Unevaluated R)) :
    runOptions target object options = forM options fun option => option.call target object := by
  induction options with
  | nil => rfl
  | cons option options ih => rw [runOptions, ih, List.forM_cons]

theorem Parses.calledWith {option : OptionEntry.Unevaluated R} (parses : Parses spec target args_in s option)
    (positive : ∀ a p token, Called spec target args_in s a p → p.current = some token → ¬ LooksNegative token) :
    CalledWith spec target args_in s option := by
  obtain ⟨handle, handled⟩ := parses.handle
  obtain ⟨values, recorded⟩ := exists_recorded positive parses.arguments
  refine ⟨values, handle, recorded, fun object => ?_⟩
  simp only [OptionEntry.Unevaluated.call, handled, recorded.1, callAll_recorded]

end

/-- **Value tokens.** For every specification, class and line: a run delivers every token
that it consumes as an argument exactly where no argument is tried on a token that looks
like a negative number. -/
theorem delivers_iff (spec : Spec R) (target : Target R V O ε σ) (args_in : List StringView) (s : σ) :
    Delivers spec target args_in s ↔
      ∀ a p token, Called spec target args_in s a p → p.current = some token → ¬ LooksNegative token := by
  constructor
  · intro delivers a p token called here negative
    obtain ⟨token', -, recorded⟩ := delivers.recorded a p {} p.advance called (a.doParse_negative here negative)
    cases congrArg Argument.Unevaluated.handle recorded
  · intro positive
    constructor
    case recorded =>
      intro a p u p' called taken
      exact recorded_of_not_negative (fun token here => positive a p token called here) taken s
    case collected => exact fun a p us u p' collects taken => collects.mem taken
    case positionals =>
      intro r s₁ run
      obtain ⟨values, recorded⟩ := exists_recorded positive (parseLine_recorded run).1
      refine ⟨values, recorded, ?_⟩
      rw [parseArgs, run_bind_of_ok run]
      simp only [recorded.1, List.length_map, callAll_recorded, runOptions_eq_forM]
    case option => exact fun r s₁ run option mem => ((parseLine_recorded run).2 option mem).calledWith positive
    case command =>
      intro parser opts s₁ option parser' s₂ at_turn valid run
      obtain ⟨token, here⟩ := current_of_valid valid
      have parses := (at_turn.command here).of_run run rfl
      refine ⟨parses.calledWith positive, ?_⟩
      rw [turn, run_bind_of_ok run]
      simp only [if_true]

/-- A class with the positional argument `path` and nothing else. -/
def pathSpec : Spec Nat where
  arguments := [⟨0, 10, "path".toList, false⟩]
  commands := []
  options := []

/-- `prog -5`: the token is taken for `path`, and the program calls a null handler. -/
theorem not_delivers_negative :
    ¬ Delivers pathSpec noting (["prog", "-5"].map String.toList) [] ∧
    (parseArgs pathSpec noting (["prog", "-5"].map String.toList)).run.run [] = (.error .undefined, []) := by
  refine ⟨fun delivers => ?_, rfl⟩
  obtain ⟨token, -, recorded⟩ := delivers.recorded _ _ {} _ (.positional rfl rfl .here) rfl
  cases congrArg Argument.Unevaluated.handle recorded

end Erl.Config
