import Erl.Config.CommandLine

/-!
# Which entry a token selects

At an option position `parse_args` compares each command and option with the token less its
first two characters, whatever these are (`_impl/config/args.hpp`). `exactTurn` is the turn
of the `while` loop that looks for the two dashes as well.
-/

namespace Erl.Config
open Util Outcome

variable {R V O ε σ : Type}

/-- The states in which the condition of the `while` loop is evaluated, in the run of
`parse_args` that starts in `s`. -/
inductive AtTurn (spec : Spec R) (target : Target R V O ε σ) (args_in : List StringView) (s : σ) :
    ArgParser → List (OptionEntry.Unevaluated R) → σ → Prop where
  | first {program : StringView} {parsed_args : List (Argument.Unevaluated R)} {parser : ArgParser} {s₁ s₂ : σ} :
      args_in.head? = some program →
      (own (target.setName program)).run.run s = (.ok (), s₁) →
      (parsePositional spec.arguments [] (ArgParser.advance { args := args_in }) : Run ε σ _).run.run s₁ =
        (.ok (parsed_args, parser), s₂) →
      AtTurn spec target args_in s parser [] s₂
  | next {parser parser' : ArgParser} {opts opts' : List (OptionEntry.Unevaluated R)} {s₁ s₂ : σ} :
      AtTurn spec target args_in s parser opts s₁ → parser.valid = true →
      (turn spec target parser opts).run.run s₁ = (.ok (parser', opts'), s₂) →
      AtTurn spec target args_in s parser' opts' s₂

/-! ## Turns that select by a name -/

/-- A turn that runs or records the first entry with the property `selects`, a command
rather than an option; `name` is what its own parser calls it. -/
def turnOn (selects : OptionEntry R → Bool) (name : StringView) (spec : Spec R) (target : Target R V O ε σ)
    (parser : ArgParser) (parsed_opts : List (OptionEntry.Unevaluated R)) (token : StringView) :
    Run ε σ (ArgParser × List (OptionEntry.Unevaluated R)) :=
  match spec.commands.find? selects with
  | some o => do
    let (u, parser) ← parseArguments name o.arguments {} parser.advance
    OptionEntry.Unevaluated.call target { u with handle := some o.reflection } none
    pure (parser, parsed_opts)
  | none =>
    match spec.options.find? selects with
    | some o => do
      let (u, parser) ← parseArguments name o.arguments {} parser.advance
      pure (parser, parsed_opts ++ [{ u with handle := some o.reflection }])
    | none => throw (.fail ("Could not find option `".toList ++ token ++ "`".toList))

/-- The turn that selects an entry by its exact spelling. -/
def exactTurn (spec : Spec R) (target : Target R V O ε σ) (parser : ArgParser)
    (parsed_opts : List (OptionEntry.Unevaluated R)) (token : StringView) :
    Run ε σ (ArgParser × List (OptionEntry.Unevaluated R)) :=
  turnOn (fun o => token = "--".toList ++ o.name) (token.drop 2) spec target parser parsed_opts token

theorem currentToken_of {p : ArgParser} {token : StringView} (here : p.current = some token) :
    (currentToken p : Run ε σ StringView) = pure token := by
  unfold currentToken
  rw [here]

/-- A list of entries reads a token of two characters or more. -/
theorem parseAny_eq {p : ArgParser} {token : StringView} (here : p.current = some token) (long : 2 ≤ token.length) :
    ∀ entries : List (OptionEntry R), (parseAny entries {} p : Run ε σ _) =
      match entries.find? fun o => token.drop 2 = o.name with
      | some o => do
        let (u, parser) ← parseArguments (token.drop 2) o.arguments {} p.advance
        pure (true, { u with handle := some o.reflection }, parser)
      | none => pure (false, {}, p) := by
  intro entries
  induction entries with
  | nil => rfl
  | cons o entries ih =>
    have enough : ¬ token.length < 2 := Nat.not_lt_of_le long
    rw [parseAny, OptionEntry.doParse, currentToken_of here]
    simp only [pure_bind, if_neg enough, List.find?_cons]
    by_cases named : token.drop 2 = o.name
    · simp [named]
    · simp [named, ih]

theorem turn_eq (spec : Spec R) (target : Target R V O ε σ) {p : ArgParser} {token : StringView}
    (here : p.current = some token) (long : 2 ≤ token.length) (opts : List (OptionEntry.Unevaluated R)) :
    turn spec target p opts =
      turnOn (fun o => token.drop 2 = o.name) (token.drop 2) spec target p opts token := by
  unfold turn turnOn
  rw [parseAny_eq here long]
  cases spec.commands.find? fun o => token.drop 2 = o.name with
  | some o => simp only [bind_assoc, pure_bind, if_true]
  | none =>
    simp only [pure_bind, Bool.false_eq_true, if_false]
    rw [parseAny_eq here long]
    cases spec.options.find? fun o => token.drop 2 = o.name with
    | some o => simp only [bind_assoc, pure_bind, if_true]
    | none => simp only [pure_bind, Bool.false_eq_true, if_false, currentToken_of here]

/-- Without entries no token is looked at. -/
theorem turn_of_none (spec : Spec R) (target : Target R V O ε σ) {p : ArgParser} {token : StringView}
    (here : p.current = some token) (empty : spec.commands ++ spec.options = [])
    (opts : List (OptionEntry.Unevaluated R)) :
    turn spec target p opts = throw (.fail ("Could not find option `".toList ++ token ++ "`".toList)) := by
  obtain ⟨commands, options⟩ := List.append_eq_nil_iff.mp empty
  unfold turn
  simp only [commands, options, parseAny, pure_bind, Bool.false_eq_true, if_false, currentToken_of here]

/-- The first entry trims a token of fewer than two characters past its end. -/
theorem parseAny_of_short {p : ArgParser} {token : StringView} (here : p.current = some token)
    (short : token.length < 2) (o : OptionEntry R) (rest : List (OptionEntry R)) :
    (parseAny (o :: rest) {} p : Run ε σ _) = throw .undefined := by
  rw [parseAny, OptionEntry.doParse, currentToken_of here, pure_bind]
  simp only [if_pos short]
  rfl

theorem turn_of_short (spec : Spec R) (target : Target R V O ε σ) {p : ArgParser} {token : StringView}
    (here : p.current = some token) (short : token.length < 2) (entries : spec.commands ++ spec.options ≠ [])
    (opts : List (OptionEntry.Unevaluated R)) : turn spec target p opts = throw .undefined := by
  unfold turn
  cases commands : spec.commands with
  | cons o rest =>
    rw [parseAny_of_short here short]
    rfl
  | nil =>
    cases options : spec.options with
    | nil => simp [commands, options] at entries
    | cons o rest =>
      change (parseAny (o :: rest) {} p >>= _) = _
      rw [parseAny_of_short here short]
      rfl

/-- No error of an entry's own is the one about an unknown option. -/
theorem ends_parseArguments (name : StringView) :
    ∀ (arguments : List (Argument R)) (u : OptionEntry.Unevaluated R) (p : ArgParser),
      Ends (parseArguments name arguments u p : Run ε σ _) (fun h => ∀ message, h ≠ .fail ('C' :: message))
        fun _ => True := by
  intro arguments
  induction arguments with
  | nil => intro u p; exact Ends.pure trivial
  | cons a arguments ih =>
    intro u p
    have parsed : Ends (a.doParse {} p : Run ε σ _) (fun h => ∀ message, h ≠ .fail ('C' :: message)) fun _ => True := by
      unfold Argument.doParse currentToken
      cases p.valid with
      | false => exact Ends.pure trivial
      | true =>
        cases p.current with
        | none => exact Ends.throw nofun
        | some current =>
          simp only [Bool.not_true, Bool.false_eq_true, if_false, pure_bind]
          split
          · exact Ends.throw nofun
          · split
            · split <;> exact Ends.pure trivial
            · exact Ends.pure trivial
          · exact Ends.pure trivial
    rw [parseArguments]
    refine parsed.bind ?_
    rintro ⟨taken, argument, p'⟩ -
    simp only
    split
    · exact ih _ p'
    · split
      · exact ih u p'
      · exact Ends.throw fun message same => by cases same

/-- Nor is one of a turn that finds an entry. -/
theorem ends_turnOn (selects : OptionEntry R → Bool) (name token : StringView) (spec : Spec R)
    (target : Target R V O ε σ) (p : ArgParser) (opts : List (OptionEntry.Unevaluated R))
    (found : ∃ o ∈ spec.commands ++ spec.options, selects o) :
    Ends (turnOn selects name spec target p opts token) (fun h => ∀ message, h ≠ .fail ('C' :: message))
      fun _ => True := by
  unfold turnOn
  cases command : spec.commands.find? selects with
  | some o =>
    refine (ends_parseArguments name o.arguments {} p.advance).bind fun r _ => ?_
    refine (ends_option_call target _ none _ (fun _ => nofun) (fun _ => nofun) (fun _ _ _ => nofun)).bind fun _ _ => ?_
    exact Ends.pure trivial
  | none =>
    cases option : spec.options.find? selects with
    | some o => exact (ends_parseArguments name o.arguments {} p.advance).bind fun r _ => Ends.pure trivial
    | none =>
      obtain ⟨o, listed, selected⟩ := found
      rcases List.mem_append.mp listed with listed | listed
      · exact absurd selected (List.find?_eq_none.mp command o listed)
      · exact absurd selected (List.find?_eq_none.mp option o listed)

/-- The token starts with the two dashes, or is long enough to be trimmed and what remains
is no name; where there are no entries it may be any. -/
def ExactOrUnknown (spec : Spec R) (token : StringView) : Prop :=
  spec.commands ++ spec.options = [] ∨
    2 ≤ token.length ∧ ("--".toList <+: token ∨ ∀ o ∈ spec.commands ++ spec.options, token.drop 2 ≠ o.name)

theorem length_of_spelled {token name : StringView} (h : token = "--".toList ++ name) : 2 ≤ token.length := by
  rw [h, List.length_append]
  exact Nat.le_add_right 2 _

/-- A turn without an entry of this spelling fails. -/
theorem exactTurn_of_unknown (spec : Spec R) (target : Target R V O ε σ) (p : ArgParser) {token : StringView}
    (unknown : ∀ o ∈ spec.commands ++ spec.options, token ≠ "--".toList ++ o.name)
    (opts : List (OptionEntry.Unevaluated R)) :
    exactTurn spec target p opts token = throw (.fail ("Could not find option `".toList ++ token ++ "`".toList)) := by
  have commands : spec.commands.find? (fun o => decide (token = "--".toList ++ o.name)) = none :=
    List.find?_eq_none.mpr fun o listed => by simpa using unknown o (List.mem_append_left _ listed)
  have options : spec.options.find? (fun o => decide (token = "--".toList ++ o.name)) = none :=
    List.find?_eq_none.mpr fun o listed => by simpa using unknown o (List.mem_append_right _ listed)
  unfold exactTurn turnOn
  rw [commands, options]

/-- One turn, in any state of the loop. -/
theorem turn_eq_exactTurn_iff (spec : Spec R) (target : Target R V O ε σ) {p : ArgParser} {token : StringView}
    (here : p.current = some token) (opts : List (OptionEntry.Unevaluated R)) (s : σ) :
    (turn spec target p opts).run.run s = (exactTurn spec target p opts token).run.run s ↔ ExactOrUnknown spec token := by
  by_cases empty : spec.commands ++ spec.options = []
  · have unknown : ∀ o ∈ spec.commands ++ spec.options, token ≠ "--".toList ++ o.name := by simp [empty]
    rw [turn_of_none spec target here empty, exactTurn_of_unknown spec target p unknown]
    exact ⟨fun _ => .inl empty, fun _ => rfl⟩
  rcases Nat.lt_or_ge token.length 2 with short | long
  · have unknown : ∀ o ∈ spec.commands ++ spec.options, token ≠ "--".toList ++ o.name :=
      fun o _ spelled => absurd (length_of_spelled spelled) (Nat.not_le_of_lt short)
    rw [turn_of_short spec target here short empty, exactTurn_of_unknown spec target p unknown]
    constructor
    · intro same
      cases congrArg Prod.fst same
    · rintro (empty' | ⟨long, -⟩)
      · exact absurd empty' empty
      · exact absurd long (Nat.not_le_of_lt short)
  rw [turn_eq spec target here long]
  by_cases dashes : "--".toList <+: token
  · obtain ⟨name, rfl⟩ := dashes
    have same : (fun o : OptionEntry R => decide (("--".toList ++ name).drop 2 = o.name)) =
        fun o => decide ("--".toList ++ name = "--".toList ++ o.name) := by
      funext o
      simp
    unfold exactTurn
    rw [same]
    exact ⟨fun _ => .inr ⟨long, .inl ⟨name, rfl⟩⟩, fun _ => rfl⟩
  · have unknown : ∀ o ∈ spec.commands ++ spec.options, token ≠ "--".toList ++ o.name :=
      fun o _ spelled => dashes ⟨o.name, spelled.symm⟩
    rw [exactTurn_of_unknown spec target p unknown]
    constructor
    · intro same
      refine .inr ⟨long, .inr fun o listed named => ?_⟩
      have ends := ends_turnOn (fun o => decide (token.drop 2 = o.name)) (token.drop 2) token spec target p opts
        ⟨o, listed, by simpa using named⟩ s
      rw [same] at ends
      exact ends _ rfl
    · rintro (empty' | ⟨-, dashes' | unnamed⟩)
      · exact absurd empty' empty
      · exact absurd dashes' dashes
      · have commands : spec.commands.find? (fun o => decide (token.drop 2 = o.name)) = none :=
          List.find?_eq_none.mpr fun o listed => by simpa using unnamed o (List.mem_append_left _ listed)
        have options : spec.options.find? (fun o => decide (token.drop 2 = o.name)) = none :=
          List.find?_eq_none.mpr fun o listed => by simpa using unnamed o (List.mem_append_right _ listed)
        unfold turnOn
        rw [commands, options]

/-- **Option names.** For every specification, class and line: every token that a run
examines at an option position selects by its exact spelling, a command rather than an
option and the first one of its name, or ends in the failure, exactly where every such token
starts with the two dashes or can be trimmed to something that is no name. -/
theorem optionNames_iff (spec : Spec R) (target : Target R V O ε σ) (args_in : List StringView) (s : σ) :
    (∀ parser opts s₁ token, AtTurn spec target args_in s parser opts s₁ → parser.current = some token →
      (turn spec target parser opts).run.run s₁ = (exactTurn spec target parser opts token).run.run s₁) ↔
    ∀ parser opts s₁ token, AtTurn spec target args_in s parser opts s₁ → parser.current = some token →
      ExactOrUnknown spec token :=
  ⟨fun exact_turns parser opts s₁ token at_turn here =>
    (turn_eq_exactTurn_iff spec target here opts s₁).mp (exact_turns parser opts s₁ token at_turn here),
   fun known parser opts s₁ token at_turn here =>
    (turn_eq_exactTurn_iff spec target here opts s₁).mpr (known parser opts s₁ token at_turn here)⟩

/-- A class with the command `help` and nothing else. -/
def helpSpec : Spec Nat where
  arguments := []
  commands := [⟨"help".toList, 20, [], .nil⟩]
  options := []

/-- A class that notes what is run, with the raw values. -/
def noting : Target Nat StringView Unit Empty (List (Nat × Option StringView)) where
  setName _ := pure ()
  parseValue _ value := pure value
  invoke r _ tuple := modify (· ++ [(r, tuple 0)])
  defaultConstruct tuple := modify (· ++ [(0, tuple 0)])

/-- `prog xxhelp` runs the command, and an empty token is trimmed past its end. -/
theorem optionNames_xxhelp :
    (∃ parser opts s₁, AtTurn helpSpec noting (["prog", "xxhelp"].map String.toList) [] parser opts s₁ ∧
      parser.current = some "xxhelp".toList ∧
      ((turn helpSpec noting parser opts).run.run s₁).2 = [(20, none)] ∧
      (exactTurn helpSpec noting parser opts "xxhelp".toList).run.run s₁ =
        (.error (.fail "Could not find option `xxhelp`".toList), [])) ∧
    ∃ parser opts s₁, AtTurn helpSpec noting (["prog", ""].map String.toList) [] parser opts s₁ ∧
      parser.current = some [] ∧ (turn helpSpec noting parser opts).run.run s₁ = (.error .undefined, []) :=
  ⟨⟨_, _, _, .first rfl rfl rfl, rfl, rfl, rfl⟩, _, _, _, .first rfl rfl rfl, rfl, rfl⟩

end Erl.Config
