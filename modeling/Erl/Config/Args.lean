import Erl.Util.Strings

/-!
# The command-line parser

`_impl/config/args.hpp`. A `Spec` lists what the annotated class accepts: positional
arguments, commands that run at once and options that run on the constructed object. The
entries' parsers share one `ArgParser`, whose cursor only moves forward.

`ArgParser.consumed` is a ghost: the indices of the tokens the cursor has stepped over, in
order. What is done with parsed tokens (`parse_value` and `validate`, `default_invoke` and
`default_construct`, and the class's functions that these call) is a parameter, `Target`:
how tokens are read does not depend on it. `Code.target` is the one of the source.
-/

namespace Erl.Config
open Util

/-- `Argument`: a positional argument or a parameter of an option. `R` are reflections. -/
structure Argument (R : Type) where
  index : Nat
  reflection : R
  name : StringView
  is_optional : Bool := false

/-- No constructor of `Argument` sets `is_variadic`. -/
def Argument.is_variadic {R : Type} (_ : Argument R) : Bool := false

/-- An optional argument is followed by optional ones only. -/
abbrev OptionalTrail {R : Type} (arguments : List (Argument R)) : Prop :=
  arguments.Pairwise fun a b => a.is_optional → b.is_optional

/-- `Option`. Its arguments are the parameters of a function, whose default arguments are
trailing in C++, or one data member. -/
structure OptionEntry (R : Type) where
  name : StringView
  reflection : R
  arguments : List (Argument R)
  trailing : OptionalTrail arguments

structure Spec (R : Type) where
  arguments : List (Argument R)
  commands : List (OptionEntry R)
  options : List (OptionEntry R)

/-- Nothing is ever added to the subcommands of `Spec::Parser`. -/
def Spec.subcommands {R : Type} (_ : Spec R) : List (Spec R) := []

/-- The loop of `Spec::Parser::validate` over the positional arguments; `has_variadic` and
`has_optional` are its two flags, an error is a `compile_error`. -/
def validateArguments {R : Type} : List (Argument R) → Bool → Bool → Except String (Bool × Bool)
  | [], has_variadic, has_optional => .ok (has_variadic, has_optional)
  | argument :: rest, has_variadic, has_optional =>
    if has_variadic then .error "Non-variadic argument after a variadic argument is not allowed."
    else if argument.is_variadic then validateArguments rest true has_optional
    else if argument.is_optional then validateArguments rest has_variadic true
    else if has_optional then .error "Non-optional argument after an optional argument is not allowed."
    else validateArguments rest has_variadic has_optional

/-- `Spec::Parser::validate`. -/
def Spec.validate {R : Type} (spec : Spec R) : Except String Unit :=
  match validateArguments spec.arguments false false with
  | .error message => .error message
  | .ok (has_variadic, has_optional) =>
    if spec.subcommands.isEmpty then .ok ()
    else if has_variadic then .error "Variadic arguments and subcommands cannot be combined."
    else if has_optional then .error "Optional arguments and subcommands cannot be combined."
    else .ok ()

/-! ## Runs -/

/-- The ways a run ends early. `ε` are those of what is done with parsed tokens. -/
inductive Halt (ε : Type) where
  /-- `ArgParser::fail`: the message is printed, the program exits with status 1. -/
  | fail (message : StringView)
  /-- Undefined behaviour. -/
  | undefined
  /-- The `while` loop goes on without end. -/
  | endless
  | stopped (reason : ε)
deriving DecidableEq

/-- Code with access to the program's state `σ`, which it keeps when it ends early. -/
abbrev Run (ε σ : Type) := ExceptT (Halt ε) (StateM σ)

/-- What is done with parsed tokens. `O` are object addresses, `V` converted values; a tuple
of arguments holds a value at some indices. -/
structure Target (R V O ε σ : Type) where
  /-- `Program::set_name`. -/
  setName : StringView → ExceptT ε (StateM σ) Unit
  /-- `parse_value` and `validate` of one argument. -/
  parseValue : R → StringView → ExceptT ε (StateM σ) V
  /-- `default_invoke` (or the assignment to a data member) on an object, if any. -/
  invoke : R → Option O → (Nat → Option V) → ExceptT ε (StateM σ) Unit
  /-- `default_construct<T>`. -/
  defaultConstruct : (Nat → Option V) → ExceptT ε (StateM σ) O

/-- Code of the target, as a part of a run. -/
def own {ε σ α : Type} (x : ExceptT ε (StateM σ) α) : Run ε σ α := ExceptT.adapt .stopped x

structure ArgParser where
  args : List StringView
  cursor : Nat := 0
  consumed : List Nat := []
deriving DecidableEq, Repr

namespace ArgParser

/-- `current`; `none` is a read out of range. -/
def current (p : ArgParser) : Option StringView := p.args[p.cursor]?

/-- `valid`. -/
def valid (p : ArgParser) : Bool := p.cursor < p.args.length

/-- `++cursor`. -/
def advance (p : ArgParser) : ArgParser :=
  { p with cursor := p.cursor + 1, consumed := p.consumed ++ [p.cursor] }

end ArgParser

variable {R V O ε σ : Type}

/-- `parser.current()`. -/
def currentToken (p : ArgParser) : Run ε σ StringView :=
  match p.current with
  | some token => pure token
  | none => throw .undefined

/-- `Argument::Unevaluated`; `handle` is `do_handle<Idx, R>`, null at first. -/
structure Argument.Unevaluated (R : Type) where
  argument : StringView := []
  handle : Option (Nat × R) := none
deriving DecidableEq, Repr

/-- `Argument::Unevaluated::do_parse`. -/
def Argument.doParse (a : Argument R) (u : Argument.Unevaluated R) (parser : ArgParser) :
    Run ε σ (Bool × Argument.Unevaluated R × ArgParser) := do
  if !parser.valid then pure (false, u, parser)
  else
    let current ← currentToken parser
    match current with
    | [] => throw .undefined
    | '-' :: tail =>
      match tail with
      | c :: _ => if isDigit c then pure (true, u, parser.advance) else pure (false, u, parser)
      | [] => pure (false, u, parser)
    | current => pure (true, { argument := current, handle := some (a.index, a.reflection) }, parser.advance)

/-- `Argument::Unevaluated::operator()`, with `do_handle`. -/
def Argument.Unevaluated.call (target : Target R V O ε σ) (u : Argument.Unevaluated R) (tuple : Nat → Option V) :
    Run ε σ (Nat → Option V) :=
  match u.handle with
  | none => throw .undefined
  | some (index, r) => do
    let value ← own (target.parseValue r u.argument)
    pure fun i => if i = index then some value else tuple i

/-- `Option::Unevaluated`. -/
structure OptionEntry.Unevaluated (R : Type) where
  arguments : List (Argument.Unevaluated R) := []
  handle : Option R := none
deriving DecidableEq, Repr

/-- The values of `arguments`, stored in order. -/
def callAll (target : Target R V O ε σ) : List (Argument.Unevaluated R) → (Nat → Option V) → Run ε σ (Nat → Option V)
  | [], tuple => pure tuple
  | argument :: rest, tuple => do
    let tuple ← argument.call target tuple
    callAll target rest tuple

/-- `Option::Unevaluated::operator()`, with `do_handle`. -/
def OptionEntry.Unevaluated.call (target : Target R V O ε σ) (u : OptionEntry.Unevaluated R) (object : Option O) :
    Run ε σ Unit :=
  match u.handle with
  | none => throw .undefined
  | some r => do
    let arg_tuple ← callAll target u.arguments fun _ => none
    own (target.invoke r object arg_tuple)

/-- The arguments of one option, each tried in turn. `fail` does not return, so the flag
`contd` of the source is never read as `false`. -/
def parseArguments (arg_name : StringView) :
    List (Argument R) → OptionEntry.Unevaluated R → ArgParser → Run ε σ (OptionEntry.Unevaluated R × ArgParser)
  | [], u, parser => pure (u, parser)
  | a :: rest, u, parser => do
    let (parsed, argument, parser) ← a.doParse {} parser
    if parsed then
      parseArguments arg_name rest { u with arguments := u.arguments ++ [argument] } parser
    else if a.is_optional then
      parseArguments arg_name rest u parser
    else
      throw (.fail ("Missing argument ".toList ++ a.name ++ " of option ".toList ++ arg_name))

/-- `Option::Unevaluated::do_parse`. `remove_prefix(2)` needs two characters. -/
def OptionEntry.doParse (o : OptionEntry R) (u : OptionEntry.Unevaluated R) (parser : ArgParser) :
    Run ε σ (Bool × OptionEntry.Unevaluated R × ArgParser) := do
  let current ← currentToken parser
  let arg_name := current.drop 2
  if current.length < 2 then throw .undefined
  else if arg_name ≠ o.name then pure (false, u, parser)
  else
    let (u, parser) ← parseArguments arg_name o.arguments u parser.advance
    pure (true, { u with handle := some o.reflection }, parser)

/-- `(option.*Opts.parse)(parser) || ...`. -/
def parseAny :
    List (OptionEntry R) → OptionEntry.Unevaluated R → ArgParser → Run ε σ (Bool × OptionEntry.Unevaluated R × ArgParser)
  | [], u, parser => pure (false, u, parser)
  | o :: rest, u, parser => do
    let (found, u, parser) ← o.doParse u parser
    if found then pure (true, u, parser) else parseAny rest u parser

/-- The first loop of `parse_args`: positional arguments, up to the first that fails. -/
def parsePositional :
    List (Argument R) → List (Argument.Unevaluated R) → ArgParser →
      Run ε σ (List (Argument.Unevaluated R) × ArgParser)
  | [], parsed_args, parser => pure (parsed_args, parser)
  | arg :: rest, parsed_args, parser => do
    let (parsed, argument, parser) ← arg.doParse {} parser
    if parsed then parsePositional rest (parsed_args ++ [argument]) parser
    else pure (parsed_args, parser)

/-- One turn of the `while` loop. -/
def turn (spec : Spec R) (target : Target R V O ε σ) (parser : ArgParser)
    (parsed_opts : List (OptionEntry.Unevaluated R)) : Run ε σ (ArgParser × List (OptionEntry.Unevaluated R)) := do
  let (found, option, parser) ← parseAny spec.commands {} parser
  if found then
    -- run commands right away
    option.call target none
    pure (parser, parsed_opts)
  else
    let (found, option, parser) ← parseAny spec.options option parser
    if found then pure (parser, parsed_opts ++ [option])
    else
      let current ← currentToken parser
      throw (.fail ("Could not find option `".toList ++ current ++ "`".toList))

/-- The `while` loop. -/
def parseOptions (spec : Spec R) (target : Target R V O ε σ) :
    Nat → ArgParser → List (OptionEntry.Unevaluated R) → Run ε σ (ArgParser × List (OptionEntry.Unevaluated R))
  | 0, parser, parsed_opts => if parser.valid then throw .endless else pure (parser, parsed_opts)
  | fuel + 1, parser, parsed_opts =>
    if parser.valid then do
      let (parser, parsed_opts) ← turn spec target parser parsed_opts
      parseOptions spec target fuel parser parsed_opts
    else pure (parser, parsed_opts)

/-- What `parse_args` has parsed when its `while` loop ends. -/
structure Parsed (R : Type) where
  parser : ArgParser
  parsed_args : List (Argument.Unevaluated R)
  parsed_opts : List (OptionEntry.Unevaluated R)

/-- `parse_args`, up to the end of the `while` loop. -/
def parseLine (spec : Spec R) (target : Target R V O ε σ) (args_in : List StringView) : Run ε σ (Parsed R) := do
  let parser : ArgParser := { args := args_in }
  let program ← currentToken parser
  own (target.setName program)
  let (parsed_args, parser) ← parsePositional spec.arguments [] parser.advance
  let (parser, parsed_opts) ← parseOptions spec target args_in.length parser []
  pure ⟨parser, parsed_args, parsed_opts⟩

/-- The check of the positional arguments that were not given. -/
def requireOptional : List (Argument R) → Run ε σ Unit
  | [] => pure ()
  | arg :: rest =>
    if arg.is_optional then requireOptional rest
    else throw (.fail ("Missing required argument `".toList ++ arg.name ++ "`".toList))

/-- `run options`: every recorded option on the object. -/
def runOptions (target : Target R V O ε σ) (object : Option O) : List (OptionEntry.Unevaluated R) → Run ε σ Unit
  | [] => pure ()
  | option :: rest => do
    option.call target object
    runOptions target object rest

/-- `parse_args`. -/
def parseArgs (spec : Spec R) (target : Target R V O ε σ) (args_in : List StringView) : Run ε σ O := do
  let ⟨_, parsed_args, parsed_opts⟩ ← parseLine spec target args_in
  let args_tuple ← callAll target parsed_args fun _ => none
  requireOptional (spec.arguments.drop parsed_args.length)
  let object ← own (target.defaultConstruct args_tuple)
  runOptions target (some object) parsed_opts
  return object

end Erl.Config
