import Erl.Config.Delivery
import Erl.Lib.Contract

/-!
# A contract of `parse_args`

What `parse_args` (`_impl/config/args.hpp`) keeps, on any line of tokens, if the class's
code keeps its part. The class's functions and its construction may rely on this: the
tuple they get holds, at the place of an argument of theirs, a value that `parse_value`
and `validate` have let through for that argument.
-/

namespace Erl.Config
open Util Outcome

variable {R V O ε σ : Type}

/-- Every value in the tuple is one for an argument at its place. -/
def FilledBy (good : R → V → Prop) (arguments : List (Argument R)) (tuple : Nat → Option V) : Prop :=
  ∀ i v, tuple i = some v → ∃ a ∈ arguments, a.index = i ∧ good a.reflection v

/-- The ends that the class's code has not brought about are allowed in these states. -/
def AllowsOther (stop : Halt ε → σ → Prop) (I : σ → Prop) : Prop :=
  ∀ halt, (∀ reason, halt ≠ .stopped reason) → ∀ s, I s → stop halt s

/-- What holds until an object is constructed, or what holds of it from then on. -/
def Phase (before : σ → Prop) (after : O → σ → Prop) (I : σ → Prop) : Prop := I = before ∨ ∃ object, I = after object

/-- What the class's code keeps: `before` until an object is constructed, `after` from then
on. `good` are the values that pass `parse_value` and `validate` for a reflection. -/
structure Keeps (spec : Spec R) (target : Target R V O ε σ) (args_in : List StringView) (good : R → V → Prop)
    (before : σ → Prop) (after : O → σ → Prop) (stop : Halt ε → σ → Prop) : Prop where
  other : ∀ I, Phase before after I → AllowsOther stop I
  setName : ∀ program, Meets before (target.setName program) (fun e => stop (.stopped e)) fun _ => before
  parseValue : ∀ r, ∀ token ∈ args_in, ∀ I, Phase before after I →
    Meets I (target.parseValue r token) (fun e => stop (.stopped e)) fun v s => good r v ∧ I s
  command : ∀ o ∈ spec.commands, ∀ tuple, FilledBy good o.arguments tuple →
    Meets before (target.invoke o.reflection none tuple) (fun e => stop (.stopped e)) fun _ => before
  construct : ∀ tuple, FilledBy good spec.arguments tuple →
    Meets before (target.defaultConstruct tuple) (fun e => stop (.stopped e)) after
  option : ∀ o ∈ spec.options, ∀ object tuple, FilledBy good o.arguments tuple →
    Meets (after object) (target.invoke o.reflection (some object) tuple) (fun e => stop (.stopped e))
      fun _ => after object

/-- A record of a token of the line for one of the arguments, or one without a handler. -/
def OwnRecord (args_in : List StringView) (arguments : List (Argument R)) (u : Argument.Unevaluated R) : Prop :=
  u.handle = none ∨ ∃ a ∈ arguments, ∃ token ∈ args_in, u = record a token

/-- A record of an entry, with records of its arguments. -/
def OwnEntry (args_in : List StringView) (entries : List (OptionEntry R)) (u : OptionEntry.Unevaluated R) : Prop :=
  ∃ o ∈ entries, u.handle = some o.reflection ∧ ∀ x ∈ u.arguments, OwnRecord args_in o.arguments x

section
variable {args_in : List StringView} {I : σ → Prop} {stop : Halt ε → σ → Prop}

/-- A halt for another reason than the class's code. -/
theorem AllowsOther.throw {α : Type} {post : α → σ → Prop} (other : AllowsOther stop I) {halt : Halt ε}
    (ne : ∀ reason, halt ≠ .stopped reason) : Meets I (throw halt : Run ε σ α) stop post :=
  Meets.throw (other halt ne)

/-- A call leaves the state alone and records a token of the line. -/
theorem Argument.doParse_meets (other : AllowsOther stop I) (a : Argument R) (p : ArgParser) (line : p.args = args_in) :
    Meets I (a.doParse {} p : Run ε σ _) stop fun r s =>
      (r.1 = true → OwnRecord args_in [a] r.2.1) ∧ r.2.2.args = args_in ∧ I s := by
  rcases a.doParse_cases (ε := ε) (σ := σ) p with none | undefined | ⟨token, here, taken⟩
  · rw [none]
    exact Meets.pure fun s hs => ⟨fun h => absurd h Bool.false_ne_true, line, hs⟩
  · rw [undefined]
    exact other.throw fun _ h => by cases h
  · rw [taken]
    refine Meets.pure fun s hs => ⟨fun _ => ?_, line, hs⟩
    have listed : token ∈ args_in := line ▸ List.mem_of_getElem? here
    by_cases negative : LooksNegative token
    · rw [if_pos negative]
      exact .inl rfl
    · rw [if_neg negative]
      exact .inr ⟨a, List.mem_singleton_self a, token, listed, rfl⟩

theorem OwnRecord.mono {arguments arguments' : List (Argument R)} {u : Argument.Unevaluated R}
    (h : OwnRecord args_in arguments u) (sub : ∀ a ∈ arguments, a ∈ arguments') : OwnRecord args_in arguments' u :=
  h.imp_right fun ⟨a, mem, rest⟩ => ⟨a, sub a mem, rest⟩

theorem parsePositional_meets (other : AllowsOther stop I) (all : List (Argument R)) :
    ∀ (arguments : List (Argument R)) (parsed_args : List (Argument.Unevaluated R)) (p : ArgParser),
      (∀ a ∈ arguments, a ∈ all) → p.args = args_in → (∀ u ∈ parsed_args, OwnRecord args_in all u) →
      Meets I (parsePositional arguments parsed_args p : Run ε σ _) stop fun r s =>
        (∀ u ∈ r.1, OwnRecord args_in all u) ∧ r.2.args = args_in ∧ I s := by
  intro arguments
  induction arguments with
  | nil =>
    intro parsed_args p _ line own
    exact Meets.pure fun s hs => ⟨own, line, hs⟩
  | cons a rest ih =>
    intro parsed_args p sub line own
    refine (Argument.doParse_meets other a p line).bind ?_
    rintro ⟨parsed, argument, p'⟩
    refine Meets.of_pre (p := (parsed = true → OwnRecord args_in [a] argument) ∧ p'.args = args_in)
      (fun s hs => ⟨hs.1, hs.2.1⟩) ?_
    rintro ⟨taken, line'⟩
    cases parsed with
    | false => exact Meets.pure fun s hs => ⟨own, hs.2.1, hs.2.2⟩
    | true =>
      have mine : OwnRecord args_in all argument := by
        refine (taken rfl).mono fun b mem => ?_
        rw [List.mem_singleton.mp mem]
        exact sub a List.mem_cons_self
      have recorded := ih (parsed_args ++ [argument]) p' (fun b mem => sub b (List.mem_cons_of_mem _ mem)) line'
        (List.forall_mem_append.mpr ⟨own, List.forall_mem_singleton.mpr mine⟩)
      intro s hs
      exact recorded s hs.2.2

theorem parseArguments_meets (other : AllowsOther stop I) (name : StringView) (all : List (Argument R)) :
    ∀ (arguments : List (Argument R)) (u : OptionEntry.Unevaluated R) (p : ArgParser),
      (∀ a ∈ arguments, a ∈ all) → p.args = args_in → (∀ x ∈ u.arguments, OwnRecord args_in all x) →
      Meets I (parseArguments name arguments u p : Run ε σ _) stop fun r s =>
        (∀ x ∈ r.1.arguments, OwnRecord args_in all x) ∧ r.2.args = args_in ∧ I s := by
  intro arguments
  induction arguments with
  | nil =>
    intro u p _ line own
    exact Meets.pure fun s hs => ⟨own, line, hs⟩
  | cons a rest ih =>
    intro u p sub line own
    have rest_sub : ∀ b ∈ rest, b ∈ all := fun b mem => sub b (List.mem_cons_of_mem _ mem)
    refine (Argument.doParse_meets other a p line).bind ?_
    rintro ⟨parsed, argument, p'⟩
    refine Meets.of_pre (p := (parsed = true → OwnRecord args_in [a] argument) ∧ p'.args = args_in)
      (fun s hs => ⟨hs.1, hs.2.1⟩) ?_
    rintro ⟨taken, line'⟩
    cases parsed with
    | false =>
      by_cases optional : a.is_optional = true
      · simp only [Bool.false_eq_true, if_false, optional, if_true]
        intro s hs
        exact ih u p' rest_sub line' own s hs.2.2
      · simp only [Bool.false_eq_true, if_false, optional]
        refine Meets.throw fun s hs => other _ (fun _ h => ?_) s hs.2.2
        cases h
    | true =>
      have mine : OwnRecord args_in all argument := by
        refine (taken rfl).mono fun b mem => ?_
        rw [List.mem_singleton.mp mem]
        exact sub a List.mem_cons_self
      have recorded := ih { u with arguments := u.arguments ++ [argument] } p' rest_sub line'
        (List.forall_mem_append.mpr ⟨own, List.forall_mem_singleton.mpr mine⟩)
      intro s hs
      exact recorded s hs.2.2

/-- An entry's parser leaves the record alone, or fills it. -/
theorem OptionEntry.doParse_meets (other : AllowsOther stop I) (o : OptionEntry R) (u : OptionEntry.Unevaluated R)
    (p : ArgParser) (line : p.args = args_in) (blank : u.arguments = []) :
    Meets I (o.doParse u p : Run ε σ _) stop fun r s =>
      ((if r.1 then OwnEntry args_in [o] r.2.1 else r.2.1.arguments = []) ∧ r.2.2.args = args_in) ∧ I s := by
  unfold OptionEntry.doParse
  cases here : p.current with
  | none =>
    have read : (currentToken p : Run ε σ StringView) = throw .undefined := by
      unfold currentToken
      rw [here]
    rw [read]
    exact other.throw fun _ h => by cases h
  | some token =>
    rw [currentToken_of here, pure_bind]
    by_cases short : token.length < 2
    · simp only [if_pos short]
      exact other.throw fun _ h => by cases h
    · by_cases differs : token.drop 2 ≠ o.name
      · simp only [if_neg short, if_pos differs]
        exact Meets.pure fun s hs => ⟨⟨blank, line⟩, hs⟩
      · simp only [if_neg short, if_neg differs]
        refine (parseArguments_meets other (token.drop 2) o.arguments o.arguments u p.advance (fun _ mem => mem) line
          (by simp [blank])).bind ?_
        rintro ⟨u', p'⟩
        refine Meets.pure fun s hs => ⟨⟨⟨o, List.mem_singleton_self o, rfl, hs.1⟩, hs.2.1⟩, hs.2.2⟩

theorem OwnEntry.mono {entries entries' : List (OptionEntry R)} {u : OptionEntry.Unevaluated R}
    (h : OwnEntry args_in entries u) (sub : ∀ o ∈ entries, o ∈ entries') : OwnEntry args_in entries' u := by
  obtain ⟨o, mem, rest⟩ := h
  exact ⟨o, sub o mem, rest⟩

theorem parseAny_meets (other : AllowsOther stop I) :
    ∀ (entries : List (OptionEntry R)) (u : OptionEntry.Unevaluated R) (p : ArgParser),
      p.args = args_in → u.arguments = [] →
      Meets I (parseAny entries u p : Run ε σ _) stop fun r s =>
        ((if r.1 then OwnEntry args_in entries r.2.1 else r.2.1.arguments = []) ∧ r.2.2.args = args_in) ∧ I s := by
  intro entries
  induction entries with
  | nil =>
    intro u p line blank
    exact Meets.pure fun s hs => ⟨⟨blank, line⟩, hs⟩
  | cons o rest ih =>
    intro u p line blank
    refine (OptionEntry.doParse_meets other o u p line blank).bind ?_
    rintro ⟨found, u', p'⟩
    refine Meets.of_pre (fun s hs => hs.1) ?_
    rintro ⟨filled, line'⟩
    cases found with
    | true =>
      refine Meets.pure fun s hs => ⟨⟨?_, line'⟩, hs.2⟩
      refine OwnEntry.mono filled fun o' mem => ?_
      rw [List.mem_singleton.mp mem]
      exact List.mem_cons_self
    | false =>
      intro s hs
      refine ((ih u' p' line' filled).mono ?_) s hs.2
      rintro ⟨found, u'', p''⟩ s' ⟨⟨own, line''⟩, hs'⟩
      refine ⟨⟨?_, line''⟩, hs'⟩
      cases found with
      | true => exact OwnEntry.mono own fun o' mem => List.mem_cons_of_mem o mem
      | false => exact own

end

/-! ## What is executed -/

section
variable {spec : Spec R} {target : Target R V O ε σ} {args_in : List StringView} {good : R → V → Prop}
  {before : σ → Prop} {after : O → σ → Prop} {stop : Halt ε → σ → Prop}

theorem Meets.own {α : Type} {x : ExceptT ε (StateM σ) α} {pre : σ → Prop} {post : α → σ → Prop}
    (h : Meets pre x (fun e => stop (.stopped e)) post) : Meets pre (own x) stop post :=
  h.adapt Halt.stopped fun _ _ allowed => allowed

/-- The values of recorded arguments fill the tuple of these arguments. -/
theorem Keeps.callAll (k : Keeps spec target args_in good before after stop) {I : σ → Prop}
    (phase : Phase before after I) (arguments : List (Argument R)) :
    ∀ (us : List (Argument.Unevaluated R)) (tuple : Nat → Option V), (∀ u ∈ us, OwnRecord args_in arguments u) →
      FilledBy good arguments tuple →
      Meets I (callAll target us tuple) stop fun t s => FilledBy good arguments t ∧ I s := by
  intro us
  induction us with
  | nil =>
    intro tuple _ filled
    exact Meets.pure fun s hs => ⟨filled, hs⟩
  | cons u rest ih =>
    intro tuple own filled
    rw [Config.callAll]
    have others := fun u' mem => own u' (List.mem_cons_of_mem _ mem)
    rcases own u List.mem_cons_self with null | ⟨a, mem, token, listed, rfl⟩
    · have undefined : u.call target tuple = throw .undefined := by
        unfold Argument.Unevaluated.call
        rw [null]
      rw [undefined]
      exact (k.other _ phase).throw fun _ h => by cases h
    · rw [call_record, bind_assoc]
      refine (Meets.own (k.parseValue a.reflection token listed I phase)).bind fun value => ?_
      refine Meets.of_pre (p := good a.reflection value) (fun s hs => hs.1) fun fine => ?_
      rw [pure_bind]
      intro s hs
      refine ih _ others (fun i v stored => ?_) s hs.2
      split at stored
      · rename_i here
        cases stored
        exact ⟨a, mem, here.symm, fine⟩
      · exact filled i v stored

theorem FilledBy.empty (good : R → V → Prop) (arguments : List (Argument R)) :
    FilledBy good arguments fun _ => none := by
  intro i v stored
  cases stored

/-- A recorded command is run. -/
theorem Keeps.runCommand (k : Keeps spec target args_in good before after stop) {u : OptionEntry.Unevaluated R}
    (own : OwnEntry args_in spec.commands u) :
    Meets before (u.call target none) stop fun _ => before := by
  obtain ⟨o, mem, handle, records⟩ := own
  unfold OptionEntry.Unevaluated.call
  rw [handle]
  refine (k.callAll (.inl rfl) o.arguments u.arguments _ records (FilledBy.empty _ _)).bind fun tuple => ?_
  refine Meets.of_pre (p := FilledBy good o.arguments tuple) (fun s hs => hs.1) fun filled => ?_
  intro s hs
  exact Meets.own (k.command o mem tuple filled) s hs.2

/-- The recorded options are run on the object. -/
theorem Keeps.runOptions (k : Keeps spec target args_in good before after stop) (object : O) :
    ∀ us : List (OptionEntry.Unevaluated R), (∀ u ∈ us, OwnEntry args_in spec.options u) →
      Meets (after object) (runOptions target (some object) us) stop fun _ => after object := by
  intro us
  induction us with
  | nil => exact fun _ => Meets.pure fun s hs => hs
  | cons u rest ih =>
    intro own
    obtain ⟨o, mem, handle, records⟩ := own u List.mem_cons_self
    rw [Config.runOptions]
    refine Meets.bind (M := fun _ => after object) ?_ fun _ => ih fun u' mem' => own u' (List.mem_cons_of_mem _ mem')
    unfold OptionEntry.Unevaluated.call
    rw [handle]
    refine (k.callAll (.inr ⟨object, rfl⟩) o.arguments u.arguments _ records (FilledBy.empty _ _)).bind fun tuple => ?_
    refine Meets.of_pre (p := FilledBy good o.arguments tuple) (fun s hs => hs.1) fun filled => ?_
    intro s hs
    exact Meets.own (k.option o mem object tuple filled) s hs.2

/-- A turn runs a command or records an option. -/
theorem Keeps.turn (k : Keeps spec target args_in good before after stop) (p : ArgParser)
    (opts : List (OptionEntry.Unevaluated R)) (line : p.args = args_in)
    (own : ∀ u ∈ opts, OwnEntry args_in spec.options u) :
    Meets before (turn spec target p opts) stop fun r s =>
      (r.1.args = args_in ∧ ∀ u ∈ r.2, OwnEntry args_in spec.options u) ∧ before s := by
  unfold Config.turn
  refine (parseAny_meets (k.other _ (.inl rfl)) spec.commands {} p line rfl).bind ?_
  rintro ⟨found, option, p'⟩
  refine Meets.of_pre (fun s hs => hs.1) ?_
  rintro ⟨filled, line'⟩
  cases found with
  | true =>
    have command : Meets before (option.call target none) stop fun _ => before := k.runCommand filled
    refine Meets.bind (M := fun _ => before) (fun s hs => command s hs.2) fun _ => ?_
    exact Meets.pure fun s hs => ⟨⟨line', own⟩, hs⟩
  | false =>
    refine Meets.bind (fun s hs => parseAny_meets (k.other _ (.inl rfl)) spec.options option p' line' filled s hs.2) ?_
    rintro ⟨found, option', p''⟩
    refine Meets.of_pre (fun s hs => hs.1) ?_
    rintro ⟨filled', line''⟩
    cases found with
    | true =>
      refine Meets.pure fun s hs => ⟨⟨line'', ?_⟩, hs.2⟩
      exact List.forall_mem_append.mpr ⟨own, List.forall_mem_singleton.mpr filled'⟩
    | false =>
      cases here : p''.current with
      | none =>
        have read : (currentToken p'' : Run ε σ StringView) = throw .undefined := by
          unfold currentToken
          rw [here]
        simp only [Bool.false_eq_true, if_false, read]
        refine Meets.throw fun s hs => k.other _ (.inl rfl) _ (fun _ h => ?_) s hs.2
        cases h
      | some token =>
        simp only [Bool.false_eq_true, if_false, currentToken_of here, pure_bind]
        refine Meets.throw fun s hs => k.other _ (.inl rfl) _ (fun _ h => ?_) s hs.2
        cases h

theorem Keeps.parseOptions (k : Keeps spec target args_in good before after stop) :
    ∀ (fuel : Nat) (p : ArgParser) (opts : List (OptionEntry.Unevaluated R)), p.args = args_in →
      (∀ u ∈ opts, OwnEntry args_in spec.options u) →
      Meets before (parseOptions spec target fuel p opts) stop fun r s =>
        (∀ u ∈ r.2, OwnEntry args_in spec.options u) ∧ before s := by
  intro fuel
  induction fuel with
  | zero =>
    intro p opts _ own
    unfold Config.parseOptions
    cases p.valid with
    | true => exact (k.other _ (.inl rfl)).throw fun _ h => by cases h
    | false => exact Meets.pure fun s hs => ⟨own, hs⟩
  | succ fuel ih =>
    intro p opts line own
    unfold Config.parseOptions
    cases p.valid with
    | false => exact Meets.pure fun s hs => ⟨own, hs⟩
    | true =>
      simp only [if_true]
      refine (k.turn p opts line own).bind ?_
      rintro ⟨p', opts'⟩
      refine Meets.of_pre (fun s hs => hs.1) ?_
      rintro ⟨line', own'⟩
      intro s hs
      exact ih p' opts' line' own' s hs.2

theorem requireOptional_meets {I : σ → Prop} (other : AllowsOther stop I) : ∀ arguments : List (Argument R),
    Meets I (requireOptional arguments : Run ε σ Unit) stop fun _ => I := by
  intro arguments
  induction arguments with
  | nil => exact Meets.pure fun s hs => hs
  | cons a rest ih =>
    unfold requireOptional
    cases a.is_optional with
    | true => exact ih
    | false => exact other.throw fun _ h => by cases h

theorem Keeps.parseLine (k : Keeps spec target args_in good before after stop) :
    Meets before (parseLine spec target args_in) stop fun r s =>
      ((∀ u ∈ r.parsed_args, OwnRecord args_in spec.arguments u) ∧
        ∀ u ∈ r.parsed_opts, OwnEntry args_in spec.options u) ∧ before s := by
  unfold Config.parseLine
  cases here : ArgParser.current { args := args_in } with
  | none =>
    have read : (currentToken { args := args_in } : Run ε σ StringView) = throw .undefined := by
      unfold currentToken
      rw [here]
    simp only [read]
    exact (k.other _ (.inl rfl)).throw fun _ h => by cases h
  | some program =>
    simp only [currentToken_of here, pure_bind]
    refine (Meets.own (k.setName program)).bind fun _ => ?_
    refine (parsePositional_meets (k.other _ (.inl rfl)) spec.arguments spec.arguments []
      (ArgParser.advance { args := args_in }) (fun _ mem => mem) rfl (by simp)).bind ?_
    rintro ⟨parsed_args, p⟩
    refine Meets.of_pre (p := (∀ u ∈ parsed_args, OwnRecord args_in spec.arguments u) ∧ p.args = args_in)
      (fun s hs => ⟨hs.1, hs.2.1⟩) ?_
    rintro ⟨own, line⟩
    refine Meets.bind (fun s hs => k.parseOptions _ p [] line (by simp) s hs.2.2) ?_
    rintro ⟨p', opts⟩
    exact Meets.pure fun s hs => ⟨⟨own, hs.1⟩, hs.2⟩

/-- **The contract of `parse_args`.** If the class's code keeps its part on tuples that hold
values for their own arguments, an object is returned in a state with `after`, and the
program ends early only where `stop` allows it. -/
theorem Keeps.parseArgs (k : Keeps spec target args_in good before after stop) :
    Meets before (parseArgs spec target args_in) stop after := by
  unfold Config.parseArgs
  refine k.parseLine.bind ?_
  rintro ⟨parser, parsed_args, parsed_opts⟩
  refine Meets.of_pre (fun s hs => hs.1) ?_
  rintro ⟨records, entries⟩
  refine Meets.bind (fun s hs => k.callAll (.inl rfl) spec.arguments parsed_args _ records (FilledBy.empty _ _) s hs.2)
    fun tuple => ?_
  refine Meets.of_pre (p := FilledBy good spec.arguments tuple) (fun s hs => hs.1) fun filled => ?_
  refine Meets.bind (fun s hs => requireOptional_meets (k.other _ (.inl rfl)) _ s hs.2) fun _ => ?_
  refine (Meets.own (k.construct tuple filled)).bind fun object => ?_
  refine (k.runOptions object parsed_opts entries).bind fun _ => ?_
  exact Meets.pure fun s hs => hs

end

end Erl.Config
