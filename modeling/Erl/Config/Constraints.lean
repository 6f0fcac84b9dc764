import Erl.Config.Contract
import Erl.Config.Decimal
import Erl.Config.SpecParser
import Erl.Expect.Verbose

/-!
# Constraints of settings

A data member or parameter may be annotated with an expectation; `validate` evaluates it on
the value that was parsed and ends the program with a report if it fails
(`_impl/config/args.hpp`). `parse_args` for a settings class is the run of `Erl.Config.Args`
with this check, `default_construct` and the calls of the class's functions in place. An
object that it returns, or leaves behind on the way, satisfies the constraints of its members.
-/

namespace Erl.Config
open Util Outcome Expect

deriving instance DecidableEq for Parameter
deriving instance DecidableEq for MemberKind
deriving instance DecidableEq for Member

/-- An object of a settings class. A member without a value has the one of its default
initialiser. -/
structure Instance (τ V : Type) where
  bases : List (Object V)
  members : Member τ → Option V

/-- The ways in which the class's code ends the program. -/
inductive Ending (τ V : Type) where
  /-- `exit` with this status. -/
  | exited (status : Int)
  /-- `validate` has printed the failed terms and exits with status 1. -/
  | invalid (argument : Reflection τ) (value : V) (failed_terms : List (Option String))
  | construction (c : Construction)
  | undefined

/-- What comes with a settings class: its types and functions, and the expectations it is
annotated with. `ω` is the rest of the program's state. -/
structure Code (τ K V ω : Type) where
  setName : StringView → ω → ω
  /-- The integral types. -/
  integral : τ → Option Reflect.IntKind
  /-- The value of an integral type with this number. -/
  ofInt : τ → Int → V
  /-- `T{value}`. -/
  construct : τ → StringView → V
  domain : Domain K V
  printer : Printer K V
  rhsFirst : Order K
  /-- `get_annotation(R, ^^Expect)`, as it is written. -/
  constraint : Reflection τ → Option (Expr K)
  /-- A static member function; it may `exit`. -/
  function : Member τ → List V → ExceptT Int (StateM ω) Unit
  /-- A member function, with the object before and after. -/
  method : Member τ → List V → Instance τ V → ExceptT Int (StateM ω) (Instance τ V)

namespace Code
variable {τ K V ω : Type} (code : Code τ K V ω)

/-- `parse_value<T>`. -/
def parse (type : τ) (token : StringView) : V :=
  match code.integral type with
  | some k => code.ofInt type (parseInteger k token)
  | none => code.construct type token

/-- `validate`. -/
def validate (r : Reflection τ) (value : V) : Except (Ending τ V) Unit :=
  match code.constraint r with
  | none => pure ()
  | some e =>
    match e.expect.evalVerbose code.domain code.printer code.rhsFirst [value] [] with
    | none => throw .undefined
    | some (result, failed_terms) =>
      if code.domain.truth result then pure () else throw (.invalid r value failed_terms.reverse)

/-- `type_of`, where it is the type of a value. -/
def typeOf : Reflection τ → Option τ
  | .member m =>
    match m.kind with
    | .nonstaticData type _ => some type
    | _ => none
  | .parameter p => some p.type

/-- The first part of `do_handle`. -/
def parseValue (r : Reflection τ) (token : StringView) : Except (Ending τ V) V :=
  match typeOf r with
  | none => throw .undefined
  | some type => do
    let value := code.parse type token
    code.validate r value
    pure value

end Code

section
variable {τ K V ω : Type} [DecidableEq τ]

/-- The object that `default_construct` returns. -/
def Settings.instanceOf (s : Settings τ) : Object V → Instance τ V
  | .mk bases values => ⟨bases, fun m => values[(dataMembers s.members).idxOf m]?⟩

/-- The state of a run: the object, once it is constructed, is in `parse_args`' frame. -/
abbrev Frame (τ V ω : Type) := ω × Option (Instance τ V)

/-- The class's code beside the object. -/
def beside {α : Type} (x : ExceptT Int (StateM ω) α) : ExceptT (Ending τ V) (StateM (Frame τ V ω)) α :=
  ExceptT.mk fun f => let r := x.run.run f.1; (r.1.mapError .exited, r.2, f.2)

/-- A result of code that does not depend on the state. -/
def result {α : Type} (x : Except (Ending τ V) α) : ExceptT (Ending τ V) (StateM (Frame τ V ω)) α :=
  ExceptT.mk (pure x)

/-- Code on the object, which is there once it is constructed. -/
def onObject (object : Option Unit) (code : Instance τ V → ExceptT Int (StateM ω) (Instance τ V)) :
    ExceptT (Ending τ V) (StateM (Frame τ V ω)) Unit := do
  match (← get).2, object with
  | some inst, some () => do
    let inst ← beside (code inst)
    modify fun f => (f.1, some inst)
  | _, _ => throw .undefined

namespace Code
variable (code : Code τ K V ω) (s : Settings τ)

/-- `do_handle` of an option, on its filled tuple. -/
def invoke (r : Reflection τ) (object : Option Unit) (tuple : Nat → Option V) :
    ExceptT (Ending τ V) (StateM (Frame τ V ω)) Unit :=
  match r with
  | .parameter _ => throw .undefined
  | .member m =>
    match m.kind with
    | .other => throw .undefined
    -- the argument's handler stores in a tuple of the class, the option's has made one of the member's type
    | .nonstaticData _ _ => throw .undefined
    | .function is_static parameters _ =>
      match defaultInvoke parameters pure (parameters.mapIdx fun i _ => .value (tuple i)) with
      | .error c => throw (.construction c)
      | .ok values => if is_static then beside (code.function m values) else onObject object (code.method m values)

/-- The class as `parse_args` sees it. -/
def target : Target (Reflection τ) V Unit (Ending τ V) (Frame τ V ω) where
  setName program := modify fun f => (code.setName program f.1, f.2)
  parseValue r token := result (code.parseValue r token)
  invoke := code.invoke
  defaultConstruct tuple :=
    match defaultConstruct s.toClass (argumentTuple s.toClass tuple) with
    | .error c => throw (.construction c)
    | .ok object => modify fun f => (f.1, some (s.instanceOf object))

end Code

/-- `CLI::help`. -/
def helpMember : Member τ := ⟨"help".toList, true, .function true [] .nil, [.option]⟩

/-- The `Spec` of a class; `parse_base` adds the command of `CLI`, if it is a base. -/
def SpecParser.spec (p : SpecParser τ) (cli : Bool) : Spec (Reflection τ) where
  arguments := p.arguments
  commands := p.commands ++ if cli then [.ofMember helpMember] else []
  options := p.options

end

/-! ## What constraints ask -/

namespace Code
variable {τ K V ω : Type} (code : Code τ K V ω)

/-- The expectation holds of the value, if there is one. -/
def Satisfies (r : Reflection τ) (value : V) : Prop :=
  ∀ e, code.constraint r = some e →
    ∃ truth, e.expect.eval code.domain [value] = some truth ∧ code.domain.truth truth = true

/-- The expectation fails, and these are its false nodes, the outermost first. -/
def Violates (r : Reflection τ) (value : V) (failed_terms : List (Option String)) : Prop :=
  ∃ e truth, code.constraint r = some e ∧ e.expect.eval code.domain [value] = some truth ∧
    code.domain.truth truth = false ∧
    failed_terms = ((e.expect.falseNodes code.domain code.rhsFirst [value]).map
      (Expr.toText code.printer [value])).reverse

/-- Every member that has been given a value satisfies its constraint. -/
def Sound (s : Settings τ) (object : Instance τ V) : Prop :=
  ∀ m ∈ dataMembers s.members, ∀ value, object.members m = some value → code.Satisfies (.member m) value

/-- Each value satisfies the constraint of its parameter. -/
def Admissible (parameters : List (Parameter τ)) (values : List V) : Prop :=
  ∀ (i : Nat) (value : V), values[i]? = some value →
    ∃ parameter, parameters[i]? = some parameter ∧ code.Satisfies (.parameter parameter) value

/-- The member functions that are options keep the constraints of the members, if their own
arguments satisfy theirs. -/
def MethodsKeep (s : Settings τ) : Prop :=
  ∀ m ∈ s.members, ∀ parameters trailing, m.kind = .function false parameters trailing →
    ∀ values, code.Admissible parameters values → ∀ object, code.Sound s object →
      Meets (fun _ => True) (code.method m values object) (fun _ _ => True) fun object' _ => code.Sound s object'

/-- What `validate` does with a value. -/
theorem validate_cases (r : Reflection τ) (value : V) :
    (code.validate r value = .ok () ∧ code.Satisfies r value) ∨ code.validate r value = .error .undefined ∨
      ∃ failed_terms, code.validate r value = .error (.invalid r value failed_terms) ∧
        code.Violates r value failed_terms := by
  unfold validate
  cases annotated : code.constraint r with
  | none =>
    left
    refine ⟨rfl, fun e same => ?_⟩
    cases annotated.symm.trans same
  | some e =>
    simp only [evalVerbose_eq]
    cases defined : e.expect.eval code.domain [value] with
    | none => exact .inr (.inl rfl)
    | some truth =>
      simp only [Option.map_some]
      cases holds : code.domain.truth truth with
      | true =>
        left
        refine ⟨rfl, fun e' same => ?_⟩
        cases annotated.symm.trans same
        exact ⟨truth, defined, holds⟩
      | false =>
        right
        right
        exact ⟨_, rfl, e, truth, annotated, defined, holds, by rw [List.nil_append]⟩

/-- What `parse_value` and `validate` make of a token. -/
theorem parseValue_cases (r : Reflection τ) (token : StringView) :
    (∃ value, code.parseValue r token = .ok value ∧ code.Satisfies r value) ∨
      code.parseValue r token = .error .undefined ∨
      ∃ type failed_terms, typeOf r = some type ∧
        code.parseValue r token = .error (.invalid r (code.parse type token) failed_terms) ∧
        code.Violates r (code.parse type token) failed_terms := by
  unfold parseValue
  cases typed : typeOf r with
  | none => exact .inr (.inl rfl)
  | some type =>
    rcases code.validate_cases r (code.parse type token) with ⟨valid, holds⟩ | undefined | ⟨terms, invalid, fails⟩
    · left
      refine ⟨_, ?_, holds⟩
      simp only [valid]
      rfl
    · right
      left
      simp only [undefined]
      rfl
    · right
      right
      refine ⟨type, terms, rfl, ?_, fails⟩
      simp only [invalid]
      rfl

end Code

/-! ## Where the values of an object come from -/

section
variable {V α : Type}

theorem mapM_ok {ε β : Type} {f : α → Except ε β} : ∀ {as : List α} {bs : List β}, as.mapM f = .ok bs →
    ∀ (j : Nat) (b : β), bs[j]? = some b → ∃ a, as[j]? = some a ∧ f a = .ok b := by
  intro as
  induction as with
  | nil =>
    intro bs h j b found
    cases h
    cases found
  | cons a as ih =>
    intro bs h j b found
    rw [List.mapM_cons] at h
    cases first : f a with
    | error e =>
      rw [first] at h
      cases h
    | ok b' =>
      cases rest : as.mapM f with
      | error e =>
        rw [first, rest] at h
        cases h
      | ok bs' =>
        rw [first, rest] at h
        cases h
        cases j with
        | zero =>
          cases found
          exact ⟨a, rfl, first⟩
        | succ j => exact ih rest j b found

/-- `visit` hands the visitor a row of indices, if it comes to a result. -/
theorem visit_ok {bases required : Nat} {args : List (Slot V)} {visitor : List Nat → Except Construction α}
    {result : α} (h : visit bases required args visitor = .ok result) : ∃ n, visitor (List.range n) = .ok result := by
  simp only [visit] at h
  split at h
  · cases h
  · split at h
    · exact ⟨_, h⟩
    · unfold visitStrategy at h
      split at h
      · unfold generateCase at h
        split at h
        · exact ⟨_, h⟩
        · cases h
      · cases h

theorem deref_ok {args : List (Slot V)} {i : Nat} {value : V} (h : deref args i = .ok value) :
    args[i]? = some (.value (some value)) := by
  unfold deref at h
  cases here : args[i]? with
  | none =>
    rw [here] at h
    cases h
  | some slot =>
    rw [here] at h
    cases slot with
    | base tuple => cases h
    | value v =>
      cases v with
      | none => cases h
      | some v =>
        cases h
        rfl

/-- The value that a member is initialised with was at its place in the tuple. -/
theorem stored_of_defaultConstruct {τ : Type} {bases : List (Class τ)} {members : List (Member τ)}
    {tuple : Nat → Option V} {objects : List (Object V)} {values : List V}
    (h : defaultConstruct (.mk bases members) (argumentTuple (.mk bases members) tuple) = .ok (.mk objects values))
    {j : Nat} {value : V} (found : values[j]? = some value) : tuple (bases.length + j) = some value := by
  rw [defaultConstruct] at h
  obtain ⟨n, visited⟩ := visit_ok h
  cases built : constructBases bases (argumentTuple (.mk bases members) tuple) with
  | error e =>
    rw [built] at visited
    cases visited
  | ok objects' =>
    cases read : (List.range n).mapM fun i => deref (argumentTuple (.mk bases members) tuple) (bases.length + i) with
    | error e =>
      rw [built, read] at visited
      cases visited
    | ok values' =>
      rw [built, read] at visited
      cases visited
      obtain ⟨i, index, here⟩ := mapM_ok read j value found
      obtain ⟨bound, rfl⟩ := List.getElem?_eq_some_iff.mp index
      have slot := deref_ok here
      rw [List.getElem_range, argumentTuple, List.getElem?_mapIdx, Option.map_eq_some_iff] at slot
      obtain ⟨element, -, same⟩ := slot
      cases element with
      | base c => cases same
      | member m => exact (Slot.value.inj same)

/-- The values that a function is called with were in the tuple. -/
theorem stored_of_defaultInvoke {τ : Type} {parameters : List (Parameter τ)} {tuple : Nat → Option V} {values : List V}
    (h : defaultInvoke parameters pure (parameters.mapIdx fun i _ => .value (tuple i)) = .ok values) {i : Nat}
    {value : V} (found : values[i]? = some value) : i < parameters.length ∧ tuple i = some value := by
  obtain ⟨n, visited⟩ := visit_ok h
  cases read : (List.range n).mapM (deref (parameters.mapIdx fun i _ => .value (tuple i))) with
  | error e =>
    rw [read] at visited
    cases visited
  | ok values' =>
    rw [read] at visited
    cases visited
    obtain ⟨j, index, here⟩ := mapM_ok read i value found
    obtain ⟨bound, rfl⟩ := List.getElem?_eq_some_iff.mp index
    have slot := deref_ok here
    rw [List.getElem_range, List.getElem?_mapIdx, Option.map_eq_some_iff] at slot
    obtain ⟨parameter, inside, same⟩ := slot
    exact ⟨(List.getElem?_eq_some_iff.mp inside).1, Slot.value.inj same⟩

end

section
variable {τ : Type}

namespace SpecParser
variable {handles : τ → Bool} {base_offset : Nat} {p q : SpecParser τ} {m : Member τ}

/-- A static function adds itself to the commands, and another member to the options, or nothing. -/
theorem parseMember_entries (h : parseMember handles base_offset p m = .ok q) :
    (∀ o ∈ q.commands, o ∈ p.commands ∨ o = .ofMember m ∧ m.isStaticFunction = true) ∧
      ∀ o ∈ q.options, o ∈ p.options ∨ o = .ofMember m ∧ m.isStaticFunction = false := by
  unfold parseMember at h
  split at h
  · cases h
    exact ⟨fun o mem => .inl mem, fun o mem => .inl mem⟩
  · split at h
    · rename_i p' argument
      cases h
      rw [parseArgument_eq] at argument
      split at argument
      · cases argument
        exact ⟨fun o mem => .inl mem, fun o mem => .inl mem⟩
      · cases argument
    · split at h
      · rename_i p' command
        cases h
        unfold parseCommand at command
        split at command
        · rename_i static
          cases command
          refine ⟨fun o mem => ?_, fun o mem => .inl mem⟩
          rcases List.mem_append.mp mem with old | new
          · exact .inl old
          · simp only [Bool.and_eq_true] at static
            exact .inr ⟨List.mem_singleton.mp new, static.1.2⟩
        · cases command
      · cases option : p.parseOption handles m with
        | error e =>
          rw [option] at h
          cases h
        | ok parsed =>
          rw [option] at h
          cases h
          rcases parseOption_cases option with rfl | ⟨rfl, other⟩
          · exact ⟨fun o mem => .inl mem, fun o mem => .inl mem⟩
          · refine ⟨fun o mem => .inl mem, fun o mem => ?_⟩
            rcases List.mem_append.mp mem with old | new
            · exact .inl old
            · exact .inr ⟨List.mem_singleton.mp new, other⟩

theorem foldlM_entries {members : List (Member τ)} (h : members.foldlM (parseMember handles base_offset) p = .ok q) :
    (∀ o ∈ q.commands, o ∈ p.commands ∨ ∃ m ∈ members, o = .ofMember m ∧ m.isStaticFunction = true) ∧
      ∀ o ∈ q.options, o ∈ p.options ∨ ∃ m ∈ members, o = .ofMember m ∧ m.isStaticFunction = false := by
  induction members generalizing p with
  | nil =>
    cases h
    exact ⟨fun o mem => .inl mem, fun o mem => .inl mem⟩
  | cons m members ih =>
    rw [List.foldlM_cons] at h
    cases one : parseMember handles base_offset p m with
    | error e =>
      rw [one] at h
      cases h
    | ok p' =>
      rw [one] at h
      obtain ⟨commands, options⟩ := parseMember_entries one
      refine ⟨fun o mem => ?_, fun o mem => ?_⟩
      · rcases (ih h).1 o mem with old | ⟨m', later, same⟩
        · exact (commands o old).imp_right fun new => ⟨m, List.mem_cons_self, new⟩
        · exact .inr ⟨m', List.mem_cons_of_mem _ later, same⟩
      · rcases (ih h).2 o mem with old | ⟨m', later, same⟩
        · exact (options o old).imp_right fun new => ⟨m, List.mem_cons_self, new⟩
        · exact .inr ⟨m', List.mem_cons_of_mem _ later, same⟩

/-- The commands are for static functions of the class, the options for other members. -/
theorem parse_entries {s : Settings τ} (h : parse handles s.toClass = .ok p) :
    (∀ o ∈ p.commands, ∃ m ∈ s.members, o = .ofMember m ∧ m.isStaticFunction = true) ∧
      ∀ o ∈ p.options, ∃ m ∈ s.members, o = .ofMember m ∧ m.isStaticFunction = false := by
  obtain ⟨commands, options⟩ := foldlM_entries h
  exact ⟨fun o mem => (commands o mem).resolve_left List.not_mem_nil,
    fun o mem => (options o mem).resolve_left List.not_mem_nil⟩

end SpecParser

end

/-! ## The class's part of the contract -/

section
variable {τ K V ω : Type} [DecidableEq τ]

omit [DecidableEq τ] in
theorem result_meets {α : Type} {I : Frame τ V ω → Prop} {x : Except (Ending τ V) α}
    {stop : Ending τ V → Frame τ V ω → Prop} {post : α → Frame τ V ω → Prop} (ok : ∀ a f, x = .ok a → I f → post a f)
    (error : ∀ e f, x = .error e → I f → stop e f) : Meets I (result x) stop post := by
  intro f hf
  cases x with
  | ok a => exact ok a f rfl hf
  | error e => exact error e f rfl hf

omit [DecidableEq τ] in
/-- Code beside the object leaves it as it is. -/
theorem beside_meets {α : Type} {J : Option (Instance τ V) → Prop} {x : ExceptT Int (StateM ω) α} {post : α → Prop}
    (h : Meets (fun _ => True) x (fun _ _ => True) fun a _ => post a) :
    Meets (fun f : Frame τ V ω => J f.2) (beside x) (fun e f => (∃ status, e = .exited status) ∧ J f.2)
      fun a f => post a ∧ J f.2 := by
  intro f hf
  have hx := h f.1 trivial
  have run : (beside x : ExceptT (Ending τ V) (StateM (Frame τ V ω)) α).run.run f =
      ((x.run.run f.1).1.mapError .exited, (x.run.run f.1).2, f.2) := rfl
  rw [run]
  cases ran : x.run.run f.1 with
  | mk r world =>
    rw [ran] at hx
    cases r with
    | ok a => exact ⟨hx, hf⟩
    | error status => exact ⟨⟨status, rfl⟩, hf⟩

namespace Code
variable (code : Code τ K V ω) (s : Settings τ) (args_in : List StringView)

/-- How a run may end early: an object there may be is sound, and a report is true. -/
def Fair : Halt (Ending τ V) → Frame τ V ω → Prop := fun halt f =>
  (∀ object, f.2 = some object → code.Sound s object) ∧
  ∀ argument value failed_terms, halt = .stopped (.invalid argument value failed_terms) →
    (∃ type token, typeOf argument = some type ∧ token ∈ args_in ∧ value = code.parse type token) ∧
      code.Violates argument value failed_terms

/-- The state once there is a sound object. -/
def Built : Unit → Frame τ V ω → Prop := fun _ f => ∃ object, f.2 = some object ∧ code.Sound s object

variable {code s args_in}

omit [DecidableEq τ] in
theorem sound_of_phase {I : Frame τ V ω → Prop} (phase : Phase (fun f => f.2 = none) (code.Built s) I)
    {f : Frame τ V ω} (hf : I f) : ∀ object, f.2 = some object → code.Sound s object := by
  intro object here
  rcases phase with rfl | ⟨⟨⟩, rfl⟩
  · cases hf.symm.trans here
  · obtain ⟨object', same, sound⟩ := hf
    cases same.symm.trans here
    exact sound

omit [DecidableEq τ] in
/-- Other ends than a report ask for the object only. -/
theorem fair_of_phase {I : Frame τ V ω → Prop} (phase : Phase (fun f => f.2 = none) (code.Built s) I)
    {halt : Halt (Ending τ V)} (other : ∀ argument value terms, halt ≠ .stopped (.invalid argument value terms))
    (f : Frame τ V ω) (hf : I f) : code.Fair s args_in halt f :=
  ⟨sound_of_phase phase hf, fun argument value terms same => absurd same (other argument value terms)⟩

/-- An object is constructed from values for its own members. -/
theorem sound_instanceOf {handles : τ → Bool} {p : SpecParser τ} (h : SpecParser.parse handles s.toClass = .ok p) (first : s.PlainFirst)
    {tuple : Nat → Option V} (filled : FilledBy code.Satisfies p.arguments tuple) {object : Object V}
    (constructed : defaultConstruct s.toClass (argumentTuple s.toClass tuple) = .ok object) :
    code.Sound s (s.instanceOf object) := by
  obtain ⟨objects, values⟩ := object
  intro m listed value found
  have stored : tuple (s.bases.length + (dataMembers s.members).idxOf m) = some value :=
    stored_of_defaultConstruct constructed found
  obtain ⟨a, argument, index, fine⟩ := filled _ _ stored
  obtain ⟨m', own⟩ : ∃ m', a.reflection = .member m' := by
    rw [s.arguments_eq h] at argument
    obtain ⟨x, -, rfl⟩ := List.mem_map.mp argument
    exact ⟨x.1, rfl⟩
  -- the place in the tuple is the place of the argument's own member
  have element := first.elements h argument own
  rw [index, tupleElements_member, List.getElem?_eq_getElem (List.idxOf_lt_length_of_mem listed),
    List.getElem_idxOf] at element
  cases element
  rwa [own] at fine

omit [DecidableEq τ] in
/-- The values of an option's parameters are for these parameters. -/
theorem admissible_of_filled {m : Member τ} {is_static : Bool} {parameters : List (Parameter τ)}
    {trailing : parameters.Pairwise fun a b => a.has_default → b.has_default}
    (kind : m.kind = .function is_static parameters trailing) {tuple : Nat → Option V}
    (filled : FilledBy code.Satisfies (optionArguments m) tuple) {values : List V}
    (invoked : defaultInvoke parameters pure (parameters.mapIdx fun i _ => .value (tuple i)) = .ok values) :
    code.Admissible parameters values := by
  intro i value found
  obtain ⟨inside, stored⟩ := stored_of_defaultInvoke invoked found
  obtain ⟨a, argument, index, fine⟩ := filled _ _ stored
  rw [optionArguments_function kind, List.mem_mapIdx] at argument
  obtain ⟨j, bound, rfl⟩ := argument
  cases index
  exact ⟨parameters[j], List.getElem?_eq_getElem inside, fine⟩

omit [DecidableEq τ] in
/-- Code that keeps objects sound keeps the one that is there so. -/
theorem onObject_meets {x : Instance τ V → ExceptT Int (StateM ω) (Instance τ V)}
    (keeps : ∀ object, code.Sound s object →
      Meets (fun _ => True) (x object) (fun _ _ => True) fun object' _ => code.Sound s object') :
    Meets (code.Built s ()) (onObject (some ()) x) (fun e => code.Fair s args_in (.stopped e))
      fun _ => code.Built s () := by
  unfold onObject
  refine Meets.bind (M := fun f f' => f = f' ∧ code.Built s () f') (Meets.get fun f built => ⟨rfl, built⟩) fun f => ?_
  refine Meets.of_pre (p := code.Built s () f) (fun f' hf => hf.1 ▸ hf.2) ?_
  rintro ⟨object, here, sound⟩
  simp only [here]
  refine Meets.bind (M := fun object' f' => code.Sound s object' ∧ code.Built s () f') ?_ fun object' => ?_
  · refine (beside_meets (J := fun inst => ∃ object, inst = some object ∧ code.Sound s object)
      (keeps object sound)).consequence (fun f' hf => hf.2) ?_ fun _ _ h => h
    rintro e f' ⟨⟨status, rfl⟩, built⟩
    exact fair_of_phase (.inr ⟨(), rfl⟩) (fun _ _ _ h => by cases h) f' built
  · exact Meets.modify fun f' hf => ⟨object', rfl, hf.1⟩

omit [DecidableEq τ] in
/-- An option that is run keeps the object sound. -/
theorem invoke_meets (methods : code.MethodsKeep s) {m : Member τ} (mem : m ∈ s.members) {tuple : Nat → Option V}
    (filled : FilledBy code.Satisfies (optionArguments m) tuple) :
    Meets (code.Built s ()) (code.invoke (.member m) (some ()) tuple) (fun e => code.Fair s args_in (.stopped e))
      fun _ => code.Built s () := by
  simp only [invoke]
  cases kind : m.kind with
  | other =>
    refine Meets.throw (fair_of_phase (.inr ⟨(), rfl⟩) fun _ _ _ h => ?_)
    cases h
  | nonstaticData type has_initializer =>
    refine Meets.throw (fair_of_phase (.inr ⟨(), rfl⟩) fun _ _ _ h => ?_)
    cases h
  | function is_static parameters trailing =>
    simp only
    cases invoked : defaultInvoke parameters pure (parameters.mapIdx fun i _ => .value (tuple i)) with
    | error c =>
      refine Meets.throw (fair_of_phase (.inr ⟨(), rfl⟩) fun _ _ _ h => ?_)
      cases h
    | ok values =>
      have admissible := admissible_of_filled kind filled invoked
      cases is_static with
      | true =>
        refine (beside_meets (J := fun inst => ∃ object, inst = some object ∧ code.Sound s object)
          (Meets.any (code.function m values))).consequence (fun f hf => hf) ?_ fun _ _ h => h.2
        rintro e f ⟨⟨status, rfl⟩, built⟩
        exact fair_of_phase (.inr ⟨(), rfl⟩) (fun _ _ _ h => by cases h) f built
      | false => exact onObject_meets fun object => methods m mem parameters trailing kind values admissible object

omit [DecidableEq τ] in
/-- A command finds no object, and leaves none. -/
theorem command_meets (m : Member τ) (tuple : Nat → Option V) :
    Meets (fun f => f.2 = none) (code.invoke (.member m) none tuple) (fun e => code.Fair s args_in (.stopped e))
      fun _ f => f.2 = none := by
  have nothing : ∀ x : Instance τ V → ExceptT Int (StateM ω) (Instance τ V),
      Meets (fun f => f.2 = none) (onObject none x) (fun e => code.Fair s args_in (.stopped e))
        fun _ f => f.2 = none := by
    intro x
    unfold onObject
    refine Meets.bind (M := fun _ f => f.2 = none) (Meets.get fun f hf => hf) fun f => ?_
    cases f.2 <;> exact Meets.throw (fair_of_phase (.inl rfl) fun _ _ _ h => by cases h)
  simp only [invoke]
  cases kind : m.kind with
  | other =>
    refine Meets.throw (fair_of_phase (.inl rfl) fun _ _ _ h => ?_)
    cases h
  | nonstaticData type has_initializer =>
    refine Meets.throw (fair_of_phase (.inl rfl) fun _ _ _ h => ?_)
    cases h
  | function is_static parameters trailing =>
    simp only
    cases invoked : defaultInvoke parameters pure (parameters.mapIdx fun i _ => .value (tuple i)) with
    | error c =>
      refine Meets.throw (fair_of_phase (.inl rfl) fun _ _ _ h => ?_)
      cases h
    | ok values =>
      cases is_static with
      | true =>
        refine (beside_meets (J := fun inst => inst = none) (Meets.any (code.function m values))).consequence
          (fun f hf => hf) ?_ fun _ _ h => h.2
        rintro e f ⟨⟨status, rfl⟩, empty⟩
        exact fair_of_phase (.inl rfl) (fun _ _ _ h => by cases h) f empty
      | false => exact nothing _

/-- The class keeps its part of the contract. -/
theorem keeps {handles : τ → Bool} {p : SpecParser τ} (h : SpecParser.parse handles s.toClass = .ok p) (first : s.PlainFirst)
    (methods : code.MethodsKeep s) (cli : Bool) (args_in : List StringView) :
    Keeps (p.spec cli) (code.target s) args_in code.Satisfies (fun f => f.2 = none) (code.Built s)
      (code.Fair s args_in) where
  other I phase halt ne f hf := fair_of_phase phase (fun _ _ _ same => ne _ same) f hf
  setName program := Meets.modify fun f hf => hf
  parseValue r token listed I phase := by
    refine result_meets (fun value f ok hf => ?_) fun e f error hf => ?_
    · rcases code.parseValue_cases r token with ⟨value', same, fine⟩ | undefined | ⟨_, _, _, invalid, _⟩
      · cases same.symm.trans ok
        exact ⟨fine, hf⟩
      · cases undefined.symm.trans ok
      · cases invalid.symm.trans ok
    · rcases code.parseValue_cases r token with ⟨_, ok, _⟩ | undefined | ⟨type, terms, typed, invalid, fails⟩
      · cases ok.symm.trans error
      · cases undefined.symm.trans error
        exact fair_of_phase phase (fun _ _ _ same => by cases same) f hf
      · cases invalid.symm.trans error
        refine ⟨sound_of_phase phase hf, fun argument value terms' same => ?_⟩
        cases same
        exact ⟨⟨type, token, typed, listed, rfl⟩, fails⟩
  command o mem tuple _ := by
    obtain ⟨m, rfl⟩ : ∃ m, o = .ofMember m := by
      rcases List.mem_append.mp mem with own | base
      · obtain ⟨m, -, same, -⟩ := (SpecParser.parse_entries h).1 o own
        exact ⟨m, same⟩
      · cases cli with
        | true => exact ⟨helpMember, List.mem_singleton.mp base⟩
        | false => cases base
    exact command_meets m tuple
  construct tuple filled := by
    simp only [target]
    cases constructed : defaultConstruct s.toClass (argumentTuple s.toClass tuple) with
    | error c => exact Meets.throw (fair_of_phase (.inl rfl) fun _ _ _ same => by cases same)
    | ok object => exact Meets.modify fun f _ => ⟨_, rfl, sound_instanceOf h first filled constructed⟩
  option o mem object tuple filled := by
    obtain ⟨m, listed, rfl, -⟩ := (SpecParser.parse_entries h).2 o mem
    exact invoke_meets methods listed filled

end Code

/-- **Constraints.** For every settings class whose annotated data members stand behind its
plain ones, with member functions that keep the constraints, and every line of tokens: at
no end of a run of `parse_args` is there an object with a member that violates its
constraint, where the run returns there is an object, and where it ends with a report, a
token of the line was parsed to a value that fails the constraint in just the way reported. -/
theorem constraints_hold (handles : τ → Bool) (s : Settings τ) (p : SpecParser τ) (h : SpecParser.parse handles s.toClass = .ok p)
    (first : s.PlainFirst) (code : Code τ K V ω) (methods : code.MethodsKeep s) (cli : Bool) (args_in : List StringView)
    (world : ω) :
    let r := (parseArgs (p.spec cli) (code.target s) args_in).run.run (world, none)
    (∀ object, r.2.2 = some object → code.Sound s object) ∧
    (r.1 = .ok () → ∃ object, r.2.2 = some object) ∧
    ∀ argument value failed_terms, r.1 = .error (.stopped (.invalid argument value failed_terms)) →
      (∃ type token, Code.typeOf argument = some type ∧ token ∈ args_in ∧ value = code.parse type token) ∧
        code.Violates argument value failed_terms := by
  have ends := (Code.keeps h first methods cli args_in).parseArgs (world, none) rfl
  cases ran : (parseArgs (p.spec cli) (code.target s) args_in).run.run (world, none) with
  | mk outcome f =>
    rw [ran] at ends
    cases outcome with
    | ok a =>
      obtain ⟨object, here, sound⟩ := ends
      refine ⟨fun object' same => ?_, fun _ => ⟨object, here⟩, fun _ _ _ same => by cases same⟩
      cases here.symm.trans same
      exact sound
    | error halt =>
      refine ⟨ends.1, fun same => (by cases same), fun argument value terms same => ?_⟩
      cases same
      exact ends.2 argument value terms rfl

end

def timesMember : Member String := ⟨"times".toList, true, .nonstaticData "int" true, []⟩

def verbosityMember : Member String :=
  ⟨"verbosity".toList, true, .function false [⟨"level".toList, "unsigned", false⟩] (List.pairwise_singleton ..),
    [.option]⟩

/-- `[[=expect(2 < value < 17)]] int times = 5;` and the option
`void verbosity([[=expect(value < 5)]] unsigned level)`. -/
def timesFirst : Settings String where
  bases := []
  members := [timesMember, verbosityMember]
  named := by simp [timesMember, verbosityMember]
  distinct := by decide

/-- `verbosity` sets the program's state. -/
def timesCode : Code String Int Int Int where
  setName _ world := world
  integral type := some (if type = "int" then .signed .w32 else .unsigned .w32)
  ofInt _ i := i
  construct _ _ := 0
  domain := intDomain
  printer := intPrinter
  rhsFirst _ := true
  constraint
    | .member _ => some (.binaryExpr .less (.binaryExpr .less (.constant 2) (.placeholder 0)) (.constant 17))
    | .parameter _ => some (.binaryExpr .less (.placeholder 0) (.constant 5))
  function _ _ := pure ()
  method _ values object := do
    set (values.headD 0)
    pure object

def timesParser : SpecParser String where
  arguments := [.ofMember 0 timesMember]
  options := [.ofMember verbosityMember]

/-- `prog 7 --verbosity 3` gives an object, `prog 20` a report. -/
theorem constraints_hold_times : ∃ object,
    ((parseArgs (timesParser.spec false) (timesCode.target timesFirst)
      (["prog", "7", "--verbosity", "3"].map String.toList)).run.run (0, none)).2 = (3, some object) ∧
    timesCode.Sound timesFirst object ∧ object.members timesMember = some 7 ∧
    timesCode.Violates (.member timesMember) 20 [some "((2 < 20) && (20 < 17))", some "(20 < 17)"] := by
  have methods : timesCode.MethodsKeep timesFirst := fun _ _ _ _ _ _ _ _ sound _ _ => sound
  have first : timesFirst.PlainFirst := by
    unfold Settings.PlainFirst
    decide
  have report : ((parseArgs (timesParser.spec false) (timesCode.target timesFirst)
      (["prog", "20"].map String.toList)).run.run (0, none)).1 = .error (.stopped
        (.invalid (.member timesMember) 20 [some "((2 < 20) && (20 < 17))", some "(20 < 17)"])) := by rfl
  have line := constraints_hold functionsOnly timesFirst timesParser rfl first timesCode methods false
  have built := (line (["prog", "7", "--verbosity", "3"].map String.toList) 0).1
  exact ⟨_, rfl, built _ rfl, rfl, ((line _ 0).2.2 _ _ _ report).2⟩

end Erl.Config
