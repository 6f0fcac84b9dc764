import Erl.Config.CommandLine
import Erl.Config.Constraints

/-!
# What a command line means

The meaning of a line of the grammar for a settings class: the commands are called as they
come, an object is constructed from the positional values, and the options are called on it.
`parse_args` does this (`_impl/config/args.hpp`, `_impl/config/default_construct.hpp`) where
the values satisfy their constraints, the bases need no arguments, and no switch lacks the
case for the number of values.

The meaning calls the class's functions with lists of values. It knows of no tokens recorded,
no tuples and no indices.
-/

namespace Erl.Config
open Util Outcome

section
variable {τ K V ω : Type}

mutual
/-- An object that is constructed from no arguments. -/
def initial {V : Type} : Class τ → Object V
  | .mk bases _ => .mk (initials bases) []

def initials {V : Type} : List (Class τ) → List (Object V)
  | [] => []
  | base :: bases => initial base :: initials bases
end

/-- Neither the class nor a base has a data member without an initialiser. -/
inductive Initialised : Class τ → Prop where
  | mk {bases : List (Class τ)} {members : List (Member τ)} : (∀ base ∈ bases, Initialised base) →
      (∀ m ∈ dataMembers members, m.hasInitializer = true) → Initialised (.mk bases members)

/-- The switch over the optional ones of these arguments has a case for `n` values. -/
abbrev Covers {R : Type} (arguments : List (Argument R)) (n : Nat) : Prop :=
  HasCase (required arguments) (arguments.length - required arguments) n

namespace Code
variable (code : Code τ K V ω)

/-- The values of tokens that are given to arguments. -/
def values (arguments : List (Argument (Reflection τ))) (tokens : List StringView) : List V :=
  List.zipWith code.parse (arguments.filterMap fun a => typeOf a.reflection) tokens

section
variable {spec : Spec (Reflection τ)}

/-- The call that a command stands for. -/
def runCommand (item : Item spec) : ExceptT Int (StateM ω) Unit :=
  match item.entry.reflection with
  | .member m => code.function m (code.values item.entry.arguments item.values)
  | .parameter _ => pure ()

/-- The call that an option stands for, on the object. -/
def runOption (object : Instance τ V) (item : Item spec) : ExceptT Int (StateM ω) (Instance τ V) :=
  match item.entry.reflection with
  | .member m => code.method m (code.values item.entry.arguments item.values) object
  | .parameter _ => pure object

/-- What happens as the line is read: the commands are called. -/
def reading (line : CommandLine spec) : ExceptT Int (StateM ω) Unit := do
  modify (code.setName line.program)
  forM (line.items.filter fun item => item.kind = .command) code.runCommand

/-- What the line says: its commands, then an object, then its options. -/
def meaning [DecidableEq τ] (s : Settings τ) (line : CommandLine spec) : ExceptT Int (StateM ω) (Instance τ V) := do
  code.reading line
  let object := s.instanceOf (.mk (initials s.bases) (code.values spec.arguments line.positionals))
  (line.items.filter fun item => item.kind = .option).foldlM code.runOption object

/-- The values of the tokens satisfy the constraints of their arguments. -/
def Admits (arguments : List (Argument (Reflection τ))) (tokens : List StringView) : Prop :=
  ∀ x ∈ arguments.zip tokens, ∀ type, typeOf x.1.reflection = some type →
    code.Satisfies x.1.reflection (code.parse type x.2)

/-- What is asked of a line beyond the grammar. -/
structure Fits (s : Settings τ) (line : CommandLine spec) : Prop where
  positionals : code.Admits spec.arguments line.positionals
  values : ∀ item ∈ line.items, code.Admits item.entry.arguments item.values
  /-- No item sets a data member. -/
  functions : ∀ item ∈ line.items, ∀ m, item.entry.reflection = .member m → m.isFunction = true
  cases : ∀ item ∈ line.items, Covers item.entry.arguments item.values.length
  bases : ∀ base ∈ s.bases, Initialised base
  /-- Every data member without an initialiser gets a value. -/
  given : requiredArgsCount Member.hasInitializer (dataMembers s.members) ≤ line.positionals.length
  members : HasCase (requiredArgsCount Member.hasInitializer (dataMembers s.members))
    ((dataMembers s.members).length - requiredArgsCount Member.hasInitializer (dataMembers s.members))
    line.positionals.length

end

end Code

/-! ## Values in a tuple -/

namespace Code
variable {code : Code τ K V ω} {s : Settings τ}

theorem validate_of_satisfies {r : Reflection τ} {value : V} (h : code.Satisfies r value) :
    code.validate r value = .ok () := by
  unfold validate
  cases annotated : code.constraint r with
  | none => rfl
  | some e =>
    obtain ⟨truth, defined, holds⟩ := h e annotated
    simp only [Expect.evalVerbose_eq, defined, Option.map_some, holds, if_true]
    rfl

theorem parseValue_of_satisfies {r : Reflection τ} {type : τ} {token : StringView} (typed : typeOf r = some type)
    (h : code.Satisfies r (code.parse type token)) : code.parseValue r token = .ok (code.parse type token) := by
  unfold parseValue
  simp only [typed, validate_of_satisfies h]
  rfl

variable (code) in
theorem length_values {arguments : List (Argument (Reflection τ))} {tokens : List StringView}
    (typed : ∀ a ∈ arguments, (typeOf a.reflection).isSome) (fits : tokens.length ≤ arguments.length) :
    (code.values arguments tokens).length = tokens.length := by
  have all : (arguments.filterMap fun a => typeOf a.reflection).length = arguments.length := by
    rw [List.length_filterMap_eq_countP, List.countP_eq_length]
    exact typed
  rw [values, List.length_zipWith, all]
  omega

end Code

/-- The tuple with these values from `offset` on. -/
def stored {V : Type} (offset : Nat) (values : List V) (tuple : Nat → Option V) (i : Nat) : Option V :=
  if offset ≤ i then values[i - offset]? else tuple i

theorem stored_nil {V : Type} {offset : Nat} {tuple : Nat → Option V} (empty : ∀ i, offset ≤ i → tuple i = none) :
    stored offset [] tuple = tuple := by
  funext i
  unfold stored
  split
  · rename_i ahead
    rw [empty i ahead, List.getElem?_nil]
  · rfl

theorem stored_cons {V : Type} (offset : Nat) (value : V) (values : List V) (tuple : Nat → Option V) :
    stored offset (value :: values) tuple =
      stored (offset + 1) values fun i => if i = offset then some value else tuple i := by
  funext i
  simp only [stored]
  rcases Nat.lt_trichotomy i offset with before | rfl | behind
  · rw [if_neg (by omega), if_neg (by omega), if_neg (by omega)]
  · rw [if_pos (Nat.le_refl _), if_neg (by omega), if_pos rfl, Nat.sub_self, List.getElem?_cons_zero]
  · obtain ⟨k, rfl⟩ := Nat.exists_eq_add_of_lt behind
    have next : offset + k + 1 - (offset + 1) = k := by omega
    have same : offset + k + 1 - offset = k + 1 := by omega
    rw [if_pos (by omega), if_pos (by omega), next, same, List.getElem?_cons_succ]

namespace Code
variable {code : Code τ K V ω} {s : Settings τ} [DecidableEq τ]

/-- Arguments with consecutive indices leave their values in this order. -/
theorem callAll_values {arguments : List (Argument (Reflection τ))} {tokens : List StringView} {offset : Nat}
    {tuple : Nat → Option V} (typed : ∀ a ∈ arguments, (typeOf a.reflection).isSome)
    (indices : ∀ (i : Nat) (a : Argument (Reflection τ)), arguments[i]? = some a → a.index = offset + i)
    (admits : code.Admits arguments tokens) (empty : ∀ i, offset ≤ i → tuple i = none) :
    callAll (code.target s) (List.zipWith record arguments tokens) tuple =
      pure (stored offset (code.values arguments tokens) tuple) := by
  induction arguments generalizing tokens offset tuple with
  | nil =>
    have none_given : code.values [] tokens = [] := rfl
    rw [none_given, stored_nil empty]
    rfl
  | cons a arguments ih =>
    cases tokens with
    | nil =>
      have none_given : code.values (a :: arguments) [] = [] := List.zipWith_nil_right
      rw [none_given, stored_nil empty]
      rfl
    | cons token tokens =>
      obtain ⟨type, here⟩ := Option.isSome_iff_exists.mp (typed a List.mem_cons_self)
      have index : a.index = offset := indices 0 a rfl
      have first : (record a token).call (code.target s) tuple =
          pure fun i => if i = offset then some (code.parse type token) else tuple i := by
        have fine := parseValue_of_satisfies here (admits (a, token) List.mem_cons_self type here)
        simp only [record, Argument.Unevaluated.call, target, fine, index]
        rfl
      have all : code.values (a :: arguments) (token :: tokens) =
          code.parse type token :: code.values arguments tokens := by
        simp only [values, List.filterMap_cons, here, List.zipWith_cons_cons]
      have behind : ∀ i, offset + 1 ≤ i → (if i = offset then some (code.parse type token) else tuple i) = none := by
        intro i ahead
        rw [if_neg (by omega), empty i (by omega)]
      rw [List.zipWith_cons_cons, callAll, first, pure_bind, all, stored_cons]
      refine ih (fun b mem => typed b (List.mem_cons_of_mem _ mem)) (fun i b found => ?_)
        (fun x mem => admits x (List.mem_cons_of_mem _ mem)) behind
      have next := indices (i + 1) b found
      omega

end Code

section
variable {handles : τ → Bool} {p : SpecParser τ} {s : Settings τ}

theorem typed_arguments (h : SpecParser.parse handles s.toClass = .ok p) :
    ∀ a ∈ p.arguments, (Code.typeOf a.reflection).isSome := by
  rw [s.arguments_eq h]
  intro a mem
  obtain ⟨⟨m, i⟩, listed, rfl⟩ := List.mem_map.mp mem
  have plain := (List.mem_filter.mp (List.fst_mem_of_mem_zipIdx listed)).2
  have data : m.isNonstaticData = true := (Bool.and_eq_true_iff.mp plain).1
  unfold Member.isNonstaticData at data
  simp only [Argument.ofMember, Code.typeOf]
  split <;> simp_all

theorem index_arguments (h : SpecParser.parse handles s.toClass = .ok p) (i : Nat) (a : Argument (Reflection τ))
    (found : p.arguments[i]? = some a) : a.index = s.bases.length + i := by
  rw [s.arguments_eq h, List.getElem?_map, List.getElem?_zipIdx] at found
  cases plain : ((dataMembers s.members).filter Member.isPlain)[i]? with
  | none => simp [plain] at found
  | some m =>
    simp only [plain, Option.map_some, Option.some.injEq] at found
    rw [← found]
    rfl

/-- The parameters of a function, as arguments. -/
theorem parameters_arguments {m : Member τ} {is_static : Bool} {parameters : List (Parameter τ)}
    {trailing : parameters.Pairwise fun a b => a.has_default → b.has_default}
    (kind : m.kind = .function is_static parameters trailing) :
    (∀ a ∈ optionArguments m, (Code.typeOf a.reflection).isSome) ∧
    (∀ (i : Nat) (a : Argument (Reflection τ)), (optionArguments m)[i]? = some a → a.index = 0 + i) ∧
    (optionArguments m).length = parameters.length ∧
    required (optionArguments m) = requiredArgsCount Parameter.has_default parameters := by
  rw [optionArguments_function kind]
  refine ⟨fun a mem => ?_, fun i a found => ?_, List.length_mapIdx, ?_⟩
  · obtain ⟨i, bound, rfl⟩ := List.mem_mapIdx.mp mem
    rfl
  · rw [List.getElem?_mapIdx] at found
    obtain ⟨parameter, -, rfl⟩ := Option.map_eq_some_iff.mp found
    exact (Nat.zero_add i).symm
  · have same : ∀ (parameters : List (Parameter τ)) (n : Nat),
        (parameters.mapIdx fun i p => Argument.ofParameter (i + n) p).countP (fun a => !a.is_optional) =
          parameters.countP fun p => !p.has_default := by
      intro parameters
      induction parameters with
      | nil => intro n; rfl
      | cons parameter parameters ih =>
        intro n
        have rest := ih (n + 1)
        simp only [List.mapIdx_cons, List.countP_cons, Nat.zero_add, Argument.ofParameter] at rest ⊢
        simp only [Nat.add_right_comm _ 1 n, Nat.add_assoc] at rest ⊢
        rw [rest]
    exact same parameters 0

end

/-! ## What the calls do -/

/-- The given values are the leading ones of a tuple for parameters. -/
theorem parameterTuple_eq {V : Type} (parameters : List (Parameter τ)) {values : List V} {tuple : Nat → Option V}
    (fits : values.length ≤ parameters.length) :
    (parameters.mapIdx fun i _ => Slot.value (stored 0 values tuple i)) = filledTuple [] values parameters.length := by
  simp only [stored, Nat.zero_le, if_true, Nat.sub_zero]
  rw [mapIdx_values fits, filledTuple, List.nil_append]

namespace Code
variable {code : Code τ K V ω} {s : Settings τ}

variable (code) in
/-- A function is called with the values given, where the switch has a case for them. -/
theorem invoke_values {m : Member τ} {is_static : Bool} {parameters : List (Parameter τ)}
    {trailing : parameters.Pairwise fun a b => a.has_default → b.has_default}
    (kind : m.kind = .function is_static parameters trailing) (object : Option Unit) {values : List V}
    (tuple : Nat → Option V) (enough : requiredArgsCount Parameter.has_default parameters ≤ values.length)
    (fits : values.length ≤ parameters.length)
    (covered : HasCase (requiredArgsCount Parameter.has_default parameters)
      (parameters.length - requiredArgsCount Parameter.has_default parameters) values.length) :
    code.invoke (.member m) object (stored 0 values tuple) =
      if is_static then beside (code.function m values) else onObject object (code.method m values) := by
  have bound : requiredArgsCount Parameter.has_default parameters ≤ parameters.length := List.countP_le_length
  have whole := Nat.add_sub_of_le bound
  have invoked := defaultInvoke_filledTuple parameters (pure : List V → Except Construction (List V)) rfl
    (fits.trans_eq whole.symm)
  rw [if_neg (Nat.not_lt.mpr enough), if_pos covered, whole] at invoked
  simp only [invoke, kind, parameterTuple_eq parameters fits, invoked]
  rfl

variable [DecidableEq τ]

/-- What is asked of one item. -/
structure FitsItem {spec : Spec (Reflection τ)} (code : Code τ K V ω) (m : Member τ) (is_static : Bool)
    (item : Item spec) : Prop where
  entry : item.entry = .ofMember m
  kind : m.isFunction = true
  static : m.isStaticFunction = is_static
  values : code.Admits item.entry.arguments item.values
  covers : Covers item.entry.arguments item.values.length

/-- An item that is called calls its function with its values. -/
theorem item_call {spec : Spec (Reflection τ)} {item : Item spec} {m : Member τ} {is_static : Bool}
    (fits : FitsItem code m is_static item) (object : Option Unit) :
    item.record.call (code.target s) object = own (
      if is_static then beside (code.function m (code.values item.entry.arguments item.values))
      else onObject object (code.method m (code.values item.entry.arguments item.values))) := by
  have function := fits.kind
  have static := fits.static
  cases kind : m.kind with
  | nonstaticData type has_initializer => simp [Member.isFunction, kind] at function
  | other => simp [Member.isFunction, kind] at function
  | function is_static' parameters trailing =>
    have same : is_static' = is_static := by simpa [Member.isStaticFunction, kind] using static
    subst same
    have arguments : item.entry.arguments = optionArguments m := by rw [fits.entry]; rfl
    have reflection : item.entry.reflection = .member m := by rw [fits.entry]; rfl
    obtain ⟨typed, indices, length, required⟩ := parameters_arguments kind
    have enough := item.enough
    have most := item.fits
    have covered := fits.covers
    have admits := fits.values
    rw [Covers] at covered
    rw [arguments] at enough most admits covered ⊢
    have number := Code.length_values code typed most
    rw [required] at enough
    rw [length] at most
    rw [required, length] at covered
    have stores := callAll_values (s := s) typed indices admits fun i _ => rfl
    have run := invoke_values code kind object (fun _ => none) (number ▸ enough) (number ▸ most)
      (number ▸ covered)
    unfold OptionEntry.Unevaluated.call
    simp only [Item.record, arguments, reflection, stores, pure_bind]
    exact congrArg own run

end Code

theorem switchSize_pos (n : Nat) : 0 < Rpc.switchSize n := by
  unfold Rpc.switchSize
  split
  · exact Nat.succ_pos _
  · split
    · exact Nat.succ_pos _
    · split <;> exact Nat.succ_pos _

theorem constructBases_of_each {V : Type} {bases : List (Class τ)}
    (each : ∀ base ∈ bases, defaultConstruct base (makeArgTuple base) = .ok (initial base : Object V)) :
    constructBases bases (bases.map fun base => .base (makeArgTuple base)) = .ok (initials bases : List (Object V)) := by
  induction bases with
  | nil =>
    simp only [constructBases, initials]
    rfl
  | cons base bases ih =>
    have others := ih fun b mem => each b (List.mem_cons_of_mem _ mem)
    simp only [List.map_cons, constructBases, initials, each base List.mem_cons_self, others]
    rfl

/-- A class whose data members have initialisers is constructed from nothing. -/
theorem defaultConstruct_initialised {V : Type} {c : Class τ} (h : Initialised c) :
    defaultConstruct c (makeArgTuple c) = .ok (initial c : Object V) := by
  induction h with
  | @mk bases members _ initialised ih =>
    have none_required : requiredArgsCount Member.hasInitializer (dataMembers members) = 0 := by
      rw [requiredArgsCount, List.countP_eq_zero]
      intro m mem
      simp [initialised m mem]
    have fits : ([] : List V).length ≤ 0 + (dataMembers members).length := Nat.zero_le _
    have run := defaultConstruct_filledTuple (constructBases_of_each ih) (List.length_map _) none_required fits
    have empty : (makeArgTuple (.mk bases members) : List (Slot V)) =
        filledTuple (bases.map fun base => .base (makeArgTuple base)) [] (0 + (dataMembers members).length) := by
      simp only [makeArgTuple, makeBaseTuples_eq, filledTuple, List.map_nil, List.nil_append, List.length_nil,
        Nat.sub_zero, Nat.zero_add, List.map_const']
    have covered : HasCase 0 (dataMembers members).length ([] : List V).length := .inr (switchSize_pos _)
    rw [empty, run, if_neg (Nat.not_lt_zero _), if_pos covered]
    simp only [initial]

namespace Code
variable {code : Code τ K V ω} {s : Settings τ} [DecidableEq τ]

variable (code) in
/-- An object is constructed from the values given, where the switch has a case for them. -/
theorem target_defaultConstruct (bases : ∀ base ∈ s.bases, Initialised base) {values : List V}
    (tuple : Nat → Option V)
    (enough : requiredArgsCount Member.hasInitializer (dataMembers s.members) ≤ values.length)
    (fits : values.length ≤ (dataMembers s.members).length)
    (covered : HasCase (requiredArgsCount Member.hasInitializer (dataMembers s.members))
      ((dataMembers s.members).length - requiredArgsCount Member.hasInitializer (dataMembers s.members))
      values.length) :
    (code.target s).defaultConstruct (stored s.bases.length values tuple) =
      modify fun f => (f.1, some (s.instanceOf (.mk (initials s.bases) values))) := by
  have bound : requiredArgsCount Member.hasInitializer (dataMembers s.members) ≤ (dataMembers s.members).length :=
    List.countP_le_length
  have whole := Nat.add_sub_of_le bound
  have here : ∀ j, stored s.bases.length values tuple (s.bases.length + j) = values[j]? := fun j => by
    rw [stored, if_pos (Nat.le_add_right ..), Nat.add_sub_cancel_left]
  have built := constructBases_of_each (V := V) fun base mem => defaultConstruct_initialised (bases base mem)
  have run := defaultConstruct_filledTuple built (List.length_map _) rfl (fits.trans_eq whole.symm)
  rw [if_neg (Nat.not_lt.mpr enough), if_pos covered, whole, ← s.argumentTuple_eq values _ here fits] at run
  have constructed : defaultConstruct s.toClass (argumentTuple s.toClass (stored s.bases.length values tuple)) =
      .ok (.mk (initials s.bases) values) := run
  simp only [target, constructed]

end Code

/-! ## Runs -/

/-- `parse_args` ends with the exit of a function of the class. -/
def Exits : Halt (Ending τ V) → Frame τ V ω → Int → ω → Prop := fun halt f status world =>
  halt = .stopped (.exited status) ∧ f.1 = world

/-- Code beside the object runs by itself. -/
theorem beside_agrees {α : Type} (x : ExceptT Int (StateM ω) α) (world : ω) (inst : Option (Instance τ V)) :
    Agrees (beside x) x (world, inst) world (fun e => Exits (.stopped e)) fun a f b world' => a = b ∧ f = (world', inst) := by
  have run : (beside x : ExceptT (Ending τ V) (StateM (Frame τ V ω)) α).run.run (world, inst) =
      ((x.run.run world).1.mapError .exited, (x.run.run world).2, inst) := rfl
  unfold Agrees
  rw [run]
  cases x.run.run world with
  | mk r world' => cases r <;> exact ⟨rfl, rfl⟩

/-- Code on the object changes the one there is. -/
theorem onObject_agrees (x : Instance τ V → ExceptT Int (StateM ω) (Instance τ V)) (world : ω) (object : Instance τ V) :
    Agrees (onObject (some ()) x) (x object) (world, some object) world (fun e => Exits (.stopped e))
      fun _ f object' world' => f = (world', some object') := by
  rw [← bind_pure (x object)]
  refine Agrees.get ((beside_agrees (x object) world (some object)).bind ?_)
  rintro object' f _ world' ⟨rfl, rfl⟩
  exact Agrees.modify rfl

namespace Code
variable {code : Code τ K V ω} {s : Settings τ} [DecidableEq τ] {spec : Spec (Reflection τ)}

/-- The commands of a line run one after the other. -/
theorem commands_agree (items : List (Item spec)) (fits : ∀ item ∈ items, ∃ m, FitsItem code m true item) (world : ω) :
    Agrees (runOptions (code.target s) none (items.map Item.record)) (forM items code.runCommand) (world, none) world
      Exits fun _ f _ world' => f = (world', none) := by
  induction items generalizing world with
  | nil => exact Agrees.pure rfl
  | cons item items ih =>
    obtain ⟨m, fit⟩ := fits item List.mem_cons_self
    have reflection : item.entry.reflection = .member m := by rw [fit.entry]; rfl
    rw [List.map_cons, runOptions, item_call fit, if_pos rfl, List.forM_cons, runCommand, reflection]
    refine (Agrees.adapt _ (beside_agrees _ world none)).bind ?_
    rintro _ f _ world' ⟨-, rfl⟩
    exact ih (fun item mem => fits item (List.mem_cons_of_mem _ mem)) world'

/-- The options of a line run one after the other, on the object. -/
theorem options_agree (items : List (Item spec)) (fits : ∀ item ∈ items, ∃ m, FitsItem code m false item)
    (world : ω) (object : Instance τ V) :
    Agrees (runOptions (code.target s) (some ()) (items.map Item.record)) (items.foldlM code.runOption object)
      (world, some object) world Exits fun _ f object' world' => f = (world', some object') := by
  induction items generalizing world object with
  | nil => exact Agrees.pure rfl
  | cons item items ih =>
    obtain ⟨m, fit⟩ := fits item List.mem_cons_self
    have reflection : item.entry.reflection = .member m := by rw [fit.entry]; rfl
    rw [List.map_cons, runOptions, item_call fit, if_neg (by decide), List.foldlM_cons, runOption, reflection]
    refine (Agrees.adapt _ (onObject_agrees _ world object)).bind ?_
    rintro _ f object' world' rfl
    exact ih (fun item mem => fits item (List.mem_cons_of_mem _ mem)) world' object'

end Code

variable [DecidableEq τ]

omit [DecidableEq τ] in
/-- The items of a line that fits are calls of the class's functions. -/
theorem Code.Fits.item {handles : τ → Bool} {s : Settings τ} {p : SpecParser τ} {cli : Bool} {code : Code τ K V ω}
    {line : CommandLine (p.spec cli)} (fits : code.Fits s line) (h : SpecParser.parse handles s.toClass = .ok p)
    {item : Item (p.spec cli)} (listed : item ∈ line.items) :
    ∃ m, Code.FitsItem code m (decide (item.kind = .command)) item := by
  have one : ∀ m is_static, item.entry = .ofMember m → m.isStaticFunction = is_static →
      Code.FitsItem code m is_static item := fun m is_static entry static =>
    { entry, static, kind := fits.functions item listed m (by rw [entry]; rfl), values := fits.values item listed,
      covers := fits.cases item listed }
  obtain ⟨commands, options⟩ := SpecParser.parse_entries h
  have mem := item.listed
  cases kind : item.kind with
  | command =>
    rw [kind] at mem
    rcases List.mem_append.mp mem with own | base
    · obtain ⟨m, -, entry, static⟩ := commands _ own
      exact ⟨m, one m true entry static⟩
    · cases cli with
      | false => cases base
      | true => exact ⟨helpMember, one helpMember true (List.mem_singleton.mp base) rfl⟩
  | option =>
    rw [kind] at mem
    obtain ⟨m, -, entry, static⟩ := options _ mem
    exact ⟨m, one m false entry static⟩

section
variable {handles : τ → Bool} {s : Settings τ} {p : SpecParser τ} {cli : Bool} {code : Code τ K V ω}
  {line : CommandLine (p.spec cli)}

theorem Code.reading_agrees (h : SpecParser.parse handles s.toClass = .ok p) (fits : code.Fits s line) (world : ω) :
    Agrees (do own ((code.target s).setName line.program); runOptions (code.target s) none (records .command line.items))
      (code.reading line) (world, none) world Exits fun _ f _ world' => f = (world', none) := by
  refine Agrees.bind (show Agrees _ _ _ _ Exits fun _ f _ world' => f = (world', none) from rfl) ?_
  rintro _ f _ world' rfl
  refine Code.commands_agree _ (fun item mem => ?_) world'
  obtain ⟨listed, kind⟩ := List.mem_filter.mp mem
  obtain ⟨m, fit⟩ := fits.item h listed
  exact ⟨m, by rwa [kind] at fit⟩

end

/-- **Parsing inverts rendering.** For every settings class whose specification compiles and
every line of the grammar that fits it: while the line is read, the listed commands are
called in order, each with its values, and then the positional values and the options are
recorded in order, with the tokens `0, 1, …` consumed each once; the whole run constructs an
object from the positional values and calls the options on it in order, each with its
values. Only a function of the class can end the program before. A turn of the loop that
comes to its end has consumed a token. -/
theorem parseArgs_render (handles : τ → Bool) (s : Settings τ) (p : SpecParser τ)
    (h : SpecParser.parse handles s.toClass = .ok p) (cli : Bool) (valid : (p.spec cli).validate = .ok ())
    (names : (((p.spec cli).commands ++ (p.spec cli).options).map OptionEntry.name).Nodup) (code : Code τ K V ω)
    (line : CommandLine (p.spec cli)) (fits : code.Fits s line) (world : ω) :
    Agrees (parseLine (p.spec cli) (code.target s) line.render) (code.reading line) (world, none) world Exits
      (fun r f _ world' => r = ⟨line.behind, line.given, records .option line.items⟩ ∧ f = (world', none)) ∧
    Agrees (parseArgs (p.spec cli) (code.target s) line.render) (code.meaning s line) (world, none) world Exits
      (fun _ f object world' => f = (world', some object)) ∧
    ∀ parser opts, Ends (turn (p.spec cli) (code.target s) parser opts) (· ≠ .endless) fun r => Forward 1 parser r.1 := by
  have reads := Code.reading_agrees h fits world
  refine ⟨?_, ?_, turn_advances _ _⟩
  · rw [parseLine_render _ names line, ← bind_assoc, ← bind_pure (code.reading line)]
    refine reads.bind ?_
    rintro _ f _ world' rfl
    exact Agrees.pure ⟨rfl, rfl⟩
  · rw [parseArgs_eq _ valid names line, ← bind_assoc]
    refine reads.bind ?_
    rintro _ f _ world' rfl
    have typed := typed_arguments h
    have number := Code.length_values code typed line.fits
    have most : line.positionals.length ≤ (dataMembers s.members).length := by
      refine Nat.le_trans line.fits ?_
      show p.arguments.length ≤ _
      rw [s.arguments_eq h, List.length_map, List.length_zipIdx]
      exact List.length_filter_le ..
    have stores : callAll (code.target s) line.given (fun _ => none) =
        pure (stored s.bases.length (code.values p.arguments line.positionals) fun _ => none) :=
      Code.callAll_values typed (index_arguments h) fits.positionals fun _ _ => rfl
    have constructs := Code.target_defaultConstruct code fits.bases (fun _ => none) (number ▸ fits.given)
      (number ▸ most) (number ▸ fits.members)
    rw [stores, pure_bind, constructs]
    let object := s.instanceOf (.mk (initials s.bases) (code.values p.arguments line.positionals))
    have every : ∀ item ∈ line.items.filter fun item => item.kind = .option, ∃ m, Code.FitsItem code m false item := by
      intro item mem
      obtain ⟨listed, kind⟩ := List.mem_filter.mp mem
      obtain ⟨m, fit⟩ := fits.item h listed
      rw [of_decide_eq_true kind] at fit
      exact ⟨m, fit⟩
    have options := Code.options_agree (s := s) _ every world' object
    show Agrees (runOptions (code.target s) (some ()) (records .option line.items) >>= fun _ => pure ()) _
      (world', some object) world' Exits _
    rw [← bind_pure ((line.items.filter fun item => item.kind = .option).foldlM code.runOption _)]
    exact options.bind fun _ f object' world'' same => Agrees.pure same

end

def widthMember : Member String := ⟨"width".toList, true, .nonstaticData "int" false, []⟩

def depthMember : Member String := ⟨"depth".toList, true, .nonstaticData "int" true, []⟩

/-- A parameter with or without a default argument. -/
def intParameter (has_default : Bool) (name : String) : Parameter String := ⟨name.toList, "int", has_default⟩

def levelMember : Member String :=
  ⟨"level".toList, true, .function false [intParameter false "low", intParameter true "high"] (by decide), [.option]⟩

def cropMember : Member String :=
  ⟨"crop".toList, true, .function false (["x", "y", "w", "h"].map (intParameter true)) (by decide), [.option]⟩

def resetMember : Member String := ⟨"reset".toList, true, .function true [] .nil, [.option]⟩

/-- `int width`, `[[=expect(value < 17)]] int depth = 5`, the options `level(int low, int high = …)`
and `crop(int x = …, int y = …, int w = …, int h = …)`, and the command `reset`. -/
def drawing : Settings String where
  bases := []
  members := [widthMember, depthMember, levelMember, cropMember, resetMember]
  named := by simp [widthMember, depthMember, levelMember, cropMember, resetMember, Member.isNonstaticData]
  distinct := by decide

def drawingParser : SpecParser String where
  arguments := [.ofMember 0 widthMember, .ofMember 1 depthMember]
  commands := [.ofMember resetMember]
  options := [.ofMember levelMember, .ofMember cropMember]

/-- The functions note that they are called. -/
def drawingCode : Code String Int Int (List (StringView × List Int)) where
  setName _ world := world
  integral type := if type = "int" then some (.signed .w32) else none
  ofInt _ i := i
  construct _ token := token.length
  domain := Expect.intDomain
  printer := Expect.intPrinter
  rhsFirst _ := true
  constraint r :=
    match r with
    | .member m => if m = depthMember then some (.binaryExpr .less (.placeholder 0) (.constant 17)) else none
    | .parameter _ => none
  function m values := modify (· ++ [(m.name, values)])
  method m values object := do
    modify (· ++ [(m.name, values)])
    pure object

/-- `prog 3 9 --level 1 --reset --level 2 4`. -/
def drawingLine : CommandLine (drawingParser.spec false) where
  program := "prog".toList
  positionals := ["3".toList, "9".toList]
  proper := by decide
  enough := by decide
  fits := by decide
  items :=
    [⟨.option, .ofMember levelMember, List.mem_cons_self, ["1".toList], by decide, by decide, by decide⟩,
      ⟨.command, .ofMember resetMember, List.mem_cons_self, [], by decide, by decide, by decide⟩,
      ⟨.option, .ofMember levelMember, List.mem_cons_self, ["2".toList, "4".toList], by decide, by decide, by decide⟩]

theorem parseArgs_render_drawing : ∃ object,
    (parseArgs (drawingParser.spec false) (drawingCode.target drawing)
      (["prog", "3", "9", "--level", "1", "--reset", "--level", "2", "4"].map String.toList)).run.run ([], none) =
        (.ok (), [("reset".toList, []), ("level".toList, [1]), ("level".toList, [2, 4])], some object) ∧
    object.members widthMember = some 3 ∧ object.members depthMember = some 9 := by
  have unconstrained : ∀ item ∈ drawingLine.items, ∀ a ∈ item.entry.arguments,
      (drawingCode.constraint a.reflection).isNone = true := by decide
  have functions : ∀ item ∈ drawingLine.items, (match item.entry.reflection with
      | .member m => m.isFunction
      | .parameter _ => false) = true := by decide
  have fits : drawingCode.Fits drawing drawingLine :=
    { positionals := by
        intro x mem type typed e same
        rcases List.mem_cons.mp mem with rfl | mem
        · cases same
        · rcases List.mem_cons.mp mem with rfl | mem
          · cases typed
            cases same
            exact ⟨1, rfl, rfl⟩
          · cases mem
      values := by
        intro item mem x inside type typed e same
        have none := unconstrained item mem x.1 (List.of_mem_zip inside).1
        rw [same] at none
        cases none
      functions := by
        intro item mem m reflection
        have function := functions item mem
        rwa [reflection] at function
      cases := by decide
      bases := by simp [drawing]
      given := by decide
      members := by decide }
  have agrees := (parseArgs_render functionsOnly drawing drawingParser rfl false rfl (by decide) drawingCode drawingLine
    fits []).2.1
  obtain ⟨_, f, run, rfl⟩ := agrees.of_ok rfl
  exact ⟨_, run, rfl, rfl⟩

/-- A class with `width` in a base. -/
def baseDrawing : Settings String where
  bases := [.mk [] [widthMember]]
  members := [depthMember]
  named := by simp [depthMember]
  distinct := by decide

def baseParser : SpecParser String where
  arguments := [.ofMember 1 depthMember]

def inkMember : Member String := ⟨"ink".toList, true, .nonstaticData "Color" true, [.option]⟩

/-- `[[=option]] Color ink = …`, with a class `Color`. -/
def canvas : Settings String where
  bases := []
  members := [inkMember]
  named := by simp [inkMember]
  distinct := by decide

def canvasParser : SpecParser String where
  options := [.ofMember inkMember]

def colorsOnly (type : String) : Bool := type = "Color"

/-- The line, of a specification that is fine, ends in this way. -/
def StopsWith (s : Settings String) (p : SpecParser String) (tokens : List StringView) (halt : Halt (Ending String Int)) :
    Prop :=
  (p.spec false).validate = .ok () ∧
  (((p.spec false).commands ++ (p.spec false).options).map OptionEntry.name).Nodup ∧
  (∃ line : CommandLine (p.spec false), line.render = tokens) ∧
  ((parseArgs (p.spec false) (drawingCode.target s) tokens).run.run ([], none)).1 = .error halt

/-- Four lines of the grammar that are not accepted: `prog 3 20` fails the constraint, all
four arguments that `crop` can do without have no case in the switch, the base of a class
needs a value, and an option that is a data member stores it in another tuple. -/
theorem parseArgs_stops :
    SpecParser.parse functionsOnly drawing.toClass = .ok drawingParser ∧
    StopsWith drawing drawingParser (["prog", "3", "20"].map String.toList)
      (.stopped (.invalid (.member depthMember) 20 [some "(20 < 17)"])) ∧
    StopsWith drawing drawingParser (["prog", "3", "--crop", "1", "2", "3", "4"].map String.toList)
      (.stopped (.construction .unreachable)) ∧
    SpecParser.parse functionsOnly baseDrawing.toClass = .ok baseParser ∧
    StopsWith baseDrawing baseParser ["prog".toList] (.stopped (.construction (.thrown 0))) ∧
    SpecParser.parse colorsOnly canvas.toClass = .ok canvasParser ∧
    StopsWith canvas canvasParser (["prog", "--ink", "red"].map String.toList) (.stopped .undefined) := by
  refine ⟨rfl, ⟨rfl, by decide, ?_, rfl⟩, ⟨rfl, by decide, ?_, rfl⟩, rfl, ⟨rfl, by decide, ?_, rfl⟩, rfl,
    ⟨rfl, by decide, ?_, rfl⟩⟩
  · exact ⟨⟨"prog".toList, ["3".toList, "20".toList], by decide, by decide, by decide, []⟩, rfl⟩
  · exact ⟨⟨"prog".toList, ["3".toList], by decide, by decide, by decide,
      [⟨.option, .ofMember cropMember, List.mem_cons_of_mem _ List.mem_cons_self,
        ["1", "2", "3", "4"].map String.toList, by decide, by decide, by decide⟩]⟩, rfl⟩
  · exact ⟨⟨"prog".toList, [], by decide, by decide, by decide, []⟩, rfl⟩
  · exact ⟨⟨"prog".toList, [], by decide, by decide, by decide,
      [⟨.option, .ofMember inkMember, List.mem_cons_self, ["red".toList], by decide, by decide, by decide⟩]⟩, rfl⟩

end Erl.Config
