import Erl.Config.Args
import Erl.Config.DefaultConstruct

/-!
# Which member a positional argument is for

`Spec::Parser` numbers the plain data members of a class as positional arguments
(`_impl/config/args.hpp`); `make_arg_tuple` gives every data member an element of the
`ArgumentTuple` (`_impl/config/default_construct.hpp`). The two numberings agree where no
annotated data member stands before a plain one.
-/

namespace Erl.Config
open Util

/-- What an argument is parsed for. -/
inductive Reflection (τ : Type) where
  | member (m : Member τ)
  | parameter (p : Parameter τ)

section
variable {τ : Type}

/-- Annotated as an option, or to be descended into. -/
def Member.isAnnotated (m : Member τ) : Bool := m.annotations.contains .option || m.annotations.contains .descend

/-- A data member without these annotations. -/
def Member.isPlain (m : Member τ) : Bool := m.isNonstaticData && !m.isAnnotated

def Member.isFunction (m : Member τ) : Bool :=
  match m.kind with
  | .function .. => true
  | _ => false

def Member.isStaticFunction (m : Member τ) : Bool :=
  match m.kind with
  | .function is_static .. => is_static
  | _ => false

/-- `identifier_of`, for the members that have one. -/
def Member.name (m : Member τ) : StringView := m.identifier.getD []

/-- `Argument(idx, reflection)`. -/
def Argument.ofMember (idx : Nat) (m : Member τ) : Argument (Reflection τ) where
  index := idx
  reflection := .member m
  name := m.name
  is_optional := m.hasInitializer

def Argument.ofParameter (idx : Nat) (p : Parameter τ) : Argument (Reflection τ) where
  index := idx
  reflection := .parameter p
  name := p.identifier
  is_optional := p.has_default

/-- The arguments of `Option(name, reflection)`. -/
def optionArguments (m : Member τ) : List (Argument (Reflection τ)) :=
  match m.kind with
  | .function _ parameters _ => parameters.mapIdx Argument.ofParameter
  | _ => [Argument.ofMember 0 m]

theorem optionArguments_function {m : Member τ} {is_static : Bool} {parameters : List (Parameter τ)}
    {trailing : parameters.Pairwise fun a b => a.has_default → b.has_default}
    (kind : m.kind = .function is_static parameters trailing) :
    optionArguments m = parameters.mapIdx Argument.ofParameter := by
  unfold optionArguments
  rw [kind]

theorem optionArguments_trailing (m : Member τ) : OptionalTrail (optionArguments m) := by
  unfold optionArguments
  split
  · rename_i parameters trailing _
    rw [OptionalTrail, List.pairwise_iff_getElem]
    intro i j hi hj before
    rw [List.pairwise_iff_getElem] at trailing
    simpa [Argument.ofParameter] using trailing i j (by simpa using hi) (by simpa using hj) before
  · exact List.pairwise_singleton ..

/-- `Option(name, reflection)`. -/
def OptionEntry.ofMember (m : Member τ) : OptionEntry (Reflection τ) where
  name := m.name
  reflection := .member m
  arguments := optionArguments m
  trailing := optionArguments_trailing m

/-- Why a specification does not compile. -/
inductive Rejection where
  /-- `compile_error`. -/
  | message (text : StringView)
  /-- `do_handle` of the member is ill-formed: a type that is no class has no `ArgumentTuple`,
  and the first element of another one may not be assignable to it. -/
  | illFormed (name : StringView)
deriving DecidableEq

/-- `Spec::Parser`. -/
structure SpecParser (τ : Type) where
  arguments : List (Argument (Reflection τ)) := []
  options : List (OptionEntry (Reflection τ)) := []
  commands : List (OptionEntry (Reflection τ)) := []

namespace SpecParser
variable (handles : τ → Bool)

/-- `parse_argument`; none is `return false`. -/
def parseArgument (base_offset : Nat) (p : SpecParser τ) (m : Member τ) : Option (SpecParser τ) :=
  if !m.isNonstaticData then none
  else if m.isAnnotated then none
  else some { p with arguments := p.arguments ++ [.ofMember (base_offset + p.arguments.length) m] }

/-- `parse_command`. -/
def parseCommand (p : SpecParser τ) (m : Member τ) : Option (SpecParser τ) :=
  if m.isFunction && m.isStaticFunction && m.annotations.contains .option then
    some { p with commands := p.commands ++ [.ofMember m] }
  else none

/-- `parse_option`. `handles` are the types of data members that `Option` can be made for,
none of them a scalar. -/
def parseOption (p : SpecParser τ) (m : Member τ) : Except Rejection (Option (SpecParser τ)) :=
  if !m.annotations.contains .option then pure none
  else
    match m.kind with
    | .nonstaticData type has_initializer =>
      if !has_initializer then
        throw (.message ("Option ".toList ++ m.name ++ " lacks a default member initializer.".toList))
      else if !handles type then throw (.illFormed m.name)
      else pure (some { p with options := p.options ++ [.ofMember m] })
    | _ =>
      if !m.isFunction || m.isStaticFunction then pure none
      else pure (some { p with options := p.options ++ [.ofMember m] })

/-- `parse_argument(member) || parse_command(member) || parse_option(member)`. -/
def parseMember (base_offset : Nat) (p : SpecParser τ) (m : Member τ) : Except Rejection (SpecParser τ) :=
  if !m.is_public || m.identifier.isNone then pure p
  else
    match p.parseArgument base_offset m with
    | some p => pure p
    | none =>
      match p.parseCommand m with
      | some p => pure p
      | none => do
        let parsed ← p.parseOption handles m
        pure (parsed.getD p)

/-- `parse`. -/
def parse : Class τ → Except Rejection (SpecParser τ)
  | .mk bases members => members.foldlM (parseMember handles bases.length) {}

end SpecParser

/-- What an element of an `ArgumentTuple` is made for. -/
inductive Element (τ : Type) where
  | base (c : Class τ)
  | member (m : Member τ)

/-- The elements of the `ArgumentTuple` of a class, in order. -/
def tupleElements : Class τ → List (Element τ)
  | .mk bases members => bases.map .base ++ (dataMembers members).map .member

def Element.slot {V : Type} : Element τ → Slot V
  | base c => .base (makeArgTuple c)
  | member _ => .value none

theorem makeBaseTuples_eq {V : Type} (bases : List (Class τ)) :
    (makeBaseTuples bases : List (Slot V)) = bases.map fun base => .base (makeArgTuple base) := by
  induction bases with
  | nil => rw [makeBaseTuples, List.map_nil]
  | cons base bases ih => rw [makeBaseTuples, List.map_cons, ih]

/-- `make_arg_tuple` makes one element for each of them. -/
theorem makeArgTuple_eq {V : Type} (c : Class τ) :
    (makeArgTuple c : List (Slot V)) = (tupleElements c).map Element.slot := by
  obtain ⟨bases, members⟩ := c
  rw [makeArgTuple, makeBaseTuples_eq, tupleElements, List.map_append, List.map_map, List.map_map]
  rfl

/-! ## Numbering -/

/-- What one member adds to the positional arguments. -/
def numbered (base_offset count : Nat) (m : Member τ) : List (Argument (Reflection τ)) :=
  if m.isPlain then [.ofMember (base_offset + count) m] else []

namespace SpecParser
variable {handles : τ → Bool} {base_offset : Nat} {p q : SpecParser τ} {m : Member τ}

/-- `parse_option` adds the member to the options, or nothing. -/
theorem parseOption_cases {parsed : Option (SpecParser τ)} (h : p.parseOption handles m = .ok parsed) :
    parsed = none ∨
      parsed = some { p with options := p.options ++ [.ofMember m] } ∧ m.isStaticFunction = false := by
  unfold parseOption at h
  split at h
  · cases h
    exact .inl rfl
  · split at h
    · rename_i type has_initializer data
      split at h
      · cases h
      · split at h <;> cases h
        refine .inr ⟨rfl, ?_⟩
        unfold Member.isStaticFunction
        rw [data]
    · split at h <;> cases h
      · exact .inl rfl
      · rename_i other
        simp only [Bool.or_eq_true, not_or, Bool.not_eq_true] at other
        exact .inr ⟨rfl, other.2⟩

theorem parseOption_arguments {parsed : Option (SpecParser τ)} (h : p.parseOption handles m = .ok parsed) :
    (parsed.getD p).arguments = p.arguments := by
  rcases parseOption_cases h with rfl | ⟨rfl, -⟩ <;> rfl

theorem parseCommand_arguments (h : p.parseCommand m = some q) : q.arguments = p.arguments := by
  unfold parseCommand at h
  split at h <;> cases h
  rfl

theorem parseArgument_eq (base_offset : Nat) (p : SpecParser τ) (m : Member τ) :
    p.parseArgument base_offset m =
      if m.isPlain then some { p with arguments := p.arguments ++ [.ofMember (base_offset + p.arguments.length) m] }
      else none := by
  unfold parseArgument Member.isPlain
  cases m.isNonstaticData <;> cases m.isAnnotated <;> rfl

theorem parseMember_arguments (named : m.isNonstaticData → m.is_public ∧ m.identifier ≠ none)
    (h : parseMember handles base_offset p m = .ok q) :
    q.arguments = p.arguments ++ numbered base_offset p.arguments.length m := by
  unfold parseMember at h
  rw [parseArgument_eq] at h
  cases plain : m.isPlain with
  | true =>
    have data : m.isNonstaticData = true := (Bool.and_eq_true_iff.mp plain).1
    obtain ⟨pub, name⟩ := named data
    have listed : ¬ (!m.is_public || m.identifier.isNone) = true := by simp [pub, name]
    simp only [if_neg listed, plain, if_true] at h
    cases h
    simp only [numbered, plain, if_true]
  | false =>
    simp only [plain, Bool.false_eq_true, if_false] at h
    simp only [numbered, plain, Bool.false_eq_true, if_false, List.append_nil]
    split at h
    · cases h
      rfl
    · split at h
      · rename_i command
        cases h
        exact parseCommand_arguments command
      · cases option : p.parseOption handles m with
        | error e =>
          rw [option] at h
          cases h
        | ok parsed =>
          rw [option] at h
          cases h
          exact parseOption_arguments option

/-- The positional arguments are the plain members, numbered from the bases on. -/
theorem foldlM_arguments {members : List (Member τ)}
    (named : ∀ m ∈ members, m.isNonstaticData → m.is_public ∧ m.identifier ≠ none)
    (h : members.foldlM (parseMember handles base_offset) p = .ok q) :
    q.arguments = p.arguments ++
      ((members.filter Member.isPlain).zipIdx (base_offset + p.arguments.length)).map fun x => .ofMember x.2 x.1 := by
  induction members generalizing p with
  | nil =>
    cases h
    simp
  | cons m members ih =>
    rw [List.foldlM_cons] at h
    cases one : parseMember handles base_offset p m with
    | error e =>
      rw [one] at h
      cases h
    | ok p' =>
      rw [one] at h
      have first := parseMember_arguments (named m List.mem_cons_self) one
      have rest := ih (fun m mem => named m (List.mem_cons_of_mem _ mem)) h
      rw [rest, first, numbered, List.filter_cons]
      cases m.isPlain with
      | true => simp [List.zipIdx_cons, Nat.add_assoc]
      | false => simp

end SpecParser

/-! ## From tokens to members -/

/-- A settings class: an aggregate whose data members are public and have names. -/
structure Settings (τ : Type) where
  bases : List (Class τ)
  members : List (Member τ)
  named : ∀ m ∈ members, m.isNonstaticData → m.is_public ∧ m.identifier ≠ none
  distinct : members.Nodup

def Settings.toClass (s : Settings τ) : Class τ := .mk s.bases s.members

/-- No annotated data member stands before a plain one. -/
def Settings.PlainFirst (s : Settings τ) : Prop := (dataMembers s.members).Pairwise fun a b => b.isPlain → a.isPlain

variable {V : Type}

/-- The tuple after the arguments have stored what their tokens are parsed to. -/
def storeAll (parse : Reflection τ → StringView → V) :
    List (Argument (Reflection τ) × StringView) → (Nat → Option V) → Nat → Option V
  | [], tuple => tuple
  | (a, token) :: rest, tuple =>
    storeAll parse rest fun i => if i = a.index then some (parse a.reflection token) else tuple i

/-- The same tuple, with its elements. Nothing is stored in the elements of bases. -/
def argumentTuple (c : Class τ) (values : Nat → Option V) : List (Slot V) :=
  (tupleElements c).mapIdx fun i element =>
    match element with
    | .base c => .base (makeArgTuple c)
    | .member _ => .value (values i)

/-- What consecutively numbered arguments leave in the tuple. -/
theorem storeAll_numbered (parse : Reflection τ → StringView → V) (plain : List (Member τ)) (tokens : List StringView)
    (offset : Nat) (tuple : Nat → Option V) (empty : ∀ i, offset ≤ i → tuple i = none) (i : Nat) :
    storeAll parse (((plain.zipIdx offset).map fun x => Argument.ofMember x.2 x.1).zip tokens) tuple i =
      if offset ≤ i then (List.zipWith (fun m token => parse (.member m) token) plain tokens)[i - offset]?
      else tuple i := by
  induction plain generalizing tokens offset tuple with
  | nil =>
    simp [storeAll]
    exact empty i
  | cons m plain ih =>
    cases tokens with
    | nil =>
      simp [storeAll]
      exact empty i
    | cons token tokens =>
      rw [List.zipIdx_cons, List.map_cons, List.zip_cons_cons, storeAll, ih tokens (offset + 1)]
      · rcases Nat.lt_trichotomy i offset with before | rfl | behind
        · have other : ¬ i = (Argument.ofMember offset m).index := Nat.ne_of_lt before
          rw [if_neg (by omega), if_neg other, if_neg (by omega)]
        · have here : i = (Argument.ofMember i m).index := rfl
          rw [if_neg (by omega), if_pos here, if_pos (Nat.le_refl i), Nat.sub_self]
          rfl
        · obtain ⟨k, rfl⟩ := Nat.exists_eq_add_of_lt behind
          have next : offset + k + 1 - (offset + 1) = k := by omega
          have here : offset + k + 1 - offset = k + 1 := by omega
          rw [if_pos (by omega), if_pos (by omega), next, here]
          simp
      · intro i ahead
        have other : ¬ i = (Argument.ofMember offset m).index := Nat.ne_of_gt ahead
        rw [if_neg other]
        exact empty i (Nat.le_of_succ_le ahead)

/-- What a filter keeps stands in the front exactly where nothing it drops stands before it. -/
theorem filter_isPrefix_iff {α : Type} {kept : α → Bool} {l : List α} :
    l.filter kept <+: l ↔ l.Pairwise fun a b => kept b → kept a := by
  induction l with
  | nil => simp
  | cons a l ih =>
    rw [List.pairwise_cons, ← ih]
    cases here : kept a with
    | true => simp [here]
    | false =>
      rw [List.filter_cons_of_neg (by simp [here]), List.prefix_cons_iff]
      have none : l.filter kept = [] ↔ ∀ b ∈ l, kept b → false = true := by
        simp [List.filter_eq_nil_iff]
      rw [← none]
      constructor
      · rintro (empty | ⟨t, front, -⟩)
        · exact ⟨empty, empty ▸ List.nil_prefix⟩
        · have kept_a : a ∈ l.filter kept := front ▸ List.mem_cons_self
          exact absurd (List.mem_filter.mp kept_a).2 (by simp [here])
      · intro front
        exact .inl front.1

theorem tupleElements_member (s : Settings τ) (j : Nat) :
    (tupleElements s.toClass)[s.bases.length + j]? = (dataMembers s.members)[j]?.map .member := by
  rw [Settings.toClass, tupleElements, List.getElem?_append_right (by simp), List.length_map, Nat.add_sub_cancel_left,
    List.getElem?_map]

theorem filter_dataMembers (members : List (Member τ)) :
    (dataMembers members).filter Member.isPlain = members.filter Member.isPlain := by
  rw [dataMembers, List.filter_filter]
  congr 1
  funext m
  cases data : m.isNonstaticData <;> simp [Member.isPlain, data]

/-- The positional arguments of a settings class. -/
theorem Settings.arguments_eq (s : Settings τ) {handles : τ → Bool} {p : SpecParser τ} (h : SpecParser.parse handles s.toClass = .ok p) :
    p.arguments = (((dataMembers s.members).filter Member.isPlain).zipIdx s.bases.length).map
      fun x => .ofMember x.2 x.1 := by
  have numbered := SpecParser.foldlM_arguments s.named h
  rw [filter_dataMembers]
  simpa using numbered

/-- A value for each of the first parts. -/
theorem mapIdx_values {α : Type} {parts : List α} {given : List V} (fits : given.length ≤ parts.length) :
    (parts.mapIdx fun i _ => Slot.value given[i]?) =
      given.map (fun v => .value (some v)) ++ List.replicate (parts.length - given.length) (.value none) := by
  apply List.ext_getElem?
  intro i
  rw [List.getElem?_mapIdx]
  rcases Nat.lt_or_ge i given.length with inside | outside
  · have part := List.getElem?_eq_getElem (Nat.lt_of_lt_of_le inside fits)
    rw [List.getElem?_append_left (by simpa using inside), part]
    simp [inside]
  · rw [List.getElem?_append_right (by simpa using outside), List.length_map, List.getElem?_replicate]
    rcases Nat.lt_or_ge i parts.length with part | none
    · have left : i - given.length < parts.length - given.length := by omega
      simp [part, outside, left]
    · have left : ¬ i - given.length < parts.length - given.length := by omega
      simp [List.getElem?_eq_none none, left]

/-- Behind the tuples of the bases stand the values that the first members got. -/
theorem Settings.argumentTuple_eq (s : Settings τ) (given : List V) (values : Nat → Option V)
    (stored : ∀ j, values (s.bases.length + j) = given[j]?) (fits : given.length ≤ (dataMembers s.members).length) :
    argumentTuple s.toClass values =
      filledTuple (s.bases.map fun c => .base (makeArgTuple c)) given (dataMembers s.members).length := by
  rw [argumentTuple, Settings.toClass, tupleElements, List.mapIdx_append, filledTuple]
  congr 1
  · apply List.ext_getElem?
    intro i
    simp
    cases s.bases[i]? <;> rfl
  · rw [← mapIdx_values fits]
    apply List.ext_getElem?
    intro j
    rw [List.length_map]
    cases here : (dataMembers s.members)[j]? <;> simp [here, Nat.add_comm j, stored]

/-- What the numbering of positional arguments is for: an argument's index is the place of
its own member in the `ArgumentTuple`, and an object is constructed with the member
initialised with what the argument's token is parsed to. -/
def Settings.OwnSlots (s : Settings τ) (p : SpecParser τ) : Prop :=
  (∀ a ∈ p.arguments, ∀ m, a.reflection = .member m → (tupleElements s.toClass)[a.index]? = some (.member m)) ∧
  ∀ (V : Type) (parse : Reflection τ → StringView → V) (tokens : List StringView) (objects : List (Object V))
    (values : List V),
    defaultConstruct s.toClass
        (argumentTuple s.toClass (storeAll parse (p.arguments.zip tokens) fun _ => none)) = .ok (.mk objects values) →
    ∀ (i j : Nat) (m : Member τ) (token : StringView),
      (p.arguments[i]?).map Argument.reflection = some (Reflection.member m) → tokens[i]? = some token →
      (dataMembers s.members)[j]? = some m → values[j]? = some (parse (.member m) token)

section
variable {handles : τ → Bool} {s : Settings τ} {p : SpecParser τ}

theorem Settings.reflection_eq (h : SpecParser.parse handles s.toClass = .ok p) (i : Nat) :
    (p.arguments[i]?).map Argument.reflection =
      (((dataMembers s.members).filter Member.isPlain)[i]?).map Reflection.member := by
  rw [s.arguments_eq h, List.getElem?_map, List.getElem?_zipIdx]
  cases ((dataMembers s.members).filter Member.isPlain)[i]? <;> rfl

/-- Indices that name the members' own elements find no annotated member in between. -/
theorem Settings.plainFirst_of_elements (h : SpecParser.parse handles s.toClass = .ok p)
    (own : ∀ a ∈ p.arguments, ∀ m, a.reflection = .member m →
      (tupleElements s.toClass)[a.index]? = some (.member m)) : s.PlainFirst := by
  rw [PlainFirst, ← filter_isPrefix_iff, List.prefix_iff_getElem?]
  intro j bound
  let m := ((dataMembers s.members).filter Member.isPlain)[j]
  have listed : Argument.ofMember (s.bases.length + j) m ∈ p.arguments := by
    rw [s.arguments_eq h]
    refine List.mem_map.mpr ⟨(m, s.bases.length + j), ?_, rfl⟩
    exact List.mem_iff_getElem?.mpr ⟨j, by rw [List.getElem?_zipIdx, List.getElem?_eq_getElem bound]; rfl⟩
  have element := own _ listed m rfl
  rw [Argument.ofMember, tupleElements_member] at element
  obtain ⟨found, here, same⟩ := Option.map_eq_some_iff.mp element
  cases same
  exact here

theorem Settings.PlainFirst.getElem? (first : s.PlainFirst) {i : Nat} {m : Member τ}
    (plain : ((dataMembers s.members).filter Member.isPlain)[i]? = some m) : (dataMembers s.members)[i]? = some m := by
  obtain ⟨bound, rfl⟩ := List.getElem?_eq_some_iff.mp plain
  exact List.prefix_iff_getElem?.mp (filter_isPrefix_iff.mpr first) i bound

theorem Settings.PlainFirst.elements (first : s.PlainFirst) (h : SpecParser.parse handles s.toClass = .ok p)
    {a : Argument (Reflection τ)} (listed : a ∈ p.arguments) {m : Member τ} (own : a.reflection = .member m) :
    (tupleElements s.toClass)[a.index]? = some (.member m) := by
  obtain ⟨i, here⟩ := List.mem_iff_getElem?.mp listed
  rw [s.arguments_eq h, List.getElem?_map, List.getElem?_zipIdx] at here
  cases plain : ((dataMembers s.members).filter Member.isPlain)[i]? with
  | none => simp [plain] at here
  | some m' =>
    simp only [plain, Option.map_some, Option.some.injEq] at here
    subst here
    cases own
    simp only [Argument.ofMember, tupleElements_member, first.getElem? plain, Option.map_some]

theorem Settings.PlainFirst.values {V : Type} (first : s.PlainFirst) (h : SpecParser.parse handles s.toClass = .ok p)
    (parse : Reflection τ → StringView → V) (tokens : List StringView) {objects : List (Object V)} {values : List V}
    (constructed : defaultConstruct s.toClass
      (argumentTuple s.toClass (storeAll parse (p.arguments.zip tokens) fun _ => none)) = .ok (.mk objects values))
    {i j : Nat} {m : Member τ} {token : StringView}
    (argument : (p.arguments[i]?).map Argument.reflection = some (Reflection.member m)) (given : tokens[i]? = some token)
    (member : (dataMembers s.members)[j]? = some m) : values[j]? = some (parse (.member m) token) := by
  let plain := (dataMembers s.members).filter Member.isPlain
  let parsed := List.zipWith (fun m token => parse (.member m) token) plain tokens
  have here : plain[i]? = some m := by
    rw [s.reflection_eq h, Option.map_eq_some_iff] at argument
    obtain ⟨m', found, same⟩ := argument
    cases same
    exact found
  have fits : parsed.length ≤ (dataMembers s.members).length := by
    have front : plain.length ≤ (dataMembers s.members).length := List.length_filter_le ..
    rw [List.length_zipWith]
    exact Nat.le_trans (Nat.min_le_left ..) front
  have stored : ∀ k, storeAll parse (p.arguments.zip tokens) (fun _ => none) (s.bases.length + k) = parsed[k]? := by
    intro k
    rw [s.arguments_eq h, storeAll_numbered parse plain tokens s.bases.length _ (fun _ _ => rfl),
      if_pos (Nat.le_add_right ..), Nat.add_sub_cancel_left]
  rw [s.argumentTuple_eq parsed _ stored fits] at constructed
  have same : values = parsed := values_of_defaultConstruct (by simp) fits constructed
  have distinct : (dataMembers s.members).Nodup := s.distinct.filter _
  have position : j = i := by
    obtain ⟨hj, atj⟩ := List.getElem?_eq_some_iff.mp member
    obtain ⟨hi, ati⟩ := List.getElem?_eq_some_iff.mp (first.getElem? here)
    exact (distinct.getElem_inj_iff).mp (atj.trans ati.symm)
  rw [same, position, List.getElem?_zipWith, here, given]

end

/-- **Positional arguments.** For every settings class whose specification compiles, the
arguments land in the slots of their own members exactly where no annotated data member
stands before a plain one. -/
theorem ownSlots_iff (handles : τ → Bool) (s : Settings τ) (p : SpecParser τ) (h : SpecParser.parse handles s.toClass = .ok p) :
    s.OwnSlots p ↔ s.PlainFirst :=
  ⟨fun own => Settings.plainFirst_of_elements h own.1,
    fun first => ⟨fun _ listed _ own => first.elements h listed own,
      fun _ parse tokens _ _ constructed _ _ _ _ argument given member =>
        first.values h parse tokens constructed argument given member⟩⟩

/-- `int file;` and then `[[=descend]] int level = 0;`. -/
def fileFirst : Settings String where
  bases := []
  members := [⟨"file".toList, true, .nonstaticData "int" false, []⟩,
    ⟨"level".toList, true, .nonstaticData "int" true, [.descend]⟩]
  named := by simp
  distinct := by simp

/-- The same members in the other order. -/
def levelFirst : Settings String where
  bases := []
  members := fileFirst.members.reverse
  named m mem := fileFirst.named m (List.mem_reverse.mp mem)
  distinct := List.nodup_reverse.mpr fileFirst.distinct

/-- Only functions are options. -/
def functionsOnly {τ : Type} (_ : τ) : Bool := false

theorem ownSlots_fileFirst : ∃ p, SpecParser.parse functionsOnly fileFirst.toClass = .ok p ∧ fileFirst.OwnSlots p :=
  ⟨_, rfl, (ownSlots_iff functionsOnly fileFirst _ rfl).mpr (by unfold Settings.PlainFirst; decide)⟩

/-- The only positional argument is for `file`, but the token initialises `level`. -/
theorem ownSlots_levelFirst : ∃ p, SpecParser.parse functionsOnly levelFirst.toClass = .ok p ∧
    p.arguments.map Argument.name = ["file".toList] ∧
    defaultConstruct levelFirst.toClass
      (argumentTuple levelFirst.toClass (storeAll (fun _ token => token) (p.arguments.zip ["5".toList]) fun _ => none)) =
        .ok (.mk [] ["5".toList]) ∧
    (dataMembers levelFirst.members).map Member.name = ["level".toList, "file".toList] ∧ ¬ levelFirst.OwnSlots p := by
  refine ⟨_, rfl, rfl, rfl, rfl, fun own => ?_⟩
  have parsed : SpecParser.parse functionsOnly levelFirst.toClass = .ok _ := rfl
  have first := Settings.plainFirst_of_elements parsed own.1
  revert first
  unfold Settings.PlainFirst
  decide

end

end Erl.Config
