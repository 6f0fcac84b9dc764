import Erl.Rpc.Dispatch
import Erl.Util.Strings

/-!
# Construction from the arguments given

`_impl/config/default_construct.hpp`. An `ArgumentTuple` has a slot for every base and then
one `std::optional` for every data member or parameter. `visit` counts the leading filled
optionals and hands the visitor that many indices, through a switch over stamped case
labels whose size it picks from the number of optional arguments.
-/

namespace Erl.Config
open Util

/-- A function parameter of type `τ`. -/
structure Parameter (τ : Type) where
  identifier : StringView
  type : τ
  /-- `has_default_argument`. -/
  has_default : Bool := false

inductive MemberKind (τ : Type) where
  /-- With `has_default_member_initializer`. -/
  | nonstaticData (type : τ) (has_initializer : Bool)
  /-- Default arguments are trailing. -/
  | function (is_static : Bool) (parameters : List (Parameter τ))
      (trailing : parameters.Pairwise fun a b => a.has_default → b.has_default)
  | other

inductive Annotation where
  | option
  | descend
deriving DecidableEq

/-- A member of a class. -/
structure Member (τ : Type) where
  /-- None where `has_identifier` fails. -/
  identifier : Option StringView
  is_public : Bool
  kind : MemberKind τ
  annotations : List Annotation := []

/-- A class, with its bases. -/
inductive Class (τ : Type) where
  | mk (bases : List (Class τ)) (members : List (Member τ))

namespace Member
variable {τ : Type}

def isNonstaticData (m : Member τ) : Bool :=
  match m.kind with
  | .nonstaticData .. => true
  | _ => false

def hasInitializer (m : Member τ) : Bool :=
  match m.kind with
  | .nonstaticData _ has_initializer => has_initializer
  | _ => false

end Member

/-- `nonstatic_data_members_of`. -/
def dataMembers {τ : Type} (members : List (Member τ)) : List (Member τ) := members.filter Member.isNonstaticData

/-- `required_args_count`, from what has a default and what not. -/
def requiredArgsCount {α : Type} (has_default : α → Bool) (parts : List α) : Nat :=
  parts.countP fun part => !has_default part

/-- An element of an `ArgumentTuple`: the tuple of a base, or an optional. -/
inductive Slot (V : Type) where
  | base (tuple : List (Slot V))
  | value (value : Option V)

namespace Slot
variable {V : Type}

/-- `has_value`. -/
def hasValue : Slot V → Bool
  | value v => v.isSome
  | base _ => false

/-- `*get<Idx>(args)`; none without a value. -/
def get : Slot V → Option V
  | value v => v
  | base _ => none

end Slot

mutual
/-- `make_arg_tuple` of a class, as the empty tuple: the bases first. -/
def makeArgTuple {τ V : Type} : Class τ → List (Slot V)
  | .mk bases members => makeBaseTuples bases ++ (dataMembers members).map fun _ => .value none

def makeBaseTuples {τ V : Type} : List (Class τ) → List (Slot V)
  | [] => []
  | base :: bases => .base (makeArgTuple base) :: makeBaseTuples bases
end

/-! ## Visiting -/

/-- The ways out of a construction other than its result. -/
inductive Construction where
  /-- `throw value`. -/
  | thrown (value : Int)
  /-- `std::unreachable()`. -/
  | unreachable
  /-- A read of an empty optional. -/
  | undefined
deriving DecidableEq

section
variable {V α : Type}

/-- `$generate_case(idx)`. -/
def generateCase (offset max idx : Nat) (visitor : List Nat → Except Construction α) : Except Construction α :=
  if idx ≤ max then visitor (List.range (offset + idx)) else throw .unreachable

/-- The case labels of `VisitStrategy<strategy>`. -/
def strategyLabels : Nat → List Nat
  | 1 => Rpc.stamp4 0
  | 2 => Rpc.stamp16 0
  | 3 => Rpc.stamp64 0
  | _ => Rpc.stamp256 0

/-- `VisitStrategy<strategy>::visit<offset, max>`. -/
def visitStrategy (strategy offset max : Nat) (visitor : List Nat → Except Construction α) (index : Nat) :
    Except Construction α :=
  if index ∈ strategyLabels strategy then generateCase offset max index visitor else throw .unreachable

/-- `strategy_idx`. -/
def strategyIdx (branches : Nat) : Nat :=
  if branches ≤ 4 then 1 else if branches ≤ 16 then 2 else if branches ≤ 64 then 3 else 4

/-- `visit<bases, required>`. -/
def visit (bases required : Nat) (args : List (Slot V)) (visitor : List Nat → Except Construction α) :
    Except Construction α :=
  let size := args.length
  let branches := size - (bases + required)
  let index := ((args.drop bases).takeWhile Slot.hasValue).length
  if index < required then throw (.thrown 0)
  else if branches = 0 then visitor (List.range (size - bases))
  else visitStrategy (strategyIdx branches) required branches visitor (index - required)

/-- `*get<idx>(args)`. -/
def deref (args : List (Slot V)) (idx : Nat) : Except Construction V :=
  match args[idx]? >>= Slot.get with
  | some value => pure value
  | none => throw .undefined

/-- `default_invoke`: the function gets the given arguments, its defaults stand for the rest. -/
def defaultInvoke {τ : Type} (parameters : List (Parameter τ)) (function : List V → Except Construction α)
    (args : List (Slot V)) : Except Construction α :=
  visit 0 (requiredArgsCount Parameter.has_default parameters) args fun idx => do
    let values ← idx.mapM (deref args)
    function values

end

/-- An object of an aggregate class: its bases, and the values its first data members are
initialised with. The others get their default initialisers. -/
inductive Object (V : Type) where
  | mk (bases : List (Object V)) (values : List V)

mutual
/-- `default_construct`. -/
def defaultConstruct {τ V : Type} : Class τ → List (Slot V) → Except Construction (Object V)
  | .mk bases members, args =>
    visit bases.length (requiredArgsCount Member.hasInitializer (dataMembers members)) args fun idx => do
      let objects ← constructBases bases args
      let values ← idx.mapM fun i => deref args (bases.length + i)
      pure (.mk objects values)

/-- `default_construct<base>(get<BIdx>(args))...`. -/
def constructBases {τ V : Type} : List (Class τ) → List (Slot V) → Except Construction (List (Object V))
  | base :: bases, .base tuple :: args => do
    let object ← defaultConstruct base tuple
    let objects ← constructBases bases args
    pure (object :: objects)
  | [], _ => pure []
  | _, _ => throw .undefined
end

/-! ## Which cases the switch has -/

theorem mem_strategyLabels {i branches : Nat} :
    i ∈ strategyLabels (strategyIdx branches) ↔ i < Rpc.switchSize branches := by
  rw [← Rpc.mem_caseLabels, strategyIdx, Rpc.caseLabels]
  split
  · rfl
  · split
    · rfl
    · split <;> rfl

/-- The switch over the optional arguments has a case for `k` arguments, or there is none. -/
def HasCase (r b k : Nat) : Prop := b = 0 ∨ k - r < Rpc.switchSize b

instance (r b k : Nat) : Decidable (HasCase r b k) := inferInstanceAs (Decidable (_ ∨ _))

/-- All of the optional arguments are given, and as many as a smaller switch has labels. -/
abbrev FillsSwitch (r b k : Nat) : Prop := k = r + b ∧ (b = 4 ∨ b = 16 ∨ b = 64)

/-- Every number of optional arguments has a case, up to all of them. The last one is
missing where all of them fill the switch. -/
theorem lt_switchSize_iff {i b : Nat} (small : b ≤ 255) (le : i ≤ b) :
    i < Rpc.switchSize b ↔ ¬ (i = b ∧ (b = 4 ∨ b = 16 ∨ b = 64)) := by
  unfold Rpc.switchSize
  split
  · omega
  · split
    · omega
    · split <;> omega

theorem hasCase_iff {r b k : Nat} (small : b ≤ 255) (fits : k ≤ r + b) (enough : ¬ k < r) :
    HasCase r b k ↔ ¬ FillsSwitch r b k := by
  have last : k - r = b ↔ k = r + b := by omega
  rw [HasCase, lt_switchSize_iff small (by omega), last, FillsSwitch]
  omega

section
variable {V α : Type}

/-- A tuple of `n` optionals behind the slots of the bases, of which exactly the first are filled. -/
def filledTuple (bases : List (Slot V)) (filled : List V) (n : Nat) : List (Slot V) :=
  bases ++ (filled.map (fun v => .value (some v)) ++ List.replicate (n - filled.length) (.value none))

variable {bases : List (Slot V)} {filled : List V} {n r b : Nat}

theorem length_filledTuple (fits : filled.length ≤ n) : (filledTuple bases filled n).length = bases.length + n := by
  simp only [filledTuple, List.length_append, List.length_map, List.length_replicate]
  omega

/-- `visit` finds out how many are filled. -/
theorem takeWhile_filledTuple (bases : List (Slot V)) (filled : List V) (n : Nat) :
    (((filledTuple bases filled n).drop bases.length).takeWhile Slot.hasValue).length = filled.length := by
  rw [filledTuple, List.drop_left, List.takeWhile_append_of_pos]
  · simp [Slot.hasValue]
  · intro slot mem
    obtain ⟨v, -, rfl⟩ := List.mem_map.mp mem
    rfl

/-- What `visit` does with any numbers of required, optional and filled arguments. -/
theorem visit_filledTuple (bases : List (Slot V)) (visitor : List Nat → Except Construction α) (fits : filled.length ≤ r + b) :
    visit bases.length r (filledTuple bases filled (r + b)) visitor =
      if filled.length < r then throw (.thrown 0)
      else if HasCase r b filled.length then visitor (List.range filled.length)
      else throw .unreachable := by
  have branches : bases.length + (r + b) - (bases.length + r) = b := by omega
  simp only [visit, takeWhile_filledTuple, length_filledTuple fits, branches]
  by_cases few : filled.length < r
  · simp only [if_pos few]
  · rw [if_neg few, if_neg few]
    by_cases none : b = 0
    · have all : bases.length + (r + b) - bases.length = filled.length := by omega
      rw [if_pos none, if_pos (.inl none), all]
    · have label : filled.length - r ∈ strategyLabels (strategyIdx b) ↔ HasCase r b filled.length := by
        rw [mem_strategyLabels, HasCase, or_iff_right none]
      rw [if_neg none, visitStrategy]
      by_cases covered : HasCase r b filled.length
      · rw [if_pos (label.mpr covered), if_pos covered, generateCase, if_pos (by omega)]
        congr 2
        omega
      · rw [if_neg (mt label.mp covered), if_neg covered]

/-- Where `visit` comes to a result at all, it is what the visitor does with the filled ones. -/
theorem visit_filledTuple_ok (bases : List (Slot V)) {visitor : List Nat → Except Construction α} {result : α}
    (fits : filled.length ≤ n) (h : visit bases.length r (filledTuple bases filled n) visitor = .ok result) :
    visitor (List.range filled.length) = .ok result := by
  simp only [visit, takeWhile_filledTuple, length_filledTuple fits] at h
  split at h
  · cases h
  · split at h
    · have all : bases.length + n - bases.length = filled.length := by omega
      rwa [all] at h
    · unfold visitStrategy at h
      split at h
      · unfold generateCase at h
        split at h
        · have given : r + (filled.length - r) = filled.length := by omega
          rwa [given] at h
        · cases h
      · cases h

theorem mapM_range {ε : Type} {values : List V} : ∀ {f : Nat → Except ε V},
    (∀ i (h : i < values.length), f i = .ok values[i]) → (List.range values.length).mapM f = .ok values := by
  induction values with
  | nil => intro _ _; rfl
  | cons value values ih =>
    intro f each
    have rest := ih (f := f ∘ Nat.succ) fun i h => each (i + 1) (Nat.succ_lt_succ h)
    rw [List.length_cons, List.range_succ_eq_map, List.mapM_cons, List.mapM_map, rest, each 0 (Nat.succ_pos _)]
    rfl

/-- The leading filled optionals hold what they were filled with. -/
theorem mapM_deref (bases : List (Slot V)) (filled : List V) (n : Nat) :
    (List.range filled.length).mapM (fun i => deref (filledTuple bases filled n) (bases.length + i)) = .ok filled := by
  apply mapM_range
  intro i h
  rw [deref, filledTuple, List.getElem?_append_right (Nat.le_add_right ..), Nat.add_sub_cancel_left,
    List.getElem?_append_left (by simpa using h), List.getElem?_map, List.getElem?_eq_getElem h]
  rfl

theorem defaultInvoke_filledTuple {τ : Type} (parameters : List (Parameter τ))
    (function : List V → Except Construction α) (required : requiredArgsCount Parameter.has_default parameters = r)
    (fits : filled.length ≤ r + b) :
    defaultInvoke parameters function (filledTuple [] filled (r + b)) =
      if filled.length < r then throw (.thrown 0)
      else if HasCase r b filled.length then function filled
      else throw .unreachable := by
  have values := mapM_deref [] filled (r + b)
  simp only [List.length_nil, Nat.zero_add] at values
  have visited := visit_filledTuple [] (fun idx => idx.mapM (deref (filledTuple [] filled (r + b))) >>= function) fits
  rw [values] at visited
  rw [defaultInvoke, required]
  exact visited

theorem constructBases_append {τ : Type} {classes : List (Class τ)} {tuples rest : List (Slot V)}
    (length : tuples.length = classes.length) :
    constructBases classes (tuples ++ rest) = constructBases classes tuples := by
  induction classes generalizing tuples with
  | nil =>
    rw [List.length_nil, List.length_eq_zero_iff] at length
    subst length
    simp only [constructBases]
  | cons base classes ih =>
    cases tuples with
    | nil => cases length
    | cons slot tuples =>
      have inner := ih (Nat.succ.inj length)
      cases slot with
      | base tuple => simp only [List.cons_append, constructBases, inner]
      | value v => simp only [List.cons_append, constructBases]

theorem defaultConstruct_filledTuple {τ : Type} {classes : List (Class τ)} {members : List (Member τ)}
    {objects : List (Object V)} (constructed : constructBases classes bases = .ok objects)
    (length : bases.length = classes.length)
    (required : requiredArgsCount Member.hasInitializer (dataMembers members) = r) (fits : filled.length ≤ r + b) :
    defaultConstruct (.mk classes members) (filledTuple bases filled (r + b)) =
      if filled.length < r then throw (.thrown 0)
      else if HasCase r b filled.length then .ok (.mk objects filled)
      else throw .unreachable := by
  have values := mapM_deref bases filled (r + b)
  have built : constructBases classes (filledTuple bases filled (r + b)) = .ok objects := by
    rw [filledTuple, constructBases_append length, constructed]
  rw [defaultConstruct, required, ← length, visit_filledTuple bases _ fits, built, values]
  rfl

/-- An object that was constructed has its first members initialised with the arguments given. -/
theorem values_of_defaultConstruct {τ : Type} {classes : List (Class τ)} {members : List (Member τ)}
    {objects : List (Object V)} {values : List V} (length : bases.length = classes.length) (fits : filled.length ≤ n)
    (h : defaultConstruct (.mk classes members) (filledTuple bases filled n) = .ok (.mk objects values)) :
    values = filled := by
  rw [defaultConstruct, ← length] at h
  have constructed := visit_filledTuple_ok bases fits h
  rw [mapM_deref] at constructed
  cases built : constructBases classes (filledTuple bases filled n) with
  | error e =>
    rw [built] at constructed
    cases constructed
  | ok objects =>
    rw [built] at constructed
    cases constructed
    rfl

end

/-- Too few arguments throw, enough of them give `result`. -/
def whenEnough {α : Type} (r k : Nat) (result : Except Construction α) : Except Construction α :=
  if k < r then throw (.thrown 0) else result

/-- What `visit` does is what it should do where no case is missing. -/
theorem eq_whenEnough_iff {α : Type} {r b k : Nat} (small : b ≤ 255) (fits : k ≤ r + b) {value : α} :
    (if k < r then throw (.thrown 0) else if HasCase r b k then .ok value else throw .unreachable) =
      whenEnough r k (.ok value) ↔ ¬ FillsSwitch r b k := by
  unfold whenEnough
  by_cases few : k < r
  · have other : ¬ FillsSwitch r b k := by omega
    simp only [if_pos few, true_iff]
    exact other
  · rw [if_neg few, if_neg few, ← hasCase_iff small fits few]
    by_cases covered : HasCase r b k
    · rw [if_pos covered]
      exact ⟨fun _ => covered, fun _ => rfl⟩
    · rw [if_neg covered]
      exact ⟨nofun, fun other => absurd other covered⟩

/-- The same for any result, in one direction. -/
theorem whenEnough_of_cases {α : Type} {r b k : Nat} (small : b ≤ 255) (fits : k ≤ r + b) (other : ¬ FillsSwitch r b k)
    (result : Except Construction α) :
    (if k < r then throw (.thrown 0) else if HasCase r b k then result else throw .unreachable) =
      whenEnough r k result := by
  unfold whenEnough
  by_cases few : k < r
  · rw [if_pos few, if_pos few]
  · rw [if_neg few, if_neg few, if_pos ((hasCase_iff small fits few).mpr other)]

/-- **Default filling.** For all numbers of required and optional arguments and of leading
arguments given: the visitor gets the indices `0 .. k - 1`, an invoked function gets the
arguments given, a constructed object is initialised with them, and too few of them throw,
exactly where the arguments given do not fill a switch of 4, 16 or 64 labels. -/
theorem defaultFilling_iff {V τ : Type} (r b : Nat) (bases : List (Slot V)) (filled : List V) (small : b ≤ 255)
    (fits : filled.length ≤ r + b) :
    ((∀ (α : Type) (visitor : List Nat → Except Construction α),
        visit bases.length r (filledTuple bases filled (r + b)) visitor =
          whenEnough r filled.length (visitor (List.range filled.length))) ↔ ¬ FillsSwitch r b filled.length) ∧
    (∀ parameters : List (Parameter τ), requiredArgsCount Parameter.has_default parameters = r →
        parameters.length = r + b →
        ((∀ (α : Type) (function : List V → Except Construction α),
            defaultInvoke parameters function (filledTuple [] filled (r + b)) =
              whenEnough r filled.length (function filled)) ↔ ¬ FillsSwitch r b filled.length)) ∧
    (∀ (classes : List (Class τ)) (members : List (Member τ)) (objects : List (Object V)),
        requiredArgsCount Member.hasInitializer (dataMembers members) = r → (dataMembers members).length = r + b →
        bases.length = classes.length → constructBases classes bases = .ok objects →
        (defaultConstruct (.mk classes members) (filledTuple bases filled (r + b)) =
          whenEnough r filled.length (.ok (.mk objects filled)) ↔ ¬ FillsSwitch r b filled.length)) := by
  refine ⟨⟨fun always => ?_, fun other α visitor => ?_⟩, fun parameters required _ =>
    ⟨fun always => ?_, fun other α function => ?_⟩, fun classes members objects required _ length constructed => ?_⟩
  · have once := always _ Except.ok
    rw [visit_filledTuple bases _ fits] at once
    exact (eq_whenEnough_iff small fits).mp once
  · rw [visit_filledTuple bases _ fits]
    exact whenEnough_of_cases small fits other _
  · have once := always _ Except.ok
    rw [defaultInvoke_filledTuple parameters _ required fits] at once
    exact (eq_whenEnough_iff small fits).mp once
  · rw [defaultInvoke_filledTuple parameters _ required fits]
    exact whenEnough_of_cases small fits other _
  · rw [defaultConstruct_filledTuple constructed length required fits]
    exact eq_whenEnough_iff small fits

/-- Three of four optional arguments are fine. -/
theorem defaultFilling_three : visit 0 1 (filledTuple [] [7, 8, 9, 10] 5) Except.ok = .ok [0, 1, 2, 3] :=
  (defaultFilling_iff (τ := Unit) 1 4 [] [7, 8, 9, 10] (by decide) (by decide)).1.mpr (by decide) (List Nat) Except.ok

/-- All four optional arguments of a function are given: no label has this number. -/
theorem defaultFilling_four :
    visit 0 1 (filledTuple [] [7, 8, 9, 10, 11] 5) Except.ok = .error .unreachable ∧
    defaultInvoke [⟨"a".toList, (), false⟩, ⟨"b".toList, (), true⟩, ⟨"c".toList, (), true⟩, ⟨"d".toList, (), true⟩,
      ⟨"e".toList, (), true⟩] Except.ok (filledTuple [] [7, 8, 9, 10, 11] 5) = .error .unreachable :=
  ⟨rfl, rfl⟩

end Erl.Config
