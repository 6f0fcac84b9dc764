import Erl.Lib.FormatString
import Erl.Util.Strings

/-!
# Accessors

`get_accessor` of `_impl/format/named.hpp` resolves the path behind a field's argument
index with the argument's type alone; `Accessor::get` then follows it in the object. A
path means: follow it step by step, looking at the type of the object reached.
-/

namespace Erl.Format
open Util

/-- What an operation on an object returns. -/
inductive Returned where
  /-- A new object. -/
  | value
  /-- A reference to a part of the object. -/
  | part
  /-- A reference to an object that outlives it. -/
  | elsewhere
  /-- A reference to an object that is gone. -/
  | gone
deriving DecidableEq

/-- `std::forward_like` of an operation's result: a reference to a new object ends with it. -/
def Returned.forwardLike : Returned → Returned
  | .value => .gone
  | returned => returned

/-- Where an object is while an accessor is followed. -/
inductive Place where
  /-- In an argument, or elsewhere. -/
  | lasting
  /-- It is a temporary of the expression. -/
  | temporary
  /-- It is a part of one. -/
  | within
deriving DecidableEq

/-- The place of what is returned by an operation on an object; none if it is gone. -/
def Returned.place : Returned → Place → Option Place
  | .value, _ => some .temporary
  | .part, .lasting => some .lasting
  | .part, _ => some .within
  | .elsewhere, _ => some .lasting
  | .gone, _ => none

/-- What a program's types look like to `get_accessor`, without references and `const`,
and its objects to the accessors. -/
structure Classes where
  Ty : Type
  Obj : Type
  typeOf : Obj → Ty
  /-- `subscript_result` of a type that `is_subscriptable`. -/
  subscriptResult : Ty → Option Ty
  /-- The `tuple_element_t` of a type that `is_tuple_like`. -/
  tupleElements : Ty → Option (List Ty)
  /-- `nonstatic_data_members_of`, with the identifier if there is one. -/
  members : Ty → List (Option StringView × Ty)
  members_length : ∀ t, (members t).length < 2 ^ 64
  /-- `operator[]`. -/
  subscript : Obj → Nat → Option Obj
  /-- `std::get`. -/
  get : Obj → Nat → Option Obj
  member : Obj → Nat → Option Obj
  subscriptReturns : Ty → Returned
  getReturns : Ty → Nat → Returned
  memberReturns : Ty → Nat → Returned
  typeOf_subscript : ∀ {o n o' t}, subscriptResult (typeOf o) = some t → subscript o n = some o' → typeOf o' = t
  typeOf_get : ∀ {o n o' ts t}, tupleElements (typeOf o) = some ts → ts[n]? = some t → get o n = some o' →
    typeOf o' = t
  typeOf_member : ∀ {o n o' m}, (members (typeOf o))[n]? = some m → member o n = some o' → typeOf o' = m.2

/-- `SubscriptAccessor`, `TupleAccessor`, `MemberAccessor`; a member is its position. -/
inductive Field where
  | subscript (index : Nat)
  | tuple (index : Nat)
  | member (index : Nat)
deriving DecidableEq, Repr

/-- `Accessor<Idx, Fields...>`. -/
structure Accessor where
  index : Nat
  fields : List Field
deriving DecidableEq, Repr

variable (C : Classes)

/-- The object of `obj >> Field{}`. -/
def Field.object : Field → C.Obj → Option C.Obj
  | .subscript index, obj => C.subscript obj index
  | .tuple index, obj => C.get obj index
  | .member index, obj => C.member obj index

/-- What `obj >> Field{}` returns. -/
def Field.returned : Field → C.Obj → Returned
  | .subscript _, obj => (C.subscriptReturns (C.typeOf obj)).forwardLike
  | .tuple index, obj => C.getReturns (C.typeOf obj) index
  | .member index, obj => (C.memberReturns (C.typeOf obj) index).forwardLike

/-- `obj >> Field{}`, of an object at a place. -/
def Field.apply (f : Field) (x : C.Obj × Place) : Option (C.Obj × Place) := do
  let obj ← f.object C x.1
  let place ← (f.returned C x.1).place x.2
  some (obj, place)

/-- `Accessor::get`, as far as the object is there when it has returned. -/
def Accessor.get (a : Accessor) (obj : C.Obj) : Option C.Obj := do
  let (obj, place) ← a.fields.foldlM (fun x (f : Field) => f.apply C x) (obj, Place.lasting)
  if place = .within then none else some obj

/-- `get_nth_member`. -/
def getNthMember (type : C.Ty) (n : Nat) : Option (Option StringView × C.Ty) := (C.members type)[n]?

/-- `get_member_index`; it names every member of the class, and answers `-1UZ` if none
fits. -/
def getMemberIndex (type : C.Ty) (name : StringView) : Option Nat :=
  ((C.members type).mapM Prod.fst).map fun names =>
    if name ∈ names then names.idxOf name else 2 ^ 64 - 1

/-- One turn of the loop of `get_accessor`: the accessor, and the type behind it. -/
def resolveSubfield (type : C.Ty) (subfield : StringView) : Option (Field × C.Ty) :=
  if isInteger subfield then
    let index := stou subfield
    match C.subscriptResult type with
    | some t => some (.subscript index, t)
    | none =>
      match C.tupleElements type with
      | some ts => ts[index]?.map fun t => (.tuple index, t)
      | none => (getNthMember C type index).map fun member => (.member index, member.2)
  else do
    let index ← getMemberIndex C type subfield
    let member ← getNthMember C type index
    some (.member index, member.2)

def resolveSubfields : C.Ty → List StringView → Option (List Field)
  | _, [] => some []
  | type, subfield :: rest => do
    let (field, type) ← resolveSubfield C type subfield
    let fields ← resolveSubfields type rest
    some (field :: fields)

/-- `std::views::split(expression, '.')`; there is nothing in an empty string. -/
def splitDots (expression : StringView) : List StringView :=
  if expression = [] then [] else expression.splitOn '.'

/-- `get_accessor`. -/
def getAccessor (expression : StringView) (index : Nat) (type : C.Ty) : Option Accessor :=
  (resolveSubfields C type (splitDots expression)).map fun fields => ⟨index, fields⟩

/-- An identifier; it is no number, has no dots and may stand in a format string. -/
structure Identifier where
  chars : StringView
  head : ∃ c rest, chars = c :: rest ∧ isDigit c = false ∧ c ≠ '-'
  noDots : '.' ∉ chars
  valid : ∀ c ∈ chars, FormatString.isNameChar c = true

inductive Step where
  | number (n : Nat)
  | identifier (name : Identifier)

/-- A step as it is written. -/
def Step.spell : Step → StringView
  | .number n => Nat.toDigits 10 n
  | .identifier name => name.chars

/-- A path as it is written. -/
def spellPath (path : List Step) : StringView := ['.'].intercalate (path.map Step.spell)

/-- Subscript, tuple element or n-th member for a number, the member of that name for an
identifier. -/
def Step.eval : Step → C.Obj → Option C.Obj
  | .number n, obj =>
    match C.subscriptResult (C.typeOf obj), C.tupleElements (C.typeOf obj) with
    | some _, _ => C.subscript obj n
    | none, some ts => if n < ts.length then C.get obj n else none
    | none, none => if n < (C.members (C.typeOf obj)).length then C.member obj n else none
  | .identifier name, obj =>
    ((C.members (C.typeOf obj)).findIdx? fun m => m.1 == some name.chars).bind (C.member obj)

/-- The value of a path. -/
def evalPath (path : List Step) (obj : C.Obj) : Option C.Obj := path.foldlM (fun obj step => step.eval C obj) obj

/-- What a step of a path returns. -/
def Step.returned : Step → C.Obj → Returned
  | .number n, obj =>
    match C.subscriptResult (C.typeOf obj), C.tupleElements (C.typeOf obj) with
    | some _, _ => (C.subscriptReturns (C.typeOf obj)).forwardLike
    | none, some _ => C.getReturns (C.typeOf obj) n
    | none, none => (C.memberReturns (C.typeOf obj) n).forwardLike
  | .identifier name, obj =>
    match (C.members (C.typeOf obj)).findIdx? fun m => m.1 == some name.chars with
    | some index => (C.memberReturns (C.typeOf obj) index).forwardLike
    | none => .gone

/-- What the path reaches from an object at a place is there at the end. -/
def Lasts : List Step → C.Obj → Place → Prop
  | [], _, place => place ≠ .within
  | step :: path, obj, place => ∀ obj', step.eval C obj = some obj' →
    ∃ place', (step.returned C obj).place place = some place' ∧ Lasts path obj' place'

/-- The number fits into the `unsigned` of `stou`. -/
def Step.Fits : Step → Prop
  | .number n => n < 2 ^ 32
  | .identifier _ => True

instance : DecidablePred Step.Fits
  | .number n => inferInstanceAs (Decidable (n < 2 ^ 32))
  | .identifier _ => isTrue trivial

/-! ## Resolution -/

/-- What begins with an identifier is no number. -/
theorem isInteger_identifier (name : Identifier) (rest : StringView) : isInteger (name.chars ++ rest) = false := by
  obtain ⟨c, cs, hchars, hdigit, hminus⟩ := name.head
  rw [hchars, List.cons_append, isInteger_cons _ hminus, hdigit, Bool.false_and]

theorem dot_not_mem_spell (step : Step) : '.' ∉ step.spell := by
  cases step with
  | number n =>
    intro hmem
    have hdigit := isDigit_of_mem_toDigits hmem
    exact absurd hdigit (by decide)
  | identifier name => exact name.noDots

theorem spell_ne_nil (step : Step) : step.spell ≠ [] := by
  cases step with
  | number n => exact Nat.toDigits_ne_nil
  | identifier name =>
    obtain ⟨c, rest, hchars, -⟩ := name.head
    show name.chars ≠ []
    rw [hchars]
    exact List.cons_ne_nil c rest

theorem spellPath_cons (step : Step) (path : List Step) : ∃ rest, spellPath (step :: path) = step.spell ++ rest := by
  cases path with
  | nil => exact ⟨[], by simp [spellPath]⟩
  | cons next path =>
    refine ⟨'.' :: spellPath (next :: path), ?_⟩
    unfold spellPath
    rw [List.map_cons, List.intercalate_cons_of_ne_nil (by simp)]
    simp

theorem splitDots_spellPath {path : List Step} (hne : path ≠ []) : splitDots (spellPath path) = path.map Step.spell := by
  obtain ⟨step, path, rfl⟩ := List.exists_cons_of_ne_nil hne
  obtain ⟨rest, hrest⟩ := spellPath_cons step path
  have hchars : spellPath (step :: path) ≠ [] := by
    rw [hrest]
    exact fun h => spell_ne_nil step (List.append_eq_nil_iff.mp h).1
  unfold splitDots
  rw [if_neg hchars]
  unfold spellPath
  apply List.splitOn_intercalate
  · intro l hl
    obtain ⟨s, -, rfl⟩ := List.mem_map.mp hl
    exact dot_not_mem_spell s
  · simp

variable {C}

/-- The members are looked up by name as `find_if` would. -/
theorem getMemberIndex_eq {type : C.Ty} {name : StringView} {index : Nat} (h : getMemberIndex C type name = some index)
    (hindex : index < (C.members type).length) :
    (C.members type).findIdx? (fun m => m.1 == some name) = some index := by
  obtain ⟨names, hnames, heq⟩ := Option.map_eq_some_iff.mp h
  have hmembers : (C.members type).map Prod.fst = names.map some := by
    clear h heq hindex
    generalize C.members type = members at hnames ⊢
    induction members generalizing names with
    | nil =>
      cases hnames
      rfl
    | cons m members ih =>
      simp only [List.mapM_cons, Option.bind_eq_bind, Option.bind_eq_some_iff, Option.pure_def,
        Option.some.injEq] at hnames
      obtain ⟨name, hname, rest, hrest, rfl⟩ := hnames
      rw [List.map_cons, ih rest hrest, hname]
      rfl
  have hlength : names.length = (C.members type).length := by
    have := congrArg List.length hmembers
    simpa using this.symm
  by_cases hmem : name ∈ names
  · rw [if_pos hmem] at heq
    have hfind : (C.members type).findIdx? (fun m => m.1 == some name) =
        ((C.members type).map Prod.fst).findIdx? (· == some name) := by
      rw [List.findIdx?_map]
      rfl
    rw [hfind, hmembers, List.findIdx?_map, ← heq]
    have hsome : ((fun x => x == some name) ∘ some) = fun x : StringView => x == name := by
      funext x
      simp
    rw [hsome]
    simpa [List.idxOf] using List.findIdx?_eq_some_of_exists ⟨name, hmem, by simp⟩
  · rw [if_neg hmem] at heq
    have := C.members_length type
    omega

/-- A resolved step does what the step means, and ends in an object of the resolved type. -/
theorem resolveSubfield_spec {step : Step} (hfits : step.Fits) {obj : C.Obj} {field : Field} {type : C.Ty}
    (h : resolveSubfield C (C.typeOf obj) step.spell = some (field, type)) :
    field.object C obj = step.eval C obj ∧ field.returned C obj = step.returned C obj ∧
      ∀ obj', field.object C obj = some obj' → C.typeOf obj' = type := by
  cases step with
  | number n =>
    have hstou : stou (Nat.toDigits 10 n) = n := by
      rw [stou_toDigits, Nat.mod_eq_of_lt hfits]
    unfold resolveSubfield at h
    rw [Step.spell, isInteger_toDigits, if_pos rfl, hstou] at h
    simp only [Step.eval, Step.returned]
    cases hsub : C.subscriptResult (C.typeOf obj) with
    | some t =>
      simp only [hsub, Option.some.injEq, Prod.mk.injEq] at h
      obtain ⟨rfl, rfl⟩ := h
      exact ⟨rfl, rfl, fun _ => C.typeOf_subscript hsub⟩
    | none =>
      cases htuple : C.tupleElements (C.typeOf obj) with
      | some ts =>
        simp only [hsub, htuple, Option.map_eq_some_iff, Prod.mk.injEq] at h
        obtain ⟨t, ht, rfl, rfl⟩ := h
        obtain ⟨hlt, -⟩ := List.getElem?_eq_some_iff.mp ht
        exact ⟨(if_pos hlt).symm, rfl, fun _ => C.typeOf_get htuple ht⟩
      | none =>
        simp only [hsub, htuple, Option.map_eq_some_iff, Prod.mk.injEq] at h
        obtain ⟨m, hm, rfl, rfl⟩ := h
        obtain ⟨hlt, -⟩ := List.getElem?_eq_some_iff.mp hm
        exact ⟨(if_pos hlt).symm, rfl, fun _ => C.typeOf_member hm⟩
  | identifier name =>
    unfold resolveSubfield at h
    have hinteger : isInteger name.chars = false := by
      have happend := isInteger_identifier name []
      rwa [List.append_nil] at happend
    rw [Step.spell, hinteger, if_neg Bool.false_ne_true] at h
    simp only [Option.bind_eq_bind, Option.bind_eq_some_iff, Option.some.injEq, Prod.mk.injEq] at h
    obtain ⟨index, hindex, m, hm, rfl, rfl⟩ := h
    obtain ⟨hlt, -⟩ := List.getElem?_eq_some_iff.mp hm
    have hfind := getMemberIndex_eq hindex hlt
    refine ⟨?_, ?_, fun _ => C.typeOf_member hm⟩
    · rw [Step.eval, hfind]
      rfl
    · rw [Step.returned, hfind]
      rfl

/-- Where all that is returned are references to parts, everything lasts. -/
theorem lasts_of_part (hsubscript : ∀ t, C.subscriptReturns t = .part) (hget : ∀ t n, C.getReturns t n = .part)
    (hmember : ∀ t n, C.memberReturns t n = .part) (path : List Step) (obj : C.Obj) : Lasts C path obj .lasting := by
  induction path generalizing obj with
  | nil => exact nofun
  | cons step path ih =>
    intro obj' heval
    refine ⟨.lasting, ?_, ih obj'⟩
    cases step with
    | number n =>
      simp only [Step.returned, hsubscript, hget, hmember]
      split <;> rfl
    | identifier name =>
      simp only [Step.eval] at heval
      simp only [Step.returned, hmember]
      cases hfind : (C.members (C.typeOf obj)).findIdx? fun m => m.1 == some name.chars with
      | none =>
        rw [hfind] at heval
        cases heval
      | some index => rfl

theorem resolveSubfields_spec {path : List Step} (hfits : ∀ step ∈ path, step.Fits) {obj : C.Obj} {place : Place}
    {fields : List Field} (h : resolveSubfields C (C.typeOf obj) (path.map Step.spell) = some fields)
    (hlasts : Lasts C path obj place) :
    ((fields.foldlM (fun x (f : Field) => f.apply C x) (obj, place)).bind fun x =>
      if x.2 = .within then none else some x.1) =
      evalPath C path obj := by
  induction path generalizing obj place fields with
  | nil =>
    cases h
    exact if_neg hlasts
  | cons step path ih =>
    simp only [List.map_cons, resolveSubfields, Option.bind_eq_bind, Option.bind_eq_some_iff, Option.some.injEq] at h
    obtain ⟨⟨field, type⟩, hstep, rest, hrest, rfl⟩ := h
    obtain ⟨heval, hreturned, htype⟩ := resolveSubfield_spec (hfits step List.mem_cons_self) hstep
    unfold evalPath
    rw [List.foldlM_cons, List.foldlM_cons, ← heval, Field.apply]
    cases hobject : field.object C obj with
    | none => rfl
    | some obj' =>
      obtain rfl := htype obj' hobject
      obtain ⟨place', hplace, hlasts'⟩ := hlasts obj' (heval ▸ hobject)
      have happly : (field.returned C obj).place place = some place' := hreturned ▸ hplace
      simp only [happly, Option.bind_eq_bind, Option.bind_some]
      exact ih (fun s hs => hfits s (List.mem_cons_of_mem step hs)) hrest hlasts'

/-- **Resolution is evaluation.** An accessor resolved with the type of an argument gives
the value of the path on the argument, if this lasts. -/
theorem getAccessor_spec {path : List Step} (hne : path ≠ []) (hfits : ∀ step ∈ path, step.Fits) {index : Nat}
    {type : C.Ty} {a : Accessor} (h : getAccessor C (spellPath path) index type = some a) :
    a.index = index ∧ ∀ obj, C.typeOf obj = type → Lasts C path obj .lasting → a.get C obj = evalPath C path obj := by
  unfold getAccessor at h
  rw [splitDots_spellPath hne] at h
  obtain ⟨fields, hfields, rfl⟩ := Option.map_eq_some_iff.mp h
  refine ⟨rfl, ?_⟩
  rintro obj rfl hlasts
  exact resolveSubfields_spec hfits hfields hlasts

end Erl.Format
