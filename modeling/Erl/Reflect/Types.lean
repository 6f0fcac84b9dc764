import Erl.Lib.Ordered
import Mathlib.Algebra.Group.Int.Defs
import Mathlib.Algebra.Group.Nat.Defs
import Mathlib.Data.List.Nodup

/-!
# The serializable types and their values

`Ty` is the universe `Reflect` in `erl/reflect` is defined on: integers, enumerations,
pairs, aggregates, `std::variant`, arrays, and ranges constructible from an initializer
list, which are sequences or ordered associative containers. `Val` are the values of all
of them; `HasTy` says which value belongs to which type.
-/

namespace Erl.Reflect
open Ordered

inductive Width where
  | w8 | w16 | w32 | w64
deriving DecidableEq, Repr

def Width.bytes : Width → Nat
  | .w8 => 1
  | .w16 => 2
  | .w32 => 4
  | .w64 => 8

inductive IntKind where
  | bool
  | signed (width : Width)
  | unsigned (width : Width)
deriving DecidableEq, Repr

/-- `sizeof`. -/
def IntKind.size : IntKind → Nat
  | .bool => 1
  | .signed w | .unsigned w => w.bytes

def IntKind.InRange : IntKind → Int → Prop
  | .bool, i => i = 0 ∨ i = 1
  | .signed w, i => -(2 ^ (8 * w.bytes - 1)) ≤ i ∧ i < 2 ^ (8 * w.bytes - 1)
  | .unsigned w, i => 0 ≤ i ∧ i < 2 ^ (8 * w.bytes)

instance (k : IntKind) (i : Int) : Decidable (k.InRange i) := by
  cases k <;> unfold IntKind.InRange <;> infer_instance

/-- An integral type; several types share a kind. -/
structure IntType where
  name : String
  kind : IntKind
deriving DecidableEq, Repr

def uint32 : IntType := ⟨"unsigned int", .unsigned .w32⟩
def sizeT : IntType := ⟨"unsigned long", .unsigned .w64⟩

inductive Ty where
  | integral (type : IntType)
  | enumeration (name : String) (underlying : IntType)
  | pair (first second : Ty)
  /-- A class without bases; `members` are its non-static data members. -/
  | aggregate (name : String) (members : List Ty)
  | variant (alternatives : List Ty)
  | array (element : Ty) (n : Nat)
  /-- `vector`, `string`, `list`, … -/
  | sequence (name : String) (element : Ty)
  /-- `set`, `map`, `multiset`, …; the element of a map is a pair. -/
  | ordered (name : String) (element : Ty)

mutual
/-- `std::same_as`. -/
def Ty.same : Ty → Ty → Bool
  | .integral t, .integral u => t = u
  | .enumeration n t, .enumeration m u => n = m ∧ t = u
  | .pair a b, .pair c d => a.same c && b.same d
  | .aggregate n ts, .aggregate m us => n = m && Ty.sameAll ts us
  | .variant ts, .variant us => Ty.sameAll ts us
  | .array t n, .array u m => n = m && t.same u
  | .sequence n t, .sequence m u => n = m && t.same u
  | .ordered n t, .ordered m u => n = m && t.same u
  | _, _ => false

def Ty.sameAll : List Ty → List Ty → Bool
  | [], [] => true
  | t :: ts, u :: us => t.same u && Ty.sameAll ts us
  | _, _ => false
end

mutual
theorem Ty.same_iff (t u : Ty) : t.same u = true ↔ t = u := by
  cases t <;> cases u <;> simp [Ty.same, Ty.same_iff, Ty.sameAll_iff]
  all_goals tauto

theorem Ty.sameAll_iff (ts us : List Ty) : Ty.sameAll ts us = true ↔ ts = us := by
  cases ts <;> cases us <;> simp [Ty.sameAll, Ty.same_iff, Ty.sameAll_iff]
end

instance : DecidableEq Ty := fun t u => decidable_of_iff _ (Ty.same_iff t u)

mutual
/-- A variant counts its alternatives in `size_t` and has no two of the same type; the
converting constructor would not choose between those. -/
def Ty.proper : Ty → Bool
  | .integral _ | .enumeration .. => true
  | .pair a b => a.proper && b.proper
  | .aggregate _ ts => Ty.properAll ts
  | .variant ts => ts.Nodup && ts.length < 2 ^ 64 && Ty.properAll ts
  | .array t _ | .sequence _ t | .ordered _ t => t.proper

def Ty.properAll : List Ty → Bool
  | [] => true
  | t :: ts => t.proper && Ty.properAll ts
end

theorem Ty.properAll_iff {ts : List Ty} : Ty.properAll ts = true ↔ ∀ t ∈ ts, t.proper = true := by
  induction ts with
  | nil => simp [Ty.properAll]
  | cons t ts ih => simp [Ty.properAll, ih]

/-! ## Values -/

inductive Val where
  | int (i : Int)
  | pair (first second : Val)
  | aggregate (members : List Val)
  | variant (index : Nat) (value : Val)
  /-- An array, or a container read from begin to end. -/
  | list (elements : List Val)

/-- The ordered containers of a program, by the name of their type. -/
abbrev Containers := String → Comparator Val

section
variable (order : Containers)

mutual
/-- The values of a type. A valueless variant is none. -/
def Ty.admits : Ty → Val → Bool
  | .integral t, .int i => t.kind.InRange i
  | .enumeration _ t, .int i => t.kind.InRange i
  | .pair a b, .pair x y => a.admits x && b.admits y
  | .aggregate _ ts, .aggregate vs => Ty.admitsAll ts vs
  | .variant ts, .variant i v => Ty.admitsAt ts i v
  | .array t n, .list vs => vs.length = n && vs.all t.admits
  | .sequence _ t, .list vs => vs.all t.admits
  | .ordered name t, .list vs => vs.all t.admits && (order name).Sorted vs
  | _, _ => false

/-- One value for each type. -/
def Ty.admitsAll : List Ty → List Val → Bool
  | [], [] => true
  | t :: ts, v :: vs => t.admits v && Ty.admitsAll ts vs
  | _, _ => false

/-- A value of the type at an index. -/
def Ty.admitsAt : List Ty → Nat → Val → Bool
  | [], _, _ => false
  | t :: _, 0, v => t.admits v
  | _ :: ts, i + 1, v => Ty.admitsAt ts i v
end

theorem Ty.length_of_admitsAll {order : Containers} {ts : List Ty} {vs : List Val}
    (typed : Ty.admitsAll order ts vs = true) : vs.length = ts.length := by
  induction ts generalizing vs with
  | nil =>
    cases vs with
    | nil => rfl
    | cons => simp [Ty.admitsAll] at typed
  | cons t ts ih =>
    cases vs with
    | nil => simp [Ty.admitsAll] at typed
    | cons v vs =>
      simp only [Ty.admitsAll, Bool.and_eq_true] at typed
      rw [List.length_cons, List.length_cons, ih typed.2]

theorem Ty.admitsAll_iff {order : Containers} {ts : List Ty} {vs : List Val} (h : vs.length = ts.length) :
    Ty.admitsAll order ts vs = true ↔ ∀ p ∈ ts.zip vs, p.1.admits order p.2 = true := by
  induction ts generalizing vs with
  | nil =>
    obtain rfl := List.eq_nil_of_length_eq_zero h
    simp [Ty.admitsAll]
  | cons t ts ih =>
    cases vs with
    | nil => cases h
    | cons v vs => simp [Ty.admitsAll, ih (Nat.succ.inj h)]

end

mutual
/-- Every array and container inside has fewer than `2 ^ 32` elements. -/
def Val.small : Val → Bool
  | .int _ => true
  | .pair x y => x.small && y.small
  | .aggregate vs => Val.smallAll vs
  | .variant _ v => v.small
  | .list vs => vs.length < 2 ^ 32 && Val.smallAll vs

def Val.smallAll : List Val → Bool
  | [] => true
  | v :: vs => v.small && Val.smallAll vs
end

theorem Val.smallAll_iff {vs : List Val} : Val.smallAll vs = true ↔ ∀ v ∈ vs, v.small = true := by
  induction vs with
  | nil => simp [smallAll]
  | cons v vs ih => simp [smallAll, ih]

end Erl.Reflect
