import Mathlib.Algebra.Group.Int.Defs
import Mathlib.Algebra.Group.Nat.Defs
import Mathlib.Data.List.Basic

/-!
# Expression trees of `erl::expect`

`BinaryExpr`, `Placeholder` and plain constants as one tree type, with `eval`,
`get_left_most`, `get_right_most` and `transform` as `_impl/expect.hpp` computes
them. The source names the fields of `BinaryExpr<OP, R, L>` after their template
parameters: `rhs` holds the operand written on the left and `lhs` the one written
on the right, and `eval` passes them in that order. The names are kept.
-/

namespace Erl.Expect

/-- The operators stamped out by `$make_op`. -/
inductive Operator where
  | less | lessEquals | greater | greaterEquals | equalsEquals | exclamationEquals
  | ampersandAmpersand | pipePipe
  | slash | star | percent | plus | minus
  | lessLess | greaterGreater
  deriving DecidableEq, Repr

def isComparison : Operator → Bool
  | .less | .lessEquals | .greater | .greaterEquals | .equalsEquals | .exclamationEquals => true
  | _ => false

/-- Trees over placeholders and constants of type `K`. -/
inductive Expr (K : Type) where
  | placeholder (idx : Nat)
  | constant (value : K)
  | binaryExpr (op : Operator) (rhs lhs : Expr K)
  deriving DecidableEq, Repr

/-- The values operands take, with the operators overloaded for them.
`evalOperator` is `none` where C++ gives no result (division by zero, overflow).
`truth` is the contextual conversion to `bool`; `&&` and `||` receive both operands
evaluated and combine their truth values. -/
structure Domain (K V : Type) where
  constant : K → V
  evalOperator : Operator → V → V → Option V
  truth : V → Bool
  comparison : ∀ op x y, isComparison op = true → ∃ z, evalOperator op x y = some z
  conj : ∀ x y, ∃ z, evalOperator .ampersandAmpersand x y = some z ∧ truth z = (truth x && truth y)
  disj : ∀ x y, ∃ z, evalOperator .pipePipe x y = some z ∧ truth z = (truth x || truth y)

/-- The value of an `int` expression, if it is representable. -/
def intResult (x : Int) : Option Int :=
  if -2 ^ 31 ≤ x ∧ x < 2 ^ 31 then some x else none

/-- Built-in operators on `int`; a comparison yields `bool`, promoted to 0 or 1. -/
def intOperator (op : Operator) (x y : Int) : Option Int :=
  match op with
  | .less => some (if x < y then 1 else 0)
  | .lessEquals => some (if x ≤ y then 1 else 0)
  | .greater => some (if y < x then 1 else 0)
  | .greaterEquals => some (if y ≤ x then 1 else 0)
  | .equalsEquals => some (if x = y then 1 else 0)
  | .exclamationEquals => some (if x = y then 0 else 1)
  | .ampersandAmpersand => some (if x ≠ 0 ∧ y ≠ 0 then 1 else 0)
  | .pipePipe => some (if x ≠ 0 ∨ y ≠ 0 then 1 else 0)
  | .slash => if y = 0 then none else intResult (x.tdiv y)
  | .percent => if y = 0 then none else (intResult (x.tdiv y)).map fun _ => x.tmod y
  | .star => intResult (x * y)
  | .plus => intResult (x + y)
  | .minus => intResult (x - y)
  | .lessLess => if 0 ≤ y ∧ y < 32 then some (Int.bmod (x * 2 ^ y.toNat) (2 ^ 32)) else none
  | .greaterGreater => if 0 ≤ y ∧ y < 32 then some (x / 2 ^ y.toNat) else none

/-- `int` operands, the domain of the annotations in `example/args.cpp`. -/
def intDomain : Domain Int Int where
  constant := id
  evalOperator := intOperator
  truth x := decide (x ≠ 0)
  comparison := by
    intro op x y h
    cases op <;> first | exact ⟨_, rfl⟩ | cases h
  conj x y := ⟨_, rfl, by by_cases hx : x = 0 <;> by_cases hy : y = 0 <;> simp [hx, hy]⟩
  disj x y := ⟨_, rfl, by by_cases hx : x = 0 <;> by_cases hy : y = 0 <;> simp [hx, hy]⟩

namespace Expr

variable {K V : Type}

/-- `Placeholder<Idx>` reads its argument; `BinaryExpr` evaluates both fields and
applies the operator. -/
def eval (D : Domain K V) (args : List V) : Expr K → Option V
  | placeholder idx => args[idx]?
  | constant value => some (D.constant value)
  | binaryExpr op rhs lhs => do
    let left ← rhs.eval D args
    let right ← lhs.eval D args
    D.evalOperator op left right

/-- Follows `lhs`; a field that is no `BinaryExpr` is returned as it is. -/
def getLeftMost : Expr K → Expr K
  | binaryExpr _ _ lhs => lhs.getLeftMost
  | e => e

/-- Follows `rhs`; a field that is no `BinaryExpr` is returned as it is. -/
def getRightMost : Expr K → Expr K
  | binaryExpr _ rhs _ => rhs.getRightMost
  | e => e

def isBinaryComparison : Expr K → Bool
  | binaryExpr op _ _ => isComparison op
  | _ => false

/-- The two overloads of `BinaryExpr::transform`: a comparison node is rewritten,
every other node is returned unchanged. -/
def transform : Expr K → Expr K
  | binaryExpr op rhs lhs =>
    if isComparison op then
      if rhs.isBinaryComparison && lhs.isBinaryComparison then
        binaryExpr .ampersandAmpersand
          (binaryExpr .ampersandAmpersand rhs.transform
            (binaryExpr op rhs.getLeftMost lhs.getRightMost))
          lhs.transform
      else if rhs.isBinaryComparison then
        binaryExpr .ampersandAmpersand rhs.transform (binaryExpr op rhs.getLeftMost lhs)
      else if lhs.isBinaryComparison then
        binaryExpr .ampersandAmpersand (binaryExpr op rhs lhs.getRightMost) lhs.transform
      else binaryExpr op rhs lhs
    else binaryExpr op rhs lhs
  | e => e

/-- `Expect{expr}.transform()`. -/
def expect (e : Expr K) : Expr K := e.transform

end Expr

end Erl.Expect
