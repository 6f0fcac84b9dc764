import Erl.Expect.Verbose

/-!
# Guards

C++ evaluates the right operand of `&&` and `||` only where the left one leaves the result
open. `BinaryExpr::eval` hands both operands to `eval_operator` as values, so it has
evaluated both before (`_impl/expect.hpp`). The two evaluations agree on every expression
that can be evaluated in all of its parts, if a false one among them has a text.
-/

namespace Erl.Expect
open Erl.Expect.Expr

/-- A domain that contains the two truth values, which `&&` and `||` yield. -/
structure LogicalDomain (K V : Type) extends Domain K V where
  ofBool : Bool → V
  truth_ofBool : ∀ b, truth (ofBool b) = b
  conj_eq : ∀ x y, evalOperator .ampersandAmpersand x y = some (ofBool (truth x && truth y))
  disj_eq : ∀ x y, evalOperator .pipePipe x y = some (ofBool (truth x || truth y))

/-- `bool` promoted to `int`. -/
def intLogical : LogicalDomain Int Int where
  toDomain := intDomain
  ofBool b := if b then 1 else 0
  truth_ofBool b := by cases b <;> rfl
  conj_eq x y := by
    by_cases hx : x = 0 <;> by_cases hy : y = 0 <;> simp [intDomain, intOperator, hx, hy]
  disj_eq x y := by
    by_cases hx : x = 0 <;> by_cases hy : y = 0 <;> simp [intDomain, intOperator, hx, hy]

variable {K V : Type}

/-- The value of the expression by the rules of C++; none where it has none, as for a
division or modulo by zero that is evaluated. -/
def Expr.shortCircuit (D : LogicalDomain K V) (args : List V) : Expr K → Option V
  | placeholder idx => args[idx]?
  | constant value => some (D.constant value)
  | binaryExpr op rhs lhs => do
    let left ← rhs.shortCircuit D args
    if op = .ampersandAmpersand && !D.truth left then some (D.ofBool false)
    else if op = .pipePipe && D.truth left then some (D.ofBool true)
    else do
      let right ← lhs.shortCircuit D args
      D.evalOperator op left right

section
variable {D : LogicalDomain K V} {args : List V}

/-- Where evaluating both operands works, so does evaluating one. -/
theorem shortCircuit_of_eval {e : Expr K} {value : V} (h : e.eval D.toDomain args = some value) :
    e.shortCircuit D args = some value := by
  induction e generalizing value with
  | placeholder idx => exact h
  | constant c => exact h
  | binaryExpr op rhs lhs ihr ihl =>
    obtain ⟨x, y, left, right, result⟩ := eval_operands h
    simp only [shortCircuit, ihr left, ihl right, Option.bind_eq_bind, Option.bind_some]
    split
    · rename_i skipped
      simp only [Bool.and_eq_true, decide_eq_true_eq, Bool.not_eq_true'] at skipped
      rw [skipped.1, D.conj_eq, skipped.2] at result
      exact result
    · split
      · rename_i skipped
        simp only [Bool.and_eq_true, decide_eq_true_eq] at skipped
        rw [skipped.1, D.disj_eq, skipped.2] at result
        exact result
      · exact result

/-- Evaluating an expression evaluates all of its parts. -/
theorem eval_of_mem_subterms {e t : Expr K} (h : (e.eval D.toDomain args).isSome) (mem : t ∈ e.subterms) :
    (t.eval D.toDomain args).isSome := by
  induction e with
  | placeholder idx => rwa [List.mem_singleton.mp mem]
  | constant c => rwa [List.mem_singleton.mp mem]
  | binaryExpr op rhs lhs ihr ihl =>
    obtain ⟨value, evaluated⟩ := Option.isSome_iff_exists.mp h
    obtain ⟨x, y, left, right, -⟩ := eval_operands evaluated
    rw [subterms, List.mem_cons, List.mem_append] at mem
    rcases mem with rfl | mem | mem
    · exact h
    · exact ihr (by rw [left]; rfl) mem
    · exact ihl (by rw [right]; rfl) mem

theorem isNode_of_hasConstantPair {e : Expr K} (h : e.HasConstantPair) : e.isNode := by
  cases e with
  | placeholder idx => exact absurd h not_hasConstantPair_placeholder
  | constant c => exact absurd h not_hasConstantPair_constant
  | binaryExpr op rhs lhs => rfl

/-- `eval` works exactly on the expressions that can be evaluated in all their parts. -/
theorem eval_isSome_iff {e : Expr K} :
    (e.eval D.toDomain args).isSome ↔ ∀ t ∈ e.subterms, (t.shortCircuit D args).isSome := by
  induction e with
  | placeholder idx => simp [subterms, eval, shortCircuit]
  | constant c => simp [subterms, eval, shortCircuit]
  | binaryExpr op rhs lhs ihr ihl =>
    have parts : (∀ t ∈ (binaryExpr op rhs lhs).subterms, (t.shortCircuit D args).isSome) ↔
        ((binaryExpr op rhs lhs).shortCircuit D args).isSome ∧ (rhs.eval D.toDomain args).isSome ∧
          (lhs.eval D.toDomain args).isSome := by
      rw [ihr, ihl, subterms, List.forall_mem_cons, List.forall_mem_append]
    rw [parts]
    constructor
    · intro defined
      obtain ⟨value, h⟩ := Option.isSome_iff_exists.mp defined
      obtain ⟨x, y, left, right, -⟩ := eval_operands h
      rw [shortCircuit_of_eval h, left, right]
      exact ⟨rfl, rfl, rfl⟩
    · rintro ⟨defined, left, right⟩
      obtain ⟨x, left⟩ := Option.isSome_iff_exists.mp left
      obtain ⟨y, right⟩ := Option.isSome_iff_exists.mp right
      simp only [eval, left, right, Option.bind_eq_bind, Option.bind_some]
      simp only [shortCircuit, shortCircuit_of_eval left, shortCircuit_of_eval right, Option.bind_eq_bind,
        Option.bind_some] at defined
      split at defined
      · rename_i skipped
        simp only [Bool.and_eq_true, decide_eq_true_eq] at skipped
        rw [skipped.1, D.conj_eq]
        rfl
      · split at defined
        · rename_i skipped
          simp only [Bool.and_eq_true, decide_eq_true_eq] at skipped
          rw [skipped.1, D.disj_eq]
          rfl
        · exact defined

end

/-- Where the expression has a value by the rules of C++, `eval` and, in whatever order,
`eval_verbose` come to a result of the same truth value, with a text for each term reported. -/
def Guarded (D : LogicalDomain K V) (args : List V) (e : Expr K) : Prop :=
  ∀ expected, e.shortCircuit D args = some expected →
    (∃ value, e.eval D.toDomain args = some value ∧ D.truth value = D.truth expected) ∧
    ∀ (printer : Printer K V) (rhsFirst : Order K) (failed_terms : List (Option String)), ∃ (value : V) (texts : List String),
      e.evalVerbose D.toDomain printer rhsFirst args failed_terms =
        some (value, failed_terms ++ texts.map some) ∧
      D.truth value = D.truth expected

/-- **Guards.** `eval` and `eval_verbose` give every expression with a value by the rules of
C++ its truth value exactly where all of its subterms have values by these rules, those that
a guard skips included, and none that is false has a node over two constants in it. -/
theorem guarded_iff (D : LogicalDomain K V) (args : List V) (e : Expr K) :
    Guarded D args e ↔
      ((e.shortCircuit D args).isSome →
        (∀ t ∈ e.subterms, (t.shortCircuit D args).isSome) ∧
        ∀ t ∈ e.subterms, ∀ v, t.shortCircuit D args = some v → D.truth v = false → ¬ t.HasConstantPair) := by
  rw [← eval_isSome_iff]
  constructor
  · intro guarded defined
    obtain ⟨expected, h⟩ := Option.isSome_iff_exists.mp defined
    obtain ⟨⟨value, evaluated, -⟩, verbose⟩ := guarded expected h
    have parts : (e.eval D.toDomain args).isSome := by rw [evaluated]; rfl
    refine ⟨parts, fun t mem v short false_ pair => ?_⟩
    obtain ⟨w, evaluated_t⟩ := Option.isSome_iff_exists.mp (eval_of_mem_subterms parts mem)
    cases (shortCircuit_of_eval evaluated_t).symm.trans short
    have failed : t.isFailed D.toDomain args := by rw [isFailed_of_eval evaluated_t, false_]; rfl
    -- so its text is among those reported, and there is none for it
    let printer : Printer K V := ⟨fun _ => "", fun _ => ""⟩
    obtain ⟨value', texts, reported, -⟩ := verbose printer (fun _ => true) []
    rw [evalVerbose_eq, evaluated, Option.map_some, Option.some.injEq, Prod.mk.injEq,
      List.append_cancel_left_eq] at reported
    have told : t.toText printer args ∈ texts.map some := by
      rw [← reported.2]
      exact List.mem_map_of_mem (mem_falseNodes.mpr ⟨mem, isNode_of_hasConstantPair pair, failed⟩)
    obtain ⟨text, -, same⟩ := List.mem_map.mp told
    have complete : t.toText printer args = some (t.rendering printer args) := by
      rw [rendering_of_toText same.symm, same]
    exact (toText_eq_iff evaluated_t).mp complete pair
  · intro h expected short
    obtain ⟨parts, no_pair⟩ := h (by rw [short]; rfl)
    obtain ⟨value, evaluated⟩ := Option.isSome_iff_exists.mp parts
    have same : value = expected := by
      rw [shortCircuit_of_eval evaluated] at short
      exact Option.some.inj short
    refine ⟨⟨value, evaluated, congrArg D.truth same⟩, fun printer rhsFirst failed_terms => ?_⟩
    refine ⟨value, (e.falseNodes D.toDomain rhsFirst args).map (rendering printer args), ?_, congrArg D.truth same⟩
    rw [evalVerbose_eq, evaluated, Option.map_some, List.map_map]
    have texts : (e.falseNodes D.toDomain rhsFirst args).map (toText printer args) =
        (e.falseNodes D.toDomain rhsFirst args).map (some ∘ rendering printer args) := by
      apply List.map_congr_left
      intro t ht
      obtain ⟨mem, -, failed⟩ := mem_falseNodes.mp ht
      obtain ⟨w, evaluated_t⟩ := Option.isSome_iff_exists.mp (eval_of_mem_subterms parts mem)
      rw [isFailed_of_eval evaluated_t, Bool.not_eq_true'] at failed
      exact (toText_eq_iff evaluated_t).mpr (no_pair t mem w (shortCircuit_of_eval evaluated_t) failed)
    rw [texts]

/-- `_0 != 0 && 10 / _0 > 1`. -/
def guardedQuotient : Expr Int :=
  binaryExpr .ampersandAmpersand (binaryExpr .exclamationEquals (placeholder 0) (constant 0))
    (binaryExpr .greater (binaryExpr .slash (constant 10) (placeholder 0)) (constant 1))

/-- For zero C++ finds the expression false, and `eval` divides. -/
theorem not_guarded_zero : guardedQuotient.shortCircuit intLogical [0] = some 0 ∧
    guardedQuotient.eval intDomain [0] = none ∧ ¬ Guarded intLogical [0] guardedQuotient := by
  refine ⟨rfl, rfl, fun guarded => ?_⟩
  obtain ⟨⟨value, evaluated, -⟩, -⟩ := guarded 0 rfl
  cases evaluated

end Erl.Expect
