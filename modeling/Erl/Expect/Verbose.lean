import Erl.Expect.Expr

/-!
# Failure reports

`eval_verbose` evaluates like `eval` and appends the text of every node whose result
converts to `false` (`_impl/expect.hpp`); the node may be an arithmetic one. C++ leaves
open which argument of `eval_operator` a node evaluates first, so the order is a parameter.
-/

namespace Erl.Expect
open Erl.Expect.Expr

variable {K V : Type}

/-- `util::to_string`. -/
def Operator.text : Operator → String
  | .less => "<"
  | .lessEquals => "<="
  | .greater => ">"
  | .greaterEquals => ">="
  | .equalsEquals => "=="
  | .exclamationEquals => "!="
  | .ampersandAmpersand => "&&"
  | .pipePipe => "||"
  | .slash => "/"
  | .star => "*"
  | .percent => "%"
  | .plus => "+"
  | .minus => "-"
  | .lessLess => "<<"
  | .greaterGreater => ">>"

/-- `std::format("\x7b\x7d", ...)` of a placeholder's value and of a constant. -/
structure Printer (K V : Type) where
  value : V → String
  constant : K → String

/-- Which of a node's operands is evaluated first: `rhs` where it says so. -/
abbrev Order (K : Type) := Expr K → Bool

namespace Expr

def isConstant : Expr K → Bool
  | constant _ => true
  | _ => false

/-- What stands for an operand in a text: `to_string(args)`, or a formatted constant. A node
over two constants has no branch to return from. -/
def toText (printer : Printer K V) (args : List V) : Expr K → Option String
  | placeholder idx => (args[idx]?).map printer.value
  | constant value => some (printer.constant value)
  | binaryExpr op rhs lhs =>
    if rhs.isConstant && lhs.isConstant then none
    else do
      let left ← rhs.toText printer args
      let right ← lhs.toText printer args
      some ("(" ++ left ++ " " ++ op.text ++ " " ++ right ++ ")")

/-- `eval_verbose`. A missing term is a `to_string` that does not return. -/
def evalVerbose (D : Domain K V) (printer : Printer K V) (rhsFirst : Order K) (args : List V) :
    Expr K → List (Option String) → Option (V × List (Option String))
  | placeholder idx, failed_terms => (args[idx]?).map fun value => (value, failed_terms)
  | constant value, failed_terms => some (D.constant value, failed_terms)
  | binaryExpr op rhs lhs, failed_terms => do
    let (left, right, failed_terms) ←
      if rhsFirst (binaryExpr op rhs lhs) then do
        let (left, failed_terms) ← rhs.evalVerbose D printer rhsFirst args failed_terms
        let (right, failed_terms) ← lhs.evalVerbose D printer rhsFirst args failed_terms
        pure (left, right, failed_terms)
      else do
        let (right, failed_terms) ← lhs.evalVerbose D printer rhsFirst args failed_terms
        let (left, failed_terms) ← rhs.evalVerbose D printer rhsFirst args failed_terms
        pure (left, right, failed_terms)
    let result ← D.evalOperator op left right
    if !D.truth result then
      pure (result, failed_terms ++ [(binaryExpr op rhs lhs).toText printer args])
    else pure (result, failed_terms)

/-- The expression and everything it is built from. -/
def subterms : Expr K → List (Expr K)
  | binaryExpr op rhs lhs => binaryExpr op rhs lhs :: (rhs.subterms ++ lhs.subterms)
  | e => [e]

def isNode : Expr K → Bool
  | binaryExpr .. => true
  | _ => false

/-- A comparison, conjunction or disjunction. -/
def isCondition : Expr K → Bool
  | binaryExpr op _ _ => isComparison op || op = .ampersandAmpersand || op = .pipePipe
  | _ => false

/-- Evaluates, to something that converts to `false`. -/
def isFailed (D : Domain K V) (args : List V) (e : Expr K) : Bool :=
  match e.eval D args with
  | some value => !D.truth value
  | none => false

/-- The nodes that evaluate to false, one entry for each occurrence, the children of a node
before it. -/
def falseNodes (D : Domain K V) (rhsFirst : Order K) (args : List V) : Expr K → List (Expr K)
  | binaryExpr op rhs lhs =>
    (if rhsFirst (binaryExpr op rhs lhs) then
        rhs.falseNodes D rhsFirst args ++ lhs.falseNodes D rhsFirst args
      else lhs.falseNodes D rhsFirst args ++ rhs.falseNodes D rhsFirst args) ++
      if (binaryExpr op rhs lhs).isFailed D args then [binaryExpr op rhs lhs] else []
  | _ => []

/-- The comparisons and logical terms among them: the failed conditions. -/
def failedConditions (D : Domain K V) (rhsFirst : Order K) (args : List V) (e : Expr K) : List (Expr K) :=
  (e.falseNodes D rhsFirst args).filter isCondition

/-- The text of a term. -/
def rendering (printer : Printer K V) (args : List V) : Expr K → String
  | placeholder idx => ((args[idx]?).map printer.value).getD ""
  | constant value => printer.constant value
  | binaryExpr op rhs lhs =>
    "(" ++ rhs.rendering printer args ++ " " ++ op.text ++ " " ++ lhs.rendering printer args ++ ")"

/-- Some node in the expression has two constants as its operands. -/
def HasConstantPair (e : Expr K) : Prop := ∃ op a b, binaryExpr op (constant a) (constant b) ∈ e.subterms

end Expr

section
variable {D : Domain K V} {printer : Printer K V} {rhsFirst : Order K} {args : List V}

theorem isFailed_of_eval {e : Expr K} {value : V} (h : e.eval D args = some value) :
    e.isFailed D args = !D.truth value := by
  rw [isFailed, h]

/-- **Evaluation.** Whatever the order, `eval_verbose` returns what `eval` does and reports
the nodes that evaluate to false. -/
theorem evalVerbose_eq (e : Expr K) (failed_terms : List (Option String)) :
    e.evalVerbose D printer rhsFirst args failed_terms = (e.eval D args).map fun value =>
      (value, failed_terms ++ (e.falseNodes D rhsFirst args).map (toText printer args)) := by
  induction e generalizing failed_terms with
  | placeholder idx => simp [evalVerbose, eval, falseNodes]
  | constant value => simp [evalVerbose, eval, falseNodes]
  | binaryExpr op rhs lhs ihr ihl =>
    cases left : rhs.eval D args with
    | none => cases order : rhsFirst (binaryExpr op rhs lhs) <;> simp [evalVerbose, eval, ihr, ihl, left, order]
    | some x =>
      cases right : lhs.eval D args with
      | none => cases order : rhsFirst (binaryExpr op rhs lhs) <;> simp [evalVerbose, eval, ihr, ihl, left, right, order]
      | some y =>
        cases result : D.evalOperator op x y with
        | none =>
          cases order : rhsFirst (binaryExpr op rhs lhs) <;>
            simp [evalVerbose, eval, ihr, ihl, left, right, order, result]
        | some z =>
          have value : (binaryExpr op rhs lhs).eval D args = some z := by simp [eval, left, right, result]
          have failed := isFailed_of_eval value
          cases order : rhsFirst (binaryExpr op rhs lhs) <;> cases truth : D.truth z <;>
            simp [evalVerbose, falseNodes, failed, value, ihr, ihl, left, right, order, result, truth]

theorem mem_falseNodes {e t : Expr K} :
    t ∈ e.falseNodes D rhsFirst args ↔ t ∈ e.subterms ∧ t.isNode ∧ t.isFailed D args := by
  induction e with
  | placeholder idx =>
    refine ⟨fun none => absurd none List.not_mem_nil, ?_⟩
    rintro ⟨leaf, node, -⟩
    rw [List.mem_singleton.mp leaf] at node
    cases node
  | constant value =>
    refine ⟨fun none => absurd none List.not_mem_nil, ?_⟩
    rintro ⟨leaf, node, -⟩
    rw [List.mem_singleton.mp leaf] at node
    cases node
  | binaryExpr op rhs lhs ihr ihl =>
    have own : t ∈ (if (binaryExpr op rhs lhs).isFailed D args then [binaryExpr op rhs lhs] else []) ↔
        t = binaryExpr op rhs lhs ∧ t.isNode ∧ t.isFailed D args := by
      split
      · rename_i failed
        rw [List.mem_singleton]
        exact ⟨fun same => ⟨same, same ▸ rfl, same ▸ failed⟩, And.left⟩
      · rename_i holds
        refine ⟨fun none => absurd none List.not_mem_nil, ?_⟩
        rintro ⟨rfl, -, failed⟩
        exact absurd failed holds
    have children : t ∈ (if rhsFirst (binaryExpr op rhs lhs) then
          rhs.falseNodes D rhsFirst args ++ lhs.falseNodes D rhsFirst args
        else lhs.falseNodes D rhsFirst args ++ rhs.falseNodes D rhsFirst args) ↔
        (t ∈ rhs.subterms ∨ t ∈ lhs.subterms) ∧ t.isNode ∧ t.isFailed D args := by
      rw [or_and_right, ← ihr, ← ihl]
      split
      · exact List.mem_append
      · rw [List.mem_append, or_comm]
    rw [falseNodes, List.mem_append, own, children, subterms, List.mem_cons, List.mem_append, ← or_and_right, or_comm]

/-! ## Texts -/

theorem rendering_of_toText {e : Expr K} {text : String} (h : e.toText printer args = some text) :
    e.rendering printer args = text := by
  induction e generalizing text with
  | placeholder idx =>
    rw [toText] at h
    rw [rendering, h]
    rfl
  | constant value =>
    cases h
    rfl
  | binaryExpr op rhs lhs ihr ihl =>
    rw [toText] at h
    split at h
    · cases h
    · cases left : rhs.toText printer args with
      | none => simp [left] at h
      | some l =>
        cases right : lhs.toText printer args with
        | none => simp [left, right] at h
        | some r =>
          simp only [left, right, Option.bind_eq_bind, Option.bind_some, Option.some.injEq] at h
          rw [rendering, ihr left, ihl right, h]

theorem hasConstantPair_binaryExpr {op : Operator} {rhs lhs : Expr K} :
    (binaryExpr op rhs lhs).HasConstantPair ↔
      (rhs.isConstant && lhs.isConstant) = true ∨ rhs.HasConstantPair ∨ lhs.HasConstantPair := by
  constructor
  · rintro ⟨op', a, b, mem⟩
    rw [subterms, List.mem_cons, List.mem_append] at mem
    rcases mem with same | left | right
    · cases same
      exact .inl rfl
    · exact .inr (.inl ⟨op', a, b, left⟩)
    · exact .inr (.inr ⟨op', a, b, right⟩)
  · rintro (both | ⟨op', a, b, left⟩ | ⟨op', a, b, right⟩)
    · cases rhs <;> cases lhs <;> first | exact ⟨op, _, _, List.mem_cons_self⟩ | cases both
    · exact ⟨op', a, b, List.mem_cons_of_mem _ (List.mem_append_left _ left)⟩
    · exact ⟨op', a, b, List.mem_cons_of_mem _ (List.mem_append_right _ right)⟩

/-- The operands of a defined node are defined. -/
theorem eval_operands {op : Operator} {rhs lhs : Expr K} {value : V}
    (h : (binaryExpr op rhs lhs).eval D args = some value) :
    ∃ x y, rhs.eval D args = some x ∧ lhs.eval D args = some y ∧ D.evalOperator op x y = some value := by
  cases left : rhs.eval D args with
  | none => simp [eval, left] at h
  | some x =>
    cases right : lhs.eval D args with
    | none => simp [eval, left, right] at h
    | some y => exact ⟨x, y, rfl, rfl, by simpa [eval, left, right] using h⟩

@[simp] theorem not_hasConstantPair_placeholder {idx : Nat} : ¬ (placeholder idx : Expr K).HasConstantPair := by
  rintro ⟨op, a, b, mem⟩
  cases List.mem_singleton.mp mem

@[simp] theorem not_hasConstantPair_constant {c : K} : ¬ (constant c).HasConstantPair := by
  rintro ⟨op, a, b, mem⟩
  cases List.mem_singleton.mp mem

/-- The text of a defined expression comes to an end unless a node has two constants. -/
theorem toText_eq_iff {e : Expr K} {value : V} (h : e.eval D args = some value) :
    e.toText printer args = some (e.rendering printer args) ↔ ¬ e.HasConstantPair := by
  induction e generalizing value with
  | placeholder idx =>
    rw [eval] at h
    refine ⟨fun _ => not_hasConstantPair_placeholder, fun _ => ?_⟩
    simp [toText, rendering, h]
  | constant c => exact ⟨fun _ => not_hasConstantPair_constant, fun _ => rfl⟩
  | binaryExpr op rhs lhs ihr ihl =>
    obtain ⟨x, y, left, right, -⟩ := eval_operands h
    rw [hasConstantPair_binaryExpr, not_or, not_or, ← ihr left, ← ihl right, toText]
    cases both : rhs.isConstant && lhs.isConstant with
    | true => simp
    | false =>
      simp only [Bool.false_eq_true, if_false, not_false_eq_true, true_and]
      constructor
      · intro text
        cases l : rhs.toText printer args with
        | none => simp [l] at text
        | some _ =>
          cases r : lhs.toText printer args with
          | none => simp [l, r] at text
          | some _ => rw [rendering_of_toText l, rendering_of_toText r]; exact ⟨rfl, rfl⟩
      · rintro ⟨l, r⟩
        simp only [l, r, rendering, Option.bind_eq_bind, Option.bind_some]

theorem map_eq_map_filter_iff {α β : Type} {kept : α → Bool} {f g : α → β} {l : List α} :
    l.map f = (l.filter kept).map g ↔ ∀ t ∈ l, kept t = true ∧ f t = g t := by
  constructor
  · intro same t mem
    have count : (l.filter kept).length = l.length := by
      have := congrArg List.length same
      rw [List.length_map, List.length_map] at this
      exact this.symm
    have all : l.filter kept = l := List.filter_eq_self.mpr (List.length_filter_eq_length_iff.mp count)
    rw [all] at same
    exact ⟨List.length_filter_eq_length_iff.mp count t mem, List.map_inj_left.mp same t mem⟩
  · intro each
    rw [List.filter_eq_self.mpr fun t mem => (each t mem).1]
    exact List.map_inj_left.mpr fun t mem => (each t mem).2

end

/-- **Failure reports.** For every expression that evaluates, in whatever order: the terms
that `eval_verbose` appends are the renderings of the failed conditions, each occurrence
once and children before parents, exactly where no arithmetic term evaluates to false and no
failed condition has a node over two constants in it. -/
theorem reports_iff (D : Domain K V) (printer : Printer K V) (rhsFirst : Order K) (args : List V) (e : Expr K)
    (failed_terms : List (Option String)) (value : V) (h : e.eval D args = some value) :
    e.evalVerbose D printer rhsFirst args failed_terms = some (value, failed_terms ++
        (e.failedConditions D rhsFirst args).map fun t => some (t.rendering printer args)) ↔
      ∀ t ∈ e.subterms, t.isNode → t.isFailed D args → t.isCondition ∧ ¬ t.HasConstantPair := by
  rw [evalVerbose_eq, h, Option.map_some, Option.some.injEq, Prod.mk.injEq, List.append_cancel_left_eq,
    failedConditions, map_eq_map_filter_iff]
  simp only [true_and, mem_falseNodes]
  have each (t : Expr K) (failed : t.isFailed D args = true) :
      t.toText printer args = some (t.rendering printer args) ↔ ¬ t.HasConstantPair := by
    cases defined : t.eval D args with
    | none => simp [isFailed, defined] at failed
    | some v => exact toText_eq_iff defined
  constructor
  · intro all t mem node failed
    obtain ⟨condition, text⟩ := all t ⟨mem, node, failed⟩
    exact ⟨condition, (each t failed).mp text⟩
  · rintro all t ⟨mem, node, failed⟩
    obtain ⟨condition, no_pair⟩ := all t mem node failed
    exact ⟨condition, (each t failed).mpr no_pair⟩

/-- `int` values and constants, in decimal. -/
def intPrinter : Printer Int Int := ⟨toString, toString⟩

/-- `_0 - _1 >= 0`. -/
def notBelow : Expr Int := binaryExpr .greaterEquals (binaryExpr .minus (placeholder 0) (placeholder 1)) (constant 0)

/-- For 3 and 5 the comparison is the only failure. -/
theorem reports_below :
    notBelow.evalVerbose intDomain intPrinter (fun _ => true) [3, 5] [] = some (0, [] ++
      (notBelow.failedConditions intDomain (fun _ => true) [3, 5]).map fun t => some (t.rendering intPrinter [3, 5])) :=
  (reports_iff intDomain intPrinter (fun _ => true) [3, 5] notBelow [] 0 rfl).mpr (by
    intro t mem node failed
    simp only [notBelow, subterms, List.cons_append, List.nil_append, List.mem_cons, List.not_mem_nil, or_false] at mem
    rcases mem with rfl | rfl | rfl | rfl | rfl
    · refine ⟨rfl, ?_⟩
      simp [hasConstantPair_binaryExpr, isConstant]
    · cases failed
    · cases node
    · cases node
    · cases node)

/-- For 5 and 5 it holds, and the difference is reported. -/
theorem reports_equal :
    notBelow.evalVerbose intDomain intPrinter (fun _ => true) [5, 5] [] = some (1, [some "(5 - 5)"]) ∧
      notBelow.failedConditions intDomain (fun _ => true) [5, 5] = [] := by
  have nodes : notBelow.falseNodes intDomain (fun _ => true) [5, 5] =
      [binaryExpr .minus (placeholder 0) (placeholder 1)] := rfl
  rw [evalVerbose_eq, failedConditions, nodes]
  exact ⟨rfl, rfl⟩

end Erl.Expect
