import Erl.Expect.Verbose
import Erl.Lib.Infix
import Erl.Util.Strings

/-!
# What the text of an expression tells

`to_string` prints an expression with its values, for a failure report, or with names, for
the description of a constraint (`_impl/expect.hpp`, `_impl/config/args.hpp`). Either text
determines the operators, and the operands as printed.
-/

namespace Erl.Expect
open Erl.Expect.Expr Util
open Infix (Plain)

variable {K V : Type}

def Operator.chars (op : Operator) : List Char := op.text.toList

theorem Operator.plain_chars (op : Operator) : Plain op.chars := by
  cases op <;> decide

theorem Operator.chars_injective : Function.Injective Operator.chars := by
  intro op op' same
  cases op <;> cases op' <;> first | rfl | exact absurd same (by decide)

namespace Expr

/-- The expression with its operands as printed. -/
def shown (printer : Printer K V) (args : List V) : Expr K → Option (Infix.Tree Operator)
  | placeholder idx => (args[idx]?).map fun value => .atom (printer.value value).toList
  | constant value => some (.atom (printer.constant value).toList)
  | binaryExpr op rhs lhs => do
    let left ← rhs.shown printer args
    let right ← lhs.shown printer args
    some (.node op left right)

/-- `to_string(replacements)`; constants are printed by `util::to_string`. -/
def toStringReplaced (replacements : List StringView) : Expr Int64 → Option String :=
  toText ⟨String.ofList, fun value => String.ofList (toStringInt value)⟩ replacements

/-- `Argument::stringify_constraint`, for an expectation of the member `identifier`. -/
def stringifyConstraint (identifier : StringView) (constraint : Expr Int64) : Option StringView :=
  (constraint.expect.toStringReplaced [identifier]).map fun text =>
    (text.toList.drop 1).take (text.toList.length - 2)

end Expr

/-- The characters of a name, which does not begin like a number. -/
def IsIdentifier (name : StringView) : Prop := Plain name ∧ ∀ c ∈ name.head?, isDigit c = false ∧ c ≠ '-'

section
variable {printer : Printer K V} {args : List V}

/-- The text of an expression is that of what it shows. -/
theorem shown_of_toText (values : ∀ v ∈ args, Plain (printer.value v).toList)
    (constants : ∀ c, Plain (printer.constant c).toList) {e : Expr K} {text : String}
    (h : e.toText printer args = some text) :
    ∃ tree, e.shown printer args = some tree ∧ tree.Plain ∧ tree.text Operator.chars = text.toList := by
  induction e generalizing text with
  | placeholder idx =>
    rw [toText] at h
    obtain ⟨value, here, rfl⟩ := Option.map_eq_some_iff.mp h
    exact ⟨.atom (printer.value value).toList, by rw [shown, here]; rfl, values value (List.mem_of_getElem? here), rfl⟩
  | constant c =>
    cases h
    exact ⟨.atom (printer.constant c).toList, rfl, constants c, rfl⟩
  | binaryExpr op rhs lhs ihr ihl =>
    rw [toText] at h
    split at h
    · cases h
    · cases left : rhs.toText printer args with
      | none => simp [left] at h
      | some l =>
        cases right : lhs.toText printer args with
        | none => simp [left, right] at h
        | some r =>
          simp only [left, right, Option.bind_eq_bind, Option.bind_some, Option.some.injEq] at h
          obtain ⟨s, shown_l, plain_l, text_l⟩ := ihr left
          obtain ⟨t, shown_r, plain_r, text_r⟩ := ihl right
          refine ⟨.node op s t, by simp [shown, shown_l, shown_r], ⟨plain_l, plain_r⟩, ?_⟩
          rw [← h, Infix.Tree.text, text_l, text_r]
          simp [Operator.chars]

end

/-! ## Constraints -/

theorem isNode_expect {e : Expr K} (node : e.isNode = true) : e.expect.isNode = true := by
  cases e with
  | placeholder idx => cases node
  | constant value => cases node
  | binaryExpr op rhs lhs =>
    unfold expect transform
    split
    · split
      · rfl
      · split
        · rfl
        · split <;> rfl
    · rfl

/-- Without the outer brackets nothing is lost. -/
theorem strip_text_inj {name : Operator → List Char} {op op' : Operator} {a b a' b' : Infix.Tree Operator}
    (same : let text := (Infix.Tree.node op a b).text name; let text' := (Infix.Tree.node op' a' b').text name
      (text.drop 1).take (text.length - 2) = (text'.drop 1).take (text'.length - 2)) :
    (Infix.Tree.node op a b).text name = (Infix.Tree.node op' a' b').text name := by
  have strip : ∀ inner : List Char,
      (('(' :: (inner ++ [')'])).drop 1).take (('(' :: (inner ++ [')'])).length - 2) = inner := by
    intro inner
    simp
  have bracketed : ∀ (op : Operator) (a b : Infix.Tree Operator), (Infix.Tree.node op a b).text name =
      '(' :: ((a.text name ++ ' ' :: (name op ++ ' ' :: b.text name)) ++ [')']) := by
    intro op a b
    simp [Infix.Tree.text]
  simp only [bracketed, strip] at same
  rw [bracketed, bracketed, same]

theorem plain_toStringInt (value : Int64) : Plain (toStringInt value) := by
  have digits : ∀ v : UInt64, ∀ c ∈ utos v, Infix.isMark c = false := by
    intro v c mem
    have digit := isDigit_of_mem_utos mem
    unfold Infix.isMark
    cases h : c == '(' || c == ')' || c == ' ' with
    | false => rfl
    | true =>
      simp only [Bool.or_eq_true, beq_iff_eq] at h
      rcases h with (rfl | rfl) | rfl <;> cases digit
  unfold toStringInt
  split
  · refine ⟨List.cons_ne_nil _ _, List.forall_mem_cons.mpr ⟨rfl, digits _⟩⟩
  · exact ⟨utos_ne_nil _, digits _⟩

theorem IsIdentifier.ne_toStringInt {name : StringView} (h : IsIdentifier name) (value : Int64) :
    name ≠ toStringInt value := by
  rintro rfl
  have first := h.2
  unfold toStringInt at first
  split at first
  · exact (first '-' rfl).2 rfl
  · obtain ⟨c, rest, digits⟩ := List.exists_cons_of_ne_nil (utos_ne_nil value.toUInt64)
    have digit := isDigit_of_mem_utos (digits ▸ List.mem_cons_self : c ∈ utos value.toUInt64)
    rw [digits] at first
    exact absurd digit (by rw [(first c rfl).1]; exact Bool.false_ne_true)

theorem shown_eq_node {printer : Printer K V} {args : List V} {e : Expr K} {op : Operator} {s t : Infix.Tree Operator}
    (h : e.shown printer args = some (.node op s t)) :
    ∃ rhs lhs, e = binaryExpr op rhs lhs ∧ rhs.shown printer args = some s ∧ lhs.shown printer args = some t := by
  cases e with
  | placeholder idx =>
    obtain ⟨value, -, same⟩ := Option.map_eq_some_iff.mp h
    cases same
  | constant c => cases h
  | binaryExpr op' rhs lhs =>
    cases left : rhs.shown printer args with
    | none => simp [shown, left] at h
    | some l =>
      cases right : lhs.shown printer args with
      | none => simp [shown, left, right] at h
      | some r =>
        simp only [shown, left, right, Option.bind_eq_bind, Option.bind_some, Option.some.injEq,
          Infix.Tree.node.injEq] at h
        obtain ⟨rfl, rfl, rfl⟩ := h
        exact ⟨rhs, lhs, rfl, left, right⟩

theorem exists_node_of_shown {printer : Printer K V} {args : List V} {e : Expr K} {tree : Infix.Tree Operator}
    (node : e.isNode = true) (h : e.shown printer args = some tree) : ∃ op s t, tree = .node op s t := by
  cases e with
  | placeholder idx => cases node
  | constant c => cases node
  | binaryExpr op rhs lhs =>
    cases tree with
    | node op s t => exact ⟨op, s, t, rfl⟩
    | atom text =>
      cases left : rhs.shown printer args with
      | none => simp [shown, left] at h
      | some l => cases right : lhs.shown printer args <;> simp [shown, left, right] at h

/-- The printer of constraints. -/
abbrev constraintPrinter : Printer Int64 StringView := ⟨String.ofList, fun value => String.ofList (toStringInt value)⟩

theorem shown_eq_atom {identifier text : StringView} {e : Expr Int64}
    (h : e.shown constraintPrinter [identifier] = some (.atom text)) :
    (e = placeholder 0 ∧ text = identifier) ∨ ∃ c, e = constant c ∧ text = toStringInt c := by
  cases e with
  | placeholder idx =>
    obtain ⟨value, found, same⟩ := Option.map_eq_some_iff.mp h
    cases idx with
    | zero =>
      cases found
      rw [Infix.Tree.atom.injEq, String.toList_ofList] at same
      exact .inl ⟨rfl, same.symm⟩
    | succ idx => cases found
  | constant c =>
    have same := Infix.Tree.atom.inj (Option.some.inj h)
    rw [String.toList_ofList] at same
    exact .inr ⟨c, rfl, same.symm⟩
  | binaryExpr op rhs lhs =>
    obtain ⟨op', s, t, same⟩ := exists_node_of_shown rfl h
    cases same

/-- With a name for the only placeholder, what is shown is the expression. -/
theorem eq_of_shown {identifier : StringView} (named : IsIdentifier identifier) {tree : Infix.Tree Operator} :
    ∀ {e e' : Expr Int64}, e.shown constraintPrinter [identifier] = some tree →
      e'.shown constraintPrinter [identifier] = some tree → e = e' := by
  induction tree with
  | atom text =>
    intro e e' h h'
    rcases shown_eq_atom h with ⟨rfl, rfl⟩ | ⟨c, rfl, rfl⟩
    · rcases shown_eq_atom h' with ⟨rfl, -⟩ | ⟨c, rfl, same⟩
      · rfl
      · exact absurd same (named.ne_toStringInt c)
    · rcases shown_eq_atom h' with ⟨rfl, same⟩ | ⟨c', rfl, same⟩
      · exact absurd same.symm (named.ne_toStringInt c)
      · rw [toStringInt_injective same]
  | node op s t ihs iht =>
    intro e e' h h'
    obtain ⟨rhs, lhs, rfl, left, right⟩ := shown_eq_node h
    obtain ⟨rhs', lhs', rfl, left', right'⟩ := shown_eq_node h'
    rw [ihs left left', iht right right']

/-- The description of a constraint determines the constraint. -/
theorem expect_eq_of_stringifyConstraint {identifier text : StringView} (named : IsIdentifier identifier)
    {e e' : Expr Int64} (node : e.isNode = true) (node' : e'.isNode = true)
    (h : stringifyConstraint identifier e = some text) (h' : stringifyConstraint identifier e' = some text) :
    e.expect = e'.expect := by
  have constants : ∀ c : Int64, Plain (constraintPrinter.constant c).toList := by
    intro c
    rw [String.toList_ofList]
    exact plain_toStringInt c
  have values : ∀ v ∈ [identifier], Plain (constraintPrinter.value v).toList := by
    intro v mem
    rw [List.mem_singleton.mp mem, String.toList_ofList]
    exact named.1
  obtain ⟨text_e, printed, stripped⟩ := Option.map_eq_some_iff.mp h
  obtain ⟨text_e', printed', stripped'⟩ := Option.map_eq_some_iff.mp h'
  obtain ⟨tree, shown_e, plain, text_tree⟩ := shown_of_toText values constants printed
  obtain ⟨tree', shown_e', plain', text_tree'⟩ := shown_of_toText values constants printed'
  obtain ⟨op, s, t, rfl⟩ := exists_node_of_shown (isNode_expect node) shown_e
  obtain ⟨op', s', t', rfl⟩ := exists_node_of_shown (isNode_expect node') shown_e'
  rw [← text_tree] at stripped
  rw [← text_tree'] at stripped'
  have texts := strip_text_inj (stripped.trans stripped'.symm)
  have trees := Infix.Tree.text_inj Operator.plain_chars Operator.chars_injective plain plain' texts
  exact eq_of_shown named shown_e (trees ▸ shown_e')

/-- **Texts.** Operands that print as plain texts given, two expressions with the same text in
a failure report have the same operators over the same printed operands; and two constraints
with the same description, of a member with an identifier, are the same. -/
theorem texts_determine (printer : Printer K V) (values : ∀ v, Plain (printer.value v).toList)
    (constants : ∀ c, Plain (printer.constant c).toList) :
    (∀ (e e' : Expr K) (args args' : List V) (text : String), e.toText printer args = some text →
      e'.toText printer args' = some text → e.shown printer args = e'.shown printer args') ∧
    ∀ (identifier : StringView) (e e' : Expr Int64) (text : StringView), IsIdentifier identifier → e.isNode = true →
      e'.isNode = true → stringifyConstraint identifier e = some text → stringifyConstraint identifier e' = some text →
      e.expect = e'.expect := by
  constructor
  · intro e e' args args' text h h'
    obtain ⟨tree, shown_e, plain, text_tree⟩ := shown_of_toText (fun v _ => values v) constants h
    obtain ⟨tree', shown_e', plain', text_tree'⟩ := shown_of_toText (fun v _ => values v) constants h'
    have trees := Infix.Tree.text_inj Operator.plain_chars Operator.chars_injective plain plain'
      (text_tree.trans text_tree'.symm)
    rw [shown_e, shown_e', trees]
  · intro identifier e e' text named node node' h h'
    exact expect_eq_of_stringifyConstraint named node node' h h'

/-- Numbers as `std::format` prints them. -/
def numberPrinter : Printer Int64 Int64 where
  value v := String.ofList (toStringInt v)
  constant c := String.ofList (toStringInt c)

/-- `_0 < 5` at 9 and `9 < _0` at 5 read alike, and `level < 5` is said of one constraint only. -/
theorem texts_determine_level :
    (binaryExpr .less (placeholder 0) (constant 5)).toText numberPrinter [9] = some "(9 < 5)" ∧
    (binaryExpr .less (placeholder 0) (constant 5)).shown numberPrinter [9] =
      (binaryExpr .less (constant 9) (placeholder 0)).shown numberPrinter [5] ∧
    stringifyConstraint "level".toList (binaryExpr .less (placeholder 0) (constant 5)) = some "level < 5".toList ∧
    stringifyConstraint "level".toList (binaryExpr .less (constant 5) (placeholder 0)) ≠ some "level < 5".toList := by
  have plain : ∀ v : Int64, Plain (String.ofList (toStringInt v)).toList := by
    intro v
    rw [String.toList_ofList]
    exact plain_toStringInt v
  have texts := texts_determine numberPrinter plain plain
  refine ⟨rfl, texts.1 _ _ [9] [5] "(9 < 5)" rfl rfl, rfl, fun same => ?_⟩
  have level : IsIdentifier "level".toList := by
    refine ⟨by decide, fun c first => ?_⟩
    cases first
    decide
  have constraints := texts.2 "level".toList _ (binaryExpr .less (placeholder 0) (constant 5)) _ level rfl rfl same rfl
  exact absurd constraints (by decide)

end Erl.Expect
