import Erl.Expect.Expr

/-!
# Comparison chains

`a0 c1 a1 ... cn an` is read as the conjunction of its adjacent comparisons.
`transform` builds a conjunction too, but it takes an operand shared by two
comparison nodes through `get_left_most` / `get_right_most`, which run on into the
operand. `narrowed` lists the comparisons it really makes: `transform_decides`. A
free domain, where every expression is its own value and each comparison may hold
or fail at will, tells two different conjunctions apart.
-/

namespace Erl.Expect
open Erl.Expect.Expr

variable {K V : Type}

/-- `e` evaluates, and the result converts to `true` exactly when `P` holds. -/
def Decides (D : Domain K V) (args : List V) (e : Expr K) (P : Prop) : Prop :=
  ∃ r, e.eval D args = some r ∧ (D.truth r = true ↔ P)

theorem eval_binaryExpr {D : Domain K V} {args : List V} {op : Operator} {a b : Expr K} {x y : V}
    (ha : a.eval D args = some x) (hb : b.eval D args = some y) :
    (binaryExpr op a b).eval D args = D.evalOperator op x y := by
  simp [eval, ha, hb]

theorem Decides.congr {D : Domain K V} {args : List V} {e : Expr K} {P Q : Prop}
    (h : Decides D args e P) (same : P ↔ Q) : Decides D args e Q := by
  obtain ⟨r, he, hr⟩ := h
  exact ⟨r, he, hr.trans same⟩

theorem Decides.conj {D : Domain K V} {args : List V} {a b : Expr K} {P Q : Prop}
    (ha : Decides D args a P) (hb : Decides D args b Q) :
    Decides D args (binaryExpr .ampersandAmpersand a b) (P ∧ Q) := by
  obtain ⟨x, hx, px⟩ := ha
  obtain ⟨y, hy, qy⟩ := hb
  obtain ⟨z, hz, tz⟩ := D.conj x y
  exact ⟨z, (eval_binaryExpr hx hy).trans hz, by simp [tz, px, qy]⟩

theorem Decides.disj {D : Domain K V} {args : List V} {a b : Expr K} {P Q : Prop}
    (ha : Decides D args a P) (hb : Decides D args b Q) :
    Decides D args (binaryExpr .pipePipe a b) (P ∨ Q) := by
  obtain ⟨x, hx, px⟩ := ha
  obtain ⟨y, hy, qy⟩ := hb
  obtain ⟨z, hz, tz⟩ := D.disj x y
  exact ⟨z, (eval_binaryExpr hx hy).trans hz, by simp [tz, px, qy]⟩

/-- One comparison: its operator and the operands left and right of it. -/
abbrev Comparison (K : Type) := Operator × Expr K × Expr K

/-- The comparison evaluates to something true. -/
def Holds (D : Domain K V) (args : List V) (p : Comparison K) : Prop :=
  ∃ z, (binaryExpr p.1 p.2.1 p.2.2).eval D args = some z ∧ D.truth z = true

/-- A comparison of two defined operands is decided by `Holds`. -/
theorem Decides.comparison {D : Domain K V} {args : List V} {op : Operator} {a b : Expr K}
    (cmp : isComparison op = true) (ha : (a.eval D args).isSome) (hb : (b.eval D args).isSome) :
    Decides D args (binaryExpr op a b) (Holds D args (op, a, b)) := by
  obtain ⟨x, hx⟩ := Option.isSome_iff_exists.mp ha
  obtain ⟨y, hy⟩ := Option.isSome_iff_exists.mp hb
  obtain ⟨z, hz⟩ := D.comparison op x y cmp
  have he := (eval_binaryExpr hx hy).trans hz
  refine ⟨z, he, fun t => ⟨z, he, t⟩, ?_⟩
  rintro ⟨z', he', t⟩
  rw [he] at he'
  cases he'
  exact t

/-- The operands `a0, ..., an` of the maximal comparison tree at the root. -/
def operands : Expr K → List (Expr K)
  | binaryExpr op rhs lhs =>
    if isComparison op then operands rhs ++ operands lhs else [binaryExpr op rhs lhs]
  | e => [e]

/-- The comparison operators `c1, ..., cn` between them. -/
def comparators : Expr K → List Operator
  | binaryExpr op rhs lhs =>
    if isComparison op then comparators rhs ++ op :: comparators lhs else []
  | _ => []

/-- Pair each operator with the operands on its two sides. -/
def link : List (Expr K) → List Operator → List (Comparison K)
  | a :: b :: rest, c :: cs => (c, a, b) :: link (b :: rest) cs
  | _, _ => []

/-- The adjacent comparisons `a(i-1) ci ai`. -/
def adjacent (e : Expr K) : List (Comparison K) := link (operands e) (comparators e)

/-- Every adjacent comparison of the chain holds. -/
def ChainHolds (D : Domain K V) (args : List V) (e : Expr K) : Prop :=
  ∀ p ∈ adjacent e, Holds D args p

/-- A linked comparison takes its operator and operands from the two lists. -/
theorem mem_link {as : List (Expr K)} {cs : List Operator} {p : Comparison K} (h : p ∈ link as cs) :
    p.1 ∈ cs ∧ p.2.1 ∈ as ∧ p.2.2 ∈ as := by
  induction as generalizing cs with
  | nil => simp [link] at h
  | cons a as ih =>
    cases as with
    | nil => simp [link] at h
    | cons b as =>
      cases cs with
      | nil => simp [link] at h
      | cons c cs =>
        rcases List.mem_cons.mp h with rfl | h
        · simp
        · obtain ⟨hc, hl, hr⟩ := ih h
          exact ⟨List.mem_cons_of_mem _ hc, List.mem_cons_of_mem _ hl, List.mem_cons_of_mem _ hr⟩

theorem comparators_comparison {e : Expr K} {c : Operator} (h : c ∈ comparators e) : isComparison c = true := by
  induction e with
  | binaryExpr op rhs lhs ihr ihl =>
    by_cases cmp : isComparison op = true
    · simp only [comparators, cmp, if_true, List.mem_append, List.mem_cons] at h
      rcases h with h | rfl | h
      · exact ihr h
      · exact cmp
      · exact ihl h
    · simp [comparators, cmp] at h
  | _ => cases h

theorem operands_of_not_comparison {e : Expr K} (h : e.isBinaryComparison = false) : operands e = [e] := by
  cases e with
  | binaryExpr op rhs lhs =>
    simp only [isBinaryComparison] at h
    simp [operands, h]
  | _ => rfl

theorem comparators_of_not_comparison {e : Expr K} (h : e.isBinaryComparison = false) : comparators e = [] := by
  cases e with
  | binaryExpr op rhs lhs =>
    simp only [isBinaryComparison] at h
    simp [comparators, h]
  | _ => rfl

theorem adjacent_of_not_comparison {e : Expr K} (h : e.isBinaryComparison = false) : adjacent e = [] := by
  simp [adjacent, operands_of_not_comparison h, comparators_of_not_comparison h, link]

/-- A chain has one operand more than operators. -/
theorem operands_length (e : Expr K) : (operands e).length = (comparators e).length + 1 := by
  induction e with
  | binaryExpr op rhs lhs ihr ihl =>
    by_cases h : isComparison op = true
    · simp only [operands, comparators, h, if_true, List.length_append, List.length_cons, ihr, ihl]
      omega
    · simp [operands, comparators, h]
  | _ => rfl

theorem operands_ne_nil (e : Expr K) : operands e ≠ [] := by
  intro h
  have := operands_length e
  simp [h] at this

/-- Two linked lists joined by an operator: the joint compares the last operand of
the first with the first operand of the second. -/
theorem link_append (as : List (Expr K)) (cs : List Operator) (bs : List (Expr K)) (ds : List Operator)
    (c : Operator) (ha : as ≠ []) (hb : bs ≠ []) (len : as.length = cs.length + 1) :
    link (as ++ bs) (cs ++ c :: ds) = link as cs ++ (c, as.getLast ha, bs.head hb) :: link bs ds := by
  induction as generalizing cs with
  | nil => exact absurd rfl ha
  | cons a as ih =>
    cases cs with
    | nil =>
      have nil : as = [] := List.length_eq_zero_iff.mp (by simpa using len)
      subst nil
      cases bs with
      | nil => exact absurd rfl hb
      | cons b bs => simp [link]
    | cons c' cs =>
      cases as with
      | nil => simp at len
      | cons a' as =>
        have rest := ih cs (by simp) (by simpa using len)
        simp only [List.cons_append] at rest ⊢
        simp [link, rest]

def firstOperand (e : Expr K) : Expr K := (operands e).head (operands_ne_nil e)

def lastOperand (e : Expr K) : Expr K := (operands e).getLast (operands_ne_nil e)

/-- The chain of a comparison node: both sides, and the comparison between them. -/
theorem adjacent_binaryExpr {op : Operator} (cmp : isComparison op = true) (rhs lhs : Expr K) :
    adjacent (binaryExpr op rhs lhs) =
      adjacent rhs ++ (op, lastOperand rhs, firstOperand lhs) :: adjacent lhs := by
  simp only [adjacent, operands, comparators, cmp, if_true]
  exact link_append _ _ _ _ _ (operands_ne_nil rhs) (operands_ne_nil lhs) (operands_length rhs)

theorem lastOperand_mem (e : Expr K) : lastOperand e ∈ operands e := List.getLast_mem _

theorem firstOperand_mem (e : Expr K) : firstOperand e ∈ operands e := List.head_mem _

/-! ## What `transform` compares -/

/-- The operand `transform` puts left of an operator: the field itself, or its
left-most leaf when the field is a comparison. -/
def takeLeft (rhs : Expr K) : Expr K := if rhs.isBinaryComparison then rhs.getLeftMost else rhs

/-- The same for the operand right of an operator. -/
def takeRight (lhs : Expr K) : Expr K := if lhs.isBinaryComparison then lhs.getRightMost else lhs

/-- The comparisons of the chain with every shared operand narrowed to the leaf
next to the operator. -/
def narrowed : Expr K → List (Comparison K)
  | binaryExpr op rhs lhs =>
    if isComparison op then
      narrowed rhs ++ (op, takeLeft rhs, takeRight lhs) :: narrowed lhs
    else []
  | _ => []

theorem narrowed_of_not_comparison {e : Expr K} (h : e.isBinaryComparison = false) : narrowed e = [] := by
  cases e with
  | binaryExpr op rhs lhs =>
    simp only [isBinaryComparison] at h
    simp [narrowed, h]
  | _ => rfl

def isLeaf : Expr K → Bool
  | binaryExpr .. => false
  | _ => true

theorem isBinaryComparison_of_leaf {e : Expr K} (h : isLeaf e = true) : e.isBinaryComparison = false := by
  cases e with
  | binaryExpr => cases h
  | _ => rfl

theorem getLeftMost_lastOperand (e : Expr K) : (lastOperand e).getLeftMost = e.getLeftMost := by
  induction e with
  | binaryExpr op rhs lhs ihr ihl =>
    by_cases cmp : isComparison op = true
    · have last : lastOperand (binaryExpr op rhs lhs) = lastOperand lhs := by
        simp only [lastOperand, operands, cmp, if_true]
        exact List.getLast_append_of_ne_nil _ (operands_ne_nil lhs)
      rw [last, ihl]
      rfl
    · simp [lastOperand, operands, cmp]
  | _ => rfl

theorem getRightMost_firstOperand (e : Expr K) : (firstOperand e).getRightMost = e.getRightMost := by
  induction e with
  | binaryExpr op rhs lhs ihr ihl =>
    by_cases cmp : isComparison op = true
    · have first : firstOperand (binaryExpr op rhs lhs) = firstOperand rhs := by
        simp only [firstOperand, operands, cmp, if_true]
        exact List.head_append_of_ne_nil (operands_ne_nil rhs)
      rw [first, ihr]
      rfl
    · simp [firstOperand, operands, cmp]
  | _ => rfl

/-- A field that is no comparison, or whose last operand is a leaf, is taken over
whole. -/
theorem takeLeft_eq {e : Expr K} (plain : e.isBinaryComparison = true → isLeaf (lastOperand e) = true) :
    takeLeft e = lastOperand e := by
  unfold takeLeft
  split
  · rename_i cmp
    rw [← getLeftMost_lastOperand]
    have leaf := plain cmp
    cases h : lastOperand e with
    | binaryExpr => simp [h, isLeaf] at leaf
    | _ => rfl
  · rename_i cmp
    simp [lastOperand, operands_of_not_comparison (Bool.not_eq_true _ ▸ cmp)]

theorem takeRight_eq {e : Expr K} (plain : e.isBinaryComparison = true → isLeaf (firstOperand e) = true) :
    takeRight e = firstOperand e := by
  unfold takeRight
  split
  · rename_i cmp
    rw [← getRightMost_firstOperand]
    have leaf := plain cmp
    cases h : firstOperand e with
    | binaryExpr => simp [h, isLeaf] at leaf
    | _ => rfl
  · rename_i cmp
    simp [firstOperand, operands_of_not_comparison (Bool.not_eq_true _ ▸ cmp)]

/-- No operand shared by two comparison nodes is a `BinaryExpr`. -/
def SharedPlain : Expr K → Prop
  | binaryExpr op rhs lhs =>
    isComparison op = true →
      (rhs.isBinaryComparison = true → isLeaf (lastOperand rhs) = true) ∧
      (lhs.isBinaryComparison = true → isLeaf (firstOperand lhs) = true) ∧
      SharedPlain rhs ∧ SharedPlain lhs
  | _ => True

/-- Such a chain is narrowed to itself. -/
theorem narrowed_eq_adjacent {e : Expr K} (plain : SharedPlain e) : narrowed e = adjacent e := by
  induction e with
  | binaryExpr op rhs lhs ihr ihl =>
    by_cases cmp : isComparison op = true
    · obtain ⟨left, right, pr, pl⟩ := plain cmp
      simp [narrowed, adjacent_binaryExpr, cmp, takeLeft_eq left, takeRight_eq right, ihr pr, ihl pl]
    · have other : (binaryExpr op rhs lhs).isBinaryComparison = false := by simpa [isBinaryComparison] using cmp
      rw [narrowed_of_not_comparison other, adjacent_of_not_comparison other]
  | _ => rw [narrowed_of_not_comparison rfl, adjacent_of_not_comparison rfl]

theorem sharedPlain_of_leaves {e : Expr K} (leaves : ∀ a ∈ operands e, isLeaf a = true) : SharedPlain e := by
  induction e with
  | binaryExpr op rhs lhs ihr ihl =>
    intro cmp
    simp only [operands, cmp, if_true, List.mem_append] at leaves
    exact ⟨fun _ => leaves _ (.inl (lastOperand_mem rhs)), fun _ => leaves _ (.inr (firstOperand_mem lhs)),
      ihr fun a ha => leaves a (.inl ha), ihl fun a ha => leaves a (.inr ha)⟩
  | _ => trivial

section Defined

variable {D : Domain K V} {args : List V}

/-- A leaf of a defined expression is defined. -/
theorem getLeftMost_defined {e : Expr K} (h : (e.eval D args).isSome) :
    (e.getLeftMost.eval D args).isSome := by
  induction e with
  | binaryExpr op rhs lhs ihr ihl =>
    apply ihl
    cases hr : rhs.eval D args <;> cases hl : lhs.eval D args <;> simp [eval, hr, hl] at h ⊢
  | _ => exact h

theorem getRightMost_defined {e : Expr K} (h : (e.eval D args).isSome) :
    (e.getRightMost.eval D args).isSome := by
  induction e with
  | binaryExpr op rhs lhs ihr ihl =>
    apply ihr
    cases hr : rhs.eval D args <;> cases hl : lhs.eval D args <;> simp [eval, hr, hl] at h ⊢
  | _ => exact h

/-- Every operand of the chain evaluates: none divides by zero. -/
def OperandsDefined (D : Domain K V) (args : List V) (e : Expr K) : Prop :=
  ∀ a ∈ operands e, (a.eval D args).isSome

instance (e : Expr K) : Decidable (OperandsDefined D args e) :=
  inferInstanceAs (Decidable (∀ a ∈ operands e, (a.eval D args).isSome = true))

theorem OperandsDefined.of_binaryExpr {op : Operator} {rhs lhs : Expr K} (cmp : isComparison op = true)
    (h : OperandsDefined D args (binaryExpr op rhs lhs)) :
    OperandsDefined D args rhs ∧ OperandsDefined D args lhs := by
  simp only [OperandsDefined, operands, cmp, if_true, List.mem_append] at h
  exact ⟨fun a ha => h a (.inl ha), fun a ha => h a (.inr ha)⟩

/-- Comparisons never fail, so a tree with defined operands is defined. -/
theorem OperandsDefined.eval {e : Expr K} (h : OperandsDefined D args e) : (e.eval D args).isSome := by
  induction e with
  | binaryExpr op rhs lhs ihr ihl =>
    by_cases cmp : isComparison op = true
    · obtain ⟨hr, hl⟩ := h.of_binaryExpr cmp
      obtain ⟨x, hx⟩ := Option.isSome_iff_exists.mp (ihr hr)
      obtain ⟨y, hy⟩ := Option.isSome_iff_exists.mp (ihl hl)
      obtain ⟨z, hz⟩ := D.comparison op x y cmp
      rw [eval_binaryExpr hx hy, hz]
      rfl
    · exact h _ (by simp [operands, cmp])
  | _ => exact h _ (by simp [operands])

theorem takeLeft_defined {e : Expr K} (h : OperandsDefined D args e) : ((takeLeft e).eval D args).isSome := by
  unfold takeLeft
  split
  · exact getLeftMost_defined h.eval
  · exact h.eval

theorem takeRight_defined {e : Expr K} (h : OperandsDefined D args e) : ((takeRight e).eval D args).isSome := by
  unfold takeRight
  split
  · exact getRightMost_defined h.eval
  · exact h.eval

end Defined

/-- `transform` at a comparison node, by which of its fields are comparisons. -/
theorem transform_binaryExpr {op : Operator} (cmp : isComparison op = true) (rhs lhs : Expr K) :
    (binaryExpr op rhs lhs).transform =
      match rhs.isBinaryComparison, lhs.isBinaryComparison with
      | true, true => binaryExpr .ampersandAmpersand
          (binaryExpr .ampersandAmpersand rhs.transform (binaryExpr op (takeLeft rhs) (takeRight lhs)))
          lhs.transform
      | true, false => binaryExpr .ampersandAmpersand rhs.transform (binaryExpr op (takeLeft rhs) (takeRight lhs))
      | false, true => binaryExpr .ampersandAmpersand (binaryExpr op (takeLeft rhs) (takeRight lhs)) lhs.transform
      | false, false => binaryExpr op (takeLeft rhs) (takeRight lhs) := by
  cases hr : rhs.isBinaryComparison <;> cases hl : lhs.isBinaryComparison <;>
    simp [transform, takeLeft, takeRight, cmp, hr, hl]

/-- **What the rewrite computes**: the conjunction of the narrowed comparisons,
whatever the shape of the tree. -/
theorem transform_decides {D : Domain K V} {args : List V} {e : Expr K}
    (root : e.isBinaryComparison = true) (defined : OperandsDefined D args e) :
    Decides D args e.transform (∀ p ∈ narrowed e, Holds D args p) := by
  induction e with
  | placeholder | constant => cases root
  | binaryExpr op rhs lhs ihr ihl =>
    have cmp : isComparison op = true := root
    obtain ⟨dr, dl⟩ := defined.of_binaryExpr cmp
    have here : Decides D args (binaryExpr op (takeLeft rhs) (takeRight lhs))
        (Holds D args (op, takeLeft rhs, takeRight lhs)) :=
      .comparison cmp (takeLeft_defined dr) (takeRight_defined dl)
    have split : (∀ p ∈ narrowed (binaryExpr op rhs lhs), Holds D args p) ↔
        (∀ p ∈ narrowed rhs, Holds D args p) ∧ Holds D args (op, takeLeft rhs, takeRight lhs) ∧
          ∀ p ∈ narrowed lhs, Holds D args p := by
      simp [narrowed, cmp, or_imp, forall_and]
    rw [transform_binaryExpr cmp]
    cases hr : rhs.isBinaryComparison <;> cases hl : lhs.isBinaryComparison
    · refine here.congr ?_
      rw [split, narrowed_of_not_comparison hr, narrowed_of_not_comparison hl]
      simp
    · refine (here.conj (ihl hl dl)).congr ?_
      rw [split, narrowed_of_not_comparison hr]
      simp
    · refine ((ihr hr dr).conj here).congr ?_
      rw [split, narrowed_of_not_comparison hl]
      simp
    · refine (((ihr hr dr).conj here).conj (ihl hl dl)).congr ?_
      rw [split, and_assoc]

end Erl.Expect
