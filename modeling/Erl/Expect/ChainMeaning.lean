import Erl.Expect.Chain

/-!
# When a chain means what it says

A shared operand that is itself a `BinaryExpr` is replaced by one of its leaves, so
the rewritten chain tests other comparisons than the ones written. Over all operand
types the two conjunctions agree exactly when they consist of the same comparisons.
The separating domain is the free one: its values are the expressions themselves and
`truth` assigns each comparison whatever it likes.
-/

namespace Erl.Expect
open Erl.Expect.Expr

variable {K V : Type}

/-- Truth in the free domain: `&&` and `||` are honest, `assign` decides the rest. -/
def freeTruth (assign : Comparison K → Bool) : Expr K → Bool
  | binaryExpr .ampersandAmpersand rhs lhs => freeTruth assign rhs && freeTruth assign lhs
  | binaryExpr .pipePipe rhs lhs => freeTruth assign rhs || freeTruth assign lhs
  | binaryExpr op rhs lhs => assign (op, rhs, lhs)
  | _ => false

/-- Operands whose operators only build the expression they are applied to. -/
def freeDomain (assign : Comparison K → Bool) : Domain K (Expr K) where
  constant := .constant
  evalOperator op x y := some (binaryExpr op x y)
  truth := freeTruth assign
  comparison _ _ _ _ := ⟨_, rfl⟩
  conj _ _ := ⟨_, rfl, rfl⟩
  disj _ _ := ⟨_, rfl, rfl⟩

/-- One more than the largest placeholder index. -/
def arity : Expr K → Nat
  | placeholder idx => idx + 1
  | constant _ => 0
  | binaryExpr _ rhs lhs => max (arity rhs) (arity lhs)

/-- Each placeholder stands for itself. -/
def freeArgs (K : Type) (n : Nat) : List (Expr K) := (List.range n).map .placeholder

/-- In the free domain an expression is its own value. -/
theorem eval_free (assign : Comparison K → Bool) {n : Nat} {e : Expr K} (h : arity e ≤ n) :
    e.eval (freeDomain assign) (freeArgs K n) = some e := by
  induction e with
  | placeholder idx =>
    have bound : idx < n := h
    simp [eval, freeArgs, bound]
  | constant value => rfl
  | binaryExpr op rhs lhs ihr ihl =>
    simp only [arity, Nat.max_le] at h
    rw [eval_binaryExpr (ihr h.1) (ihl h.2)]
    rfl

theorem freeTruth_comparison (assign : Comparison K → Bool) {p : Comparison K} (cmp : isComparison p.1 = true) :
    freeTruth assign (binaryExpr p.1 p.2.1 p.2.2) = assign p := by
  obtain ⟨op, a, b⟩ := p
  cases op <;> first | rfl | cases cmp

theorem holds_free (assign : Comparison K → Bool) {n : Nat} {p : Comparison K} (cmp : isComparison p.1 = true)
    (ha : arity p.2.1 ≤ n) (hb : arity p.2.2 ≤ n) :
    Holds (freeDomain assign) (freeArgs K n) p ↔ assign p = true := by
  have own := eval_free assign (e := binaryExpr p.1 p.2.1 p.2.2) (Nat.max_le.mpr ⟨ha, hb⟩)
  unfold Holds
  rw [own]
  constructor
  · rintro ⟨z, hz, t⟩
    cases hz
    exact (freeTruth_comparison assign cmp).symm.trans t
  · intro t
    exact ⟨_, rfl, (freeTruth_comparison assign cmp).trans t⟩

theorem operand_arity {e a : Expr K} (h : a ∈ operands e) : arity a ≤ arity e := by
  induction e with
  | binaryExpr op rhs lhs ihr ihl =>
    by_cases cmp : isComparison op = true
    · simp only [operands, cmp, if_true, List.mem_append] at h
      simp only [arity]
      rcases h with h | h
      · exact Nat.le_trans (ihr h) (Nat.le_max_left ..)
      · exact Nat.le_trans (ihl h) (Nat.le_max_right ..)
    · simp only [operands, cmp, Bool.false_eq_true, if_false, List.mem_singleton] at h
      exact h ▸ Nat.le_refl _
  | _ =>
    simp only [operands, List.mem_singleton] at h
    exact h ▸ Nat.le_refl _

theorem getLeftMost_arity (e : Expr K) : arity e.getLeftMost ≤ arity e := by
  induction e with
  | binaryExpr op rhs lhs ihr ihl => exact Nat.le_trans ihl (Nat.le_max_right ..)
  | _ => exact Nat.le_refl _

theorem getRightMost_arity (e : Expr K) : arity e.getRightMost ≤ arity e := by
  induction e with
  | binaryExpr op rhs lhs ihr ihl => exact Nat.le_trans ihr (Nat.le_max_left ..)
  | _ => exact Nat.le_refl _

theorem takeLeft_arity (e : Expr K) : arity (takeLeft e) ≤ arity e := by
  unfold takeLeft
  split
  · exact getLeftMost_arity e
  · exact Nat.le_refl _

theorem takeRight_arity (e : Expr K) : arity (takeRight e) ≤ arity e := by
  unfold takeRight
  split
  · exact getRightMost_arity e
  · exact Nat.le_refl _

/-- A comparison between subexpressions of `e`. -/
structure Within (e : Expr K) (p : Comparison K) : Prop where
  comparison : isComparison p.1 = true
  left : arity p.2.1 ≤ arity e
  right : arity p.2.2 ≤ arity e

theorem Within.of_rhs {op : Operator} {rhs lhs : Expr K} {p : Comparison K} (h : Within rhs p) :
    Within (binaryExpr op rhs lhs) p :=
  ⟨h.comparison, Nat.le_trans h.left (Nat.le_max_left ..), Nat.le_trans h.right (Nat.le_max_left ..)⟩

theorem Within.of_lhs {op : Operator} {rhs lhs : Expr K} {p : Comparison K} (h : Within lhs p) :
    Within (binaryExpr op rhs lhs) p :=
  ⟨h.comparison, Nat.le_trans h.left (Nat.le_max_right ..), Nat.le_trans h.right (Nat.le_max_right ..)⟩

theorem adjacent_within {e : Expr K} {p : Comparison K} (h : p ∈ adjacent e) : Within e p := by
  obtain ⟨hc, left, right⟩ := mem_link h
  exact ⟨comparators_comparison hc, operand_arity left, operand_arity right⟩

theorem narrowed_within {e : Expr K} {p : Comparison K} (h : p ∈ narrowed e) : Within e p := by
  induction e with
  | binaryExpr op rhs lhs ihr ihl =>
    by_cases cmp : isComparison op = true
    · simp only [narrowed, cmp, if_true, List.mem_append, List.mem_cons] at h
      rcases h with h | rfl | h
      · exact (ihr h).of_rhs
      · exact ⟨cmp, Nat.le_trans (takeLeft_arity rhs) (Nat.le_max_left ..), Nat.le_trans (takeRight_arity lhs) (Nat.le_max_right ..)⟩
      · exact (ihl h).of_lhs
    · rw [narrowed_of_not_comparison (by simpa [isBinaryComparison] using cmp)] at h
      cases h
  | _ =>
    rw [narrowed_of_not_comparison rfl] at h
    cases h

/-! ## Exactly the chains that keep their meaning -/

/-- For operands of every type and every argument tuple on which they evaluate,
`expect(e)` yields true exactly when all adjacent comparisons hold. -/
def KeepsMeaning (e : Expr K) : Prop :=
  ∀ (V : Type) (D : Domain K V) (args : List V), OperandsDefined D args e →
    Decides D args (expect e) (ChainHolds D args e)

/-- Two sets of comparisons within `e` with one truth value in every free domain
are the same set. -/
theorem mem_of_free_imp {e : Expr K} {N A : List (Comparison K)}
    (hN : ∀ p ∈ N, Within e p) (hA : ∀ p ∈ A, Within e p)
    (imp : ∀ assign, (∀ p ∈ N, Holds (freeDomain assign) (freeArgs K (arity e)) p) →
      ∀ p ∈ A, Holds (freeDomain assign) (freeArgs K (arity e)) p) :
    ∀ p ∈ A, p ∈ N := by
  classical
  intro q hq
  by_contra absent
  -- everything holds but `q`
  let assign : Comparison K → Bool := fun p => decide (p ≠ q)
  have all : ∀ p ∈ N, Holds (freeDomain assign) (freeArgs K (arity e)) p := by
    intro p hp
    have w := hN p hp
    refine (holds_free assign w.comparison w.left w.right).mpr (decide_eq_true ?_)
    rintro rfl
    exact absent hp
  have w := hA q hq
  have contra := (holds_free assign w.comparison w.left w.right).mp (imp assign all q hq)
  exact of_decide_eq_true contra rfl

/-- **Chains, exactly.** A chain keeps its meaning for all operand types and
arguments if and only if narrowing its shared operands to their outer leaves leaves
the set of its comparisons as it is. -/
theorem keepsMeaning_iff {e : Expr K} (root : e.isBinaryComparison = true) :
    KeepsMeaning e ↔ ∀ p, p ∈ narrowed e ↔ p ∈ adjacent e := by
  constructor
  · intro meaning
    have same : ∀ assign, (∀ p ∈ narrowed e, Holds (freeDomain assign) (freeArgs K (arity e)) p) ↔
        ∀ p ∈ adjacent e, Holds (freeDomain assign) (freeArgs K (arity e)) p := by
      intro assign
      have defined : OperandsDefined (freeDomain assign) (freeArgs K (arity e)) e := by
        intro a ha
        rw [eval_free assign (operand_arity ha)]
        rfl
      obtain ⟨r, hr, tr⟩ := meaning _ _ _ defined
      obtain ⟨r', hr', tr'⟩ := transform_decides root defined
      have equal : r = r' := Option.some.inj (hr.symm.trans hr')
      subst equal
      exact tr'.symm.trans tr
    exact fun p => ⟨
      mem_of_free_imp (fun _ h => adjacent_within h) (fun _ h => narrowed_within h) (fun v => (same v).mpr) p,
      mem_of_free_imp (fun _ h => narrowed_within h) (fun _ h => adjacent_within h) (fun v => (same v).mp) p⟩
  · intro same V D args defined
    refine (transform_decides root defined).congr ?_
    simp only [ChainHolds, same]

/-- `1 < _0 + 2 < 5`, the chain whose middle operand is a sum. -/
def sumInTheMiddle : Expr Int :=
  binaryExpr .less (binaryExpr .less (constant 1) (binaryExpr .plus (placeholder 0) (constant 2))) (constant 5)

/-- With `_0 = 10` the chain `1 < _0 + 2 < 5` is false, yet `expect` yields true: it
tests `1 < 12 && 2 < 5`. -/
theorem sumInTheMiddle_loses_meaning :
    sumInTheMiddle.isBinaryComparison = true ∧ OperandsDefined intDomain [10] sumInTheMiddle ∧
      (expect sumInTheMiddle).eval intDomain [10] = some 1 ∧ ¬ ChainHolds intDomain [10] sumInTheMiddle ∧
      ¬ KeepsMeaning sumInTheMiddle := by
  have defined : OperandsDefined intDomain [10] sumInTheMiddle := by decide
  have value : (expect sumInTheMiddle).eval intDomain [10] = some 1 := by decide
  have wrong : ¬ ChainHolds intDomain [10] sumInTheMiddle := by
    intro h
    obtain ⟨z, hz, t⟩ := h (.less, binaryExpr .plus (placeholder 0) (constant 2), constant 5) (by decide)
    have zero : z = 0 := (Option.some.inj (show some (0 : Int) = some z from hz)).symm
    subst zero
    exact absurd t (by decide)
  refine ⟨rfl, defined, value, wrong, ?_⟩
  intro meaning
  obtain ⟨r, hr, tr⟩ := meaning Int intDomain [10] defined
  have one : r = 1 := Option.some.inj (hr.symm.trans value)
  subst one
  exact wrong (tr.mp rfl)

/-- `2 < _0 < 17`, the annotation of `times` in `example/args.cpp`. -/
theorem keepsMeaning_of_times :
    KeepsMeaning (binaryExpr .less (binaryExpr .less (constant 2) (placeholder 0)) (constant 17) : Expr Int) :=
  (keepsMeaning_iff rfl).mpr fun _ => Iff.rfl

end Erl.Expect
