import Erl.Expect.ChainMeaning

/-!
# Chains under `&&` and `||`

`transform` rewrites a comparison node and returns every other node unchanged, so a
chain below a logical operator is evaluated as written: its outer comparison gets the
`bool` of the inner one as an operand. `propositional` abstracts a combination to a
Boolean function of its chains. Over all operand types a combination keeps its meaning
exactly when that function ignores the chains of two or more comparisons.
-/

namespace Erl.Expect
open Erl.Expect.Expr

variable {K V : Type}

/-- Built with `&&` and `||` from comparison chains over placeholders and constants. -/
inductive Combination : Expr K → Prop where
  | chain {e : Expr K} : e.isBinaryComparison = true → (∀ a ∈ operands e, isLeaf a = true) → Combination e
  | conj {a b : Expr K} : Combination a → Combination b → Combination (binaryExpr .ampersandAmpersand a b)
  | disj {a b : Expr K} : Combination a → Combination b → Combination (binaryExpr .pipePipe a b)

/-- The combination with every maximal chain read as the conjunction of its adjacent
comparisons. -/
def Meaning (D : Domain K V) (args : List V) : Expr K → Prop
  | binaryExpr .ampersandAmpersand a b => Meaning D args a ∧ Meaning D args b
  | binaryExpr .pipePipe a b => Meaning D args a ∨ Meaning D args b
  | e => ChainHolds D args e

/-- Every placeholder has an argument. -/
def LeavesDefined (D : Domain K V) (args : List V) : Expr K → Prop
  | binaryExpr _ a b => LeavesDefined D args a ∧ LeavesDefined D args b
  | e => (e.eval D args).isSome

/-- The Boolean function of a combination: `short` gives the truth of its single
comparisons, `long` that of its longer chains. -/
def propositional (short long : Expr K → Bool) : Expr K → Bool
  | binaryExpr .ampersandAmpersand a b => propositional short long a && propositional short long b
  | binaryExpr .pipePipe a b => propositional short long a || propositional short long b
  | e => if (comparators e).length = 1 then short e else long e

theorem meaning_chain {D : Domain K V} {args : List V} {e : Expr K} (root : e.isBinaryComparison = true) :
    Meaning D args e = ChainHolds D args e := by
  cases e with
  | binaryExpr op a b => cases op <;> first | rfl | cases root
  | _ => cases root

theorem propositional_chain {short long : Expr K → Bool} {e : Expr K} (root : e.isBinaryComparison = true) :
    propositional short long e = if (comparators e).length = 1 then short e else long e := by
  cases e with
  | binaryExpr op a b => cases op <;> first | rfl | cases root
  | _ => cases root

/-- No negation: raising the long chains raises the combination. -/
theorem propositional_mono {short lo hi : Expr K → Bool} (le : ∀ e, lo e = true → hi e = true) {e : Expr K}
    (he : Combination e) (h : propositional short lo e = true) : propositional short hi e = true := by
  induction he with
  | @chain c root _ =>
    rw [propositional_chain root] at h ⊢
    by_cases single : (comparators c).length = 1
    · simpa only [single, if_true] using h
    · simp only [single, if_false] at h ⊢
      exact le _ h
  | conj _ _ iha ihb =>
    simp only [propositional, Bool.and_eq_true] at h ⊢
    exact ⟨iha h.1, ihb h.2⟩
  | disj _ _ iha ihb =>
    simp only [propositional, Bool.or_eq_true] at h ⊢
    exact h.imp iha ihb

/-- A comparison one of whose fields is itself a comparison. -/
def nested : Comparison K → Bool
  | (_, a, b) => a.isBinaryComparison || b.isBinaryComparison

/-- A chain with one operator is a comparison node of two non-comparisons. -/
theorem adjacent_single {e : Expr K} (root : e.isBinaryComparison = true) (single : (comparators e).length = 1) :
    ∃ op a b, e = binaryExpr op a b ∧ adjacent e = [(op, a, b)] ∧ nested (op, a, b) = false := by
  cases e with
  | placeholder | constant => cases root
  | binaryExpr op a b =>
    have cmp : isComparison op = true := root
    simp only [comparators, cmp, if_true, List.length_append, List.length_cons] at single
    have flat {c : Expr K} (short : (comparators c).length = 0) : c.isBinaryComparison = false := by
      cases c with
      | binaryExpr op' x y =>
        by_contra cmp'
        have cmp' : isComparison op' = true := by simpa [isBinaryComparison] using cmp'
        simp [comparators, cmp'] at short
      | _ => rfl
    have ha := flat (c := a) (by omega)
    have hb := flat (c := b) (by omega)
    refine ⟨op, a, b, rfl, ?_, by simp [nested, ha, hb]⟩
    simp [adjacent, operands, comparators, cmp, operands_of_not_comparison, comparators_of_not_comparison, ha, hb, link]

theorem nested_of_several {op : Operator} {a b : Expr K} (cmp : isComparison op = true)
    (several : (comparators (binaryExpr op a b)).length ≠ 1) : nested (op, a, b) = true := by
  cases ha : a.isBinaryComparison <;> cases hb : b.isBinaryComparison <;> simp [nested, ha, hb]
  simp [comparators, cmp, comparators_of_not_comparison ha, comparators_of_not_comparison hb] at several

section Defined

variable {D : Domain K V} {args : List V}

theorem LeavesDefined.operands {e : Expr K} (h : LeavesDefined D args e)
    (leaves : ∀ a ∈ operands e, isLeaf a = true) : OperandsDefined D args e := by
  induction e with
  | binaryExpr op a b iha ihb =>
    by_cases cmp : isComparison op = true
    · simp only [OperandsDefined, Expect.operands, cmp, if_true, List.mem_append] at leaves ⊢
      rintro c (hc | hc)
      · exact iha h.1 (fun x hx => leaves x (.inl hx)) c hc
      · exact ihb h.2 (fun x hx => leaves x (.inr hx)) c hc
    · have leaf := leaves (binaryExpr op a b) (by simp [Expect.operands, cmp])
      simp [isLeaf] at leaf
  | _ =>
    intro a ha
    simp only [Expect.operands, List.mem_singleton] at ha
    exact ha ▸ h

/-- The truth value of an expression as written, without any rewrite. -/
def rawTruth (D : Domain K V) (args : List V) (e : Expr K) : Bool :=
  match e.eval D args with
  | some r => D.truth r
  | none => false

theorem decides_raw {e : Expr K} (h : (e.eval D args).isSome) : Decides D args e (rawTruth D args e = true) := by
  obtain ⟨r, hr⟩ := Option.isSome_iff_exists.mp h
  exact ⟨r, hr, by simp [rawTruth, hr]⟩

/-- Evaluated as written, a combination is the Boolean function of its raw chains. -/
theorem eval_decides {e : Expr K} (he : Combination e) (defined : LeavesDefined D args e) :
    Decides D args e (propositional (rawTruth D args) (rawTruth D args) e = true) := by
  induction he with
  | chain root leaves =>
    refine (decides_raw (defined.operands leaves).eval).congr ?_
    rw [propositional_chain root, ite_self]
  | conj _ _ iha ihb =>
    refine ((iha defined.1).conj (ihb defined.2)).congr ?_
    simp [propositional]
  | disj _ _ iha ihb =>
    refine ((iha defined.1).disj (ihb defined.2)).congr ?_
    simp [propositional]

/-- A single comparison as written is its own chain. -/
theorem chainHolds_single {e : Expr K} (root : e.isBinaryComparison = true)
    (single : (comparators e).length = 1) (defined : (e.eval D args).isSome) :
    ChainHolds D args e ↔ rawTruth D args e = true := by
  obtain ⟨op, a, b, rfl, adj, -⟩ := adjacent_single root single
  obtain ⟨r, hr⟩ := Option.isSome_iff_exists.mp defined
  simp [ChainHolds, adj, Holds, rawTruth, hr]

/-- Read chain by chain, a combination is the Boolean function of its single
comparisons as written and of its longer chains as conjunctions. -/
theorem meaning_iff [∀ c, Decidable (ChainHolds D args c)] {e : Expr K} (he : Combination e)
    (defined : LeavesDefined D args e) :
    Meaning D args e ↔
      propositional (rawTruth D args) (fun c => decide (ChainHolds D args c)) e = true := by
  induction he with
  | chain root leaves =>
    rw [meaning_chain root, propositional_chain root]
    split
    · rename_i single
      exact chainHolds_single root single (defined.operands leaves).eval
    · simp
  | conj _ _ iha ihb => simp [Meaning, propositional, iha defined.1, ihb defined.2]
  | disj _ _ iha ihb => simp [Meaning, propositional, iha defined.1, ihb defined.2]

end Defined

/-- A chain of leaves is rewritten into the conjunction of its adjacent comparisons. -/
theorem expect_chain_decides {D : Domain K V} {args : List V} {e : Expr K} (root : e.isBinaryComparison = true)
    (leaves : ∀ a ∈ operands e, isLeaf a = true) (defined : LeavesDefined D args e) :
    Decides D args (expect e) (Meaning D args e) := by
  refine (transform_decides root (defined.operands leaves)).congr ?_
  rw [meaning_chain root, narrowed_eq_adjacent (sharedPlain_of_leaves leaves)]
  rfl

/-- A combination that is no chain is evaluated as written. -/
theorem expect_of_not_comparison {e : Expr K} (h : e.isBinaryComparison = false) : expect e = e := by
  cases e with
  | binaryExpr op a b =>
    simp only [isBinaryComparison] at h
    simp [expect, transform, h]
  | _ => rfl

/-! ## Exactly the combinations that keep their meaning -/

/-- For operands of every type and every argument tuple, `expect(e)` has the truth
value of `e` read chain by chain. -/
def CombinationKeepsMeaning (e : Expr K) : Prop :=
  ∀ (V : Type) (D : Domain K V) (args : List V), LeavesDefined D args e →
    Decides D args (expect e) (Meaning D args e)

/-- With all its longer chains set to true, and with all of them set to false, the
combination is the same function of its single comparisons. -/
def IgnoresLongChains (e : Expr K) : Prop :=
  ∀ short, propositional short (fun _ => true) e = propositional short (fun _ => false) e

/-- Between the two extremes the longer chains may hold as they like. -/
theorem IgnoresLongChains.any {e : Expr K} (h : IgnoresLongChains e) (he : Combination e)
    (short long long' : Expr K → Bool) : propositional short long e = propositional short long' e := by
  have squeeze : ∀ l : Expr K → Bool, propositional short l e = propositional short (fun _ => false) e := by
    intro l
    apply Bool.eq_iff_iff.mpr
    constructor
    · intro up
      rw [← h short]
      exact propositional_mono (fun _ _ => rfl) he up
    · exact propositional_mono (fun _ hf => by cases hf) he
  rw [squeeze long, squeeze long']

/-- `short` decides the comparisons of leaves, `long` every comparison that has
another one as an operand. -/
def assignNested (short : Expr K → Bool) (long : Bool) : Comparison K → Bool :=
  fun p => if nested p then long else short (binaryExpr p.1 p.2.1 p.2.2)

theorem leavesDefined_free (assign : Comparison K → Bool) {n : Nat} {e : Expr K} (h : arity e ≤ n) :
    LeavesDefined (freeDomain assign) (freeArgs K n) e := by
  induction e with
  | binaryExpr op a b iha ihb =>
    simp only [arity, Nat.max_le] at h
    exact ⟨iha h.1, ihb h.2⟩
  | _ => simp [LeavesDefined, eval_free assign h]

/-- As written, a longer chain has the truth value `long`. -/
theorem freeTruth_combination (short : Expr K → Bool) (long : Bool) {e : Expr K} (he : Combination e) :
    freeTruth (assignNested short long) e = propositional short (fun _ => long) e := by
  induction he with
  | @chain c root _ =>
    rw [propositional_chain root]
    by_cases single : (comparators c).length = 1
    · obtain ⟨op, a, b, rfl, -, flat⟩ := adjacent_single root single
      rw [freeTruth_comparison (p := (op, a, b)) _ root]
      simp [assignNested, flat, single]
    · cases c with
      | placeholder | constant => cases root
      | binaryExpr op a b =>
        rw [freeTruth_comparison (p := (op, a, b)) _ root]
        simp [assignNested, nested_of_several root single, single]
  | conj _ _ iha ihb => simp [freeTruth, propositional, iha, ihb]
  | disj _ _ iha ihb => simp [freeTruth, propositional, iha, ihb]

/-- The meaning of a combination of leaves does not depend on `long`. -/
theorem meaning_free (short : Expr K → Bool) (long : Bool) {n : Nat} {e : Expr K} (he : Combination e)
    (h : arity e ≤ n) :
    Meaning (freeDomain (assignNested short long)) (freeArgs K n) e ↔
      propositional short (fun c => (adjacent c).all fun p => short (binaryExpr p.1 p.2.1 p.2.2)) e = true := by
  induction he with
  | @chain c root leaves =>
    have each : ∀ p ∈ adjacent c, (Holds (freeDomain (assignNested short long)) (freeArgs K n) p ↔
        short (binaryExpr p.1 p.2.1 p.2.2) = true) := by
      intro p hp
      have w := adjacent_within hp
      obtain ⟨-, left, right⟩ := mem_link hp
      have noLeft := isBinaryComparison_of_leaf (leaves _ left)
      have noRight := isBinaryComparison_of_leaf (leaves _ right)
      rw [holds_free _ w.comparison (Nat.le_trans w.left h) (Nat.le_trans w.right h)]
      simp [assignNested, nested, noLeft, noRight]
    rw [meaning_chain root, propositional_chain root]
    by_cases single : (comparators c).length = 1
    · obtain ⟨op, a, b, rfl, adj, -⟩ := adjacent_single root single
      simp only [ChainHolds, adj, List.mem_singleton, forall_eq] at each ⊢
      simpa [single] using each
    · simp only [single, if_false, List.all_eq_true, ChainHolds]
      exact forall₂_congr each
  | conj _ _ iha ihb =>
    simp only [arity, Nat.max_le] at h
    simp [Meaning, propositional, iha h.1, ihb h.2]
  | disj _ _ iha ihb =>
    simp only [arity, Nat.max_le] at h
    simp [Meaning, propositional, iha h.1, ihb h.2]

/-- **Combinations, exactly.** A combination keeps its meaning for all operand types
and arguments if and only if it is a single chain, or its longer chains never decide
its truth. -/
theorem combinationKeepsMeaning_iff {e : Expr K} (he : Combination e) :
    CombinationKeepsMeaning e ↔ e.isBinaryComparison = true ∨ IgnoresLongChains e := by
  cases root : e.isBinaryComparison
  · simp only [Bool.false_eq_true, false_or]
    constructor
    · intro keeps short
      have decided : ∀ long, propositional short (fun _ => long) e =
          propositional short (fun c => (adjacent c).all fun p => short (binaryExpr p.1 p.2.1 p.2.2)) e := by
        intro long
        obtain ⟨r, hr, tr⟩ := keeps _ (freeDomain (assignNested short long)) (freeArgs K (arity e))
          (leavesDefined_free _ (Nat.le_refl _))
        rw [expect_of_not_comparison root, eval_free _ (Nat.le_refl _)] at hr
        cases hr
        rw [← freeTruth_combination short long he]
        exact Bool.eq_iff_iff.mpr (tr.trans (meaning_free short long he (Nat.le_refl _)))
      rw [decided true, decided false]
    · intro ignores V D args defined
      classical
      rw [expect_of_not_comparison root]
      refine (eval_decides he defined).congr ?_
      rw [meaning_iff he defined, ignores.any he _ (rawTruth D args)]
  · simp only [true_or, iff_true]
    intro V D args defined
    cases he with
    | chain root' leaves => exact expect_chain_decides root' leaves defined
    | conj => cases root
    | disj => cases root

/-- `0 < _0 < 10 && _1 == 1`. -/
def guardedRange : Expr Int :=
  binaryExpr .ampersandAmpersand
    (binaryExpr .less (binaryExpr .less (constant 0) (placeholder 0)) (constant 10))
    (binaryExpr .equalsEquals (placeholder 1) (constant 1))

/-- With `_0 = 50` and `_1 = 1` the conjunct `0 < _0 < 10` is false, yet `expect`
yields true: it tests `(0 < 50) < 10`. -/
theorem guardedRange_loses_meaning :
    Combination guardedRange ∧ LeavesDefined intDomain [50, 1] guardedRange ∧
      (expect guardedRange).eval intDomain [50, 1] = some 1 ∧ ¬ Meaning intDomain [50, 1] guardedRange ∧
      ¬ CombinationKeepsMeaning guardedRange := by
  have combination : Combination guardedRange :=
    .conj (.chain rfl (by decide)) (.chain rfl (by decide))
  have defined : LeavesDefined intDomain [50, 1] guardedRange := ⟨⟨⟨rfl, rfl⟩, rfl⟩, rfl, rfl⟩
  have value : (expect guardedRange).eval intDomain [50, 1] = some 1 := by decide
  have wrong : ¬ Meaning intDomain [50, 1] guardedRange := by
    rintro ⟨range, -⟩
    obtain ⟨z, hz, t⟩ := range (.less, placeholder 0, constant 10) (by decide)
    have zero : z = 0 := (Option.some.inj (show some (0 : Int) = some z from hz)).symm
    subst zero
    exact absurd t (by decide)
  refine ⟨combination, defined, value, wrong, ?_⟩
  intro keeps
  obtain ⟨r, hr, tr⟩ := keeps Int intDomain [50, 1] defined
  have one : r = 1 := Option.some.inj (hr.symm.trans value)
  subst one
  exact wrong (tr.mp rfl)

/-- `_0 < 5 || 1 == _1`: only single comparisons below the logical operator. -/
theorem combinationKeepsMeaning_of_single :
    CombinationKeepsMeaning (binaryExpr .pipePipe (binaryExpr .less (placeholder 0) (constant 5))
      (binaryExpr .equalsEquals (constant 1) (placeholder 1)) : Expr Int) :=
  (combinationKeepsMeaning_iff (.disj (.chain rfl (by decide)) (.chain rfl (by decide)))).mpr
    (.inr fun _ => rfl)

end Erl.Expect
