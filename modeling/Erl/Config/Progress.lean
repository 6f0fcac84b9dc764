import Erl.Config.Args
import Erl.Lib.Outcome

/-!
# Progress of the command-line parser

Whatever the line and the specification, the cursor of the `ArgParser` only moves forward,
one token at a time; a turn of the `while` loop that comes to its end has consumed a token.
So no token is consumed twice or passed over.
-/

namespace Erl.Config
open Util Outcome

variable {R V O ε σ : Type}

namespace ArgParser

/-- The tokens not consumed yet. -/
def rest (p : ArgParser) : List StringView := p.args.drop p.cursor

/-- `n` times `++cursor`. -/
def skip (p : ArgParser) (n : Nat) : ArgParser :=
  { p with cursor := p.cursor + n, consumed := p.consumed ++ List.range' p.cursor n }

@[simp] theorem skip_zero (p : ArgParser) : p.skip 0 = p := by simp [skip]

theorem advance_skip (p : ArgParser) (n : Nat) : p.advance.skip n = p.skip (n + 1) := by
  simp [advance, skip, List.range'_succ, Nat.add_comm, Nat.add_left_comm]

theorem skip_skip (p : ArgParser) (m n : Nat) : (p.skip m).skip n = p.skip (m + n) := by
  simp [skip, Nat.add_assoc]

@[simp] theorem rest_skip (p : ArgParser) (n : Nat) : (p.skip n).rest = p.rest.drop n := by
  simp [rest, skip]

@[simp] theorem rest_advance (p : ArgParser) : p.advance.rest = p.rest.tail := by
  simp [rest, advance]

theorem current_eq (p : ArgParser) : p.current = p.rest.head? := by
  simp [current, rest]

theorem valid_eq (p : ArgParser) : p.valid = !p.rest.isEmpty := by
  by_cases h : p.cursor < p.args.length
  · simp [valid, rest, h]
  · simp [valid, rest, Nat.le_of_not_lt h, h]

end ArgParser

theorem currentToken_eq {p : ArgParser} {token : StringView} {toks : List StringView} (h : p.rest = token :: toks) :
    (currentToken p : Run ε σ StringView) = pure token := by
  unfold currentToken
  rw [p.current_eq, h]
  rfl

/-- A null handle is undefined behaviour; any other runs code of the target. -/
theorem ends_call (target : Target R V O ε σ) (u : Argument.Unevaluated R) (tuple : Nat → Option V)
    (stop : Halt ε → Prop) (hstop : ∀ reason, stop (.stopped reason)) (hnull : u.handle = none → stop .undefined) :
    Ends (u.call target tuple) stop fun _ => True := by
  unfold Argument.Unevaluated.call
  cases hu : u.handle with
  | none => exact Ends.throw (hnull hu)
  | some handle => exact (Ends.adapt _ _ hstop).bind fun _ _ => Ends.pure trivial

theorem ends_callAll (target : Target R V O ε σ) (stop : Halt ε → Prop) (hstop : ∀ reason, stop (.stopped reason)) :
    ∀ (arguments : List (Argument.Unevaluated R)) (tuple : Nat → Option V),
      (∀ u ∈ arguments, u.handle = none → stop .undefined) →
      Ends (callAll target arguments tuple) stop fun _ => True := by
  intro arguments
  induction arguments with
  | nil => intro tuple _; exact Ends.pure trivial
  | cons u arguments ih =>
    intro tuple hnull
    exact (ends_call target u tuple stop hstop (hnull u List.mem_cons_self)).bind fun tuple _ =>
      ih tuple fun u' hu' => hnull u' (List.mem_cons_of_mem _ hu')

theorem ends_option_call (target : Target R V O ε σ) (u : OptionEntry.Unevaluated R) (object : Option O)
    (stop : Halt ε → Prop) (hstop : ∀ reason, stop (.stopped reason)) (hhandle : u.handle = none → stop .undefined)
    (hnull : ∀ a ∈ u.arguments, a.handle = none → stop .undefined) :
    Ends (u.call target object) stop fun _ => True := by
  unfold OptionEntry.Unevaluated.call
  cases hu : u.handle with
  | none => exact Ends.throw (hhandle hu)
  | some r =>
    exact (ends_callAll target stop hstop u.arguments _ hnull).bind fun _ _ => Ends.adapt _ _ hstop

/-! ## The cursor only moves forward -/

/-- `p'` is `p` after at least `least` of its tokens, each stepped over once. -/
def Forward (least : Nat) (p p' : ArgParser) : Prop :=
  ∃ n, least ≤ n ∧ n ≤ p.rest.length ∧ p' = p.skip n

theorem Forward.refl (p : ArgParser) : Forward 0 p p := ⟨0, Nat.le_refl 0, Nat.zero_le _, p.skip_zero.symm⟩

theorem Forward.step {p : ArgParser} {token : StringView} (h : p.current = some token) : Forward 1 p p.advance := by
  refine ⟨1, Nat.le_refl 1, ?_, rfl⟩
  rw [p.current_eq] at h
  cases hrest : p.rest with
  | nil => simp [hrest] at h
  | cons token toks => simp

theorem Forward.trans {a b : Nat} {p p' p'' : ArgParser} (h : Forward a p p') (h' : Forward b p' p'') :
    Forward a p p'' := by
  obtain ⟨m, hm, hfits, rfl⟩ := h
  obtain ⟨n, -, hfits', rfl⟩ := h'
  rw [p.rest_skip, List.length_drop] at hfits'
  exact ⟨m + n, by omega, by omega, p.skip_skip m n⟩

theorem Forward.weaken {a : Nat} {p p' : ArgParser} (h : Forward a p p') : Forward 0 p p' := by
  obtain ⟨n, -, hfits, heq⟩ := h
  exact ⟨n, Nat.zero_le n, hfits, heq⟩

theorem Argument.doParse_forward (a : Argument R) (u : Argument.Unevaluated R) (p : ArgParser) :
    Ends (a.doParse u p : Run ε σ _) (· ≠ .endless) fun r => Forward 0 p r.2.2 := by
  unfold Argument.doParse currentToken
  cases p.valid with
  | false => exact Ends.pure (Forward.refl p)
  | true =>
    simp only [Bool.not_true, Bool.false_eq_true, if_false]
    cases hcurrent : p.current with
    | none => exact Ends.throw (by simp)
    | some current =>
      have hone : Forward 0 p p.advance := (Forward.step hcurrent).weaken
      simp only [pure_bind]
      split
      · exact Ends.throw (by simp)
      · split
        · split
          · exact Ends.pure hone
          · exact Ends.pure (Forward.refl p)
        · exact Ends.pure (Forward.refl p)
      · exact Ends.pure hone

theorem parseArguments_forward (arg_name : StringView) :
    ∀ (arguments : List (Argument R)) (u : OptionEntry.Unevaluated R) (p : ArgParser),
      Ends (parseArguments arg_name arguments u p : Run ε σ _) (· ≠ .endless) fun r => Forward 0 p r.2 := by
  intro arguments
  induction arguments with
  | nil => intro u p; exact Ends.pure (Forward.refl p)
  | cons a arguments ih =>
    intro u p
    rw [parseArguments]
    refine (a.doParse_forward {} p).bind ?_
    rintro ⟨parsed, argument, p'⟩ hp'
    have hmore : ∀ u', Ends (parseArguments arg_name arguments u' p' : Run ε σ _) (· ≠ .endless)
        fun r => Forward 0 p r.2 := fun u' => (ih u' p').mono fun _ h => hp'.trans h
    simp only
    split
    · exact hmore _
    · split
      · exact hmore _
      · exact Ends.throw (by simp)

/-- An entry that does not match leaves the cursor; one that matches consumes its name. -/
def Advances (p : ArgParser) (r : Bool × OptionEntry.Unevaluated R × ArgParser) : Prop :=
  if r.1 then Forward 1 p r.2.2 else r.2.2 = p

theorem OptionEntry.doParse_advances (o : OptionEntry R) (u : OptionEntry.Unevaluated R) (p : ArgParser) :
    Ends (o.doParse u p : Run ε σ _) (· ≠ .endless) (Advances p) := by
  unfold OptionEntry.doParse currentToken
  cases hcurrent : p.current with
  | none => exact Ends.throw (by simp)
  | some current =>
    simp only [pure_bind]
    split
    · exact Ends.throw (by simp)
    · split
      · exact Ends.pure rfl
      · refine (parseArguments_forward _ o.arguments u p.advance).bind ?_
        intro r hr
        exact Ends.pure ((Forward.step hcurrent).trans hr)

theorem parseAny_advances :
    ∀ (entries : List (OptionEntry R)) (u : OptionEntry.Unevaluated R) (p : ArgParser),
      Ends (parseAny entries u p : Run ε σ _) (· ≠ .endless) (Advances p) := by
  intro entries
  induction entries with
  | nil => intro u p; exact Ends.pure rfl
  | cons o entries ih =>
    intro u p
    rw [parseAny]
    refine (o.doParse_advances u p).bind ?_
    rintro ⟨found, u', p'⟩ h
    cases found with
    | true => exact Ends.pure h
    | false =>
      obtain rfl : p' = p := h
      exact ih u' p'

/-- **Progress.** Whatever the line, a turn of the loop that comes to its end has consumed
a token. -/
theorem turn_advances (spec : Spec R) (target : Target R V O ε σ) (p : ArgParser)
    (opts : List (OptionEntry.Unevaluated R)) :
    Ends (turn spec target p opts) (· ≠ .endless) fun r => Forward 1 p r.1 := by
  unfold turn
  refine (parseAny_advances spec.commands {} p).bind ?_
  rintro ⟨found, option, p₁⟩ h₁
  cases found with
  | true =>
    refine Ends.bind (ends_option_call target option none _ (by simp) (by simp) (by simp)) ?_
    intro _ _
    exact Ends.pure h₁
  | false =>
    obtain rfl : p₁ = p := h₁
    refine (parseAny_advances spec.options option p₁).bind ?_
    rintro ⟨found, option, p₂⟩ h₂
    cases found with
    | true => exact Ends.pure h₂
    | false =>
      simp only [Bool.false_eq_true, if_false]
      unfold currentToken
      cases p₂.current with
      | none => exact Ends.throw (by simp)
      | some current => exact Ends.throw (by simp)

end Erl.Config
