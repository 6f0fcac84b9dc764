import Erl.Rpc.Arguments
import Erl.Util.Strings
import Mathlib.Algebra.Order.Ring.Nat
import Mathlib.Data.Nat.Prime.Basic
import Mathlib.Tactic.NormNum

/-!
# Decimal numbers as text

`utos` writes a number and `stou` reads one; `is_integer` says what `stou` is given, and
`parse_value` (`_impl/config/args.hpp`) converts what it returns to the type of an option.
A string with a sign is read digit by digit like the others, the sign being `'-' - '0'`.
-/

namespace Erl.Config
open Util Reflect Rpc

/-- `parse_value` of an integral type. -/
def parseInteger (k : IntKind) (value : StringView) : Int := convertInt k (stou value)

/-- The characters behind the sign. -/
def digits (str : StringView) : StringView := if str.head? = some '-' then str.tail else str

def magnitude (str : StringView) : Nat := Nat.ofDigitChars 10 (digits str) 0

/-- The number `str` denotes, if it has a digit. -/
def denoted (str : StringView) : Option Int :=
  if digits str = [] then none
  else some (if str.head? = some '-' then -magnitude str else magnitude str)

/-- A string `is_integer` accepts has a digit, and if its number is an unsigned one of 64 bits,
that number is what is read, at every integral type it fits into. The indices of the format
parser are the `unsigned` ones. -/
def ReadsBack (str : StringView) : Prop :=
  isInteger str = true →
    (∃ c ∈ str, isDigit c = true) ∧
      ∀ v : Nat, v < 2 ^ 64 → denoted str = some (v : Int) →
        stou str = v ∧ ∀ k : IntKind, k.InRange v → parseInteger k str = v

/-- The number fits into the `unsigned` of `stou`, or not even into its result; a string with a
sign has a number other than zero, or so many zeros that the sign is shifted out. -/
def InReach (str : StringView) : Prop :=
  isInteger str = true →
    if str.head? = some '-' then magnitude str ≠ 0 ∨ 32 ≤ (digits str).length
    else magnitude str < 2 ^ 32 ∨ 2 ^ 64 ≤ magnitude str

section
variable {k : IntKind} {str : StringView} {c : Char}

theorem parseInteger_eq (h : k.InRange (stou str)) : parseInteger k str = stou str := by
  unfold parseInteger
  cases k with
  | bool =>
    show (if (stou str : Int) = 0 then 0 else 1) = _
    have hbit : (stou str : Int) = 0 ∨ (stou str : Int) = 1 := h
    omega
  | signed w => exact IntKind.ofNat_toNat h
  | unsigned w => exact IntKind.ofNat_toNat h

/-- A conversion can only lose what `stou` has read. -/
theorem reads_iff {v : Nat} :
    (stou str = v ∧ ∀ k : IntKind, k.InRange v → parseInteger k str = v) ↔ stou str = v := by
  constructor
  · exact And.left
  · rintro rfl
    exact ⟨rfl, fun k hk => parseInteger_eq hk⟩

theorem readsBack_iff (hint : isInteger str = true) :
    ReadsBack str ↔ (∃ c ∈ str, isDigit c = true) ∧
      ∀ v : Nat, v < 2 ^ 64 → denoted str = some (v : Int) → stou str = v := by
  unfold ReadsBack
  simp only [reads_iff]
  exact ⟨fun h => h hint, fun h _ => h⟩

/-- Only 32 zeros shift the sign out of 32 bits. -/
theorem sign_shifted_out (n : Nat) : 10 ^ n * (2 ^ 32 - 3) % 2 ^ 32 = 0 ↔ 32 ≤ n := by
  have hodd : Nat.Coprime (2 ^ 32) (5 ^ n * (2 ^ 32 - 3)) := by
    apply Nat.Coprime.pow_left
    rw [Nat.coprime_two_left]
    exact (Odd.pow (by decide)).mul (by decide)
  have hten : 10 ^ n * (2 ^ 32 - 3) = 2 ^ n * (5 ^ n * (2 ^ 32 - 3)) := by
    rw [← Nat.mul_assoc, ← Nat.mul_pow]
  rw [← Nat.dvd_iff_mod_eq_zero, hten]
  constructor
  · intro hdvd
    exact (Nat.pow_dvd_pow_iff_le_right (by omega)).mp (hodd.dvd_of_dvd_mul_right hdvd)
  · intro hle
    exact Dvd.dvd.mul_right (Nat.pow_dvd_pow 2 hle) _

theorem denoted_sign (h : str ≠ []) : denoted ('-' :: str) = some (-(Nat.ofDigitChars 10 str 0 : Int)) := if_neg h

theorem readsBack_sign (hint : isInteger ('-' :: str) = true) :
    ReadsBack ('-' :: str) ↔ Nat.ofDigitChars 10 str 0 ≠ 0 ∨ 32 ≤ str.length := by
  have hdigits : ∀ c ∈ str, isDigit c = true := List.all_eq_true.mp hint
  rw [readsBack_iff hint, stou_of_sign hdigits]
  constructor
  · rintro ⟨⟨c, hc, hdigit⟩, hread⟩
    have hne : str ≠ [] := by
      rintro rfl
      rw [List.mem_singleton] at hc
      subst hc
      cases hdigit
    by_cases hzero : Nat.ofDigitChars 10 str 0 = 0
    · have hread := hread 0 (by omega) (by rw [denoted_sign hne, hzero]; rfl)
      rw [hzero, Nat.add_zero] at hread
      exact Or.inr ((sign_shifted_out str.length).mp hread)
    · exact Or.inl hzero
  · intro h
    have hne : str ≠ [] := by
      rintro rfl
      rcases h with h | h
      · exact h rfl
      · exact absurd h (by decide)
    obtain ⟨c, hc⟩ := List.exists_mem_of_ne_nil str hne
    refine ⟨⟨c, List.mem_cons_of_mem _ hc, hdigits c hc⟩, fun v hv hdenoted => ?_⟩
    rw [denoted_sign hne, Option.some.injEq] at hdenoted
    have hzero : Nat.ofDigitChars 10 str 0 = 0 := by omega
    have hlength : 32 ≤ str.length := h.resolve_left fun hnonzero => hnonzero hzero
    rw [hzero, Nat.add_zero, (sign_shifted_out str.length).mpr hlength]
    omega

theorem readsBack_digits (hc : c ≠ '-') (hint : isInteger (c :: str) = true) :
    ReadsBack (c :: str) ↔ Nat.ofDigitChars 10 (c :: str) 0 < 2 ^ 32 ∨ 2 ^ 64 ≤ Nat.ofDigitChars 10 (c :: str) 0 := by
  have hall := hint
  rw [isInteger_cons str hc, ← List.all_cons, List.all_eq_true] at hall
  have hhead : (c :: str).head? ≠ some '-' := fun h => hc (Option.some.inj h)
  have hdenoted : denoted (c :: str) = some (Nat.ofDigitChars 10 (c :: str) 0 : Int) := by
    simp only [denoted, magnitude, digits, hhead, if_false, reduceCtorEq]
  rw [readsBack_iff hint, stou_of_digits hall, hdenoted]
  constructor
  · rintro ⟨-, hread⟩
    by_cases hwide : 2 ^ 64 ≤ Nat.ofDigitChars 10 (c :: str) 0
    · exact Or.inr hwide
    · have hread := hread _ (by omega) rfl
      omega
  · intro h
    refine ⟨⟨c, List.mem_cons_self, hall c List.mem_cons_self⟩, fun v hv hv' => ?_⟩
    rw [Option.some.injEq] at hv'
    omega

end

/-- **Decimal conversion is exact up to 32 bits.** A number comes back from its text exactly if it
fits into the 32 bits that `stou` computes with, although its result has 64. -/
theorem decimal_iff (v : UInt64) (str : StringView) :
    (stou (utos v) = v.toNat ↔ v.toNat < 2 ^ 32) ∧ (ReadsBack str ↔ InReach str) := by
  constructor
  · rw [utos_eq, stou_toDigits]
    omega
  · by_cases hint : isInteger str = true
    · have hreach : InReach str ↔ if str.head? = some '-' then magnitude str ≠ 0 ∨ 32 ≤ (digits str).length
          else magnitude str < 2 ^ 32 ∨ 2 ^ 64 ≤ magnitude str := ⟨fun h => h hint, fun h _ => h⟩
      rw [hreach]
      cases str with
      | nil => cases hint
      | cons c str =>
        by_cases hc : c = '-'
        · subst hc
          exact readsBack_sign hint
        · have hhead : (c :: str).head? ≠ some '-' := fun h => hc (Option.some.inj h)
          simp only [magnitude, digits, hhead, if_false]
          exact readsBack_digits hc hint
    · exact ⟨fun _ h => absurd h hint, fun _ h => absurd h hint⟩

/-- 2³² is written in ten digits and read as zero, `-` has no digit, and `-0` is read as 2³² - 30. -/
theorem not_full_width :
    stou (utos 4294967296) = 0 ∧ ¬ReadsBack "4294967296".toList ∧ ¬ReadsBack "-".toList ∧
      ¬ReadsBack "-0".toList := by
  refine ⟨by decide, fun h => ?_, fun h => ?_, fun h => ?_⟩
  · exact absurd ((h (by decide)).2 4294967296 (by decide) (by decide)).1 (by decide)
  · obtain ⟨c, hc, hdigit⟩ := (h (by decide)).1
    rw [List.mem_singleton.mp hc] at hdigit
    cases hdigit
  · exact absurd ((h (by decide)).2 0 (by decide) (by decide)).1 (by decide)

end Erl.Config
