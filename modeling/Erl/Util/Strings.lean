import Mathlib.Tactic.IntervalCases

/-!
# Strings and the scanning base class

`_impl/util/string.hpp` and the character tests of `_impl/util/parser.hpp`. A
`std::string_view` is the list of its characters.
-/

namespace Erl.Util

abbrev StringView := List Char

/-- `is_digit`. -/
def isDigit (c : Char) : Bool := '0' ≤ c && c ≤ '9'

/-- `is_integer`. -/
def isInteger : StringView → Bool
  | [] => false
  | '-' :: str => str.all isDigit
  | str => str.all isDigit

/-- The digits `utos` appends, the last one first. Each is `'0' + value % 10`. -/
def utosDigits : Nat → Nat → List Char
  | 0, _ => []
  | fuel + 1, value =>
    Char.ofNat ('0'.toNat + value % 10) :: if value / 10 > 0 then utosDigits fuel (value / 10) else []

/-- `utos`. -/
def utos (value : UInt64) : List Char := (utosDigits (value.toNat + 1) value.toNat).reverse

/-- The value of a `char`, of 8 bits and with a sign. -/
def charValue (c : Char) : Int := (c.toNat + 128) % 256 - 128

/-- `stou`. The result is an `unsigned` until it is returned. -/
def stou (str : StringView) : Nat :=
  str.foldl (fun result c => ((result * 10 + (charValue c - '0'.toNat) : Int) % 2 ^ 32).toNat) 0

/-- `to_string` of a signed number. -/
def toStringInt (value : Int64) : List Char := if value < 0 then '-' :: utos (-value).toUInt64 else utos value.toUInt64

theorem isDigit_iff {c : Char} : isDigit c = true ↔ '0'.toNat ≤ c.toNat ∧ c.toNat ≤ '9'.toNat := by
  unfold isDigit
  rw [Bool.and_eq_true, decide_eq_true_iff, decide_eq_true_iff]
  exact Iff.rfl

theorem digit_eq {d : Nat} (h : d < 10) : Char.ofNat ('0'.toNat + d) = d.digitChar := by
  interval_cases d <;> rfl

theorem utosDigits_eq {fuel value : Nat} (h : value < fuel) : (utosDigits fuel value).reverse = Nat.toDigits 10 value := by
  induction fuel generalizing value with
  | zero => omega
  | succ fuel ih =>
    unfold utosDigits
    rw [digit_eq (Nat.mod_lt value (by omega)), List.reverse_cons]
    by_cases hv : value < 10
    · rw [if_neg (by omega), Nat.toDigits_of_lt_base hv, Nat.mod_eq_of_lt hv]
      rfl
    · rw [if_pos (by omega), ih (by omega)]
      exact (Nat.toDigits_of_base_le (by omega) (by omega)).symm

theorem utos_eq (value : UInt64) : utos value = Nat.toDigits 10 value.toNat :=
  utosDigits_eq (Nat.lt_succ_self _)

theorem utos_ne_nil (value : UInt64) : utos value ≠ [] := by
  rw [utos_eq]
  exact Nat.toDigits_ne_nil

theorem isDigit_of_mem_toDigits {n : Nat} {c : Char} (h : c ∈ Nat.toDigits 10 n) : isDigit c = true := by
  have hdigit := Nat.isDigit_of_mem_toDigits (by omega) (Nat.le_refl 10) h
  rw [Char.isDigit, Bool.and_eq_true, decide_eq_true_iff, decide_eq_true_iff] at hdigit
  exact isDigit_iff.mpr hdigit

theorem isDigit_of_mem_utos {value : UInt64} {c : Char} (h : c ∈ utos value) : isDigit c = true := by
  rw [utos_eq] at h
  exact isDigit_of_mem_toDigits h

theorem utos_injective : Function.Injective utos := by
  intro v w same
  rw [utos_eq, utos_eq] at same
  have numbers := congrArg (fun digits => Nat.ofDigitChars 10 digits 0) same
  simp only [Nat.ofDigitChars_ten_toDigits] at numbers
  exact UInt64.toNat_inj.mp numbers

theorem toStringInt_injective : Function.Injective toStringInt := by
  have no_sign : ∀ (v : UInt64) (text : List Char), utos v ≠ '-' :: text := by
    intro v text same
    have mem : '-' ∈ utos v := same ▸ List.mem_cons_self
    cases isDigit_of_mem_utos mem
  intro v w same
  unfold toStringInt at same
  split at same
  · split at same
    · have negated : -v = -w := congrArg Int64.ofUInt64 (utos_injective (List.cons.inj same).2)
      exact Int64.neg_neg.symm.trans ((congrArg Neg.neg negated).trans Int64.neg_neg)
    · exact absurd same.symm (no_sign _ _)
  · split at same
    · exact absurd same (no_sign _ _)
    · exact congrArg Int64.ofUInt64 (utos_injective same)

theorem isInteger_cons {c : Char} (str : StringView) (h : c ≠ '-') :
    isInteger (c :: str) = (isDigit c && str.all isDigit) := by
  unfold isInteger
  split
  · rename_i hnil
    cases hnil
  · rename_i heq
    cases heq
    exact absurd rfl h
  · exact List.all_cons

theorem isInteger_of_digits {str : StringView} (hne : str ≠ []) (h : ∀ c ∈ str, isDigit c = true) :
    isInteger str = true := by
  obtain ⟨c, str, rfl⟩ := List.exists_cons_of_ne_nil hne
  have hc : isDigit c = true := h c List.mem_cons_self
  have hminus : c ≠ '-' := by
    rintro rfl
    cases hc
  rw [isInteger_cons str hminus, hc, Bool.true_and]
  exact List.all_eq_true.mpr fun x hx => h x (List.mem_cons_of_mem c hx)

theorem foldl_stou_of_digits {str : StringView} (value : Nat) (h : ∀ c ∈ str, isDigit c = true) :
    str.foldl (fun result c => ((result * 10 + (charValue c - '0'.toNat) : Int) % 2 ^ 32).toNat) (value % 2 ^ 32) =
      Nat.ofDigitChars 10 str value % 2 ^ 32 := by
  induction str generalizing value with
  | nil => rfl
  | cons c str ih =>
    have hc := isDigit_iff.mp (h c List.mem_cons_self)
    have hvalue : charValue c = c.toNat := by
      have : '9'.toNat = 57 := rfl
      rw [charValue]
      omega
    have hstep : (((value % 2 ^ 32 : Nat) * 10 + (charValue c - '0'.toNat) : Int) % 2 ^ 32).toNat =
        (10 * value + (c.toNat - '0'.toNat)) % 2 ^ 32 := by
      rw [hvalue]
      omega
    rw [List.foldl_cons, hstep, ih _ fun x hx => h x (List.mem_cons_of_mem c hx), Nat.ofDigitChars_cons]

/-- On digits `stou` is the number they write, cut to 32 bits. -/
theorem stou_of_digits {str : StringView} (h : ∀ c ∈ str, isDigit c = true) :
    stou str = Nat.ofDigitChars 10 str 0 % 2 ^ 32 :=
  foldl_stou_of_digits 0 h

/-- Behind a sign it goes on from `'-' - '0'`. -/
theorem stou_of_sign {str : StringView} (h : ∀ c ∈ str, isDigit c = true) :
    stou ('-' :: str) = (10 ^ str.length * (2 ^ 32 - 3) + Nat.ofDigitChars 10 str 0) % 2 ^ 32 := by
  rw [← Nat.ofDigitChars_eq_ofDigitChars_zero]
  exact foldl_stou_of_digits (2 ^ 32 - 3) h

theorem stou_toDigits (n : Nat) : stou (Nat.toDigits 10 n) = n % 2 ^ 32 := by
  rw [stou_of_digits fun c hc => isDigit_of_mem_toDigits hc, Nat.ofDigitChars_ten_toDigits]

theorem isInteger_toDigits (n : Nat) : isInteger (Nat.toDigits 10 n) = true :=
  isInteger_of_digits Nat.toDigits_ne_nil fun _ hc => isDigit_of_mem_toDigits hc

end Erl.Util
