import Mathlib.Algebra.Order.Group.Nat

/-!
# Little-endian bytes

`little n x` lists the low `n` bytes of `x`, lowest first; `number` reads a list of
bytes back. The two are inverse on numbers below `256 ^ n` and on lists of length `n`.
-/

namespace Bytes

def little : Nat → Nat → List UInt8
  | 0, _ => []
  | n + 1, x => x.toUInt8 :: little n (x / 256)

def number : List UInt8 → Nat
  | [] => 0
  | b :: bs => b.toNat + 256 * number bs

@[simp] theorem length_little (n x : Nat) : (little n x).length = n := by
  induction n generalizing x with
  | zero => rfl
  | succ n ih => simp [little, ih]

theorem number_lt (bs : List UInt8) : number bs < 256 ^ bs.length := by
  induction bs with
  | nil => simp [number]
  | cons b bs ih =>
    have low := b.toNat_lt
    rw [List.length_cons, Nat.pow_succ']
    show b.toNat + 256 * number bs < _
    omega

@[simp] theorem number_little (n x : Nat) : number (little n x) = x % 256 ^ n := by
  induction n generalizing x with
  | zero => simp [little, number, Nat.mod_one]
  | succ n ih =>
    have low : x.toUInt8.toNat = x % 256 := by simp [Nat.toUInt8]
    show x.toUInt8.toNat + 256 * number (little n (x / 256)) = _
    rw [ih, low, Nat.pow_succ', Nat.mod_mul]

theorem little_number {n : Nat} {bs : List UInt8} (h : bs.length = n) : little n (number bs) = bs := by
  subst h
  induction bs with
  | nil => rfl
  | cons b bs ih =>
    have low := b.toNat_lt
    have head : (b.toNat + 256 * number bs).toUInt8 = b := by
      apply UInt8.toNat_inj.mp
      simp only [Nat.toUInt8, UInt8.toNat_ofNat']
      omega
    have tail : (b.toNat + 256 * number bs) / 256 = number bs := by omega
    show (b.toNat + 256 * number bs).toUInt8 :: little bs.length ((b.toNat + 256 * number bs) / 256) = _
    rw [head, tail, ih]

end Bytes
