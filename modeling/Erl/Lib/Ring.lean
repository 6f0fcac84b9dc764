import Mathlib.Algebra.Order.Group.Nat

/-!
# Ring positions

Positions of a ring buffer count up from the start; the slot of a position is its
remainder by the size. Two positions less than one lap apart that share a slot are
equal. For a size that is a power of two, masking computes the slot.
-/

namespace Ring

/-- A ring size with its checks: at least two slots, and a power of two. -/
structure Size where
  size : Nat
  two_le : 2 ≤ size
  powerOfTwo : size &&& (size - 1) = 0

namespace Size

variable (N : Size)

def mask : Nat := N.size - 1

theorem pos : 0 < N.size := Nat.lt_of_lt_of_le Nat.two_pos N.two_le

theorem isPowerOfTwo : N.size.isPowerOfTwo :=
  Nat.ne_zero_and_sub_one_eq_zero_iff_isPowerOfTwo.mp ⟨Nat.ne_of_gt N.pos, N.powerOfTwo⟩

/-- Masking a position yields its slot. -/
@[simp] theorem and_mask (a : Nat) : a &&& N.mask = a % N.size := by
  obtain ⟨k, hk⟩ := N.isPowerOfTwo
  rw [mask, hk, Nat.and_two_pow_sub_one_eq_mod]

theorem mask_add_one : N.mask + 1 = N.size := Nat.sub_add_cancel N.pos

/-- The smallest admitted size. -/
def two : Size := ⟨2, Nat.le_refl 2, rfl⟩

end Size

/-- Positions within one lap of each other are told apart by their slots. -/
theorem eq_of_slot_eq (lo : Nat) {n a b : Nat} (ha : lo ≤ a) (ha' : a < lo + n) (hb : lo ≤ b) (hb' : b < lo + n)
    (slot : a % n = b % n) : a = b := by
  have up : a - b = 0 := by
    have zero := Nat.sub_mod_eq_zero_of_mod_eq slot
    rwa [Nat.mod_eq_of_lt (by omega)] at zero
  have down : b - a = 0 := by
    have zero := Nat.sub_mod_eq_zero_of_mod_eq slot.symm
    rwa [Nat.mod_eq_of_lt (by omega)] at zero
  omega

/-- Consecutive positions have different slots. -/
theorem slot_succ_ne {n : Nat} (h : 2 ≤ n) (a : Nat) : (a + 1) % n ≠ a % n := by
  intro same
  have := eq_of_slot_eq a (by omega) (by omega) (by omega) (by omega) same
  omega

end Ring
