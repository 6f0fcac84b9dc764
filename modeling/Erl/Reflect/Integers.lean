import Erl.Reflect.Codec

/-!
# Integers on the wire

On either kind of host an integer is written as its two's complement bytes, lowest
first, and these bytes are all that is read back as this integer.
-/

namespace Erl.Reflect
open Decoding

theorem two_pow_eq (w : Width) : 2 ^ (8 * w.bytes) = 256 ^ w.bytes := by
  rw [show 256 = 2 ^ 8 from rfl, ← Nat.pow_mul]

namespace IntKind

variable {k : IntKind} {i : Int} {x : Nat}

/-- The bytes of an integer on the wire. -/
def image (k : IntKind) (i : Int) : List UInt8 := Bytes.little k.size (k.toNat i)

@[simp] theorem length_image (k : IntKind) (i : Int) : (k.image i).length = k.size := Bytes.length_little ..

theorem toNat_lt (k : IntKind) (i : Int) : k.toNat i < 256 ^ k.size := by
  have bound := (BitVec.ofInt (8 * k.size) i).isLt
  rwa [Nat.pow_mul] at bound

theorem toNat_ofNat (h : x < 256 ^ k.size) : k.toNat (k.ofNat x) = x := by
  cases k with
  | bool => simpa [toNat, ofNat, size] using Nat.mod_eq_of_lt h
  | signed w =>
    rw [size, ← two_pow_eq] at h
    simpa [toNat, ofNat, size] using Nat.mod_eq_of_lt h
  | unsigned w =>
    rw [size, ← two_pow_eq] at h
    simpa [toNat, ofNat, size] using Nat.mod_eq_of_lt h

theorem ofNat_toNat (h : k.InRange i) : k.ofNat (k.toNat i) = i := by
  cases k with
  | bool => rcases h with rfl | rfl <;> rfl
  | signed w =>
    obtain ⟨lo, hi⟩ := h
    rw [toNat, ofNat, size, BitVec.ofNat_toNat, BitVec.setWidth_eq, BitVec.toInt_ofInt]
    apply Int.bmod_eq_of_le
    · cases w <;> simp only [Width.bytes] at lo hi ⊢ <;> omega
    · cases w <;> simp only [Width.bytes] at lo hi ⊢ <;> omega
  | unsigned w =>
    obtain ⟨lo, hi⟩ := h
    rw [toNat, ofNat, size, BitVec.toNat_ofInt]
    · have small : i % (2 ^ (8 * w.bytes) : Nat) = i := Int.emod_eq_of_lt lo (by exact_mod_cast hi)
      rw [small, Int.toNat_of_nonneg lo]
    · intro w'
      simp

theorem inRange_ofNat (h : x < 256 ^ k.size) (byte : k = .bool → x < 2) : k.InRange (k.ofNat x) := by
  cases k with
  | bool =>
    have := byte rfl
    show (x : Int) = 0 ∨ (x : Int) = 1
    omega
  | signed w =>
    have positive : 0 < 8 * w.bytes := by cases w <;> decide
    have lo := BitVec.le_toInt (BitVec.ofNat (8 * w.bytes) x)
    have hi := BitVec.toInt_lt (x := BitVec.ofNat (8 * w.bytes) x)
    exact ⟨lo, hi⟩
  | unsigned w =>
    rw [size, ← two_pow_eq] at h
    show 0 ≤ (x : Int) ∧ (x : Int) < 2 ^ (8 * w.bytes)
    exact ⟨Int.natCast_nonneg x, by exact_mod_cast h⟩

/-- An integer is what its image is read as. -/
theorem ofNat_number_image (h : k.InRange i) : k.ofNat (Bytes.number (k.image i)) = i := by
  rw [image, Bytes.number_little, Nat.mod_eq_of_lt (k.toNat_lt i), ofNat_toNat h]

/-- Any bytes are the image of what they are read as. -/
theorem image_ofNat_number {w : List UInt8} (h : w.length = k.size) : k.image (k.ofNat (Bytes.number w)) = w := by
  have bound := Bytes.number_lt w
  rw [h] at bound
  rw [image, toNat_ofNat bound, Bytes.little_number h]

theorem toNat_byteswap (k : IntKind) (i : Int) : k.toNat (k.byteswap i) = Bytes.number (k.image i).reverse := by
  apply toNat_ofNat
  have bound := Bytes.number_lt (k.image i).reverse
  rwa [List.length_reverse, length_image] at bound

/-- Swapping the bytes of an integer reverses its image. -/
theorem image_byteswap (k : IntKind) (i : Int) : k.image (k.byteswap i) = (k.image i).reverse := by
  rw [image, toNat_byteswap, Bytes.little_number (by simp)]

end IntKind

variable (h : Host) (k : IntKind)

/-- Little- and big-endian hosts write the same bytes. -/
theorem written_serializeInt (i : Int) : written (serializeInt h k i) = k.image i := by
  simp only [serializeInt, written, List.flatMap_cons, List.flatMap_nil, List.append_nil, Host.native]
  cases h.endian with
  | little => rfl
  | big => exact (congrArg List.reverse (k.image_byteswap i)).trans (List.reverse_reverse _)

/-- Little- and big-endian hosts read the same integer. -/
theorem ofNat_number_native {w : List UInt8} (size : w.length = k.size) :
    (if h.endian = .big then k.byteswap (k.ofNat (Bytes.number (h.native w))) else
      k.ofNat (Bytes.number (h.native w))) = k.ofNat (Bytes.number w) := by
  unfold Host.native
  cases h.endian with
  | little => rfl
  | big =>
    have reversed : w.reverse.length = k.size := by rw [List.length_reverse, size]
    show k.ofNat (Bytes.number (k.image (k.ofNat (Bytes.number w.reverse))).reverse) = _
    rw [IntKind.image_ofNat_number reversed, List.reverse_reverse]

theorem native_of_length_one {w : List UInt8} (one : w.length = 1) : h.native w = w := by
  obtain ⟨b, rfl⟩ := List.length_eq_one_iff.mp one
  unfold Host.native
  split <;> rfl

theorem denotes_load (w : List UInt8) : Denotes (k.load h w) fun w' i =>
    ¬(k = .bool ∧ 2 ≤ Bytes.number (h.native w)) ∧ w' = [] ∧ i = k.ofNat (Bytes.number (h.native w)) := by
  unfold IntKind.load
  apply (Denotes.ite _ (Denotes.throw _) (Denotes.pure _)).congr
  intro w' i
  split <;> simp_all

/-- An integer is decoded from its image and from nothing else. -/
theorem denotes_deserializeInt : Denotes (deserializeInt h k) fun w i => k.InRange i ∧ w = k.image i := by
  have whole := (Denotes.read (ε := Fault) (β := UInt8) .overRead k.size).bind fun raw =>
    (denotes_load h k raw).bind fun value =>
      Denotes.pure (if h.endian = .big then k.byteswap value else value)
  apply whole.congr
  intro w i
  constructor
  · rintro ⟨raw, w₁, _, rfl, ⟨size, rfl⟩, value, _, _, rfl, ⟨valid, rfl, rfl⟩, rfl, rfl⟩
    rw [ofNat_number_native h k size, List.append_nil, List.append_nil]
    have bound := Bytes.number_lt raw
    rw [size] at bound
    refine ⟨IntKind.inRange_ofNat bound ?_, (IntKind.image_ofNat_number size).symm⟩
    rintro rfl
    rw [native_of_length_one h size] at valid
    exact Nat.lt_of_not_le fun large => valid ⟨rfl, large⟩
  · rintro ⟨range, rfl⟩
    have size := k.length_image i
    refine ⟨k.image i, k.image i, [], (List.append_nil _).symm, ⟨size, rfl⟩, _, [], [], rfl, ⟨?_, rfl, rfl⟩, rfl, ?_⟩
    · rintro ⟨rfl, large⟩
      rw [native_of_length_one h size] at large
      rcases range with rfl | rfl <;> revert large <;> decide
    · rw [ofNat_number_native h k size, IntKind.ofNat_number_image range]

end Erl.Reflect
