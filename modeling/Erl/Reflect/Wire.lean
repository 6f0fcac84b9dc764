import Erl.Reflect.Integers

/-!
# The wire format

`Wire T w v`: the bytes `w` are an image of the value `v` of type `T`. The decoders
accept exactly the images (`denotes_deserialize`), and the encoders write one
(`wire_serialize`), so decoding undoes encoding wherever the bytes stand. A value of an
ordered container has several images, as its elements may come in any order.
-/

namespace Erl.Reflect
open Decoding Ordered

section
variable (order : Containers)

mutual
def Wire : Ty → List UInt8 → Val → Prop
  | .integral t, w, v => ∃ i, t.kind.InRange i ∧ w = t.kind.image i ∧ v = .int i
  | .enumeration _ t, w, v => ∃ i, t.kind.InRange i ∧ w = t.kind.image i ∧ v = .int i
  | .pair a b, w, v => ∃ x y w₁ w₂, w = w₁ ++ w₂ ∧ Wire a w₁ x ∧ Wire b w₂ y ∧ v = .pair x y
  | .aggregate _ ts, w, v => ∃ vs, WireAll ts w vs ∧ v = .aggregate vs
  | .variant ts, w, v => ∃ (i : Nat) (x : Val) (w₂ : List UInt8), i < 2 ^ 64 ∧ w = sizeT.kind.image i ++ w₂ ∧
      WireAt ts i w₂ x ∧ v = .variant (selected ts i) x
  | .array t n, w, v => ∃ vs, n < 2 ^ 32 ∧ vs.length = n ∧ Each (Wire t) w vs ∧ v = .list vs
  | .sequence _ t, w, v => ∃ (vs : List Val) (w₂ : List UInt8), vs.length < 2 ^ 32 ∧
      w = uint32.kind.image vs.length ++ w₂ ∧ Each (Wire t) w₂ vs ∧ v = .list vs
  | .ordered name t, w, v => ∃ (vs : List Val) (w₂ : List UInt8), vs.length < 2 ^ 32 ∧
      w = uint32.kind.image vs.length ++ w₂ ∧ Each (Wire t) w₂ vs ∧ v = .list ((order name).ofRange vs)

def WireAll : List Ty → List UInt8 → List Val → Prop
  | [], w, vs => w = [] ∧ vs = []
  | t :: ts, w, vs => ∃ x xs w₁ w₂, w = w₁ ++ w₂ ∧ Wire t w₁ x ∧ WireAll ts w₂ xs ∧ vs = x :: xs

def WireAt : List Ty → Nat → List UInt8 → Val → Prop
  | [], _, _, _ => False
  | t :: _, 0, w, v => Wire t w v
  | _ :: ts, i + 1, w, v => WireAt ts i w v
end

/-- A counter read from the wire. -/
theorem inRange_unsigned_iff {w : Width} {i : Int} :
    (IntKind.unsigned w).InRange i ↔ ∃ n : Nat, n < 2 ^ (8 * w.bytes) ∧ i = n := by
  constructor
  · rintro ⟨lo, hi⟩
    refine ⟨i.toNat, ?_, (Int.toNat_of_nonneg lo).symm⟩
    rw [← Int.toNat_of_nonneg lo] at hi
    exact_mod_cast hi
  · rintro ⟨n, bound, rfl⟩
    exact ⟨Int.natCast_nonneg n, by exact_mod_cast bound⟩

/-- A decoder that reads a counter and continues with its value. -/
theorem denotes_counted (h : Host) {α : Type} {w : Width} {f : Nat → Reader α} {R : Nat → List UInt8 → α → Prop}
    (hf : ∀ n, Denotes (f n) (R n)) :
    Denotes (do let i ← deserializeInt h (.unsigned w); f i.toNat) fun w' a =>
      ∃ (n : Nat) (w₂ : List UInt8), n < 2 ^ (8 * w.bytes) ∧ w' = (IntKind.unsigned w).image n ++ w₂ ∧ R n w₂ a := by
  apply ((denotes_deserializeInt h (.unsigned w)).bind fun i => hf i.toNat).congr
  intro w' a
  constructor
  · rintro ⟨i, w₁, w₂, rfl, ⟨range, rfl⟩, rest⟩
    obtain ⟨n, bound, rfl⟩ := inRange_unsigned_iff.mp range
    exact ⟨n, w₂, bound, rfl, rest⟩
  · rintro ⟨n, w₂, bound, rfl, rest⟩
    exact ⟨n, _, w₂, rfl, ⟨inRange_unsigned_iff.mpr ⟨n, bound, rfl⟩, rfl⟩, rest⟩

/-- The elements of a container and what is made of them. -/
theorem denotes_elements {h : Host} {d : Reader Val} {R : List UInt8 → Val → Prop} (hd : Denotes d R)
    (f : List Val → Val) :
    Denotes (do let i ← deserializeInt h uint32.kind; let vs ← times d i.toNat; pure (f vs)) fun w v =>
      ∃ vs w₂, vs.length < 2 ^ 32 ∧ w = uint32.kind.image vs.length ++ w₂ ∧ Each R w₂ vs ∧ v = f vs := by
  apply (denotes_counted h fun n => (hd.times n).bind fun vs => Denotes.pure (f vs)).congr
  intro w v
  constructor
  · rintro ⟨n, _, bound, rfl, vs, w₂, _, rfl, ⟨rfl, each⟩, rfl, rfl⟩
    exact ⟨vs, w₂, bound, by rw [List.append_nil]; rfl, each, rfl⟩
  · rintro ⟨vs, w₂, bound, rfl, each, rfl⟩
    exact ⟨vs.length, w₂, bound, rfl, vs, w₂, [], (List.append_nil _).symm, ⟨rfl, each⟩, rfl, rfl⟩

theorem denotes_integer (h : Host) (k : IntKind) :
    Denotes (Val.int <$> deserializeInt h k) fun w v => ∃ i, k.InRange i ∧ w = k.image i ∧ v = .int i := by
  apply ((denotes_deserializeInt h k).map Val.int).congr
  intro w v
  simp only [and_assoc]

mutual
theorem denotes_deserialize (h : Host) (t : Ty) : Denotes (deserialize order h t) (Wire order t) := by
  cases t with
  | integral t =>
    rw [deserialize]
    apply (denotes_integer h t.kind).congr
    intro w v
    rw [Wire]
  | enumeration _ t =>
    rw [deserialize]
    apply (denotes_integer h t.kind).congr
    intro w v
    rw [Wire]
  | pair a b =>
    rw [deserialize]
    apply ((denotes_deserialize h a).bind fun x => (denotes_deserialize h b).bind fun y =>
      Denotes.pure (Val.pair x y)).congr
    intro w v
    rw [Wire]
    constructor
    · rintro ⟨x, w₁, _, rfl, first, y, w₂, _, rfl, second, rfl, rfl⟩
      exact ⟨x, y, w₁, w₂, by rw [List.append_nil], first, second, rfl⟩
    · rintro ⟨x, y, w₁, w₂, rfl, first, second, rfl⟩
      exact ⟨x, w₁, w₂, rfl, first, y, w₂, [], (List.append_nil _).symm, second, rfl, rfl⟩
  | aggregate _ ts =>
    rw [deserialize]
    apply ((denotes_deserializeAll h ts).map Val.aggregate).congr
    intro w v
    rw [Wire]
  | variant ts =>
    rw [deserialize]
    apply (denotes_counted (w := .w64) h fun i => (denotes_deserializeAt h ts i).bind fun x =>
      Denotes.pure (Val.variant (selected ts i) x)).congr
    intro w v
    rw [Wire]
    constructor
    · rintro ⟨i, _, bound, rfl, x, w₂, _, rfl, alternative, rfl, rfl⟩
      exact ⟨i, x, w₂, bound, by rw [List.append_nil]; rfl, alternative, rfl⟩
    · rintro ⟨i, x, w₂, bound, rfl, alternative, rfl⟩
      exact ⟨i, w₂, bound, rfl, x, w₂, [], (List.append_nil _).symm, alternative, rfl, rfl⟩
  | array t n =>
    rw [deserialize]
    apply (Denotes.ite (n < 2 ^ 32) (((denotes_deserialize h t).times n).map Val.list) (Denotes.throw .endless)).congr
    intro w v
    rw [Wire]
    split
    · simp_all [and_assoc]
    · simp_all
  | sequence _ t =>
    rw [deserialize]
    apply (denotes_elements (denotes_deserialize h t) Val.list).congr
    intro w v
    rw [Wire]
  | ordered name t =>
    rw [deserialize]
    apply (denotes_elements (denotes_deserialize h t) fun vs => .list ((order name).ofRange vs)).congr
    intro w v
    rw [Wire]

theorem denotes_deserializeAll (h : Host) (ts : List Ty) :
    Denotes (deserializeAll order h ts) (WireAll order ts) := by
  cases ts with
  | nil => exact Denotes.pure []
  | cons t ts =>
    rw [deserializeAll]
    apply ((denotes_deserialize h t).bind fun x => (denotes_deserializeAll h ts).bind fun xs =>
      Denotes.pure (x :: xs)).congr
    intro w vs
    rw [WireAll]
    constructor
    · rintro ⟨x, w₁, _, rfl, first, xs, w₂, _, rfl, rest, rfl, rfl⟩
      exact ⟨x, xs, w₁, w₂, by rw [List.append_nil], first, rest, rfl⟩
    · rintro ⟨x, xs, w₁, w₂, rfl, first, rest, rfl⟩
      exact ⟨x, w₁, w₂, rfl, first, xs, w₂, [], (List.append_nil _).symm, rest, rfl, rfl⟩

theorem denotes_deserializeAt (h : Host) (ts : List Ty) (i : Nat) :
    Denotes (deserializeAt order h ts i) (WireAt order ts i) := by
  cases ts with
  | nil => exact Denotes.throw Fault.noAlternative
  | cons t ts =>
    cases i with
    | zero => exact denotes_deserialize h t
    | succ i => exact denotes_deserializeAt h ts i
end

end

end Erl.Reflect
