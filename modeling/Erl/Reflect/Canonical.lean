import Erl.Reflect.RoundTrip

/-!
# Types whose values have one image

Only the elements of ordered containers may come in several orders. For all other types
the bytes `encode` writes are the only image of a value, on every host.
-/

namespace Erl.Reflect
open Decoding

mutual
/-- No ordered container inside. -/
def Ty.canonical : Ty → Bool
  | .integral _ | .enumeration .. => true
  | .pair a b => a.canonical && b.canonical
  | .aggregate _ ts | .variant ts => Ty.canonicalAll ts
  | .array t _ | .sequence _ t => t.canonical
  | .ordered .. => false

def Ty.canonicalAll : List Ty → Bool
  | [] => true
  | t :: ts => t.canonical && Ty.canonicalAll ts
end

theorem Ty.canonicalAll_iff {ts : List Ty} : Ty.canonicalAll ts = true ↔ ∀ t ∈ ts, t.canonical = true := by
  induction ts with
  | nil => simp [Ty.canonicalAll]
  | cons t ts ih => simp [Ty.canonicalAll, ih]

section
variable {order : Containers} (h : Host)

/-- The images of elements that have one image each. -/
theorem Each.eq_flatMap {t : Ty} (one : ∀ w v, Wire order t w v → v.small = true ∧ w = encode h t v) {w : List UInt8}
    {vs : List Val} (each : Each (Wire order t) w vs) :
    Val.smallAll vs = true ∧ w = written (vs.flatMap (serialize h t)) := by
  induction vs generalizing w with
  | nil => exact ⟨rfl, each⟩
  | cons v vs ih =>
    obtain ⟨w₁, w₂, rfl, first, rest⟩ := each
    obtain ⟨small, rfl⟩ := one w₁ v first
    obtain ⟨smallAll, rfl⟩ := ih rest
    refine ⟨by rw [Val.smallAll, small, smallAll]; rfl, ?_⟩
    rw [List.flatMap_cons, written_append]
    rfl

mutual
theorem Wire.eq_encode (t : Ty) (w : List UInt8) (v : Val) (proper : t.proper = true) (canonical : t.canonical = true)
    (image : Wire order t w v) : v.small = true ∧ w = encode h t v := by
  cases t with
  | integral t =>
    rw [Wire] at image
    obtain ⟨i, -, rfl, rfl⟩ := image
    exact ⟨rfl, by rw [encode, serialize, written_serializeInt]⟩
  | enumeration name t =>
    rw [Wire] at image
    obtain ⟨i, -, rfl, rfl⟩ := image
    exact ⟨rfl, by rw [encode, serialize, written_serializeInt]⟩
  | pair a b =>
    simp only [Ty.proper, Bool.and_eq_true] at proper
    simp only [Ty.canonical, Bool.and_eq_true] at canonical
    rw [Wire] at image
    obtain ⟨x, y, w₁, w₂, rfl, first, second, rfl⟩ := image
    obtain ⟨smallX, rfl⟩ := Wire.eq_encode a w₁ x proper.1 canonical.1 first
    obtain ⟨smallY, rfl⟩ := Wire.eq_encode b w₂ y proper.2 canonical.2 second
    exact ⟨by rw [Val.small, smallX, smallY]; rfl, by rw [encode, encode, encode, serialize, written_append]⟩
  | aggregate name ts =>
    rw [Wire] at image
    obtain ⟨vs, members, rfl⟩ := image
    obtain ⟨small, rfl⟩ := WireAll.eq_encodeAll ts w vs proper canonical members
    exact ⟨small, by rw [encodeAll, encode, serialize]⟩
  | variant ts =>
    simp only [Ty.proper, Bool.and_eq_true, decide_eq_true_eq] at proper
    rw [Wire] at image
    obtain ⟨i, x, w₂, -, rfl, alternative, rfl⟩ := image
    rw [selected_eq proper.1.1]
    obtain ⟨small, rfl⟩ := WireAt.eq_written ts i w₂ x proper.2 canonical alternative
    exact ⟨small, by rw [encode, serialize, written_append, written_serializeInt]⟩
  | array t n =>
    rw [Wire] at image
    obtain ⟨vs, bound, rfl, each, rfl⟩ := image
    obtain ⟨small, rfl⟩ := Each.eq_flatMap h (fun w v => Wire.eq_encode t w v proper canonical) each
    refine ⟨by simp only [Val.small, small, bound, decide_true, Bool.and_self], ?_⟩
    rw [encode, serialize, written_reserve]
  | sequence name t =>
    rw [Wire] at image
    obtain ⟨vs, w₂, bound, rfl, each, rfl⟩ := image
    obtain ⟨small, rfl⟩ := Each.eq_flatMap h (fun w v => Wire.eq_encode t w v proper canonical) each
    refine ⟨by simp only [Val.small, small, bound, decide_true, Bool.and_self], ?_⟩
    rw [encode, serialize, written_append, written_size h bound, written_reserve]
  | ordered name t => simp [Ty.canonical] at canonical

theorem WireAll.eq_encodeAll (ts : List Ty) (w : List UInt8) (vs : List Val) (proper : Ty.properAll ts = true)
    (canonical : Ty.canonicalAll ts = true) (image : WireAll order ts w vs) :
    Val.smallAll vs = true ∧ w = encodeAll h ts vs := by
  cases ts with
  | nil =>
    obtain ⟨rfl, rfl⟩ := image
    exact ⟨rfl, rfl⟩
  | cons t ts =>
    simp only [Ty.properAll, Bool.and_eq_true] at proper
    simp only [Ty.canonicalAll, Bool.and_eq_true] at canonical
    obtain ⟨x, xs, w₁, w₂, rfl, first, rest, rfl⟩ := image
    obtain ⟨small, rfl⟩ := Wire.eq_encode t w₁ x proper.1 canonical.1 first
    obtain ⟨smallAll, rfl⟩ := WireAll.eq_encodeAll ts w₂ xs proper.2 canonical.2 rest
    refine ⟨by rw [Val.smallAll, small, smallAll]; rfl, ?_⟩
    rw [encodeAll, encodeAll, encode, serializeAll, written_append]

theorem WireAt.eq_written (ts : List Ty) (i : Nat) (w : List UInt8) (v : Val) (proper : Ty.properAll ts = true)
    (canonical : Ty.canonicalAll ts = true) (image : WireAt order ts i w v) :
    v.small = true ∧ w = written (serializeAt h ts i v) := by
  cases ts with
  | nil => exact image.elim
  | cons t ts =>
    simp only [Ty.properAll, Bool.and_eq_true] at proper
    simp only [Ty.canonicalAll, Bool.and_eq_true] at canonical
    cases i with
    | zero => exact Wire.eq_encode t w v proper.1 canonical.1 image
    | succ i => exact WireAt.eq_written ts i w v proper.2 canonical.2 image
end

/-- For canonical types, images are what the encoders write. -/
theorem wireAll_iff_eq_encodeAll {ts : List Ty} {w : List UInt8} {vs : List Val} (proper : Ty.properAll ts = true)
    (canonical : Ty.canonicalAll ts = true) (typed : Ty.admitsAll order ts vs = true) :
    WireAll order ts w vs ↔ Val.smallAll vs = true ∧ w = encodeAll h ts vs := by
  constructor
  · exact WireAll.eq_encodeAll h ts w vs proper canonical
  · rintro ⟨small, rfl⟩
    exact wireAll_serializeAll h ts vs proper typed small

end

end Erl.Reflect
