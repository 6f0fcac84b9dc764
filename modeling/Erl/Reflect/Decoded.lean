import Erl.Reflect.RoundTrip

/-!
# What the decoders return on arbitrary bytes

A decoder that returns has read a value of its type, inside the buffer. On all other
bytes it is at fault: the decoders have no error of their own to report.
-/

namespace Erl.Reflect
open Decoding Ordered

section
variable {order : Containers}

theorem Each.admits {t : Ty} (one : ∀ w v, Wire order t w v → t.admits order v = true) {w : List UInt8} {vs : List Val}
    (each : Each (Wire order t) w vs) : ∀ v ∈ vs, t.admits order v = true := by
  intro v hv
  obtain ⟨w', image⟩ := each.exists_image hv
  exact one w' v image

mutual
theorem Wire.admits (t : Ty) (w : List UInt8) (v : Val) (proper : t.proper = true) (image : Wire order t w v) :
    t.admits order v = true := by
  cases t with
  | integral t =>
    rw [Wire] at image
    obtain ⟨i, range, -, rfl⟩ := image
    exact decide_eq_true range
  | enumeration name t =>
    rw [Wire] at image
    obtain ⟨i, range, -, rfl⟩ := image
    exact decide_eq_true range
  | pair a b =>
    simp only [Ty.proper, Bool.and_eq_true] at proper
    rw [Wire] at image
    obtain ⟨x, y, w₁, w₂, -, first, second, rfl⟩ := image
    rw [Ty.admits, Wire.admits a w₁ x proper.1 first, Wire.admits b w₂ y proper.2 second]
    rfl
  | aggregate name ts =>
    rw [Wire] at image
    obtain ⟨vs, members, rfl⟩ := image
    exact WireAll.admits ts w vs proper members
  | variant ts =>
    simp only [Ty.proper, Bool.and_eq_true, decide_eq_true_eq] at proper
    rw [Wire] at image
    obtain ⟨i, x, w₂, -, -, alternative, rfl⟩ := image
    rw [selected_eq proper.1.1]
    exact WireAt.admits ts i w₂ x proper.2 alternative
  | array t n =>
    rw [Wire] at image
    obtain ⟨vs, -, rfl, each, rfl⟩ := image
    have typed := Each.admits (fun w v => Wire.admits t w v proper) each
    rw [Ty.admits, List.all_eq_true.mpr typed]
    simp
  | sequence name t =>
    rw [Wire] at image
    obtain ⟨vs, w₂, -, -, each, rfl⟩ := image
    exact List.all_eq_true.mpr (Each.admits (fun w v => Wire.admits t w v proper) each)
  | ordered name t =>
    rw [Wire] at image
    obtain ⟨vs, w₂, -, -, each, rfl⟩ := image
    have typed := Each.admits (fun w v => Wire.admits t w v proper) each
    obtain ⟨hsorted, hmem⟩ := (order name).sorted_ofRange vs
    rw [Ty.admits, List.all_eq_true.mpr fun v hv => typed v (hmem v hv), decide_eq_true hsorted]
    rfl

theorem WireAll.admits (ts : List Ty) (w : List UInt8) (vs : List Val) (proper : Ty.properAll ts = true)
    (image : WireAll order ts w vs) : Ty.admitsAll order ts vs = true := by
  cases ts with
  | nil =>
    obtain ⟨-, rfl⟩ := image
    rfl
  | cons t ts =>
    simp only [Ty.properAll, Bool.and_eq_true] at proper
    obtain ⟨x, xs, w₁, w₂, -, first, rest, rfl⟩ := image
    rw [Ty.admitsAll, Wire.admits t w₁ x proper.1 first, WireAll.admits ts w₂ xs proper.2 rest]
    rfl

theorem WireAt.admits (ts : List Ty) (i : Nat) (w : List UInt8) (v : Val) (proper : Ty.properAll ts = true)
    (image : WireAt order ts i w v) : Ty.admitsAt order ts i v = true := by
  cases ts with
  | nil => exact image.elim
  | cons t ts =>
    simp only [Ty.properAll, Bool.and_eq_true] at proper
    cases i with
    | zero => exact Wire.admits t w v proper.1 image
    | succ i => exact WireAt.admits ts i w v proper.2 image
end

/-- An alternative that is decoded exists. -/
theorem WireAt.lt {ts : List Ty} {i : Nat} {w : List UInt8} {v : Val} (image : WireAt order ts i w v) :
    i < ts.length := by
  induction ts generalizing i with
  | nil => exact image.elim
  | cons t ts ih =>
    cases i with
    | zero => exact Nat.zero_lt_succ _
    | succ i => exact Nat.succ_lt_succ (ih image)

end

/-- On arbitrary bytes, a decoder that returns has a value of its type and has read inside
the buffer only. -/
theorem deserialize_sound (order : Containers) (h : Host) {t : Ty} (proper : t.proper = true) {start view : MessageView}
    {v : Val} (hstart : start.cursor ≤ start.buffer.length) (hread : deserialize order h t start = .ok (v, view)) :
    t.admits order v = true ∧ view.buffer = start.buffer ∧ start.cursor ≤ view.cursor ∧
      view.cursor ≤ view.buffer.length := by
  refine ⟨?_, (denotes_deserialize order h t).cursor_le hstart hread⟩
  obtain ⟨w, rest, -, image, -⟩ := (denotes_deserialize order h t).exists_split hstart hread
  exact Wire.admits t w v proper image

end Erl.Reflect
