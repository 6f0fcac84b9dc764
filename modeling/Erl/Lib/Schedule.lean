import Mathlib.Data.List.Nodup
import Mathlib.Data.List.Perm.Basic

/-!
# Orders of execution

A `Schedule n` is an order in which `n` numbered steps run. `arrange` lists the things the
steps are about in the order they run in; `restore` puts what the steps yield, in that
order, back in the order of their numbers.
-/

namespace Scheduling

structure Schedule (n : Nat) where
  order : List Nat
  perm : order.Perm (List.range n)

namespace Schedule

def leftToRight (n : Nat) : Schedule n := ⟨List.range n, List.Perm.refl _⟩

def rightToLeft (n : Nat) : Schedule n := ⟨(List.range n).reverse, List.reverse_perm _⟩

variable {n : Nat} {α : Type} (π : Schedule n)

/-- What is at the positions of `order`, in their order. -/
def arrange (l : List α) : List α := π.order.filterMap (l[·]?)

/-- When each step runs. -/
def inverse : List Nat := (List.range n).map π.order.idxOf

def restore (l : List α) : List α := π.inverse.filterMap (l[·]?)

theorem nodup : π.order.Nodup := π.perm.nodup_iff.mpr List.nodup_range

theorem length_order : π.order.length = n := by rw [π.perm.length_eq, List.length_range]

theorem mem_order {i : Nat} : i ∈ π.order ↔ i < n := by rw [π.perm.mem_iff, List.mem_range]

/-- Where all positions are there, picking them is looking each of them up. -/
theorem getElem?_filterMap {positions : List Nat} {l : List α} (h : ∀ i ∈ positions, i < l.length) (j : Nat) :
    (positions.filterMap (l[·]?))[j]? = positions[j]?.bind (l[·]?) := by
  induction positions generalizing j with
  | nil => rfl
  | cons i positions ih =>
    have hlt : i < l.length := h i List.mem_cons_self
    have hi : l[i]? = some l[i] := List.getElem?_eq_getElem hlt
    rw [List.filterMap_cons_some hi]
    cases j with
    | zero => simp [hi]
    | succ j =>
      rw [List.getElem?_cons_succ, List.getElem?_cons_succ]
      exact ih (fun i' hi' => h i' (List.mem_cons_of_mem i hi')) j

variable {l : List α}

theorem getElem?_arrange (h : l.length = n) (j : Nat) : (π.arrange l)[j]? = π.order[j]?.bind (l[·]?) :=
  getElem?_filterMap (fun _ hi => h ▸ π.mem_order.mp hi) j

theorem idxOf_lt {i : Nat} (h : i < n) : π.order.idxOf i < n := by
  have := List.idxOf_lt_length_of_mem (π.mem_order.mpr h)
  rwa [π.length_order] at this

theorem getElem?_restore (h : l.length = n) {j : Nat} (hj : j < n) : (π.restore l)[j]? = l[π.order.idxOf j]? := by
  unfold restore
  rw [getElem?_filterMap]
  · simp [inverse, hj]
  · intro i hi
    obtain ⟨k, hk, rfl⟩ := List.mem_map.mp hi
    rw [h]
    exact π.idxOf_lt (List.mem_range.mp hk)

theorem length_arrange (h : l.length = n) : (π.arrange l).length = n := by
  have hall : ∀ i ∈ π.order, (l[i]?).isSome := fun i hi => by
    rw [List.getElem?_eq_getElem (h ▸ π.mem_order.mp hi)]
    rfl
  rw [arrange, List.length_filterMap_eq_countP, List.countP_eq_length.mpr hall, π.length_order]

theorem length_restore (h : l.length = n) : (π.restore l).length = n := by
  have hall : ∀ i ∈ π.inverse, (l[i]?).isSome := fun i hi => by
    obtain ⟨k, hk, rfl⟩ := List.mem_map.mp hi
    rw [List.getElem?_eq_getElem (h ▸ π.idxOf_lt (List.mem_range.mp hk))]
    rfl
  rw [restore, List.length_filterMap_eq_countP, List.countP_eq_length.mpr hall, inverse, List.length_map,
    List.length_range]

theorem restore_arrange (h : l.length = n) : π.restore (π.arrange l) = l := by
  apply List.ext_getElem?
  intro j
  rcases Nat.lt_or_ge j n with hj | hj
  · have hmem : j ∈ π.order := π.mem_order.mpr hj
    rw [π.getElem?_restore (π.length_arrange h) hj, π.getElem?_arrange h, List.getElem?_idxOf hmem]
    rfl
  · rw [List.getElem?_eq_none (by rw [π.length_restore (π.length_arrange h)]; exact hj),
      List.getElem?_eq_none (by rw [h]; exact hj)]

theorem arrange_restore (h : l.length = n) : π.arrange (π.restore l) = l := by
  apply List.ext_getElem?
  intro j
  rw [π.getElem?_arrange (π.length_restore h)]
  rcases Nat.lt_or_ge j n with hj | hj
  · have hlt : j < π.order.length := by rw [π.length_order]; exact hj
    rw [List.getElem?_eq_getElem hlt, Option.bind_some,
      π.getElem?_restore h (π.mem_order.mp (List.getElem_mem hlt)), List.Nodup.idxOf_getElem π.nodup]
  · rw [List.getElem?_eq_none (by rw [π.length_order]; exact hj), List.getElem?_eq_none (by rw [h]; exact hj)]
    rfl

theorem arrange_leftToRight (h : l.length = n) : (leftToRight n).arrange l = l := by
  apply List.ext_getElem?
  intro j
  rw [(leftToRight n).getElem?_arrange h, leftToRight]
  rcases Nat.lt_or_ge j n with hj | hj
  · simp [hj]
  · simp [hj, h]

theorem restore_leftToRight (h : l.length = n) : (leftToRight n).restore l = l := by
  have := (leftToRight n).restore_arrange h
  rwa [arrange_leftToRight h] at this

theorem arrange_perm (h : l.length = n) : (π.arrange l).Perm l := by
  have hperm : (π.arrange l).Perm ((leftToRight n).arrange l) := π.perm.filterMap _
  rwa [arrange_leftToRight h] at hperm

/-- Pairs are arranged by arranging their components. -/
theorem arrange_zip {β : Type} {m : List β} (h : l.length = n) (hm : m.length = n) :
    (π.arrange l).zip (π.arrange m) = π.arrange (l.zip m) := by
  have hzip : (l.zip m).length = n := by rw [List.length_zip, h, hm, Nat.min_self]
  apply List.ext_getElem?
  intro j
  rw [π.getElem?_arrange hzip, List.zip_eq_zipWith, List.getElem?_zipWith, π.getElem?_arrange h, π.getElem?_arrange hm]
  cases π.order[j]? with
  | none => rfl
  | some i => rw [Option.bind_some, Option.bind_some, Option.bind_some, List.zip_eq_zipWith, List.getElem?_zipWith]

end Schedule

end Scheduling
