import Mathlib.Data.List.Basic
import Mathlib.Data.List.Nodup

/-!
# Numbering in order of first appearance

The distinct elements of a list in the order in which they appear first. Adding elements
never changes the number of one that is there.
-/

namespace Firsts

variable {α : Type*} [DecidableEq α] {u v : List α}

/-- One more element, which may have been there before. -/
def add (u : List α) (x : α) : List α := if x ∈ u then u else u ++ [x]

def addAll (u : List α) (l : List α) : List α := l.foldl add u

/-- The distinct elements of a list in order of first appearance. -/
def firsts (l : List α) : List α := addAll [] l

theorem add_of_mem {x : α} (h : x ∈ u) : add u x = u := if_pos h

theorem add_of_not_mem {x : α} (h : x ∉ u) : add u x = u ++ [x] := if_neg h

theorem mem_add {x y : α} : y ∈ add u x ↔ y ∈ u ∨ y = x := by
  by_cases h : x ∈ u
  · rw [add_of_mem h]
    constructor
    · exact .inl
    · rintro (hy | rfl)
      · exact hy
      · exact h
  · rw [add_of_not_mem h, List.mem_append, List.mem_singleton]

theorem nodup_add {x : α} (h : u.Nodup) : (add u x).Nodup := by
  by_cases hx : x ∈ u
  · rwa [add_of_mem hx]
  · rw [add_of_not_mem hx]
    exact h.append (List.nodup_singleton x) (by simpa using hx)

theorem prefix_add (u : List α) (x : α) : u <+: add u x := by
  unfold add
  split
  · exact List.prefix_rfl
  · exact List.prefix_append u [x]

theorem prefix_addAll (u l : List α) : u <+: addAll u l := by
  induction l generalizing u with
  | nil => exact List.prefix_rfl
  | cons x l ih => exact (prefix_add u x).trans (ih (add u x))

theorem mem_addAll {l : List α} {y : α} : y ∈ addAll u l ↔ y ∈ u ∨ y ∈ l := by
  induction l generalizing u with
  | nil => simp [addAll]
  | cons x l ih =>
    show y ∈ addAll (add u x) l ↔ _
    rw [ih, mem_add, List.mem_cons, or_assoc]

theorem mem_firsts {l : List α} {y : α} : y ∈ firsts l ↔ y ∈ l := by
  unfold firsts
  rw [mem_addAll]
  simp

/-- The number of an element stays. -/
theorem idxOf_of_isPrefix {x : α} (hx : x ∈ u) (h : u <+: v) : v.idxOf x = u.idxOf x := by
  obtain ⟨w, rfl⟩ := h
  exact List.idxOf_append_of_mem hx

theorem idxOf_add (u : List α) (x : α) : (add u x).idxOf x = if x ∈ u then u.idxOf x else u.length := by
  split
  · rename_i h
    rw [add_of_mem h]
  · rename_i h
    rw [add_of_not_mem h, List.idxOf_append_of_notMem h]
    simp

end Firsts
