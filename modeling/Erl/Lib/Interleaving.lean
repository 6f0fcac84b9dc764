import Mathlib.Data.List.Basic
import Mathlib.Data.List.Induction
import Mathlib.Tactic.TypeStar

/-!
# Interleavings

A list of things tagged with who did them, and what each one did, in order. If each one
did the first things of its script, seen through a function, the whole list is an
interleaving of the scripts seen through that function.
-/

namespace Interleaving

section
variable {ι α β : Type*} [DecidableEq ι]

/-- What `i` did, in order. -/
def part (l : List (ι × α)) (i : ι) : List α := l.filterMap fun e => if e.1 = i then some e.2 else none

theorem part_append (l l' : List (ι × α)) (i : ι) : part (l ++ l') i = part l i ++ part l' i :=
  List.filterMap_append

theorem part_snoc (l : List (ι × α)) (j i : ι) (x : α) :
    part (l ++ [(j, x)]) i = if j = i then part l i ++ [x] else part l i := by
  rw [part_append]
  split <;> rename_i same <;> simp [part, same]

theorem mem_part {l : List (ι × α)} {i : ι} {x : α} (h : (i, x) ∈ l) : x ∈ part l i :=
  List.mem_filterMap.mpr ⟨(i, x), h, if_pos rfl⟩

/-- A list whose parts are first parts of the scripts, seen through `f`, is seen through `f`
itself. -/
theorem exists_lift (f : β → α) (script : ι → List β) (l : List (ι × α))
    (h : ∀ i, part l i <+: (script i).map f) :
    ∃ l' : List (ι × β), l'.map (fun e => (e.1, f e.2)) = l ∧ ∀ i, part l' i <+: script i := by
  induction l using List.reverseRecOn with
  | nil => exact ⟨[], rfl, fun i => List.nil_prefix⟩
  | append_singleton l e ih =>
    obtain ⟨j, x⟩ := e
    obtain ⟨l', rfl, parts⟩ := ih fun i => by
      have whole := h i
      rw [part_append] at whole
      exact (List.prefix_append ..).trans whole
    -- the thing that corresponds to `x` is the next one in the script of `j`
    have mapped : part (l'.map fun e => (e.1, f e.2)) j = (part l' j).map f := by
      unfold part
      rw [List.filterMap_map, List.map_filterMap]
      congr 1
      funext e
      by_cases same : e.1 = j <;> simp [same]
    have next := h j
    rw [part_snoc, if_pos rfl, mapped] at next
    obtain ⟨rest, split⟩ := parts j
    rw [← split, List.map_append, List.prefix_append_right_inj] at next
    cases rest with
    | nil => simp at next
    | cons y rest =>
      obtain ⟨rfl, -⟩ := List.cons_prefix_cons.mp next
      refine ⟨l' ++ [(j, y)], List.map_append, ?_⟩
      intro i
      rw [part_snoc]
      split
      · rename_i same
        subst same
        rw [← split, List.prefix_append_right_inj]
        exact List.prefix_append [y] rest
      · exact parts i

end

end Interleaving
