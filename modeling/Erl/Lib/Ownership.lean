import Mathlib.Data.List.Nodup
import Mathlib.Data.List.Perm.Basic
import Mathlib.Logic.Equiv.Defs
import Mathlib.Logic.Function.Basic

/-!
# Resources that are acquired, held and released

A ledger lists the resources acquired so far and those released so far; each owner holds
one resource at most. `Held` says that nothing is released twice, released while it is
held, or held twice. It survives every operation, also one that loses a resource, while
`Covered`, that nothing is lost, is kept by all the others and never regained.
-/

namespace Ownership
open Function

section
variable {ρ ι : Type} (acquired released : List ρ) (holder : ι → Option ρ)

structure Held : Prop where
  acquiredOnce : acquired.Nodup
  releasedOnce : released.Nodup
  known : ∀ r ∈ released, r ∈ acquired
  held : ∀ i r, holder i = some r → r ∈ acquired ∧ r ∉ released
  separate : ∀ i j r, holder i = some r → holder j = some r → i = j

/-- Every resource acquired has been released or is held. -/
def Covered : Prop := ∀ r ∈ acquired, r ∈ released ∨ ∃ i, holder i = some r

end

section
variable {ρ ι : Type} {acquired released : List ρ} {holder : ι → Option ρ} {i : ι} {r : ρ}

theorem held_nil : Held [] [] fun _ : ι => (none : Option ρ) where
  acquiredOnce := List.nodup_nil
  releasedOnce := List.nodup_nil
  known _ h := absurd h List.not_mem_nil
  held _ _ h := by cases h
  separate _ _ _ h := by cases h

theorem covered_nil : Covered [] [] fun _ : ι => (none : Option ρ) := fun _ h => absurd h List.not_mem_nil

theorem nodup_append_singleton {l : List ρ} (h : l.Nodup) (hr : r ∉ l) : (l ++ [r]).Nodup := by
  rw [← List.concat_eq_append]
  exact List.Nodup.concat hr h

/-- A resource is acquired and nobody holds it. -/
theorem Held.lose (h : Held acquired released holder) (fresh : r ∉ acquired) : Held (acquired ++ [r]) released holder where
  acquiredOnce := nodup_append_singleton h.acquiredOnce fresh
  releasedOnce := h.releasedOnce
  known s hs := List.mem_append_left _ (h.known s hs)
  held k s hs := ⟨List.mem_append_left _ (h.held k s hs).1, (h.held k s hs).2⟩
  separate := h.separate

theorem Held.not_covered_lose (h : Held acquired released holder) (fresh : r ∉ acquired) :
    ¬ Covered (acquired ++ [r]) released holder := by
  intro hcovered
  rcases hcovered r (List.mem_append_right _ (List.mem_singleton_self r)) with hreleased | ⟨k, hk⟩
  · exact fresh (h.known r hreleased)
  · exact fresh (h.held k r hk).1

/-- The holders change places. -/
theorem Held.comp (h : Held acquired released holder) (e : Equiv.Perm ι) : Held acquired released (holder ∘ e) where
  acquiredOnce := h.acquiredOnce
  releasedOnce := h.releasedOnce
  known := h.known
  held k s hs := h.held (e k) s hs
  separate k l s hk hl := e.injective (h.separate (e k) (e l) s hk hl)

theorem covered_comp_iff (e : Equiv.Perm ι) : Covered acquired released (holder ∘ e) ↔ Covered acquired released holder := by
  constructor
  · intro h s hs
    refine (h s hs).imp_right ?_
    rintro ⟨k, hk⟩
    exact ⟨e k, hk⟩
  · intro h s hs
    refine (h s hs).imp_right ?_
    rintro ⟨k, hk⟩
    exact ⟨e.symm k, by rw [Function.comp_apply, Equiv.apply_symm_apply, hk]⟩

/-- Once nobody holds anything, nothing is lost exactly if all that was acquired has been
released. -/
theorem Held.covered_iff_perm (h : Held acquired released holder) (hnone : ∀ k, holder k = none) :
    Covered acquired released holder ↔ released.Perm acquired := by
  rw [List.perm_ext_iff_of_nodup h.releasedOnce h.acquiredOnce]
  constructor
  · intro hcovered s
    refine ⟨h.known s, ?_⟩
    intro hs
    rcases hcovered s hs with hreleased | ⟨k, hk⟩
    · exact hreleased
    · cases (hnone k).symm.trans hk
  · intro hsame s hs
    exact .inl ((hsame s).mpr hs)

variable [DecidableEq ι]

/-- A resource is acquired, for an owner that holds none. -/
theorem Held.acquire (h : Held acquired released holder) (fresh : r ∉ acquired) :
    Held (acquired ++ [r]) released (update holder i (some r)) where
  acquiredOnce := nodup_append_singleton h.acquiredOnce fresh
  releasedOnce := h.releasedOnce
  known s hs := List.mem_append_left _ (h.known s hs)
  held k s hs := by
    by_cases hk : k = i
    · rw [hk, update_self] at hs
      cases hs
      exact ⟨List.mem_append_right _ (List.mem_singleton_self r), fun hreleased => fresh (h.known r hreleased)⟩
    · rw [update_of_ne hk] at hs
      exact ⟨List.mem_append_left _ (h.held k s hs).1, (h.held k s hs).2⟩
  separate k l s hk hl := by
    by_cases first : k = i <;> by_cases second : l = i
    · rw [first, second]
    · rw [first, update_self] at hk
      rw [update_of_ne second] at hl
      cases hk
      exact absurd (h.held l r hl).1 fresh
    · rw [second, update_self] at hl
      rw [update_of_ne first] at hk
      cases hl
      exact absurd (h.held k r hk).1 fresh
    · rw [update_of_ne first] at hk
      rw [update_of_ne second] at hl
      exact h.separate k l s hk hl

theorem covered_acquire_iff (fresh : r ∉ acquired) (empty : holder i = none) :
    Covered (acquired ++ [r]) released (update holder i (some r)) ↔ Covered acquired released holder := by
  constructor
  · intro h s hs
    refine (h s (List.mem_append_left _ hs)).imp_right ?_
    rintro ⟨k, hk⟩
    by_cases hi : k = i
    · rw [hi, update_self] at hk
      cases hk
      exact absurd hs fresh
    · rw [update_of_ne hi] at hk
      exact ⟨k, hk⟩
  · intro h s hs
    rcases List.mem_append.mp hs with hs | hs
    · refine (h s hs).imp_right ?_
      rintro ⟨k, hk⟩
      have ne : k ≠ i := by
        rintro rfl
        cases empty.symm.trans hk
      exact ⟨k, by rw [update_of_ne ne, hk]⟩
    · cases List.mem_singleton.mp hs
      exact .inr ⟨i, update_self ..⟩

/-- An owner takes a resource that nobody holds and that has not been released, whether it
is known already or not. -/
theorem Held.adopt [DecidableEq ρ] (h : Held acquired released holder) (live : r ∉ released)
    (free : ∀ k, holder k ≠ some r) : Held (acquired.insert r) released (update holder i (some r)) where
  acquiredOnce := h.acquiredOnce.insert
  releasedOnce := h.releasedOnce
  known s hs := List.mem_insert_of_mem (h.known s hs)
  held k s hs := by
    by_cases hk : k = i
    · rw [hk, update_self] at hs
      cases hs
      exact ⟨List.mem_insert_self, live⟩
    · rw [update_of_ne hk] at hs
      exact ⟨List.mem_insert_of_mem (h.held k s hs).1, (h.held k s hs).2⟩
  separate k l s hk hl := by
    by_cases first : k = i <;> by_cases second : l = i
    · rw [first, second]
    · rw [first, update_self] at hk
      rw [update_of_ne second] at hl
      cases hk
      exact absurd hl (free l)
    · rw [second, update_self] at hl
      rw [update_of_ne first] at hk
      cases hl
      exact absurd hk (free k)
    · rw [update_of_ne first] at hk
      rw [update_of_ne second] at hl
      exact h.separate k l s hk hl

/-- What was lost before is lost still, the resource taken apart. -/
theorem covered_adopt_iff [DecidableEq ρ] (empty : holder i = none) :
    Covered (acquired.insert r) released (update holder i (some r)) ↔
      ∀ s ∈ acquired, s = r ∨ s ∈ released ∨ ∃ k, holder k = some s := by
  constructor
  · intro covered s hs
    rcases covered s (List.mem_insert_of_mem hs) with hreleased | ⟨k, hk⟩
    · exact .inr (.inl hreleased)
    · by_cases hi : k = i
      · rw [hi, update_self] at hk
        exact .inl (Option.some.inj hk).symm
      · rw [update_of_ne hi] at hk
        exact .inr (.inr ⟨k, hk⟩)
  · intro covered s hs
    by_cases same : s = r
    · exact .inr ⟨i, by rw [update_self, same]⟩
    · rcases List.mem_insert_iff.mp hs with hr | hs
      · exact absurd hr same
      · refine ((covered s hs).resolve_left same).imp_right ?_
        rintro ⟨k, hk⟩
        have ne : k ≠ i := by
          rintro rfl
          cases empty.symm.trans hk
        exact ⟨k, by rw [update_of_ne ne, hk]⟩

/-- An owner loses what it holds, if anything. -/
theorem Held.drop (h : Held acquired released holder) : Held acquired released (update holder i none) where
  acquiredOnce := h.acquiredOnce
  releasedOnce := h.releasedOnce
  known := h.known
  held k s hs := by
    have ne : k ≠ i := by
      rintro rfl
      rw [update_self] at hs
      cases hs
    rw [update_of_ne ne] at hs
    exact h.held k s hs
  separate k l s hk hl := by
    have first : k ≠ i := by
      rintro rfl
      rw [update_self] at hk
      cases hk
    have second : l ≠ i := by
      rintro rfl
      rw [update_self] at hl
      cases hl
    rw [update_of_ne first] at hk
    rw [update_of_ne second] at hl
    exact h.separate k l s hk hl

/-- Nothing is lost by it only if it held nothing. -/
theorem Held.covered_drop_iff (h : Held acquired released holder) :
    Covered acquired released (update holder i none) ↔ Covered acquired released holder ∧ holder i = none := by
  constructor
  · intro hcovered
    refine ⟨fun s hs => (hcovered s hs).imp_right ?_, ?_⟩
    · rintro ⟨k, hk⟩
      have ne : k ≠ i := by
        rintro rfl
        rw [update_self] at hk
        cases hk
      exact ⟨k, by rwa [update_of_ne ne] at hk⟩
    · cases hi : holder i with
      | none => rfl
      | some s =>
        rcases hcovered s (h.held i s hi).1 with hreleased | ⟨k, hk⟩
        · exact absurd hreleased (h.held i s hi).2
        · have ne : k ≠ i := by
            rintro rfl
            rw [update_self] at hk
            cases hk
          rw [update_of_ne ne] at hk
          exact absurd (h.separate k i s hk hi) ne
  · rintro ⟨hcovered, hnone⟩
    have same : update holder i none = holder := by rw [← hnone, update_eq_self]
    rwa [same]

/-- An owner releases what it holds. -/
theorem Held.release (h : Held acquired released holder) (hi : holder i = some r) :
    Held acquired (released ++ [r]) (update holder i none) where
  acquiredOnce := h.acquiredOnce
  releasedOnce := nodup_append_singleton h.releasedOnce (h.held i r hi).2
  known s hs := by
    rcases List.mem_append.mp hs with hs | hs
    · exact h.known s hs
    · cases List.mem_singleton.mp hs
      exact (h.held i r hi).1
  held k s hs := by
    have ne : k ≠ i := by
      rintro rfl
      rw [update_self] at hs
      cases hs
    rw [update_of_ne ne] at hs
    refine ⟨(h.held k s hs).1, ?_⟩
    intro hreleased
    rcases List.mem_append.mp hreleased with hreleased | hlast
    · exact (h.held k s hs).2 hreleased
    · cases List.mem_singleton.mp hlast
      exact ne (h.separate k i r hs hi)
  separate k l s hk hl := by
    have first : k ≠ i := by
      rintro rfl
      rw [update_self] at hk
      cases hk
    have second : l ≠ i := by
      rintro rfl
      rw [update_self] at hl
      cases hl
    rw [update_of_ne first] at hk
    rw [update_of_ne second] at hl
    exact h.separate k l s hk hl

theorem covered_release_iff (hi : holder i = some r) :
    Covered acquired (released ++ [r]) (update holder i none) ↔ Covered acquired released holder := by
  constructor
  · intro hcovered s hs
    rcases hcovered s hs with hreleased | ⟨k, hk⟩
    · rcases List.mem_append.mp hreleased with hreleased | hlast
      · exact .inl hreleased
      · cases List.mem_singleton.mp hlast
        exact .inr ⟨i, hi⟩
    · have ne : k ≠ i := by
        rintro rfl
        rw [update_self] at hk
        cases hk
      rw [update_of_ne ne] at hk
      exact .inr ⟨k, hk⟩
  · intro hcovered s hs
    rcases hcovered s hs with hreleased | ⟨k, hk⟩
    · exact .inl (List.mem_append_left _ hreleased)
    · by_cases hki : k = i
      · rw [hki, hi] at hk
        cases hk
        exact .inl (List.mem_append_right _ (List.mem_singleton_self r))
      · exact .inr ⟨k, by rw [update_of_ne hki, hk]⟩

end

end Ownership
