import Mathlib.Data.List.Basic

/-!
# Ordered associative containers

A container kept in order by a strict weak ordering holds one element of each class of
equivalent ones, or all of them in the order of insertion. Filling a container with the
elements of a container of the same kind, in order, gives that container back.
-/

namespace Ordered

/-- A strict weak ordering, and whether equivalent elements exclude each other. -/
structure Comparator (α : Type) where
  less : α → α → Bool
  unique : Bool
  irrefl : ∀ a, less a a = false
  trans : ∀ a b c, less a b = true → less b c = true → less a c = true
  equiv : ∀ a b c, less a b = false → less b c = false → less a c = false

namespace Comparator

variable {α : Type} (cmp : Comparator α)

/-- The ordering by a number. -/
def byKey (key : α → Int) (unique : Bool) : Comparator α where
  less a b := key a < key b
  unique := unique
  irrefl a := by simp
  trans a b c := by
    simp only [decide_eq_true_eq]
    omega
  equiv a b c := by
    simp only [decide_eq_false_iff_not]
    omega

/-- `a` may stand before `b` in a container. -/
def Before (a b : α) : Prop := if cmp.unique then cmp.less a b = true else cmp.less b a = false

instance (a b : α) : Decidable (cmp.Before a b) := by
  unfold Before
  infer_instance

/-- What a container holds, front to back. -/
def Sorted (as : List α) : Prop := as.Pairwise cmp.Before

instance (as : List α) : Decidable (cmp.Sorted as) := by
  unfold Sorted
  infer_instance

/-- Behind all elements that are not greater. -/
def insertBehind (a : α) : List α → List α
  | [] => [a]
  | b :: bs => if cmp.less a b then a :: b :: bs else b :: insertBehind a bs

/-- Insertion: an equivalent element already there is kept if equivalents exclude each
other. -/
def insert (as : List α) (a : α) : List α :=
  if cmp.unique && as.any fun b => !cmp.less a b && !cmp.less b a then as else cmp.insertBehind a as

/-- Construction from an iterator range: the elements are inserted in order. -/
def ofRange (as : List α) : List α := as.foldl cmp.insert []

variable {cmp}

theorem asymm {a b : α} (h : cmp.less a b = true) : cmp.less b a = false := by
  cases back : cmp.less b a with
  | false => rfl
  | true =>
    have circle := cmp.trans a b a h back
    rw [cmp.irrefl] at circle
    exact circle.symm

theorem Before.not_less {a b : α} (h : cmp.Before a b) : cmp.less b a = false := by
  unfold Before at h
  split at h
  · exact asymm h
  · exact h

theorem insertBehind_of_not_less {a : α} {as : List α} (h : ∀ b ∈ as, cmp.less a b = false) :
    cmp.insertBehind a as = as ++ [a] := by
  induction as with
  | nil => rfl
  | cons b bs ih =>
    rw [insertBehind, h b List.mem_cons_self, ih fun c hc => h c (List.mem_cons_of_mem b hc)]
    rfl

/-- An element that may stand behind all others is inserted there. -/
theorem insert_last {a : α} {as : List α} (h : cmp.Sorted (as ++ [a])) : cmp.insert as a = as ++ [a] := by
  have last (b : α) (hb : b ∈ as) : cmp.Before b a := (List.pairwise_append.mp h).2.2 b hb a List.mem_cons_self
  have fresh : (cmp.unique && as.any fun b => !cmp.less a b && !cmp.less b a) = false := by
    cases kind : cmp.unique with
    | false => rfl
    | true =>
      simp only [Bool.true_and, List.any_eq_false]
      intro b hb
      have less := last b hb
      simp only [Before, kind, if_true] at less
      simp [less]
  rw [insert, fresh]
  exact insertBehind_of_not_less fun b hb => (last b hb).not_less

/-- The elements of a container make up the same container. -/
theorem ofRange_of_sorted {as : List α} (h : cmp.Sorted as) : cmp.ofRange as = as := by
  suffices ∀ done rest, cmp.Sorted (done ++ rest) → rest.foldl cmp.insert done = done ++ rest from this [] as h
  intro done rest
  induction rest generalizing done with
  | nil => simp
  | cons a rest ih =>
    intro sorted
    rw [List.append_cons] at sorted ⊢
    rw [List.foldl_cons, insert_last (List.pairwise_append.mp sorted).1]
    exact ih _ sorted

theorem insertBehind_perm (a : α) (as : List α) : (cmp.insertBehind a as).Perm (a :: as) := by
  induction as with
  | nil => exact List.Perm.refl _
  | cons b bs ih =>
    rw [insertBehind]
    split
    · exact List.Perm.refl _
    · exact (ih.cons b).trans (List.Perm.swap a b bs)

/-- Elements inserted before `b` may stand before all that `b` may stand before. -/
theorem Before.trans_less {a b c : α} (hab : cmp.less a b = true) (hbc : cmp.Before b c) : cmp.Before a c := by
  unfold Before at hbc ⊢
  split at hbc
  · rename_i hunique
    rw [if_pos hunique]
    exact cmp.trans a b c hab hbc
  · rename_i hmulti
    rw [if_neg hmulti]
    exact cmp.equiv c b a hbc (asymm hab)

theorem sorted_insertBehind {a : α} {as : List α} (h : cmp.Sorted as)
    (fresh : cmp.unique = true → ∀ b ∈ as, cmp.less a b = true ∨ cmp.less b a = true) :
    cmp.Sorted (cmp.insertBehind a as) := by
  induction as with
  | nil => exact List.pairwise_singleton _ a
  | cons b bs ih =>
    obtain ⟨hb, hbs⟩ := List.pairwise_cons.mp h
    rw [insertBehind]
    split
    · rename_i hab
      have hbefore : cmp.Before a b := by
        unfold Before
        split
        · exact hab
        · exact asymm hab
      refine List.pairwise_cons.mpr ⟨?_, h⟩
      intro c hc
      rcases List.mem_cons.mp hc with rfl | hc
      · exact hbefore
      · exact Before.trans_less hab (hb c hc)
    · rename_i hab
      have hnot : cmp.less a b = false := by simpa using hab
      have hbefore : cmp.Before b a := by
        unfold Before
        split
        · rename_i hunique
          exact (fresh hunique b List.mem_cons_self).resolve_left hab
        · exact hnot
      refine List.pairwise_cons.mpr ⟨?_, ih hbs fun hunique c hc => fresh hunique c (List.mem_cons_of_mem b hc)⟩
      intro c hc
      rcases List.mem_cons.mp ((insertBehind_perm a bs).mem_iff.mp hc) with rfl | hc
      · exact hbefore
      · exact hb c hc

theorem sorted_insert {as : List α} (h : cmp.Sorted as) (a : α) : cmp.Sorted (cmp.insert as a) := by
  unfold insert
  split
  · exact h
  · rename_i hfresh
    apply sorted_insertBehind h
    intro hunique b hb
    simp only [hunique, Bool.true_and, List.any_eq_true, not_exists, not_and] at hfresh
    have := hfresh b hb
    cases hab : cmp.less a b <;> cases hba : cmp.less b a <;> simp_all

theorem mem_of_mem_insert {as : List α} {a b : α} (h : b ∈ cmp.insert as a) : b = a ∨ b ∈ as := by
  unfold insert at h
  split at h
  · exact .inr h
  · exact List.mem_cons.mp ((insertBehind_perm a as).mem_iff.mp h)

/-- A container filled from a range is in order and holds nothing else. -/
theorem sorted_ofRange (as : List α) : cmp.Sorted (cmp.ofRange as) ∧ ∀ a ∈ cmp.ofRange as, a ∈ as := by
  suffices ∀ (rest done : List α), cmp.Sorted done → (∀ a ∈ done, a ∈ as) → (∀ a ∈ rest, a ∈ as) →
      cmp.Sorted (rest.foldl cmp.insert done) ∧ ∀ a ∈ rest.foldl cmp.insert done, a ∈ as from
    this as [] List.Pairwise.nil (fun _ ha => absurd ha List.not_mem_nil) fun _ ha => ha
  intro rest
  induction rest with
  | nil => exact fun done hsorted hdone _ => ⟨hsorted, hdone⟩
  | cons b rest ih =>
    intro done hsorted hdone hrest
    refine ih (cmp.insert done b) (sorted_insert hsorted b) ?_ fun a ha => hrest a (List.mem_cons_of_mem b ha)
    intro a ha
    rcases mem_of_mem_insert ha with rfl | ha
    · exact hrest a List.mem_cons_self
    · exact hdone a ha

end Comparator

end Ordered
