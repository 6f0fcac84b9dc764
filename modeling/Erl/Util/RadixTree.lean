import Erl.Util.Trie
import Mathlib.Data.List.Nodup

/-!
# The words of a prefix tree

`Spells` reads a list of children as a relation between words and numbers. `Radix` is the
shape that `make` keeps: siblings start differently, and below an edge there is a leaf or
a choice. Inserting a word that is no prefix of one already there adds exactly that word.
-/

namespace Erl.Util.Trie

variable {α : Type}

/-- `k` stands at the end of `s`, read from these children. -/
inductive Spells : List (ParsedState α) → List α → Nat → Prop where
  | leaf {ts : List (ParsedState α)} {x : ParsedState α} :
      x ∈ ts → x.prefixText = [] → Spells ts [] x.word_index
  | edge {ts : List (ParsedState α)} {x : ParsedState α} {s : List α} {k : Nat} :
      x ∈ ts → x.prefixText ≠ [] → Spells x.transitions s k → Spells ts (x.prefixText ++ s) k

/-- A node is a word's end or a choice between edges. -/
def Full (ts : List (ParsedState α)) : Prop := (∃ x ∈ ts, x.prefixText = []) ∨ 2 ≤ ts.length

/-- Two siblings never start with the same character, and at most one of them is a leaf. -/
def Distinct (ts : List (ParsedState α)) : Prop :=
  (ts.map fun x => x.prefixText.head?).Nodup

/-- The children of a node of a prefix tree. -/
inductive Radix : List (ParsedState α) → Prop where
  | mk {ts : List (ParsedState α)} : Distinct ts →
      (∀ x ∈ ts, x.prefixText ≠ [] → Full x.transitions) →
      (∀ x ∈ ts, x.prefixText ≠ [] → Radix x.transitions) → Radix ts

namespace Radix

theorem distinct {ts : List (ParsedState α)} (radix : Radix ts) : Distinct ts := by
  cases radix with
  | mk distinct => exact distinct

theorem full {ts : List (ParsedState α)} {x : ParsedState α} (radix : Radix ts) (mem : x ∈ ts)
    (edge : x.prefixText ≠ []) : Full x.transitions := by
  cases radix with
  | mk _ full => exact full x mem edge

theorem under {ts : List (ParsedState α)} {x : ParsedState α} (radix : Radix ts) (mem : x ∈ ts)
    (edge : x.prefixText ≠ []) : Radix x.transitions := by
  cases radix with
  | mk _ _ under => exact under x mem edge

end Radix

/-- Siblings with the same first character are the same. -/
theorem Distinct.eq_of_head {ts : List (ParsedState α)} {x y : ParsedState α} (distinct : Distinct ts)
    (hx : x ∈ ts) (hy : y ∈ ts) (head : x.prefixText.head? = y.prefixText.head?) : x = y :=
  List.inj_on_of_nodup_map distinct hx hy head

/-! ## Spelling, by the list of children -/

theorem spells_nil {s : List α} {k : Nat} : ¬ Spells [] s k := by
  intro spells
  cases spells with
  | leaf mem => cases mem
  | edge mem => cases mem

theorem Spells.mono {ts us : List (ParsedState α)} {s : List α} {k : Nat} (sub : ∀ x ∈ ts, x ∈ us)
    (spells : Spells ts s k) : Spells us s k := by
  cases spells with
  | leaf mem end_here => exact .leaf (sub _ mem) end_here
  | edge mem edge rest => exact .edge (sub _ mem) edge rest

theorem spells_append {ts us : List (ParsedState α)} {s : List α} {k : Nat} :
    Spells (ts ++ us) s k ↔ Spells ts s k ∨ Spells us s k := by
  constructor
  · intro spells
    cases spells with
    | leaf mem end_here =>
      rcases List.mem_append.mp mem with left | right
      · exact .inl (.leaf left end_here)
      · exact .inr (.leaf right end_here)
    | edge mem edge rest =>
      rcases List.mem_append.mp mem with left | right
      · exact .inl (.edge left edge rest)
      · exact .inr (.edge right edge rest)
  · intro spells
    rcases spells with left | right
    · exact left.mono fun x mem => List.mem_append_left us mem
    · exact right.mono fun x mem => List.mem_append_right ts mem

theorem spells_cons {x : ParsedState α} {ts : List (ParsedState α)} {s : List α} {k : Nat} :
    Spells (x :: ts) s k ↔ Spells [x] s k ∨ Spells ts s k := by
  rw [← List.singleton_append, spells_append]

theorem spells_leaf {j : Nat} {s : List α} {k : Nat} : Spells [leaf j] s k ↔ s = [] ∧ k = j := by
  constructor
  · intro spells
    cases spells with
    | leaf mem => simp_all [leaf]
    | edge mem edge => simp_all [leaf]
  · intro ⟨hs, hk⟩
    subst hs hk
    exact .leaf (List.mem_singleton.mpr rfl) rfl

theorem spells_edge {x : ParsedState α} {s : List α} {k : Nat} (edge : x.prefixText ≠ []) :
    Spells [x] s k ↔ ∃ t, s = x.prefixText ++ t ∧ Spells x.transitions t k := by
  constructor
  · intro spells
    cases spells with
    | leaf mem end_here =>
      rw [List.mem_singleton.mp mem] at end_here
      exact absurd end_here edge
    | edge mem _ rest =>
      rw [List.mem_singleton.mp mem] at rest ⊢
      exact ⟨_, rfl, rest⟩
  · intro ⟨t, hs, rest⟩
    subst hs
    exact .edge (List.mem_singleton.mpr rfl) edge rest

/-- A word that starts like an edge runs through it. -/
theorem Spells.through {ts : List (ParsedState α)} {x : ParsedState α} {s : List α} {k : Nat}
    (spells : Spells ts s k) (distinct : Distinct ts) (mem : x ∈ ts) (edge : x.prefixText ≠ [])
    (head : s.head? = x.prefixText.head?) : ∃ t, s = x.prefixText ++ t ∧ Spells x.transitions t k := by
  cases spells with
  | leaf => simp_all [eq_comm]
  | @edge _ y t _ hy edge_y rest =>
    have same : y = x := by
      apply distinct.eq_of_head hy mem
      rw [← head, List.head?_append_of_ne_nil _ edge_y]
    subst same
    exact ⟨t, rfl, rest⟩

/-- Below `x`, exactly the words that run through it. -/
theorem spells_through {ts : List (ParsedState α)} {x : ParsedState α} {t : List α} {k : Nat}
    (distinct : Distinct ts) (mem : x ∈ ts) (edge : x.prefixText ≠ []) :
    Spells ts (x.prefixText ++ t) k ↔ Spells x.transitions t k := by
  constructor
  · intro spells
    obtain ⟨u, hu, rest⟩ := spells.through distinct mem edge (List.head?_append_of_ne_nil _ edge)
    rw [List.append_cancel_left hu]
    exact rest
  · exact fun rest => .edge mem edge rest

/-- Every child lies on a word. -/
theorem Radix.exists_spells {ts : List (ParsedState α)} (radix : Radix ts) :
    ∀ x ∈ ts, ∃ t k, Spells ts (x.prefixText ++ t) k ∧ (x.prefixText = [] → t = []) := by
  induction radix with
  | @mk ts _ full _ below =>
    intro x mem
    by_cases edge : x.prefixText = []
    · refine ⟨[], x.word_index, ?_, fun _ => rfl⟩
      rw [edge]
      exact .leaf mem edge
    · have some_child : ∃ y, y ∈ x.transitions := by
        rcases full x mem edge with ⟨y, hy, _⟩ | two
        · exact ⟨y, hy⟩
        · exact List.exists_mem_of_length_pos (by omega)
      obtain ⟨y, hy⟩ := some_child
      obtain ⟨t, k, spells, _⟩ := below x mem edge y hy
      exact ⟨y.prefixText ++ t, k, .edge mem edge spells, fun h => absurd h edge⟩

section
variable [DecidableEq α]

theorem findIf_none {β : Type} {p : β → Bool} {xs : List β} (h : findIf p xs = none) :
    ∀ x ∈ xs, p x = false := by
  induction xs with
  | nil => simp
  | cons x xs ih =>
    simp only [findIf] at h
    split at h
    · cases h
    · rename_i other
      intro y hy
      rcases List.mem_cons.mp hy with rfl | hy
      · simpa using other
      · exact ih (Option.map_eq_none_iff.mp h) y hy

theorem findIf_some {β : Type} {p : β → Bool} {xs before after : List β} {it : β}
    (h : findIf p xs = some (before, it, after)) : xs = before ++ it :: after ∧ p it = true := by
  induction xs generalizing before with
  | nil => cases h
  | cons x xs ih =>
    simp only [findIf] at h
    split at h
    · cases h
      exact ⟨rfl, by assumption⟩
    · obtain ⟨⟨front, found, rest⟩, hfound, heq⟩ := Option.map_eq_some_iff.mp h
      cases heq
      obtain ⟨split, holds⟩ := ih hfound
      exact ⟨by rw [split, List.cons_append], holds⟩

/-- The read stays inside the word unless the edge extends it. -/
theorem mismatch_spec {p w : List α} (inside : ¬ w <+: p) :
    ∃ shared p' w', mismatch p w = some shared.length ∧ p = shared ++ p' ∧ w = shared ++ w' ∧
      w' ≠ [] ∧ p'.head? ≠ w'.head? := by
  induction p generalizing w with
  | nil =>
    have nonempty : w ≠ [] := fun h => inside (h ▸ List.nil_prefix)
    refine ⟨[], [], w, rfl, rfl, rfl, nonempty, ?_⟩
    simpa [eq_comm] using nonempty
  | cons a p ih =>
    cases w with
    | nil => exact absurd List.nil_prefix inside
    | cons b w =>
      by_cases same : a = b
      · subst same
        have inner : ¬ w <+: p := fun h => inside ((List.prefix_cons_inj a).mpr h)
        obtain ⟨shared, p', w', run, hp, hw, rest⟩ := ih inner
        exact ⟨a :: shared, p', w', by simp [mismatch, run], by simp [hp], by simp [hw], rest⟩
      · exact ⟨[], a :: p, b :: w, by simp [mismatch, same], rfl, rfl, by simp, by simpa using same⟩

end

end Erl.Util.Trie
