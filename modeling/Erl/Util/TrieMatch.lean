import Erl.Util.TrieInsert
import Mathlib.Data.List.TakeWhile

/-!
# What `Root::matches` and `Root::find` recognise

`State::visit` takes an edge of one character that ends a word only at the end of the
string, so every longer word through such an edge is lost. Everything else works: a walk
succeeds exactly on the words that no such edge blocks. In terms of the word list, an
edge of this kind is a proper prefix of one character, or one where another word branches
off before its last character.
-/

namespace Erl.Util.Trie

variable {α : Type}

/-- Some word of one character, seen from its edge's start, stops the walk along `s`. -/
inductive Blocked : List (ParsedState α) → List α → Prop where
  | here {ts : List (ParsedState α)} {x : ParsedState α} {s : List α} : x ∈ ts → x.prefixText.length = 1 →
      leafIndex x.transitions ≠ 0 → s ≠ [] → Blocked ts (x.prefixText ++ s)
  | deeper {ts : List (ParsedState α)} {x : ParsedState α} {s : List α} : x ∈ ts → x.prefixText ≠ [] →
      Blocked x.transitions s → Blocked ts (x.prefixText ++ s)

theorem Blocked.ne_nil {ts : List (ParsedState α)} {s : List α} (blocked : Blocked ts s) : s ≠ [] := by
  intro empty
  cases blocked with
  | here _ _ _ rest => exact rest (List.append_eq_nil_iff.mp empty).2
  | deeper _ edge _ => exact edge (List.append_eq_nil_iff.mp empty).1

theorem head_eq_of_append {p q s t : List α} (edge_p : p ≠ []) (edge_q : q ≠ []) (joined : p ++ s = q ++ t) :
    p.head? = q.head? := by
  have heads := congrArg List.head? joined
  rwa [List.head?_append_of_ne_nil _ edge_p, List.head?_append_of_ne_nil _ edge_q] at heads

theorem blocked_through {ts : List (ParsedState α)} {x : ParsedState α} {t : List α} (distinct : Distinct ts)
    (mem : x ∈ ts) (edge : x.prefixText ≠ []) :
    Blocked ts (x.prefixText ++ t) ↔
      (x.prefixText.length = 1 ∧ leafIndex x.transitions ≠ 0 ∧ t ≠ []) ∨ Blocked x.transitions t := by
  have same : ∀ y ∈ ts, ∀ s, y.prefixText ≠ [] → y.prefixText ++ s = x.prefixText ++ t → y = x := by
    intro y hy s edge_y joined
    exact distinct.eq_of_head hy mem (head_eq_of_append edge_y edge joined)
  constructor
  · generalize whole : x.prefixText ++ t = s
    intro blocked
    cases blocked with
    | @here _ y s hy one number rest =>
      have edge_y : y.prefixText ≠ [] := List.ne_nil_of_length_pos (by omega)
      obtain rfl := same y hy s edge_y whole.symm
      rw [List.append_cancel_left whole]
      exact .inl ⟨one, number, rest⟩
    | @deeper _ y s hy edge_y blocked =>
      obtain rfl := same y hy s edge_y whole.symm
      rw [List.append_cancel_left whole]
      exact .inr blocked
  · intro cases_t
    rcases cases_t with ⟨one, number, rest⟩ | blocked
    · exact .here mem one number rest
    · exact .deeper mem edge blocked

theorem spells_nil_iff {ts : List (ParsedState α)} {k : Nat} :
    Spells ts [] k ↔ ∃ x ∈ ts, x.prefixText = [] ∧ x.word_index = k := by
  constructor
  · generalize empty : ([] : List α) = s
    intro spells
    cases spells with
    | leaf mem ends => exact ⟨_, mem, ends, rfl⟩
    | edge _ edge => exact absurd (List.append_eq_nil_iff.mp empty.symm).1 edge
  · intro ⟨x, mem, ends, hk⟩
    subst hk
    exact .leaf mem ends

theorem foldl_no_leaf {ts : List (ParsedState α)} {index : Nat} (none_ends : ∀ x ∈ ts, x.prefixText ≠ []) :
    ts.foldl (fun index state => if state.prefixText.isEmpty then state.word_index else index) index = index := by
  induction ts with
  | nil => rfl
  | cons x ts ih =>
    have edge := none_ends x List.mem_cons_self
    rw [List.foldl_cons, if_neg (by simpa using edge)]
    exact ih fun y mem => none_ends y (List.mem_cons_of_mem _ mem)

/-- A node's `word_index` is the number of the word that ends there, and `0` without one. -/
theorem leafIndex_eq_iff {ts : List (ParsedState α)} {k : Nat} (distinct : Distinct ts) (number : k ≠ 0) :
    leafIndex ts = k ↔ Spells ts [] k := by
  rw [spells_nil_iff]
  by_cases ends : ∃ x ∈ ts, x.prefixText = []
  · obtain ⟨x, mem, end_x⟩ := ends
    obtain ⟨before, after, split⟩ := List.append_of_mem mem
    have only : ∀ y ∈ ts, y.prefixText = [] → y = x := by
      intro y hy end_y
      apply distinct.eq_of_head hy mem
      rw [end_x, end_y]
    have later : ∀ y ∈ after, y.prefixText ≠ [] := by
      intro y hy end_y
      subst split
      have same := only y (by simp [hy]) end_y
      subst same
      simp only [Distinct, List.map_append, List.map_cons, List.nodup_append, List.nodup_cons] at distinct
      exact distinct.2.1.1 (List.mem_map_of_mem hy)
    have found : leafIndex ts = x.word_index := by
      rw [split, leafIndex, List.foldl_append, List.foldl_cons, if_pos (by simp [end_x])]
      exact foldl_no_leaf later
    rw [found]
    constructor
    · exact fun hk => ⟨x, mem, end_x, hk⟩
    · rintro ⟨y, hy, end_y, hk⟩
      rw [← hk, only y hy end_y]
  · have none_ends : ∀ x ∈ ts, x.prefixText ≠ [] := fun x mem h => ends ⟨x, mem, h⟩
    rw [leafIndex, foldl_no_leaf none_ends]
    constructor
    · exact fun hk => absurd hk.symm number
    · rintro ⟨x, mem, end_x, _⟩
      exact absurd end_x (none_ends x mem)

/-! ## The walk -/

theorem not_prefix_of_head {p q t : List α} (edge_p : p ≠ []) (edge_q : q ≠ []) (head : q.head? ≠ p.head?) :
    ¬ q <+: p ++ t := by
  intro ⟨s, joined⟩
  exact head (head_eq_of_append edge_q edge_p joined)

section
variable [DecidableEq α] [Zero α] {σ : Type}

theorem cString_eq {p : List α} (nulFree : 0 ∉ p) : cString p = p := by
  rw [cString, List.takeWhile_eq_self_iff]
  intro c mem
  have : c ≠ 0 := fun h => nulFree (h ▸ mem)
  simpa using this

/-- An edge is passed when the string starts with it, except that a word of one character
must end the string. -/
theorem rejects_eq_false_iff {p str : List α} {word_index : Nat} {ts : List (State α)} (edge : p ≠ [])
    (nulFree : 0 ∉ p) (nonempty : str ≠ []) :
    State.rejects ⟨p, word_index, ts⟩ str = false ↔
      p <+: str ∧ ¬ (p.length = 1 ∧ word_index ≠ 0 ∧ str.length ≠ 1) := by
  by_cases one : p.length = 1
  · obtain ⟨a, rfl⟩ := List.length_eq_one_iff.mp one
    obtain ⟨c, rest, rfl⟩ := List.exists_cons_of_ne_nil nonempty
    simp [State.rejects, List.cons_prefix_cons, eq_comm (a := c)]
    tauto
  · simp [State.rejects, one, cString_eq nulFree]

/-- A child the string does not start with leaves the visitor alone. -/
theorem visit_apart {visitor : Nat → σ → σ} {x : ParsedState α} {str : List α} {captured : σ}
    (edge : x.prefixText ≠ []) (nulFree : 0 ∉ x.prefixText) (nonempty : str ≠ []) (apart : ¬ x.prefixText <+: str) :
    x.toState.visit visitor str captured = (false, captured) := by
  obtain ⟨p, ts, j⟩ := x
  have rejected : State.rejects ⟨p, leafIndex ts, toStates ts⟩ str = true := by
    rw [← Bool.not_eq_false, rejects_eq_false_iff edge nulFree nonempty]
    exact fun h => apart h.1
  simp only [ParsedState.toState, State.visit, rejected, if_true]

theorem visit_through {visitor : Nat → σ → σ} {x : ParsedState α} {t : List α} {captured : σ}
    (edge : x.prefixText ≠ []) (nulFree : 0 ∉ x.prefixText) :
    x.toState.visit visitor (x.prefixText ++ t) captured =
      if x.prefixText.length = 1 ∧ leafIndex x.transitions ≠ 0 ∧ t ≠ [] then (false, captured)
      else if t = [] then (leafIndex x.transitions != 0, visitor (leafIndex x.transitions) captured)
      else visitAny visitor (toStates x.transitions) t captured := by
  obtain ⟨p, ts, j⟩ := x
  simp only at edge nulFree
  have positive := List.length_pos_iff.mpr edge
  have rejects : State.rejects ⟨p, leafIndex ts, toStates ts⟩ (p ++ t) = false ↔ _ :=
    rejects_eq_false_iff edge nulFree (by simp [edge])
  have length : p.length = 1 → ((p ++ t).length ≠ 1 ↔ t ≠ []) := by
    intro one
    rw [List.length_append, ← List.length_pos_iff]
    omega
  simp only [ParsedState.toState, State.visit, List.drop_left, List.isEmpty_iff]
  by_cases stops : p.length = 1 ∧ leafIndex ts ≠ 0 ∧ t ≠ []
  · have rejected : State.rejects ⟨p, leafIndex ts, toStates ts⟩ (p ++ t) = true := by
      rw [← Bool.not_eq_false, rejects, length stops.1]
      exact fun h => h.2 stops
    rw [if_pos rejected, if_pos stops]
  · have passed : State.rejects ⟨p, leafIndex ts, toStates ts⟩ (p ++ t) = false := by
      rw [rejects]
      refine ⟨List.prefix_append p t, ?_⟩
      rintro ⟨one, number, long⟩
      exact stops ⟨one, number, (length one).mp long⟩
    rw [passed, if_neg stops, if_neg Bool.false_ne_true]

theorem visitAny_apart {visitor : Nat → σ → σ} {ts : List (ParsedState α)} {str : List α} {captured : σ}
    (nulFree : ∀ x ∈ ts, 0 ∉ x.prefixText) (nonempty : str ≠ [])
    (apart : ∀ x ∈ ts, x.prefixText ≠ [] → ¬ x.prefixText <+: str) :
    visitAny visitor (toStates ts) str captured = (false, captured) := by
  induction ts with
  | nil => simp only [toStates, visitAny]
  | cons x ts ih =>
    have tail := ih (fun y mem => nulFree y (List.mem_cons_of_mem _ mem))
      (fun y mem => apart y (List.mem_cons_of_mem _ mem))
    by_cases ends : x.prefixText = []
    · rw [toStates, if_pos (by simp [ends]), tail]
    · rw [toStates, if_neg (by simpa using ends), visitAny,
        visit_apart ends (nulFree x List.mem_cons_self) nonempty (apart x List.mem_cons_self ends)]
      exact tail

/-- Among siblings, the one the string starts with decides. -/
theorem visitAny_at {visitor : Nat → σ → σ} {ts : List (ParsedState α)} {x : ParsedState α} {t : List α}
    {captured : σ} (distinct : Distinct ts) (nulFree : ∀ x ∈ ts, 0 ∉ x.prefixText) (mem : x ∈ ts)
    (edge : x.prefixText ≠ []) :
    visitAny visitor (toStates ts) (x.prefixText ++ t) captured =
      x.toState.visit visitor (x.prefixText ++ t) captured := by
  have nonempty : x.prefixText ++ t ≠ [] := by simp [edge]
  induction ts with
  | nil => cases mem
  | cons y ts ih =>
    obtain ⟨fresh, distinct⟩ := List.nodup_cons.mp distinct
    have nulFree_ts : ∀ z ∈ ts, 0 ∉ z.prefixText := fun z hz => nulFree z (List.mem_cons_of_mem _ hz)
    rcases List.mem_cons.mp mem with rfl | mem
    · have tail : ∀ c, visitAny visitor (toStates ts) (x.prefixText ++ t) c = (false, c) := by
        intro c
        apply visitAny_apart nulFree_ts nonempty
        intro z hz edge_z
        apply not_prefix_of_head edge edge_z
        exact fun same => fresh (List.mem_map.mpr ⟨z, hz, same⟩)
      rw [toStates, if_neg (by simpa using edge), visitAny]
      obtain ⟨hit, c⟩ := x.toState.visit visitor (x.prefixText ++ t) captured
      cases hit with
      | true => rfl
      | false => exact tail c
    · have inner := ih distinct nulFree_ts mem
      by_cases ends : y.prefixText = []
      · rw [toStates, if_pos (by simp [ends]), inner]
      · have apart : ¬ y.prefixText <+: x.prefixText ++ t := by
          apply not_prefix_of_head edge ends
          exact fun same => fresh (List.mem_map.mpr ⟨x, mem, same.symm⟩)
        rw [toStates, if_neg (by simpa using ends), visitAny,
          visit_apart ends (nulFree y List.mem_cons_self) nonempty apart]
        exact inner

/-- **Main result.** The walk ends on a numbered word that no edge blocks, and nowhere else. -/
theorem visitAny_iff (visitor : Nat → σ → σ) (captured result : σ) {ts : List (ParsedState α)} {str : List α}
    (radix : Radix ts) (nulFree : ∀ s k, Spells ts s k → 0 ∉ s) (nonempty : str ≠ []) :
    visitAny visitor (toStates ts) str captured = (true, result) ↔
      ∃ k, k ≠ 0 ∧ Spells ts str k ∧ ¬ Blocked ts str ∧ result = visitor k captured := by
  induction radix generalizing str with
  | @mk ts distinct full under ih =>
    have radix : Radix ts := .mk distinct full under
    have nulFree_edge : ∀ x ∈ ts, 0 ∉ x.prefixText := by
      intro x mem nul
      obtain ⟨t, k, spells, _⟩ := radix.exists_spells x mem
      exact nulFree _ k spells (List.mem_append_left _ nul)
    by_cases starts : ∃ x ∈ ts, x.prefixText ≠ [] ∧ x.prefixText <+: str
    · obtain ⟨x, mem, edge, t, rfl⟩ := starts
      have nulFree_below : ∀ s k, Spells x.transitions s k → 0 ∉ s := by
        intro s k spells nul
        exact nulFree _ k (.edge mem edge spells) (List.mem_append_right _ nul)
      rw [visitAny_at distinct nulFree_edge mem edge, visit_through edge (nulFree_edge x mem)]
      simp only [spells_through distinct mem edge, blocked_through distinct mem edge]
      by_cases stops : x.prefixText.length = 1 ∧ leafIndex x.transitions ≠ 0 ∧ t ≠ []
      · rw [if_pos stops]
        constructor
        · exact fun h => absurd (congrArg Prod.fst h) Bool.false_ne_true
        · exact fun ⟨k, _, _, free, _⟩ => absurd (.inl stops) free
      · rw [if_neg stops]
        simp only [stops, false_or]
        by_cases done : t = []
        · subst done
          have leaves := (radix.under mem edge).distinct
          rw [if_pos rfl, Prod.mk.injEq, bne_iff_ne]
          constructor
          · intro ⟨number, hr⟩
            exact ⟨_, number, (leafIndex_eq_iff leaves number).mp rfl, fun h => h.ne_nil rfl, hr.symm⟩
          · intro ⟨k, number, spells, _, hr⟩
            have hk := (leafIndex_eq_iff leaves number).mpr spells
            rw [hk]
            exact ⟨number, hr.symm⟩
        · rw [if_neg done]
          exact ih x mem edge nulFree_below done
    · have apart : ∀ x ∈ ts, x.prefixText ≠ [] → ¬ x.prefixText <+: str :=
        fun x mem edge h => starts ⟨x, mem, edge, h⟩
      rw [visitAny_apart nulFree_edge nonempty apart]
      constructor
      · exact fun h => absurd (congrArg Prod.fst h) Bool.false_ne_true
      · intro ⟨k, _, spells, _⟩
        cases spells with
        | leaf => exact absurd rfl nonempty
        | edge mem edge => exact absurd (List.prefix_append _ _) (apart _ mem edge)

end

end Erl.Util.Trie
