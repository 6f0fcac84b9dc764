import Erl.Util.TrieWords

/-!
# What `Root::find` returns for a string that is no word

`find` starts from `-1U` and takes one from what the visitor left. The visitor is called with
0 on a node inside the tree, where no word ends; from any other miss it comes back untouched,
and one is taken from `-1U`.
-/

namespace Erl.Util.Trie

variable {α : Type}

/-- The walk along `s` ends on a node where no word ends. -/
inductive Inner : List (ParsedState α) → List α → Prop where
  | here {ts : List (ParsedState α)} {x : ParsedState α} : x ∈ ts → x.prefixText ≠ [] →
      leafIndex x.transitions = 0 → Inner ts x.prefixText
  | deeper {ts : List (ParsedState α)} {x : ParsedState α} {s : List α} : x ∈ ts → x.prefixText ≠ [] →
      ¬(x.prefixText.length = 1 ∧ leafIndex x.transitions ≠ 0) → s ≠ [] → Inner x.transitions s →
      Inner ts (x.prefixText ++ s)

theorem inner_through {ts : List (ParsedState α)} {x : ParsedState α} {t : List α} (distinct : Distinct ts)
    (mem : x ∈ ts) (edge : x.prefixText ≠ []) :
    Inner ts (x.prefixText ++ t) ↔ t = [] ∧ leafIndex x.transitions = 0 ∨
      t ≠ [] ∧ ¬(x.prefixText.length = 1 ∧ leafIndex x.transitions ≠ 0) ∧ Inner x.transitions t := by
  have same : ∀ y ∈ ts, ∀ s, y.prefixText ≠ [] → x.prefixText ++ t = y.prefixText ++ s → y = x := by
    intro y hy s edge_y joined
    exact distinct.eq_of_head hy mem (head_eq_of_append edge_y edge joined.symm)
  constructor
  · generalize whole : x.prefixText ++ t = s
    intro inner
    cases inner with
    | @here _ y hy edge_y number =>
      obtain rfl := same y hy [] edge_y (by rw [whole, List.append_nil])
      exact .inl ⟨List.append_right_eq_self.mp whole, number⟩
    | @deeper _ y s hy edge_y open_edge rest inner =>
      obtain rfl := same y hy s edge_y whole
      rw [List.append_cancel_left whole]
      exact .inr ⟨rest, open_edge, inner⟩
  · intro cases_t
    rcases cases_t with ⟨rfl, number⟩ | ⟨rest, open_edge, inner⟩
    · rw [List.append_nil]
      exact .here mem edge number
    · exact .deeper mem edge open_edge rest inner

/-- Beyond a node inside the tree there is a word. -/
theorem Inner.extends {ts : List (ParsedState α)} {s : List α} (inner : Inner ts s) (radix : Radix ts) :
    ∃ t k, Spells ts (s ++ t) k := by
  induction inner with
  | @here ts x mem edge number =>
    obtain ⟨t, k, spells, -⟩ := radix.exists_spells x mem
    exact ⟨t, k, spells⟩
  | @deeper ts x s mem edge _ _ _ ih =>
    obtain ⟨t, k, spells⟩ := ih (radix.under mem edge)
    refine ⟨t, k, ?_⟩
    rw [List.append_assoc]
    exact .edge mem edge spells

section
variable [DecidableEq α] [Zero α] {σ : Type}

/-- A walk that finds no word has called the visitor, with 0, or not. -/
theorem visitAny_miss (visitor : Nat → σ → σ) (captured : σ) {ts : List (ParsedState α)} {str : List α}
    (radix : Radix ts) (nulFree : ∀ s k, Spells ts s k → 0 ∉ s) (nonempty : str ≠ [])
    (absent : ∀ k, ¬ Spells ts str k) :
    Inner ts str ∧ visitAny visitor (toStates ts) str captured = (false, visitor 0 captured) ∨
      ¬ Inner ts str ∧ visitAny visitor (toStates ts) str captured = (false, captured) := by
  induction radix generalizing str with
  | @mk ts distinct full under ih =>
    have radix : Radix ts := .mk distinct full under
    have nulFree_edge : ∀ x ∈ ts, 0 ∉ x.prefixText := by
      intro x mem nul
      obtain ⟨t, k, spells, _⟩ := radix.exists_spells x mem
      exact nulFree _ k spells (List.mem_append_left _ nul)
    by_cases starts : ∃ x ∈ ts, x.prefixText ≠ [] ∧ x.prefixText <+: str
    · obtain ⟨x, mem, edge, t, rfl⟩ := starts
      rw [visitAny_at distinct nulFree_edge mem edge, visit_through edge (nulFree_edge x mem),
        inner_through distinct mem edge]
      by_cases done : t = []
      · subst done
        have number : leafIndex x.transitions = 0 := by
          by_contra number
          have ends := (leafIndex_eq_iff (radix.under mem edge).distinct number).mp rfl
          exact absent _ (.edge mem edge ends)
        exact .inl ⟨.inl ⟨rfl, number⟩, by simp [number]⟩
      · by_cases stops : x.prefixText.length = 1 ∧ leafIndex x.transitions ≠ 0
        · rw [if_pos ⟨stops.1, stops.2, done⟩]
          refine .inr ⟨?_, rfl⟩
          rintro (⟨empty, -⟩ | ⟨-, goes, -⟩)
          · exact done empty
          · exact goes stops
        · rw [if_neg fun h => stops ⟨h.1, h.2.1⟩, if_neg done]
          have nulFree_below : ∀ s k, Spells x.transitions s k → 0 ∉ s := by
            intro s k spells nul
            exact nulFree _ k (.edge mem edge spells) (List.mem_append_right _ nul)
          have below := ih x mem edge nulFree_below done fun k spells => absent k (.edge mem edge spells)
          simpa only [done, stops, false_and, false_or, ne_eq, not_false_eq_true, true_and] using below
    · have apart : ∀ x ∈ ts, x.prefixText ≠ [] → ¬ x.prefixText <+: str :=
        fun x mem edge h => starts ⟨x, mem, edge, h⟩
      refine .inr ⟨?_, visitAny_apart nulFree_edge nonempty apart⟩
      intro inner
      cases inner with
      | here mem edge => exact apart _ mem edge List.prefix_rfl
      | deeper mem edge => exact apart _ mem edge (List.prefix_append _ _)

/-- The two answers `find` has for a string that is no word. -/
theorem find_miss {ts : List (ParsedState α)} {s : List α} (radix : Radix ts)
    (nulFree : ∀ s k, Spells ts s k → 0 ∉ s) (absent : ∀ k, ¬ Spells ts s k) :
    Root.find ⟨toStates ts⟩ s = 4294967295 ∧ (s = [] ∨ Inner ts s) ∨
      Root.find ⟨toStates ts⟩ s = 4294967294 ∧ ¬(s = [] ∨ Inner ts s) := by
  unfold Root.find
  by_cases empty : s = []
  · exact .inl ⟨if_pos (by simp [empty]), .inl empty⟩
  · rw [if_neg (by simpa using empty)]
    rcases visitAny_miss (fun v _ => v) 4294967295 radix nulFree empty absent with ⟨inner, walk⟩ | ⟨outer, walk⟩
    · rw [walk]
      exact .inl ⟨rfl, .inr inner⟩
    · rw [walk]
      exact .inr ⟨rfl, not_or.mpr ⟨empty, outer⟩⟩

end

/-- All words twice, one after the other, are longer than each of them. -/
theorem length_lt_twice {words : List (List α)} (nonempty : ∀ w ∈ words, w ≠ []) :
    ∀ w ∈ words, w.length < (words.flatten ++ words.flatten).length := by
  intro w mem
  have within := (List.sublist_flatten_of_mem mem).length_le
  have positive := List.length_pos_iff.mpr (nonempty w mem)
  rw [List.length_append]
  omega

section
variable [LinearOrder α] [Zero α]

/-- All strings that are no words have one answer, which is the index of no word. -/
def OneAnswer (words : List (List α)) (root : Root α) : Prop :=
  ∃ answer, (∀ s, s ∉ words → root.find s = answer) ∧ ∀ i, i < words.length → answer ≠ i

/-- **Main result.** No `Trie` has a single answer: `find` returns `-1U` for the empty string
and `-1U - 1` for a string longer than every word. -/
theorem not_oneAnswer {words : List (List α)} (some_word : words ≠ []) (nonempty : ∀ w ∈ words, w ≠ [])
    (nulFree : ∀ w ∈ words, 0 ∉ w) : ∃ root, ofWords words = some root ∧ ¬ OneAnswer words root := by
  obtain ⟨ts, made, radix, spells⟩ := ofWords_spells some_word nonempty
  refine ⟨_, made, ?_⟩
  rintro ⟨answer, same, -⟩
  have long := length_lt_twice nonempty
  set twice := words.flatten ++ words.flatten
  obtain ⟨w, mem⟩ := List.exists_mem_of_ne_nil words some_word
  have twice_ne : twice ≠ [] := List.ne_nil_of_length_pos (Nat.zero_lt_of_lt (long w mem))
  have none_extends : ∀ t k, ¬ Spells ts (twice ++ t) k := by
    intro t k spelled
    have := long _ ((spells _ k).mp spelled).1
    rw [List.length_append] at this
    omega
  have absent : ∀ k, ¬ Spells ts twice k := by
    intro k spelled
    rw [← List.append_nil twice] at spelled
    exact none_extends [] k spelled
  have outer : ¬(twice = [] ∨ Inner ts twice) := by
    rintro (empty | inner)
    · exact twice_ne empty
    · obtain ⟨t, k, spelled⟩ := inner.extends radix
      exact none_extends t k spelled
  have nulFree_ts : ∀ s k, Spells ts s k → 0 ∉ s := fun s k h => nulFree s ((spells s k).mp h).1
  have answer_long : Root.find ⟨toStates ts⟩ twice = 4294967294 := by
    rcases find_miss radix nulFree_ts absent with ⟨_, inside⟩ | ⟨found, _⟩
    · exact absurd inside outer
    · exact found
  have answer_empty : Root.find ⟨toStates ts⟩ ([] : List α) = 4294967295 := rfl
  rw [same twice fun mem => Nat.lt_irrefl _ (long twice mem)] at answer_long
  rw [same [] fun mem => nonempty [] mem rfl] at answer_empty
  rw [answer_long] at answer_empty
  cases answer_empty

theorem not_oneAnswer_abc :
    ∃ root, ofWords ([[97, 98, 99], [97, 98, 100], [120]] : List (List (Fin 256))) = some root ∧
      ¬ OneAnswer [[97, 98, 99], [97, 98, 100], [120]] root :=
  not_oneAnswer (by decide) (by decide) (by decide)

/-- The word `"a"` and the queries `""` and `"b"`. -/
theorem two_answers_a : ∃ root, ofWords ([[97]] : List (List (Fin 256))) = some root ∧ ¬ OneAnswer [[97]] root := by
  have walk : (ofWords ([[97]] : List (List (Fin 256)))).map (fun r => (r.find [], r.find [98])) =
      some (4294967295, 4294967294) := by decide
  obtain ⟨root, made, answers⟩ := Option.map_eq_some_iff.mp walk
  refine ⟨root, made, ?_⟩
  rintro ⟨answer, same, -⟩
  rw [same [] (by decide), same [98] (by decide), Prod.mk.injEq] at answers
  omega

end

end Erl.Util.Trie
