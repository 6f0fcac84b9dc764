import Erl.Util.TrieMatch
import Mathlib.Data.ZMod.Defs

/-!
# The words a `Trie` loses

The walk is blocked on a word exactly when the word list hides it: a proper prefix is a
word whose last character got an edge of its own. From this the lists that a `Trie`
recognises are told apart without building the tree.
-/

namespace Erl.Util.Trie

variable {α : Type}

/-- A proper prefix `w` of `u` is a word, and its last character starts an edge: `w` has no
other, or some word leaves `w` just before it. -/
def Hides (word : List α → Prop) (u : List α) : Prop :=
  ∃ w, word w ∧ w <+: u ∧ w ≠ u ∧ (w.length = 1 ∨ ∃ v, word v ∧ w.dropLast <+: v ∧ ¬ w <+: v)

/-- The words below a list of children. -/
def Word (ts : List (ParsedState α)) (s : List α) : Prop := ∃ k, Spells ts s k

/-- Below an edge some word starts otherwise than with `c`, or is empty. -/
theorem exists_other {ts : List (ParsedState α)} (radix : Radix ts) (full : Full ts) (c : α) :
    ∃ s, Word ts s ∧ ¬ [c] <+: s := by
  have other : ∃ y ∈ ts, y.prefixText.head? ≠ some c := by
    rcases full with ⟨y, mem, ends⟩ | two
    · exact ⟨y, mem, by simp [ends]⟩
    · obtain ⟨y, z, rest, rfl⟩ : ∃ y z rest, ts = y :: z :: rest := by
        match ts, two with
        | y :: z :: rest, _ => exact ⟨y, z, rest, rfl⟩
      by_cases first : y.prefixText.head? = some c
      · refine ⟨z, by simp, ?_⟩
        intro second
        have distinct := radix.distinct
        simp [Distinct, first, second] at distinct
      · exact ⟨y, by simp, first⟩
  obtain ⟨y, mem, head⟩ := other
  obtain ⟨t, k, spells, ends⟩ := radix.exists_spells y mem
  refine ⟨_, ⟨k, spells⟩, ?_⟩
  by_cases edge : y.prefixText = []
  · simp [edge, ends edge]
  · exact not_prefix_of_head edge (by simp) (by simpa [eq_comm] using head)

/-- Where the walk is blocked, the words of the tree hide the string. -/
theorem Blocked.hides {ts : List (ParsedState α)} {u : List α} (blocked : Blocked ts u) (radix : Radix ts) :
    Hides (Word ts) u := by
  induction blocked with
  | @here ts x s mem one number rest =>
    have edge : x.prefixText ≠ [] := List.ne_nil_of_length_pos (by omega)
    have spells := (leafIndex_eq_iff (radix.under mem edge).distinct number).mp rfl
    refine ⟨x.prefixText, ⟨leafIndex x.transitions, ?_⟩, List.prefix_append _ _, ?_, .inl one⟩
    · have := Spells.edge mem edge spells
      rwa [List.append_nil] at this
    · simpa [eq_comm] using rest
  | @deeper ts x s mem edge _ ih =>
    have through : ∀ {t}, Word x.transitions t → Word ts (x.prefixText ++ t) :=
      fun ⟨k, spells⟩ => ⟨k, .edge mem edge spells⟩
    have sub := radix.under mem edge
    obtain ⟨w, word, extends_w, proper, branch⟩ := ih sub
    refine ⟨_, through word, (List.prefix_append_right_inj _).mpr extends_w, ?_, .inr ?_⟩
    · exact fun same => proper (List.append_cancel_left same)
    · -- `w` leaves the edge at a node, where a word ends or another one branches off
      have branches : ∃ v, Word x.transitions v ∧ w.dropLast <+: v ∧ ¬ w <+: v := by
        rcases branch with one | branches
        · obtain ⟨c, rfl⟩ := List.length_eq_one_iff.mp one
          obtain ⟨v, word_v, leaves⟩ := exists_other sub (radix.full mem edge) c
          exact ⟨v, word_v, List.nil_prefix, leaves⟩
        · exact branches
      obtain ⟨v, word_v, shares, leaves⟩ := branches
      have nonempty : w ≠ [] := fun empty => leaves (empty ▸ List.nil_prefix)
      refine ⟨_, through word_v, ?_, ?_⟩
      · rw [List.dropLast_append_of_ne_nil nonempty]
        exact (List.prefix_append_right_inj _).mpr shares
      · exact fun h => leaves ((List.prefix_append_right_inj _).mp h)

/-- A word that starts like an edge runs through it. -/
theorem Word.through {ts : List (ParsedState α)} {x : ParsedState α} {v : List α} (word : Word ts v)
    (distinct : Distinct ts) (mem : x ∈ ts) (edge : x.prefixText ≠ []) (head : v.head? = x.prefixText.head?) :
    ∃ t, v = x.prefixText ++ t ∧ Word x.transitions t := by
  obtain ⟨k, spells⟩ := word
  obtain ⟨t, hv, below⟩ := spells.through distinct mem edge head
  exact ⟨t, hv, k, below⟩

/-- No word leaves an edge half way, not even before its last character. -/
theorem Word.prefix_of_dropLast {ts : List (ParsedState α)} {x : ParsedState α} {v : List α} (word : Word ts v)
    (distinct : Distinct ts) (mem : x ∈ ts) (longer : 1 < x.prefixText.length)
    (shares : x.prefixText.dropLast <+: v) : x.prefixText <+: v := by
  have edge : x.prefixText ≠ [] := List.ne_nil_of_length_pos (by omega)
  have inner : x.prefixText.dropLast ≠ [] := by
    apply List.ne_nil_of_length_pos
    rw [List.length_dropLast]
    omega
  obtain ⟨r, rfl⟩ := shares
  have head : (x.prefixText.dropLast ++ r).head? = x.prefixText.head? := by
    rw [List.head?_append_of_ne_nil _ inner, List.head?_dropLast, if_pos longer]
  obtain ⟨t, hv, _⟩ := word.through distinct mem edge head
  rw [hv]
  exact List.prefix_append _ _

/-- Where the words hide one of them, the walk is blocked on it. -/
theorem Hides.blocked {ts : List (ParsedState α)} {u : List α} (radix : Radix ts)
    (numbered : ∀ s k, Spells ts s k → k ≠ 0) (word : Word ts u) (hides : Hides (Word ts) u) : Blocked ts u := by
  induction radix generalizing u with
  | @mk ts distinct full under ih =>
    obtain ⟨w, ⟨k, spells⟩, extends_w, proper, branch⟩ := hides
    have nonempty : w ≠ [] := by
      rintro rfl
      rcases branch with one | ⟨v, _, _, leaves⟩
      · cases one
      · exact leaves List.nil_prefix
    cases spells with
    | leaf => exact absurd rfl nonempty
    | @edge _ x t _ mem edge below =>
      have numbered_below : ∀ s j, Spells x.transitions s j → j ≠ 0 :=
        fun s j spells => numbered _ j (.edge mem edge spells)
      obtain ⟨s, rfl⟩ := extends_w
      have rest : s ≠ [] := fun empty => proper (by simp [empty])
      obtain ⟨j, spells⟩ := word
      rw [List.append_assoc, spells_through distinct mem edge] at spells
      rw [List.append_assoc]
      by_cases ends : t = []
      · subst ends
        have number : leafIndex x.transitions ≠ 0 := by
          have leaves := (under x mem edge).distinct
          rw [(leafIndex_eq_iff leaves (numbered_below _ _ below)).mpr below]
          exact numbered_below _ _ below
        have one : x.prefixText.length = 1 := by
          rcases branch with one | ⟨v, word_v, shares, leaves⟩
          · rwa [List.append_nil] at one
          · by_contra long
            rw [List.append_nil] at shares leaves
            have positive := List.length_pos_iff.mpr edge
            exact leaves (word_v.prefix_of_dropLast distinct mem (by omega) shares)
        exact .here mem one number (by simpa using rest)
      · rcases branch with one | ⟨v, word_v, shares, leaves⟩
        · have := List.length_pos_iff.mpr edge
          have := List.length_pos_iff.mpr ends
          rw [List.length_append] at one
          omega
        · rw [List.dropLast_append_of_ne_nil ends] at shares
          obtain ⟨r, rfl⟩ := shares
          rw [List.append_assoc] at word_v leaves
          obtain ⟨r', hv, word_below⟩ := word_v.through distinct mem edge (List.head?_append_of_ne_nil _ edge)
          have hr := List.append_cancel_left hv
          have hides_below : Hides (Word x.transitions) (t ++ s) := by
            refine ⟨t, ⟨_, below⟩, List.prefix_append _ _, by simpa using rest, .inr ⟨r', word_below, ?_, ?_⟩⟩
            · exact hr ▸ List.prefix_append _ _
            · intro extends_t
              apply leaves
              rw [hr]
              exact (List.prefix_append_right_inj _).mpr extends_t
          exact .deeper mem edge (ih x mem edge numbered_below ⟨j, spells⟩ hides_below)

/-! ## The whole list -/

/-- The trie of `words` finds them, each under its own index, and nothing else. -/
def Recognises [LinearOrder α] [Zero α] (words : List (List α)) : Prop :=
  ∃ root, ofWords words = some root ∧ (∀ s, 0 ∉ s → (root.matches s = true ↔ s ∈ words)) ∧
    ∀ (i : Nat) (h : i < words.length), root.find words[i] = i

/-- The trie that the constructor makes, as a tree that spells the words. -/
theorem ofWords_spells [LinearOrder α] {words : List (List α)} (some_word : words ≠ [])
    (nonempty : ∀ w ∈ words, w ≠ []) :
    ∃ ts, ofWords words = some ⟨toStates ts⟩ ∧ Radix ts ∧
      ∀ s k, Spells ts s k ↔ s ∈ words ∧ k = wordIndex words s := by
  obtain ⟨ts, made, radix, spells⟩ := make_spells nonempty
  refine ⟨ts, ?_, radix, spells⟩
  have grown : ts ≠ [] := by
    rintro rfl
    obtain ⟨w, mem⟩ := List.exists_mem_of_ne_nil words some_word
    exact spells_nil ((spells w _).mpr ⟨mem, rfl⟩)
  rw [ofWords, made]
  simp [ParsedState.toRoot, grown]

theorem wordIndex_getElem [DecidableEq α] {words : List (List α)} (distinct : words.Nodup) {i : Nat} (h : i < words.length) :
    wordIndex words words[i] = (i + 1) % 4294967296 := by
  rw [wordIndex, distinct.idxOf_getElem]

section
variable [DecidableEq α] [Zero α] {ts : List (ParsedState α)}

theorem matches_iff {s : List α} (radix : Radix ts) (nulFree : ∀ s k, Spells ts s k → 0 ∉ s) (nonempty : s ≠ []) :
    Root.matches ⟨toStates ts⟩ s = true ↔ ∃ k, k ≠ 0 ∧ Spells ts s k ∧ ¬ Blocked ts s := by
  rw [Root.matches, if_neg (by simpa using nonempty)]
  have walk := visitAny_iff (fun _ captured => captured) () () radix nulFree nonempty
  simp only [and_true] at walk
  rw [← walk, Prod.ext_iff]
  simp

theorem find_eq {s : List α} {k : Nat} (radix : Radix ts) (nulFree : ∀ s k, Spells ts s k → 0 ∉ s) (nonempty : s ≠ [])
    (number : k ≠ 0) (spells : Spells ts s k) (free : ¬ Blocked ts s) :
    Root.find ⟨toStates ts⟩ s = (k + 4294967295) % 4294967296 := by
  have walk := visitAny_iff (fun v _ => v) 4294967295 k radix nulFree nonempty
  rw [Root.find, if_neg (by simpa using nonempty), walk.mpr ⟨k, number, spells, free, rfl⟩]

end

section
variable [LinearOrder α] [Zero α]

/-- **Main result.** A `Trie` recognises exactly its words if and only if there are fewer
than `2^32` of them and none is hidden by another. -/
theorem recognises_iff {words : List (List α)} (some_word : words ≠ []) (distinct : words.Nodup)
    (nonempty : ∀ w ∈ words, w ≠ []) (nulFree : ∀ w ∈ words, 0 ∉ w) :
    Recognises words ↔ words.length < 4294967296 ∧ ∀ u ∈ words, ¬ Hides (· ∈ words) u := by
  obtain ⟨ts, made, radix, spells⟩ := ofWords_spells some_word nonempty
  have nulFree_ts : ∀ s k, Spells ts s k → 0 ∉ s := fun s k h => nulFree s ((spells s k).mp h).1
  have word_iff : ∀ s, Word ts s ↔ s ∈ words := by
    intro s
    simp [Word, spells]
  have hides_iff : ∀ u, Hides (Word ts) u ↔ Hides (· ∈ words) u := by
    intro u
    simp only [Hides, word_iff]
  constructor
  · rintro ⟨root, hroot, matched, _⟩
    obtain rfl : root = ⟨toStates ts⟩ := Option.some.inj (hroot.symm.trans made)
    have walks : ∀ w ∈ words, wordIndex words w ≠ 0 ∧ ¬ Blocked ts w := by
      intro w mem
      obtain ⟨k, number, spelled, free⟩ := (matches_iff radix nulFree_ts (nonempty w mem)).mp
        ((matched w (nulFree w mem)).mpr mem)
      exact ⟨((spells w k).mp spelled).2 ▸ number, free⟩
    have short : words.length < 4294967296 := by
      by_contra long
      -- the word numbered `2^32` gets the number of no word
      have h : 4294967295 < words.length := by omega
      apply (walks _ (List.getElem_mem h)).1
      rw [wordIndex_getElem distinct h]
    refine ⟨short, ?_⟩
    intro u mem hides
    have numbered : ∀ s k, Spells ts s k → k ≠ 0 := by
      intro s k spelled
      obtain ⟨word, rfl⟩ := (spells s k).mp spelled
      exact (walks s word).1
    exact (walks u mem).2 (Hides.blocked radix numbered ((word_iff u).mpr mem) ((hides_iff u).mpr hides))
  · rintro ⟨short, clear_words⟩
    have index : ∀ w ∈ words, wordIndex words w = words.idxOf w + 1 := by
      intro w mem
      have := List.idxOf_lt_length_iff.mpr mem
      rw [wordIndex, Nat.mod_eq_of_lt (by omega)]
    have free : ∀ w ∈ words, ¬ Blocked ts w :=
      fun w mem blocked => clear_words w mem ((hides_iff w).mp (blocked.hides radix))
    refine ⟨_, made, ?_, ?_⟩
    · intro s _
      by_cases empty : s = []
      · subst empty
        constructor
        · intro h
          simp [Root.matches] at h
        · exact fun mem => absurd rfl (nonempty [] mem)
      · rw [matches_iff radix nulFree_ts empty]
        constructor
        · rintro ⟨k, _, spelled, _⟩
          exact ((spells s k).mp spelled).1
        · intro mem
          exact ⟨_, by rw [index s mem]; omega, (spells s _).mpr ⟨mem, rfl⟩, free s mem⟩
    · intro i h
      have mem : words[i] ∈ words := List.getElem_mem h
      have number : wordIndex words words[i] = i + 1 := by
        rw [index _ mem, distinct.idxOf_getElem]
      rw [find_eq radix nulFree_ts (nonempty _ mem) (by omega) ((spells _ _).mpr ⟨mem, rfl⟩) (free _ mem), number]
      omega

/-- `"abc"`, `"abd"` and `"x"` share a two-character edge and lose nothing. -/
theorem recognises_abc : Recognises ([[97, 98, 99], [97, 98, 100], [120]] : List (List (Fin 256))) := by
  apply (recognises_iff (by decide) (by decide) (by decide) (by decide)).mpr
  simp [Hides]

/-- `"a"` hides `"ab"`. -/
theorem prefix_hides_word : ¬ Recognises ([[97], [97, 98]] : List (List (Fin 256))) := by
  intro ⟨root, made, matched, _⟩
  have walk : (ofWords ([[97], [97, 98]] : List (List (Fin 256)))).map (fun r => r.matches [97, 98]) = some false := by
    decide
  rw [made, Option.map_some, Option.some.injEq, (matched [97, 98] (by decide)).mpr (by decide)] at walk
  cases walk

end

end Erl.Util.Trie
