import Erl.Util.RadixTree

/-!
# `ParsedState::make` builds the dictionary

One turn of the loop either appends a fresh edge, splits an edge and appends below the
cut, or goes down. Each adds one word and keeps the tree's shape, so the tree of a word
list spells its words and nothing else. Sorting matters here: a word is inserted before
every word it is a prefix of, so no loop runs out of characters. A word that comes again
goes down to its own leaf.
-/

namespace Erl.Util.Trie

variable {α : Type}

/-- `ts'` is `ts` with `w`, numbered `word_idx`. -/
structure Inserted (ts : List (ParsedState α)) (w : List α) (word_idx : Nat) (ts' : List (ParsedState α)) : Prop where
  radix : Radix ts'
  spells : ∀ s k, Spells ts' s k ↔ Spells ts s k ∨ s = w ∧ k = word_idx
  full : Full ts → Full ts'

theorem radix_leaf (word_idx : Nat) : Radix ([leaf word_idx] : List (ParsedState α)) := by
  refine .mk (List.nodup_singleton _) ?_ ?_
  all_goals
    intro x mem edge
    rw [List.mem_singleton.mp mem] at edge
    exact absurd rfl edge

theorem full_leaf (word_idx : Nat) : Full ([leaf word_idx] : List (ParsedState α)) :=
  .inl ⟨leaf word_idx, List.mem_singleton.mpr rfl, rfl⟩

/-- A fresh edge next to siblings that start differently. -/
theorem inserted_append {ts : List (ParsedState α)} {w : List α} {word_idx : Nat} (radix : Radix ts) (word : w ≠ [])
    (absent : ∀ x ∈ ts, x.prefixText.head? ≠ w.head?) :
    Inserted ts w word_idx (ts ++ [⟨w, [leaf word_idx], 0⟩]) := by
  have distinct : Distinct (ts ++ [⟨w, [leaf word_idx], 0⟩]) := by
    simp only [Distinct, List.map_append, List.map_cons, List.map_nil]
    apply List.Nodup.append radix.distinct (List.nodup_singleton _)
    intro head mem fresh
    obtain ⟨x, hx, rfl⟩ := List.mem_map.mp mem
    exact absent x hx (List.mem_singleton.mp fresh)
  refine ⟨.mk distinct ?_ ?_, ?_, ?_⟩
  · intro x mem edge
    rcases List.mem_append.mp mem with old | fresh
    · exact radix.full old edge
    · rw [List.mem_singleton.mp fresh]
      exact full_leaf word_idx
  · intro x mem edge
    rcases List.mem_append.mp mem with old | fresh
    · exact radix.under old edge
    · rw [List.mem_singleton.mp fresh]
      exact radix_leaf word_idx
  · intro s k
    rw [spells_append, spells_edge word]
    simp [spells_leaf]
  · intro full
    rcases full with ⟨x, mem, ends⟩ | two
    · exact .inl ⟨x, List.mem_append_left _ mem, ends⟩
    · apply Or.inr
      rw [List.length_append]
      omega

theorem Full.replace {before after : List (ParsedState α)} {it new : ParsedState α}
    (full : Full (before ++ it :: after)) (edge : it.prefixText ≠ []) : Full (before ++ new :: after) := by
  rcases full with ⟨x, mem, ends⟩ | two
  · apply Or.inl
    refine ⟨x, ?_, ends⟩
    rcases List.mem_append.mp mem with front | back
    · exact List.mem_append_left _ front
    · rcases List.mem_cons.mp back with rfl | back
      · exact absurd ends edge
      · exact List.mem_append_right _ (List.mem_cons_of_mem _ back)
  · apply Or.inr
    simp only [List.length_append, List.length_cons] at two ⊢
    exact two

theorem Radix.replace {before after : List (ParsedState α)} {it new : ParsedState α}
    (radix : Radix (before ++ it :: after)) (head : new.prefixText.head? = it.prefixText.head?)
    (full : Full new.transitions) (under : Radix new.transitions) : Radix (before ++ new :: after) := by
  have old : ∀ x, x ∈ before ++ new :: after → x ≠ new → x ∈ before ++ it :: after := by
    intro x mem other
    simp only [List.mem_append, List.mem_cons, other, false_or] at mem ⊢
    rcases mem with front | back
    · exact .inl front
    · exact .inr (.inr back)
  refine .mk ?_ ?_ ?_
  · have distinct := radix.distinct
    simp only [Distinct, List.map_append, List.map_cons, head] at distinct ⊢
    exact distinct
  · intro x mem edge
    by_cases same : x = new
    · rw [same]
      exact full
    · exact radix.full (old x mem same) edge
  · intro x mem edge
    by_cases same : x = new
    · rw [same]
      exact under
    · exact radix.under (old x mem same) edge

/-- A word inserted below `stem`, which stands for the child `it`. -/
theorem Inserted.below {before after ts : List (ParsedState α)} {it : ParsedState α} {w : List α} {word_idx : Nat}
    (stem : ParsedState α) (radix : Radix (before ++ it :: after)) (edge : stem.prefixText ≠ [])
    (head : stem.prefixText.head? = it.prefixText.head?)
    (same : ∀ s k, Spells [stem] s k ↔ Spells [it] s k)
    (inserted : Inserted stem.transitions w word_idx ts) (full : Full ts) :
    Inserted (before ++ it :: after) (stem.prefixText ++ w) word_idx
      (before ++ { stem with transitions := ts } :: after) := by
  refine ⟨radix.replace head full inserted.radix, ?_, ?_⟩
  · intro s k
    have below : Spells [{ stem with transitions := ts }] s k ↔
        Spells [it] s k ∨ s = stem.prefixText ++ w ∧ k = word_idx := by
      rw [← same, spells_edge edge, spells_edge (x := { stem with transitions := ts }) edge]
      simp only [inserted.spells]
      constructor
      · intro ⟨t, hs, spells⟩
        rcases spells with old | ⟨ht, hk⟩
        · exact .inl ⟨t, hs, old⟩
        · exact .inr ⟨by rw [hs, ht], hk⟩
      · intro spells
        rcases spells with ⟨t, hs, old⟩ | ⟨hs, hk⟩
        · exact ⟨t, hs, .inl old⟩
        · exact ⟨w, hs, .inr ⟨rfl, hk⟩⟩
    rw [spells_append, spells_append, spells_cons, spells_cons (x := it), below]
    tauto
  · intro whole
    apply whole.replace
    intro ends
    rw [ends] at head
    exact edge (List.head?_eq_none_iff.mp head)

/-- A word that leaves an edge half way: the edge is cut, and the word's rest branches off. -/
theorem inserted_split {before after : List (ParsedState α)} {it : ParsedState α} {shared p' w' : List α}
    {word_idx : Nat} (radix : Radix (before ++ it :: after)) (hp : it.prefixText = shared ++ p')
    (progress : shared ≠ []) (cut : p' ≠ []) (remains : w' ≠ []) (differ : p'.head? ≠ w'.head?) :
    Inserted (before ++ it :: after) (shared ++ w') word_idx
      (before ++ ⟨shared, [⟨p', it.transitions, 0⟩, ⟨w', [leaf word_idx], 0⟩], it.word_index⟩ :: after) := by
  have mem : it ∈ before ++ it :: after := List.mem_append_right _ List.mem_cons_self
  have edge : it.prefixText ≠ [] := by simp [hp, progress]
  have lone : Radix [⟨p', it.transitions, 0⟩] := by
    refine .mk (List.nodup_singleton _) ?_ ?_
    · intro x hx _
      rw [List.mem_singleton.mp hx]
      exact radix.full (x := it) mem edge
    · intro x hx _
      rw [List.mem_singleton.mp hx]
      exact radix.under (x := it) mem edge
  have absent : ∀ x ∈ [(⟨p', it.transitions, 0⟩ : ParsedState α)], x.prefixText.head? ≠ w'.head? := by
    intro x hx
    rw [List.mem_singleton.mp hx]
    exact differ
  have same : ∀ s k, Spells [⟨shared, [⟨p', it.transitions, 0⟩], it.word_index⟩] s k ↔ Spells [it] s k := by
    intro s k
    rw [spells_edge progress, spells_edge edge, hp]
    simp only [spells_edge (x := ⟨p', it.transitions, 0⟩) cut, List.append_assoc]
    constructor
    · intro ⟨_, hs, t, ht, spells⟩
      exact ⟨t, by rw [hs, ht], spells⟩
    · intro ⟨t, hs, spells⟩
      exact ⟨p' ++ t, hs, t, rfl, spells⟩
  apply Inserted.below ⟨shared, [⟨p', it.transitions, 0⟩], it.word_index⟩ radix progress ?_ same
  · exact inserted_append lone remains absent
  · apply Or.inr
    simp
  · rw [hp, List.head?_append_of_ne_nil _ progress]

/-! ## One word -/

section
variable [DecidableEq α]

/-- The edge that the loop goes down, and where it stands. -/
theorem edge_of_found {ts before after : List (ParsedState α)} {it : ParsedState α} {c : Option α} (some_char : c ≠ none)
    (found : findIf (fun s => s.prefixText.head? == c) ts = some (before, it, after)) :
    ts = before ++ it :: after ∧ it ∈ ts ∧ it.prefixText.head? = c ∧ it.prefixText ≠ [] := by
  obtain ⟨split, starts⟩ := findIf_some found
  have start : it.prefixText.head? = c := eq_of_beq starts
  refine ⟨split, ?_, start, ?_⟩
  · rw [split]
    exact List.mem_append_right _ List.mem_cons_self
  · intro ends
    rw [ends] at start
    exact some_char start.symm

/-- No sibling starts like the word: it is appended. -/
theorem insert_absent {word_idx fuel : Nat} {w : List α} {node : ParsedState α} (fits : w.length ≤ fuel) (word : w ≠ [])
    (absent : ∀ x ∈ node.transitions, x.prefixText.head? ≠ w.head?) :
    insert word_idx fuel w node =
      some { node with transitions := node.transitions ++ [⟨w, [leaf word_idx], 0⟩] } := by
  obtain ⟨c, rest, rfl⟩ := List.exists_cons_of_ne_nil word
  obtain ⟨fuel, rfl⟩ : ∃ n, fuel = n + 1 := ⟨fuel - 1, by simp at fits; omega⟩
  cases found : findIf (fun s => s.prefixText.head? == some c) node.transitions with
  | none => simp only [insert, found]
  | some parts =>
    obtain ⟨before, it, after⟩ := parts
    obtain ⟨-, mem, start, -⟩ := edge_of_found (Option.some_ne_none c) found
    exact absurd start (absent it mem)

/-- A sibling starts like the word: the loop goes on below it, after the part they share. -/
theorem insert_found {word_idx fuel : Nat} {w shared w' : List α} {node it : ParsedState α}
    {before after : List (ParsedState α)} (word : w = shared ++ w') (nonempty : w ≠ [])
    (found : findIf (fun s => s.prefixText.head? == w.head?) node.transitions = some (before, it, after))
    (run : mismatch it.prefixText w = some shared.length) :
    insert word_idx (fuel + 1) w node =
      (insert word_idx fuel w' (it.split shared.length)).map fun below =>
        { node with transitions := before ++ below :: after } := by
  have rest : w.drop shared.length = w' := by rw [word, List.drop_left]
  obtain ⟨c, cs, rfl⟩ := List.exists_cons_of_ne_nil nonempty
  rw [List.head?_cons] at found
  simp only [insert, found, run, Option.bind_eq_bind, Option.bind_some, rest]
  cases insert word_idx fuel w' (it.split shared.length) with
  | none => rfl
  | some below => rfl

/-- **Main result.** Insertion stays inside the word, ends, and adds exactly the word,
unless the tree already has one that extends it. -/
theorem insert_inserted (word_idx : Nat) {fuel : Nat} {w : List α} {node : ParsedState α} (fits : w.length ≤ fuel)
    (word : w ≠ []) (radix : Radix node.transitions) (free : ∀ s k, Spells node.transitions s k → ¬ w <+: s) :
    ∃ ts, insert word_idx fuel w node = some { node with transitions := ts } ∧
      Inserted node.transitions w word_idx ts := by
  induction fuel generalizing w node with
  | zero => exact absurd (List.eq_nil_of_length_eq_zero (by omega)) word
  | succ fuel ih =>
    cases found : findIf (fun s => s.prefixText.head? == w.head?) node.transitions with
    | none =>
      have absent : ∀ x ∈ node.transitions, x.prefixText.head? ≠ w.head? := by
        intro x mem
        simpa using findIf_none found x mem
      exact ⟨_, insert_absent fits word absent, inserted_append radix word absent⟩
    | some parts =>
      obtain ⟨before, it, after⟩ := parts
      obtain ⟨children, mem, start, edge⟩ := edge_of_found (fun none => word (List.head?_eq_none_iff.mp none)) found
      -- the edge lies on a word, so it does not extend the one inserted
      have inside : ¬ w <+: it.prefixText := by
        obtain ⟨t, k, spells, _⟩ := radix.exists_spells it mem
        exact fun h => free _ k spells (h.trans (List.prefix_append _ _))
      obtain ⟨shared, p', w', run, hp, hw, remains, differ⟩ := mismatch_spec inside
      have progress : shared ≠ [] := by
        intro none_shared
        apply differ
        rw [none_shared, List.nil_append] at hp hw
        rw [← hp, ← hw, start]
      have shorter : w'.length ≤ fuel := by
        have := congrArg List.length hw
        have := List.length_pos_iff.mpr progress
        rw [List.length_append] at *
        omega
      rw [insert_found hw word found run]
      by_cases whole : p' = []
      · rw [whole, List.append_nil] at hp
        have uncut : it.split shared.length = it := by simp [ParsedState.split, hp]
        have lower : ∀ s k, Spells it.transitions s k → ¬ w' <+: s := by
          intro s k spells extends_w
          apply free _ k (.edge mem edge spells)
          rw [hw, hp]
          exact (List.prefix_append_right_inj shared).mpr extends_w
        obtain ⟨ts, hts, inserted⟩ := ih shorter remains (radix.under mem edge) lower
        have full := inserted.full (radix.full mem edge)
        refine ⟨before ++ { it with transitions := ts } :: after, by rw [uncut, hts, Option.map_some], ?_⟩
        rw [children] at radix ⊢
        rw [hw, ← hp]
        exact inserted.below it radix edge rfl (fun _ _ => Iff.rfl) full
      · have cut : it.split shared.length = ⟨shared, [⟨p', it.transitions, 0⟩], it.word_index⟩ := by
          have longer := List.length_pos_iff.mpr whole
          simp [ParsedState.split, hp, longer]
        have absent : ∀ x ∈ [(⟨p', it.transitions, 0⟩ : ParsedState α)], x.prefixText.head? ≠ w'.head? := by
          intro x hx
          rw [List.mem_singleton.mp hx]
          exact differ
        refine ⟨_, by rw [cut, insert_absent shorter remains absent, Option.map_some], ?_⟩
        rw [children] at radix ⊢
        rw [hw]
        exact inserted_split radix hp progress whole remains differ

theorem mismatch_append (p t : List α) : mismatch p (p ++ t) = some p.length := by
  induction p with
  | nil => rfl
  | cons a p ih => rw [List.cons_append, mismatch, if_pos rfl, ih, Option.map_some, List.length_cons]

/-- A word the tree already spells changes nothing: every edge matches whole. -/
theorem insert_again (word_idx : Nat) {fuel k : Nat} {w : List α} {node : ParsedState α} (fits : w.length ≤ fuel)
    (radix : Radix node.transitions) (spells : Spells node.transitions w k) :
    insert word_idx fuel w node = some node := by
  induction fuel generalizing w node with
  | zero =>
    rw [List.eq_nil_of_length_eq_zero (Nat.le_zero.mp fits)]
    rfl
  | succ fuel ih =>
    obtain ⟨p, ts, j⟩ := node
    cases spells with
    | leaf => rfl
    | @edge _ x s _ mem edge rest =>
      have start : (x.prefixText ++ s).head? = x.prefixText.head? := List.head?_append_of_ne_nil _ edge
      cases found : findIf (fun y => y.prefixText.head? == (x.prefixText ++ s).head?) ts with
      | none =>
        have absent := findIf_none found x mem
        rw [start, beq_self_eq_true] at absent
        cases absent
      | some parts =>
        obtain ⟨before, it, after⟩ := parts
        have some_char : (x.prefixText ++ s).head? ≠ none := by
          rw [start]
          exact fun none => edge (List.head?_eq_none_iff.mp none)
        obtain ⟨children, mem_it, start_it, -⟩ := edge_of_found some_char found
        obtain rfl : it = x := radix.distinct.eq_of_head mem_it mem (start_it.trans start)
        have uncut : it.split it.prefixText.length = it := if_neg (Nat.lt_irrefl _)
        have shorter : s.length ≤ fuel := by
          have := List.length_pos_iff.mpr edge
          rw [List.length_append] at fits
          omega
        rw [insert_found rfl (List.append_ne_nil_of_left_ne_nil edge s) found (mismatch_append _ _), uncut,
          ih shorter (radix.under mem edge) rest, Option.map_some, children]

end

section
variable [LinearOrder α]

/-- The loop over the words: each is inserted after the words it may extend. -/
theorem insert_words (number : List α → Nat) (root : ParsedState α) (done : List (List α)) {todo : List (List α)}
    (sorted : (done ++ todo).Pairwise (· ≤ ·)) (words : ∀ w ∈ todo, w ≠ []) (radix : Radix root.transitions)
    (spells : ∀ s k, Spells root.transitions s k ↔ s ∈ done ∧ k = number s) :
    ∃ ts, todo.foldlM (fun node word => insert (number word) word.length word node) root =
        some { root with transitions := ts } ∧
      Radix ts ∧ ∀ s k, Spells ts s k ↔ s ∈ done ++ todo ∧ k = number s := by
  induction todo generalizing root done with
  | nil =>
    obtain ⟨p, ts, j⟩ := root
    exact ⟨ts, rfl, radix, by simpa using spells⟩
  | cons w todo ih =>
    have turn : ∃ ts, insert (number w) w.length w root = some { root with transitions := ts } ∧ Radix ts ∧
        ∀ s k, Spells ts s k ↔ s ∈ done ++ [w] ∧ k = number s := by
      by_cases again : w ∈ done
      · obtain ⟨p, us, j⟩ := root
        refine ⟨us, insert_again (number w) (Nat.le_refl _) radix ((spells w _).mpr ⟨again, rfl⟩), radix, ?_⟩
        intro s k
        rw [spells, List.mem_append, List.mem_singleton, or_iff_left_of_imp fun same => same ▸ again]
      · have free : ∀ s k, Spells root.transitions s k → ¬ w <+: s := by
          intro s k old extends_w
          have mem := ((spells s k).mp old).1
          have smaller : s ≤ w := (List.pairwise_append.mp sorted).2.2 s mem w List.mem_cons_self
          have larger : ¬ s < w := List.IsPrefix.le extends_w
          exact again (le_antisymm smaller (not_lt.mp larger) ▸ mem)
        obtain ⟨ts, run, inserted⟩ :=
          insert_inserted (number w) (Nat.le_refl w.length) (words w List.mem_cons_self) radix free
        refine ⟨ts, run, inserted.radix, ?_⟩
        intro s k
        rw [inserted.spells, spells, List.mem_append, List.mem_singleton]
        constructor
        · intro cases_s
          rcases cases_s with ⟨old, hk⟩ | ⟨rfl, hk⟩
          · exact ⟨.inl old, hk⟩
          · exact ⟨.inr rfl, hk⟩
        · intro ⟨mem, hk⟩
          rcases mem with old | rfl
          · exact .inl ⟨old, hk⟩
          · exact .inr ⟨rfl, hk⟩
    obtain ⟨ts, run, radix_ts, step⟩ := turn
    obtain ⟨us, runs, radix_us, spells_us⟩ :=
      ih { root with transitions := ts } (done ++ [w])
        (by simpa using sorted) (fun v mem => words v (List.mem_cons_of_mem _ mem)) radix_ts step
    refine ⟨us, ?_, radix_us, by simpa using spells_us⟩
    rw [List.foldlM_cons, run]
    exact runs

/-- **Main result.** `make` builds a tree that spells the words, each with its number. -/
theorem make_spells {words : List (List α)} (nonempty : ∀ w ∈ words, w ≠ []) :
    ∃ ts, ParsedState.make words = some ⟨[], ts, 0⟩ ∧ Radix ts ∧
      ∀ s k, Spells ts s k ↔ s ∈ words ∧ k = wordIndex words s := by
  have members : ∀ s, s ∈ words.insertionSort (· ≤ ·) ↔ s ∈ words := fun s => List.mem_insertionSort _
  obtain ⟨ts, run, radix, spells⟩ := insert_words (wordIndex words) ⟨[], [], 0⟩ []
    (by simpa using List.pairwise_insertionSort (· ≤ ·) words) (fun w mem => nonempty w ((members w).mp mem))
    (.mk List.nodup_nil (by simp) (by simp)) (by simp [spells_nil])
  refine ⟨ts, run, radix, ?_⟩
  intro s k
  rw [spells, List.nil_append, members]

end

end Erl.Util.Trie
