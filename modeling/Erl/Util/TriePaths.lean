import Erl.Lib.Bytes
import Erl.Util.TrieInsert

/-!
# Paths to the leaves of `ParsedState::make`

A path is the list of the positions taken among the children. In the tree of a word list
every word has one path to a leaf, and no other string has any. The leaf's `word_index` is
the word's first position plus one, as an `unsigned`: the list may hold the same word
several times, and more words than an `unsigned` counts.
-/

namespace Erl.Util.Trie

variable {α : Type}

/-- `s` is spelled by the edges along `path`, which ends in a leaf with `word_index` `k`. -/
inductive Path : List (ParsedState α) → List Nat → List α → Nat → Prop where
  | leaf {ts : List (ParsedState α)} {x : ParsedState α} {i : Nat} :
      ts[i]? = some x → x.prefixText = [] → x.transitions = [] → Path ts [i] [] x.word_index
  | edge {ts : List (ParsedState α)} {x : ParsedState α} {i : Nat} {path : List Nat} {s : List α} {k : Nat} :
      ts[i]? = some x → Path x.transitions path s k → Path ts (i :: path) (x.prefixText ++ s) k

/-- Siblings start with different characters, and only leaves have no prefix. -/
inductive Shaped : List (ParsedState α) → Prop where
  | mk {ts : List (ParsedState α)} : Distinct ts →
      (∀ x ∈ ts, x.prefixText = [] → x.transitions = []) →
      (∀ x ∈ ts, Shaped x.transitions) → Shaped ts

/-- `tree` is a radix tree of `words` with these numbers at its leaves. -/
structure TreeOf (words : List (List α)) (number : List α → Nat) (tree : ParsedState α) : Prop where
  root : tree.prefixText = []
  shaped : Shaped tree.transitions
  one_path : ∀ w ∈ words, ∃ path, Path tree.transitions path w (number w) ∧
    ∀ other k, Path tree.transitions other w k → other = path
  only : ∀ path s k, Path tree.transitions path s k → s ∈ words

/-! ## Leaves -/

/-- Below a leaf there is nothing. -/
inductive Ended : List (ParsedState α) → Prop where
  | mk {ts : List (ParsedState α)} : (∀ x ∈ ts, x.prefixText = [] → x.transitions = []) →
      (∀ x ∈ ts, Ended x.transitions) → Ended ts

namespace Ended

variable {ts us : List (ParsedState α)} {x : ParsedState α}

theorem leaf_below (ended : Ended ts) (mem : x ∈ ts) (ends : x.prefixText = []) : x.transitions = [] := by
  cases ended with
  | mk leaves _ => exact leaves x mem ends

theorem under (ended : Ended ts) (mem : x ∈ ts) : Ended x.transitions := by
  cases ended with
  | mk _ under => exact under x mem

theorem nil : Ended ([] : List (ParsedState α)) :=
  .mk (fun _ mem => absurd mem List.not_mem_nil) fun _ mem => absurd mem List.not_mem_nil

theorem single (edge : x.prefixText = [] → x.transitions = []) (below : Ended x.transitions) : Ended [x] := by
  refine .mk ?_ ?_
  · intro y mem
    rw [List.mem_singleton.mp mem]
    exact edge
  · intro y mem
    rw [List.mem_singleton.mp mem]
    exact below

theorem append (left : Ended ts) (right : Ended us) : Ended (ts ++ us) := by
  refine .mk ?_ ?_
  · intro x mem
    rcases List.mem_append.mp mem with old | new
    · exact left.leaf_below old
    · exact right.leaf_below new
  · intro x mem
    rcases List.mem_append.mp mem with old | new
    · exact left.under old
    · exact right.under new

theorem left (ended : Ended (ts ++ us)) : Ended ts :=
  .mk (fun _ mem => ended.leaf_below (List.mem_append_left _ mem)) fun _ mem => ended.under (List.mem_append_left _ mem)

theorem right (ended : Ended (ts ++ us)) : Ended us :=
  .mk (fun _ mem => ended.leaf_below (List.mem_append_right _ mem)) fun _ mem => ended.under (List.mem_append_right _ mem)

theorem tail (ended : Ended (x :: ts)) : Ended ts :=
  .mk (fun _ mem => ended.leaf_below (List.mem_cons_of_mem x mem)) fun _ mem => ended.under (List.mem_cons_of_mem x mem)

end Ended

theorem ended_leaf (word_idx : Nat) : Ended ([leaf word_idx] : List (ParsedState α)) :=
  .single (fun _ => rfl) .nil

/-- Cutting an edge leaves a character on either side. -/
theorem split_ended {it : ParsedState α} {match_len : Nat} (edge : it.prefixText ≠ []) (pos : 0 < match_len)
    (ended : Ended it.transitions) :
    (it.split match_len).prefixText ≠ [] ∧ Ended (it.split match_len).transitions := by
  unfold ParsedState.split
  by_cases cut : match_len < it.prefixText.length
  · rw [if_pos cut]
    have front : it.prefixText.take match_len ≠ [] := by
      apply List.ne_nil_of_length_pos
      rw [List.length_take]
      omega
    have back : it.prefixText.drop match_len ≠ [] := by
      apply List.ne_nil_of_length_pos
      rw [List.length_drop]
      omega
    exact ⟨front, .single (fun ends => absurd ends back) ended⟩
  · rw [if_neg cut]
    exact ⟨edge, ended⟩

section
variable [DecidableEq α]

/-- Two edges that start alike share a character. -/
theorem mismatch_pos {c : α} {p w : List α} {match_len : Nat} (head : p.head? = some c)
    (run : mismatch p (c :: w) = some match_len) : 0 < match_len := by
  cases p with
  | nil => cases head
  | cons a p =>
    cases head
    rw [mismatch, if_pos rfl] at run
    obtain ⟨n, -, rfl⟩ := Option.map_eq_some_iff.mp run
    exact Nat.succ_pos n

/-- A turn never adds anything below a leaf. -/
theorem insert_ended {word_idx fuel : Nat} {w : List α} {node node' : ParsedState α}
    (run : insert word_idx fuel w node = some node') (ended : Ended node.transitions) :
    node'.prefixText = node.prefixText ∧ Ended node'.transitions := by
  induction fuel generalizing w node node' with
  | zero =>
    cases w with
    | nil =>
      cases run
      exact ⟨rfl, ended⟩
    | cons c rest => cases run
  | succ fuel ih =>
    cases w with
    | nil =>
      cases run
      exact ⟨rfl, ended⟩
    | cons c rest =>
      cases found : findIf (fun s => s.prefixText.head? == some c) node.transitions with
      | none =>
        simp only [insert, found, Option.some.injEq] at run
        subst run
        exact ⟨rfl, ended.append (.single (fun ends => absurd ends (List.cons_ne_nil c rest)) (ended_leaf word_idx))⟩
      | some parts =>
        obtain ⟨before, it, after⟩ := parts
        obtain ⟨children, mem, start, edge⟩ := edge_of_found (Option.some_ne_none c) found
        simp only [insert, found, Option.bind_eq_bind, Option.bind_eq_some_iff, Option.some.injEq] at run
        obtain ⟨match_len, matched, below, lower, rfl⟩ := run
        obtain ⟨front, ended_split⟩ := split_ended edge (mismatch_pos start matched) (ended.under mem)
        rw [children] at ended
        obtain ⟨same, ended_below⟩ := ih lower ended_split
        have one : Ended [below] := by
          refine .single ?_ ended_below
          intro ends
          rw [same] at ends
          exact absurd ends front
        exact ⟨rfl, ended.left.append (one.append ended.right.tail)⟩

theorem insert_all_ended {number : List α → Nat} {todo : List (List α)} {node node' : ParsedState α}
    (run : todo.foldlM (fun node word => insert (number word) word.length word node) node = some node')
    (ended : Ended node.transitions) : Ended node'.transitions := by
  induction todo generalizing node with
  | nil =>
    cases run
    exact ended
  | cons w todo ih =>
    rw [List.foldlM_cons, Option.bind_eq_bind, Option.bind_eq_some_iff] at run
    obtain ⟨between, turn, rest⟩ := run
    exact ih rest (insert_ended turn ended).2

end

theorem Radix.shaped {ts : List (ParsedState α)} (radix : Radix ts) (ended : Ended ts) : Shaped ts := by
  induction radix with
  | @mk ts distinct _ _ below =>
    refine .mk distinct (fun x mem => ended.leaf_below mem) ?_
    intro x mem
    by_cases edge : x.prefixText = []
    · rw [ended.leaf_below mem edge]
      exact .mk List.nodup_nil (fun _ mem => absurd mem List.not_mem_nil) fun _ mem => absurd mem List.not_mem_nil
    · exact below x mem edge (ended.under mem)

theorem Path.ne_nil {ts : List (ParsedState α)} {path : List Nat} {s : List α} {k : Nat} (along : Path ts path s k) :
    ts ≠ [] := by
  rintro rfl
  cases along with
  | leaf at_i => cases at_i
  | edge at_i => cases at_i

theorem Path.spells {ts : List (ParsedState α)} {path : List Nat} {s : List α} {k : Nat} (along : Path ts path s k)
    (ended : Ended ts) : Spells ts s k := by
  induction along with
  | leaf at_i ends _ => exact .leaf (List.mem_of_getElem? at_i) ends
  | @edge ts x i path s k at_i below ih =>
    have mem := List.mem_of_getElem? at_i
    have edge : x.prefixText ≠ [] := fun ends => below.ne_nil (ended.leaf_below mem ends)
    exact .edge mem edge (ih (ended.under mem))

theorem Spells.path {ts : List (ParsedState α)} {s : List α} {k : Nat} (spells : Spells ts s k) (ended : Ended ts) :
    ∃ path, Path ts path s k := by
  induction spells with
  | leaf mem ends =>
    obtain ⟨i, at_i⟩ := List.mem_iff_getElem?.mp mem
    exact ⟨[i], .leaf at_i ends (ended.leaf_below mem ends)⟩
  | edge mem _ _ ih =>
    obtain ⟨i, at_i⟩ := List.mem_iff_getElem?.mp mem
    obtain ⟨path, below⟩ := ih (ended.under mem)
    exact ⟨i :: path, .edge at_i below⟩

/-- Siblings with the same first character stand at the same position. -/
theorem Distinct.position_eq {ts : List (ParsedState α)} {x y : ParsedState α} {i j : Nat} (distinct : Distinct ts)
    (at_i : ts[i]? = some x) (at_j : ts[j]? = some y) (head : x.prefixText.head? = y.prefixText.head?) : i = j := by
  have in_range : i < (ts.map fun x => x.prefixText.head?).length := by
    rw [List.length_map]
    exact (List.getElem?_eq_some_iff.mp at_i).1
  apply (List.getElem?_inj in_range distinct).mp
  rw [List.getElem?_map, List.getElem?_map, at_i, at_j, Option.map_some, Option.map_some, head]

/-- A string leaves no choice at any node. -/
theorem Path.unique {ts : List (ParsedState α)} {path other : List Nat} {s : List α} {j k : Nat}
    (along : Path ts path s j) (shaped : Shaped ts) (also : Path ts other s k) : other = path := by
  induction along generalizing other k with
  | @leaf ts x i at_i ends _ =>
    cases shaped with
    | mk distinct leaves under =>
      generalize empty : ([] : List α) = s at also
      cases also with
      | leaf at_j ends_y => rw [distinct.position_eq at_j at_i (by rw [ends, ends_y])]
      | @edge _ y j path t _ at_j below =>
        have ends_y : y.prefixText = [] := (List.append_eq_nil_iff.mp empty.symm).1
        exact absurd (leaves y (List.mem_of_getElem? at_j) ends_y) below.ne_nil
  | @edge ts x i path s k at_i below ih =>
    cases shaped with
    | mk distinct leaves under =>
      have edge_of : ∀ {y : ParsedState α} {j : Nat}, ts[j]? = some y → y.transitions ≠ [] → y.prefixText ≠ [] :=
        fun at_j inner ends => inner (leaves _ (List.mem_of_getElem? at_j) ends)
      have edge := edge_of at_i below.ne_nil
      generalize whole : x.prefixText ++ s = t at also
      cases also with
      | leaf => exact absurd (List.append_eq_nil_iff.mp whole).1 edge
      | @edge _ y j path' t' _ at_j below_y =>
        have edge_y := edge_of at_j below_y.ne_nil
        have head : y.prefixText.head? = x.prefixText.head? := by
          rw [← List.head?_append_of_ne_nil _ edge, whole, List.head?_append_of_ne_nil _ edge_y]
        obtain rfl := distinct.position_eq at_j at_i head
        obtain rfl : y = x := Option.some.inj (at_j.symm.trans at_i)
        rw [List.append_cancel_left whole] at ih
        rw [ih (under y (List.mem_of_getElem? at_j)) below_y]

section
variable [LinearOrder α] {words : List (List α)}

theorem make_paths (nonempty : ∀ w ∈ words, w ≠ []) :
    ∃ ts, ParsedState.make words = some ⟨[], ts, 0⟩ ∧ Shaped ts ∧
      (∀ path s k, Path ts path s k → s ∈ words ∧ k = wordIndex words s) ∧
      ∀ w ∈ words, ∃ path, Path ts path w (wordIndex words w) := by
  obtain ⟨ts, made, radix, spells⟩ := make_spells nonempty
  have ended : Ended ts := insert_all_ended made .nil
  refine ⟨ts, made, radix.shaped ended, ?_, ?_⟩
  · intro path s k along
    exact (spells s k).mp (along.spells ended)
  · intro w mem
    exact ((spells w _).mpr ⟨mem, rfl⟩).path ended

/-- **Main result.** `make` reads no word past its end and builds a radix tree of the words,
where the leaf of a word has its first position plus one, modulo `2^32`, as its `word_index`. -/
theorem make_treeOf (nonempty : ∀ w ∈ words, w ≠ []) :
    ∃ tree, ParsedState.make words = some tree ∧ TreeOf words (wordIndex words) tree := by
  obtain ⟨ts, made, shaped, only, paths⟩ := make_paths nonempty
  refine ⟨_, made, rfl, shaped, ?_, ?_⟩
  · intro w mem
    obtain ⟨path, along⟩ := paths w mem
    exact ⟨path, along, fun other k also => along.unique shaped also⟩
  · intro path s k along
    exact (only path s k along).1

end

/-- `"ab"` twice, before `"a"`, which is sorted first. -/
theorem make_treeOf_aba : ∃ tree, ParsedState.make ([[97, 98], [97, 98], [97]] : List (List (Fin 256))) = some tree ∧
    TreeOf [[97, 98], [97, 98], [97]] (wordIndex [[97, 98], [97, 98], [97]]) tree :=
  make_treeOf (by decide)

/-- All words of four characters. -/
def fourCharacters : List (List (Fin 256)) :=
  (List.range 4294967296).map fun n => (Bytes.little 4 n).map UInt8.toFin

theorem fourCharacters_nodup : fourCharacters.Nodup := by
  apply List.Nodup.map_on _ List.nodup_range
  intro m hm n hn same
  have bytes : Bytes.little 4 m = Bytes.little 4 n := by
    apply List.map_injective_iff.mpr _ same
    intro a b
    exact UInt8.toFin_inj.mp
  have numbers := congrArg Bytes.number bytes
  rw [Bytes.number_little, Bytes.number_little] at numbers
  rw [List.mem_range] at hm hn
  omega

theorem fourCharacters_nonempty : ∀ w ∈ fourCharacters, w ≠ [] := by
  intro w mem
  obtain ⟨n, -, rfl⟩ := List.mem_map.mp mem
  apply List.ne_nil_of_length_pos
  rw [List.length_map, Bytes.length_little]
  omega

/-- The last of them gets the `word_index` 0. -/
theorem not_treeOf_fourCharacters : ¬∃ tree, ParsedState.make fourCharacters = some tree ∧
    TreeOf fourCharacters (fun w => fourCharacters.idxOf w + 1) tree := by
  rintro ⟨tree, made, treeOf⟩
  obtain ⟨ts, made_ts, _, only, _⟩ := make_paths fourCharacters_nonempty
  obtain rfl : tree = ⟨[], ts, 0⟩ := Option.some.inj (made.symm.trans made_ts)
  have last : 4294967295 < fourCharacters.length := by
    rw [fourCharacters, List.length_map, List.length_range]
    omega
  obtain ⟨path, along, _⟩ := treeOf.one_path _ (List.getElem_mem last)
  have number := (only path _ _ along).2
  rw [wordIndex, fourCharacters_nodup.idxOf_getElem _ last] at number
  omega

end Erl.Util.Trie
