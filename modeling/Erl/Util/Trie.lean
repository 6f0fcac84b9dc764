import Mathlib.Data.List.Lex
import Mathlib.Data.List.Sort
import Mathlib.Data.List.Infix
import Mathlib.Order.Basic

/-!
# `Trie`

The compile-time prefix tree of `_impl/util/trie.hpp`. `ParsedState::make` inserts the
sorted words into a tree whose edges carry strings; `operator info` folds the leaves with
an empty prefix into their parent's `word_index` and yields the `State` nodes that
`Root::matches` and `Root::find` walk. Characters are an ordered type whose `0` is NUL.
-/

namespace Erl.Util.Trie

variable {α : Type}

structure ParsedState (α : Type) where
  prefixText : List α
  transitions : List (ParsedState α)
  word_index : Nat

/-- `ParsedState{"", {}, word_index}`: a word ends here. -/
def leaf (word_index : Nat) : ParsedState α := ⟨[], [], word_index⟩

/-- `std::ranges::find_if`, with the elements before and after the one found. -/
def findIf {β : Type} (p : β → Bool) : List β → Option (List β × β × List β)
  | [] => none
  | x :: xs =>
    if p x then some ([], x, xs)
    else (findIf p xs).map fun (before, it, after) => (x :: before, it, after)

section
variable [DecidableEq α]

/-- `std::mismatch(prefix.begin(), prefix.end(), word).first - prefix.begin()`. The word's
end is not checked: `none` is a read past it. -/
def mismatch : List α → List α → Option Nat
  | [], _ => some 0
  | _ :: _, [] => none
  | a :: as, b :: bs => if a = b then (mismatch as bs).map (· + 1) else some 0

/-- Cut an edge in two at `match_len`, unless all of it matched. -/
def ParsedState.split (it : ParsedState α) (match_len : Nat) : ParsedState α :=
  if match_len < it.prefixText.length then
    { it with
      prefixText := it.prefixText.take match_len
      transitions := [⟨it.prefixText.drop match_len, it.transitions, 0⟩] }
  else it

/-- The loop over one word, at `node` with `word` left of it. The word's length is fuel
enough: every turn matches a character. -/
def insert (word_idx : Nat) : Nat → List α → ParsedState α → Option (ParsedState α)
  | _, [], node => some node
  | 0, _ :: _, _ => none
  | fuel + 1, c :: rest, node =>
    match findIf (fun s => s.prefixText.head? == some c) node.transitions with
    | none => some { node with transitions := node.transitions ++ [⟨c :: rest, [leaf word_idx], 0⟩] }
    | some (before, it, after) => do
      let match_len ← mismatch it.prefixText (c :: rest)
      let below ← insert word_idx fuel ((c :: rest).drop match_len) (it.split match_len)
      some { node with transitions := before ++ below :: after }

end

/-- The `unsigned` number of a word: its position plus one. -/
def wordIndex [DecidableEq α] (words : List (List α)) (word : List α) : Nat :=
  (words.idxOf word + 1) % 4294967296

/-- `ParsedState::make`; `none` if a loop reads past the end of a word. -/
def ParsedState.make [LinearOrder α] (words : List (List α)) : Option (ParsedState α) :=
  let sorted_words := words.insertionSort (· ≤ ·)
  sorted_words.foldlM (fun root word => insert (wordIndex words word) word.length word root) ⟨[], [], 0⟩

/-- `State<Transitions...>`; `size` is the length of `transition`. -/
structure State (α : Type) where
  transition : List α
  word_index : Nat
  transitions : List (State α)

/-- `Root<Transitions...>`. -/
structure Root (α : Type) where
  transitions : List (State α)

/-- `index` after the loop over the transitions. -/
def leafIndex (transitions : List (ParsedState α)) : Nat :=
  transitions.foldl (fun index state => if state.prefixText.isEmpty then state.word_index else index) 0

mutual

/-- `operator info` below the root: `make_state`. -/
def ParsedState.toState : ParsedState α → State α
  | ⟨prefixText, transitions, _⟩ => ⟨prefixText, leafIndex transitions, toStates transitions⟩

/-- `states`: the transitions with a prefix. -/
def toStates : List (ParsedState α) → List (State α)
  | [] => []
  | state :: rest => if state.prefixText.isEmpty then toStates rest else state.toState :: toStates rest

end

/-- `operator info` at the root. A `State`, which the other branch makes, has neither `matches`
nor `find`. -/
def ParsedState.toRoot (s : ParsedState α) : Option (Root α) :=
  if !s.transitions.isEmpty && s.prefixText.isEmpty then some ⟨toStates s.transitions⟩ else none

section
variable [DecidableEq α] [Zero α] {σ : Type}

/-- A `char const*` read as a string: up to the first NUL. -/
def cString (data : List α) : List α := data.takeWhile (· ≠ 0)

/-- `State::visit`'s tests on the edge: `true` where it returns early. -/
def State.rejects (s : State α) (str : List α) : Bool :=
  if s.transition.length = 1 then
    (s.word_index != 0 && str.length != 1) || str.head? != s.transition.head?
  else !(cString s.transition).isPrefixOf str

mutual

/-- `State::visit`, threading what the visitor captures. -/
def State.visit (visitor : Nat → σ → σ) : State α → List α → σ → Bool × σ
  | ⟨transition, word_index, transitions⟩, str, captured =>
    if State.rejects ⟨transition, word_index, transitions⟩ str then (false, captured)
    else if (str.drop transition.length).isEmpty then (word_index != 0, visitor word_index captured)
    else visitAny visitor transitions (str.drop transition.length) captured

/-- `(Transitions.visit(str, visitor) || ...)`. -/
def visitAny (visitor : Nat → σ → σ) : List (State α) → List α → σ → Bool × σ
  | [], _, captured => (false, captured)
  | s :: rest, str, captured =>
    match s.visit visitor str captured with
    | (true, captured) => (true, captured)
    | (false, captured) => visitAny visitor rest str captured

end

/-- `Root::matches`. -/
def Root.matches (r : Root α) (str : List α) : Bool :=
  if str.isEmpty then false else (visitAny (fun _ captured => captured) r.transitions str ()).1

/-- `Root::find`, in `unsigned` arithmetic. -/
def Root.find (r : Root α) (str : List α) : Nat :=
  if str.isEmpty then 4294967295
  else ((visitAny (fun v _ => v) r.transitions str 4294967295).2 + 4294967295) % 4294967296

end

/-- The constructor of `Trie`. -/
def ofWords [LinearOrder α] (words : List (List α)) : Option (Root α) := do
  let tree ← ParsedState.make words
  tree.toRoot

end Erl.Util.Trie
