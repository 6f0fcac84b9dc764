import Mathlib.Logic.Function.Basic
import Mathlib.Algebra.Order.Group.Nat

/-!
# Heap blocks and their owners

A heap of blocks with `malloc`, `realloc`, `free` and bounds-checked copies; where a
block is placed is up to an `Allocator`. `Transfer` says what an operation on behalf of
one owner does to the heap: that owner's block is given up, another one taken, and every
other block stays. `Owned` is the discipline that each live block has exactly one owner.
-/

namespace Blocks
open Function

/-- Bytes of memory; `none` is indeterminate. -/
abbrev Bytes := List (Option UInt8)

/-- A pointer to the start of a block; `none` is null. -/
abbrev Pointer := Option Nat

inductive Fault where
  /-- Access through a pointer to no live block. -/
  | dangling
  /-- `free` or `realloc` of a pointer to no live block. -/
  | badFree
  /-- Access past the end of a block or an array. -/
  | outOfBounds
  /-- A pointer read from memory that holds none. -/
  | wildPointer
deriving DecidableEq, Repr

/-- Finitely many live blocks. -/
structure Heap where
  block : Nat → Option Bytes
  limit : Nat
  dead : ∀ p, limit ≤ p → block p = none

/-- Where new blocks go, and which blocks `realloc` leaves in place. -/
structure Allocator where
  place : Heap → Nat
  fresh : ∀ h : Heap, h.block (place h) = none
  inPlace : Heap → Nat → Nat → Bool

/-- Always a new address. -/
def Allocator.bump : Allocator where
  place h := h.limit
  fresh h := h.dead _ (Nat.le_refl _)
  inPlace _ _ _ := false

def Heap.empty : Heap where
  block _ := none
  limit := 0
  dead _ _ := rfl

def Heap.set (h : Heap) (p : Nat) (b : Option Bytes) : Heap where
  block := update h.block p b
  limit := max h.limit (p + 1)
  dead q hq := by
    rw [update_of_ne (by omega)]
    exact h.dead q (by omega)

@[simp] theorem Heap.set_block_self (h : Heap) (p : Nat) (b : Option Bytes) : (h.set p b).block p = b := update_self ..

theorem Heap.set_block_of_ne (h : Heap) {p q : Nat} (ne : q ≠ p) (b : Option Bytes) :
    (h.set p b).block q = h.block q := update_of_ne ne ..

/-- `bs` copied into `b` at an offset. -/
def overwrite (b : Bytes) (offset : Nat) (bs : Bytes) : Bytes := b.take offset ++ bs ++ b.drop (offset + bs.length)

/-- The contents of a block after its size has changed. -/
def resize (n : Nat) (b : Bytes) : Bytes := b.take n ++ List.replicate (n - b.length) none

def malloc (A : Allocator) (n : Nat) (h : Heap) : Nat × Heap :=
  (A.place h, h.set (A.place h) (some (List.replicate n none)))

def free : Pointer → Heap → Except Fault Heap
  | none, h => .ok h
  | some p, h =>
    match h.block p with
    | some _ => .ok (h.set p none)
    | none => .error .badFree

def realloc (A : Allocator) : Pointer → Nat → Heap → Except Fault (Nat × Heap)
  | none, n, h => .ok (malloc A n h)
  | some p, n, h =>
    match h.block p with
    | some b =>
      let q := if A.inPlace h p n then p else A.place h
      .ok (q, (h.set p none).set q (some (resize n b)))
    | none => .error .badFree

/-- The first `n` bytes of a block. -/
def load (p : Pointer) (n : Nat) (h : Heap) : Except Fault Bytes :=
  match p.bind h.block with
  | some b => if n ≤ b.length then .ok (b.take n) else .error .outOfBounds
  | none => .error .dangling

def store : Pointer → Nat → Bytes → Heap → Except Fault Heap
  | none, _, _, _ => .error .dangling
  | some p, offset, bs, h =>
    match h.block p with
    | some b => if offset + bs.length ≤ b.length then .ok (h.set p (some (overwrite b offset bs))) else .error .outOfBounds
    | none => .error .dangling

theorem length_overwrite {b bs : Bytes} {offset : Nat} (fits : offset + bs.length ≤ b.length) :
    (overwrite b offset bs).length = b.length := by
  simp only [overwrite, List.length_append, List.length_take, List.length_drop]
  omega

/-- What stood before the offset, and then the new bytes. -/
theorem take_overwrite {b bs : Bytes} {offset : Nat} (fits : offset + bs.length ≤ b.length) :
    (overwrite b offset bs).take (offset + bs.length) = b.take offset ++ bs := by
  have front : (b.take offset ++ bs).length = offset + bs.length := by
    simp only [List.length_append, List.length_take]
    omega
  rw [overwrite, ← front, List.take_left]

theorem length_resize (n : Nat) (b : Bytes) : (resize n b).length = n := by
  simp only [resize, List.length_append, List.length_take, List.length_replicate]
  omega

theorem take_resize {n m : Nat} {b : Bytes} (old : m ≤ b.length) (new : m ≤ n) : (resize n b).take m = b.take m := by
  rw [resize, List.take_append_of_le_length (by rw [List.length_take]; omega), List.take_take, Nat.min_eq_left new]

/-- The owner of `o` gives it up and has `o'` afterwards; all other live blocks stay, and
none comes into being. -/
structure Transfer (h h' : Heap) (o o' : Pointer) : Prop where
  kept : ∀ p, h.block p ≠ none → o ≠ some p → h'.block p = h.block p ∧ o' ≠ some p
  live : ∀ p, h'.block p ≠ none → o' = some p ∨ h.block p ≠ none ∧ o ≠ some p

namespace Transfer

variable {A : Allocator} {h h' h'' : Heap} {o o' o'' : Pointer}

theorem refl (h : Heap) (o : Pointer) : Transfer h h o o where
  kept _ _ other := ⟨rfl, other⟩
  live p alive := (Classical.em (o = some p)).imp_right fun other => ⟨alive, other⟩

theorem trans (first : Transfer h h' o o') (second : Transfer h' h'' o' o'') : Transfer h h'' o o'' where
  kept p alive other := by
    obtain ⟨same, away⟩ := first.kept p alive other
    obtain ⟨same', away'⟩ := second.kept p (same ▸ alive) away
    exact ⟨same'.trans same, away'⟩
  live p alive := by
    rcases second.live p alive with taken | ⟨alive', other⟩
    · exact .inl taken
    · exact .inr ((first.live p alive').resolve_left other)

/-- A block comes into being at an address that was free. -/
theorem set_some {p : Nat} (fresh : h.block p = none) (b : Bytes) : Transfer h (h.set p (some b)) none (some p) where
  kept q alive _ := by
    have ne : q ≠ p := by
      rintro rfl
      exact alive fresh
    exact ⟨h.set_block_of_ne ne _, fun same => ne (Option.some.inj same).symm⟩
  live q alive := by
    by_cases same : q = p
    · exact .inl (same ▸ rfl)
    · rw [h.set_block_of_ne same] at alive
      exact .inr ⟨alive, nofun⟩

/-- A block is freed. -/
theorem set_none (h : Heap) (p : Nat) : Transfer h (h.set p none) (some p) none where
  kept q _ other := ⟨h.set_block_of_ne (fun same => other (congrArg some same.symm)) _, nofun⟩
  live q alive := by
    have ne : q ≠ p := by
      rintro rfl
      exact alive (h.set_block_self q none)
    rw [h.set_block_of_ne ne] at alive
    exact .inr ⟨alive, fun same => ne (Option.some.inj same).symm⟩

/-- A block is changed. -/
theorem set_same (h : Heap) (p : Nat) (b : Bytes) : Transfer h (h.set p (some b)) (some p) (some p) where
  kept q _ other := ⟨h.set_block_of_ne (fun same => other (congrArg some same.symm)) _, other⟩
  live q alive := by
    by_cases same : q = p
    · exact .inl (same ▸ rfl)
    · rw [h.set_block_of_ne same] at alive
      exact .inr ⟨alive, fun same' => same (Option.some.inj same').symm⟩

end Transfer

section
variable (A : Allocator) {h : Heap}

theorem malloc_spec (n : Nat) (h : Heap) :
    Transfer h (malloc A n h).2 none (some (malloc A n h).1) ∧
      (malloc A n h).2.block (malloc A n h).1 = some (List.replicate n none) :=
  ⟨.set_some (A.fresh h) _, h.set_block_self ..⟩

theorem free_spec {p : Nat} {b : Bytes} (alive : h.block p = some b) :
    ∃ h', free (some p) h = .ok h' ∧ Transfer h h' (some p) none :=
  ⟨_, by rw [free, alive], .set_none h p⟩

theorem realloc_spec {p : Nat} {b : Bytes} (n : Nat) (alive : h.block p = some b) :
    ∃ q h', realloc A (some p) n h = .ok (q, h') ∧ Transfer h h' (some p) (some q) ∧
      h'.block q = some (resize n b) := by
  have gone := Transfer.set_none h p
  refine ⟨if A.inPlace h p n then p else A.place h, _, by rw [realloc, alive], gone.trans (.set_some ?_ _),
    Heap.set_block_self ..⟩
  split
  · exact h.set_block_self p none
  · rw [h.set_block_of_ne]
    · exact A.fresh h
    · intro same
      cases (A.fresh h).symm.trans (same ▸ alive)

theorem load_ok {p n : Nat} {b : Bytes} (alive : h.block p = some b) (fits : n ≤ b.length) :
    load (some p) n h = .ok (b.take n) := by
  simp only [load, Option.bind_some, alive, if_pos fits]

theorem store_spec {p offset : Nat} {b bs : Bytes} (alive : h.block p = some b) (fits : offset + bs.length ≤ b.length) :
    ∃ h', store (some p) offset bs h = .ok h' ∧ Transfer h h' (some p) (some p) ∧
      h'.block p = some (overwrite b offset bs) :=
  ⟨_, by rw [store, alive]; exact if_pos fits, .set_same h p _, h.set_block_self ..⟩

end

/-! ## Ownership -/

/-- Owners hold live blocks, no block has two owners and every live block has one. -/
structure Owned {ι : Type} (h : Heap) (owner : ι → Pointer) : Prop where
  live : ∀ i p, owner i = some p → h.block p ≠ none
  separate : ∀ i j p, owner i = some p → owner j = some p → i = j
  covered : ∀ p, h.block p ≠ none → ∃ i, owner i = some p

namespace Owned

variable {ι : Type} {h h' : Heap} {owner : ι → Pointer} {i j : ι} {o : Pointer}

/-- What one owner does to the heap leaves the blocks of the others alone. -/
theorem kept (owned : Owned h owner) (t : Transfer h h' (owner i) o) (ne : j ≠ i) {p : Nat} (hp : owner j = some p) :
    h'.block p = h.block p ∧ o ≠ some p :=
  t.kept p (owned.live j p hp) fun same => ne (owned.separate j i p hp same)

variable [DecidableEq ι]

/-- One owner acts on the heap. -/
theorem update (owned : Owned h owner) (t : Transfer h h' (owner i) o) (alive : ∀ p, o = some p → h'.block p ≠ none) :
    Owned h' (update owner i o) where
  live j p hp := by
    by_cases same : j = i
    · subst same
      rw [update_self] at hp
      exact alive p hp
    · rw [update_of_ne same] at hp
      rw [(owned.kept t same hp).1]
      exact owned.live j p hp
  separate j k p hj hk := by
    by_cases first : j = i <;> by_cases second : k = i
    · rw [first, second]
    · rw [update_of_ne second] at hk
      rw [first, update_self] at hj
      exact absurd hj (owned.kept t second hk).2
    · rw [update_of_ne first] at hj
      rw [second, update_self] at hk
      exact absurd hk (owned.kept t first hj).2
    · rw [update_of_ne first] at hj
      rw [update_of_ne second] at hk
      exact owned.separate j k p hj hk
  covered p hp := by
    rcases t.live p hp with taken | ⟨live, other⟩
    · exact ⟨i, by rw [update_self, taken]⟩
    · obtain ⟨j, hj⟩ := owned.covered p live
      have ne : j ≠ i := by
        rintro rfl
        exact other hj
      exact ⟨j, by rw [update_of_ne ne, hj]⟩

/-- An owner hands its block over to one that has none. -/
theorem handOver (owned : Owned h owner) (ne : i ≠ j) (nothing : owner i = none) :
    Owned h (Function.update (Function.update owner i (owner j)) j none) := by
  -- `σ k` is the owner whose block `k` has afterwards.
  have after : ∀ k p, Function.update (Function.update owner i (owner j)) j none k = some p →
      (k = i ∧ owner j = some p) ∨ (k ≠ i ∧ k ≠ j ∧ owner k = some p) := by
    intro k p hk
    by_cases hj : k = j
    · subst hj
      rw [update_self] at hk
      cases hk
    · rw [update_of_ne hj] at hk
      by_cases hi : k = i
      · subst hi
        rw [update_self] at hk
        exact .inl ⟨rfl, hk⟩
      · rw [update_of_ne hi] at hk
        exact .inr ⟨hi, hj, hk⟩
  constructor
  · intro k p hk
    rcases after k p hk with ⟨-, hp⟩ | ⟨-, -, hp⟩
    · exact owned.live j p hp
    · exact owned.live k p hp
  · intro k l p hk hl
    rcases after k p hk with ⟨rfl, hp⟩ | ⟨ki, kj, hp⟩ <;> rcases after l p hl with ⟨rfl, hq⟩ | ⟨li, lj, hq⟩
    · rfl
    · exact absurd (owned.separate l j p hq hp) lj
    · exact absurd (owned.separate k j p hp hq) kj
    · exact owned.separate k l p hp hq
  · intro p hp
    obtain ⟨k, hk⟩ := owned.covered p hp
    by_cases hj : k = j
    · subst hj
      exact ⟨i, by rw [update_of_ne ne, update_self, hk]⟩
    · have hi : k ≠ i := by
        rintro rfl
        cases nothing.symm.trans hk
      exact ⟨k, by rw [update_of_ne hj, update_of_ne hi, hk]⟩

end Owned

theorem owned_empty {ι : Type} : Owned Heap.empty fun _ : ι => none where
  live _ _ h := by cases h
  separate _ _ _ h := by cases h
  covered _ h := absurd rfl h

end Blocks
