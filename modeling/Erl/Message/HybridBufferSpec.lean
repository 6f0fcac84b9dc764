import Erl.Message.HybridBuffer

/-!
# What each operation of a `HybridBuffer` does

`Holds` says that a buffer holds some bytes: they are the front of the inline array or
of the block it points to, and the cursor tells their number. Each operation has one
lemma: it does not fail, the buffer holds the right bytes afterwards, and the heap has
changed by a `Transfer` of the block it owns.
-/

namespace Erl.Message
open Blocks

namespace HybridBuffer

variable {inlineCapacity : Nat} {A : Allocator} {h : Heap}

/-- A buffer in inline mode with `n` bytes. -/
def inline (storage : Storage) (n : Nat) : HybridBuffer := ⟨storage, n⟩

/-- A buffer in heap mode with `n` bytes. -/
def onHeap (p : Nat) (capacity n : Nat) : HybridBuffer := ⟨.heap (some p) capacity, -n - 1⟩

inductive Holds (inlineCapacity : Nat) (h : Heap) : HybridBuffer → List UInt8 → Prop where
  | inline {storage : Storage} {bytes : List UInt8} (bound : bytes.length < 2147483648)
      (fits : bytes.length ≤ inlineCapacity) (full : (storage.asBuffer inlineCapacity).length = inlineCapacity)
      (stored : (storage.asBuffer inlineCapacity).take bytes.length = bytes.map some) :
      Holds inlineCapacity h (inline storage bytes.length) bytes
  | heap {p : Nat} {block : Bytes} {bytes : List UInt8} (bound : bytes.length < 2147483648)
      (word : block.length < 4294967296) (alive : h.block p = some block) (fits : bytes.length ≤ block.length)
      (stored : block.take bytes.length = bytes.map some) :
      Holds inlineCapacity h (onHeap p block.length bytes.length) bytes

variable {storage : Storage} {p capacity n : Nat}

@[simp] theorem storage_inline : (inline storage n).storage = storage := rfl

@[simp] theorem cursor_inline : (inline storage n).cursor = n := rfl

@[simp] theorem isHeap_inline : (inline storage n).isHeap = false :=
  decide_eq_false (Int.not_lt_of_ge (Int.natCast_nonneg n))

@[simp] theorem isHeap_onHeap : (onHeap p capacity n).isHeap = true := by
  apply decide_eq_true
  show -(n : Int) - 1 < 0
  omega

@[simp] theorem owned_inline : (inline storage n).owned = none := by
  simp [owned]

@[simp] theorem owned_onHeap : (onHeap p capacity n).owned = some p := by
  simp only [owned, isHeap_onHeap, if_true]
  rfl

@[simp] theorem asHeap_onHeap : (onHeap p capacity n).storage.asHeap = .ok (some p, capacity) := rfl

/-- A buffer in inline mode has nothing to do with the heap. -/
theorem transfer_inline : Transfer h h none (inline storage n).owned := by
  rw [owned_inline]
  exact .refl h none

theorem transfer_onHeap {h' : Heap} {o : Pointer} (t : Transfer h h' o (some p)) :
    Transfer h h' o (onHeap p capacity n).owned := by
  rwa [owned_onHeap]

theorem size_inline (bound : n < 2147483648) : (inline storage n).size = n := by
  rw [size, isHeap_inline]
  show toSizeT n = n
  rw [toSizeT]
  omega

/-- The largest size has the smallest cursor, whose negation wraps to itself. -/
theorem flip_onHeap (bound : n < 2147483648) : flip (-n - 1) = n := by
  simp only [flip, toInt32]
  omega

theorem flip_inline (bound : n < 2147483648) : flip n = -n - 1 := by
  simp only [flip, toInt32]
  omega

theorem size_onHeap (bound : n < 2147483648) : (onHeap p capacity n).size = n := by
  simp only [size, isHeap_onHeap, if_true]
  show toSizeT (flip (-n - 1)) = n
  rw [flip_onHeap bound, toSizeT]
  omega

/-- The bytes a buffer has room for. -/
def room (inlineCapacity : Nat) (b : HybridBuffer) : Nat :=
  if b.isHeap then
    match b.storage with
    | .heap _ capacity => capacity
    | .buffer _ => 0
  else inlineCapacity

@[simp] theorem room_inline : (inline storage n).room inlineCapacity = inlineCapacity := by
  simp [room]

@[simp] theorem room_onHeap : (onHeap p capacity n).room inlineCapacity = capacity := by
  simp only [room, isHeap_onHeap, if_true]
  rfl

theorem Holds.length_le_room {b : HybridBuffer} {bytes : List UInt8} (holds : Holds inlineCapacity h b bytes) :
    bytes.length ≤ b.room inlineCapacity := by
  cases holds with
  | inline bound fits => rwa [room_inline]
  | heap bound word alive fits => rwa [room_onHeap]

theorem asBuffer_zeroed : ((zeroed inlineCapacity).asBuffer inlineCapacity).length = inlineCapacity :=
  List.length_replicate

/-- What a buffer holds depends on its own block only. -/
theorem Holds.frame {b : HybridBuffer} {bytes : List UInt8} {h' : Heap} (holds : Holds inlineCapacity h b bytes)
    (same : ∀ p, b.owned = some p → h'.block p = h.block p) : Holds inlineCapacity h' b bytes := by
  cases holds with
  | inline bound fits full stored => exact .inline bound fits full stored
  | heap bound word alive fits stored =>
    exact .heap bound word ((same _ owned_onHeap).trans alive) fits stored

/-- The block a buffer owns is alive. -/
theorem Holds.alive {b : HybridBuffer} {bytes : List UInt8} (holds : Holds inlineCapacity h b bytes) {p : Nat}
    (own : b.owned = some p) : h.block p ≠ none := by
  cases holds with
  | inline => simp at own
  | heap bound word alive =>
    cases owned_onHeap.symm.trans own
    rw [alive]
    nofun

theorem loadInline_ok (fits : n ≤ inlineCapacity) :
    loadInline inlineCapacity storage n = .ok ((storage.asBuffer inlineCapacity).take n) := if_pos fits

/-- Bytes copied to the front of the inline array. -/
theorem storeInline_spec {offset : Nat} {bytes : Bytes} (fits : offset + bytes.length ≤ inlineCapacity)
    (full : (storage.asBuffer inlineCapacity).length = inlineCapacity) :
    ∃ storage', storeInline inlineCapacity storage offset bytes = .ok storage' ∧
      (storage'.asBuffer inlineCapacity).length = inlineCapacity ∧
      (storage'.asBuffer inlineCapacity).take (offset + bytes.length) =
        (storage.asBuffer inlineCapacity).take offset ++ bytes := by
  have room : offset + bytes.length ≤ (storage.asBuffer inlineCapacity).length := by rwa [full]
  exact ⟨_, if_pos fits, (length_overwrite room).trans full, take_overwrite room⟩

/-! ## The operations -/

theorem holds_nil (full : (storage.asBuffer inlineCapacity).length = inlineCapacity) :
    Holds inlineCapacity h (inline storage 0) [] := by
  show Holds inlineCapacity h (inline storage ([] : List UInt8).length) []
  exact .inline (by decide) (Nat.zero_le _) full rfl

theorem construct_spec (h : Heap) : Holds inlineCapacity h (construct inlineCapacity) [] := holds_nil asBuffer_zeroed

theorem finalize_spec {b : HybridBuffer} {bytes : List UInt8} (holds : Holds inlineCapacity h b bytes) :
    finalize inlineCapacity b h = .ok (bytes.map some) ∧ b.size = bytes.length ∧
      (b.isHeap = true → ∃ p block capacity, b.storage = .heap (some p) capacity ∧ h.block p = some block ∧
        block.length = capacity ∧ b.size ≤ capacity) := by
  cases holds with
  | inline bound fits full stored =>
    refine ⟨?_, size_inline bound, by simp⟩
    simp only [finalize, isHeap_inline, Bool.false_eq_true, if_false, size_inline bound]
    exact (loadInline_ok fits).trans (congrArg _ stored)
  | heap bound word alive fits stored =>
    refine ⟨?_, size_onHeap bound, fun _ => ⟨_, _, _, rfl, alive, rfl, (size_onHeap bound).symm ▸ fits⟩⟩
    simp only [finalize, isHeap_onHeap, if_true, asHeap_onHeap, Bind.bind, Except.bind, size_onHeap bound]
    rw [load_ok alive fits, stored]

/-- A block that holds some bytes holds them and more after a copy behind them. -/
theorem holds_overwrite {block : Bytes} {bytes data : List UInt8} (bound : bytes.length + data.length < 2147483648)
    (word : block.length < 4294967296) (fits : bytes.length + data.length ≤ block.length)
    (stored : block.take bytes.length = bytes.map some)
    (alive : h.block p = some (overwrite block bytes.length (data.map some))) :
    Holds inlineCapacity h (onHeap p block.length (bytes.length + data.length)) (bytes ++ data) := by
  have room : bytes.length + (data.map some).length ≤ block.length := by rwa [List.length_map]
  have size := length_overwrite room
  rw [← size, ← List.length_append]
  refine .heap (by rwa [List.length_append]) (by rwa [size]) alive (by rwa [size, List.length_append]) ?_
  have front := take_overwrite room
  rwa [List.length_map, stored, ← List.map_append, ← List.length_append] at front

theorem destroy_spec {b : HybridBuffer} {bytes : List UInt8} (holds : Holds inlineCapacity h b bytes) :
    ∃ h', destroy b h = .ok h' ∧ Transfer h h' b.owned none := by
  cases holds with
  | inline bound fits full stored =>
    refine ⟨h, by simp [destroy, Pure.pure, Except.pure], ?_⟩
    rw [owned_inline]
    exact .refl h none
  | heap bound word alive =>
    obtain ⟨h', freed, t⟩ := free_spec alive
    refine ⟨h', ?_, by rwa [owned_onHeap]⟩
    simp only [destroy, isHeap_onHeap, if_true, asHeap_onHeap, Bind.bind, Except.bind, freed]

theorem appendHeap_spec {block : Bytes} {bytes data : List UInt8} (bound : bytes.length + data.length < 2147483648)
    (word : block.length < 4294967296) (alive : h.block p = some block)
    (fits : bytes.length + data.length ≤ block.length) (stored : block.take bytes.length = bytes.map some) :
    ∃ h', appendHeap (onHeap p block.length bytes.length) (data.map some) h =
        .ok (h', onHeap p block.length (bytes.length + data.length)) ∧
      Holds inlineCapacity h' (onHeap p block.length (bytes.length + data.length)) (bytes ++ data) ∧
      Transfer h h' (some p) (some p) := by
  have room : bytes.length + (data.map some).length ≤ block.length := by rwa [List.length_map]
  obtain ⟨h', done, t, alive'⟩ := store_spec alive room
  refine ⟨h', ?_, holds_overwrite bound word fits stored alive', t⟩
  have cursor : toInt32 (-(bytes.length : Int) - 1 - data.length) = -((bytes.length + data.length : Nat) : Int) - 1 := by
    rw [toInt32]
    omega
  simp only [appendHeap, asHeap_onHeap, Bind.bind, Except.bind, size_onHeap (Nat.lt_of_le_of_lt (Nat.le_add_right ..) bound),
    done, Pure.pure, Except.pure, List.length_map]
  simp only [onHeap, cursor]

theorem resizeHeap_spec {block : Bytes} {bytes : List UInt8} {new_capacity : Nat} (alive : h.block p = some block)
    (fits : bytes.length ≤ block.length) (stored : block.take bytes.length = bytes.map some)
    (large : bytes.length ≤ new_capacity) :
    ∃ q h' block', resizeHeap A (onHeap p block.length bytes.length) new_capacity h =
        .ok (h', onHeap q block'.length bytes.length) ∧
      Transfer h h' (some p) (some q) ∧ h'.block q = some block' ∧ block'.length = new_capacity ∧
      block'.take bytes.length = bytes.map some := by
  obtain ⟨q, h', done, t, alive'⟩ := realloc_spec A new_capacity alive
  refine ⟨q, h', resize new_capacity block, ?_, t, alive', length_resize .., (take_resize fits large).trans stored⟩
  simp only [resizeHeap, asHeap_onHeap, Bind.bind, Except.bind, done, Pure.pure, Except.pure, length_resize]
  rfl

theorem allocateHeap_spec {bytes : List UInt8} {initial_capacity : Nat} (bound : bytes.length < 2147483648)
    (fits : bytes.length ≤ inlineCapacity)
    (stored : (storage.asBuffer inlineCapacity).take bytes.length = bytes.map some)
    (large : bytes.length ≤ initial_capacity) :
    ∃ q h' block', allocateHeap inlineCapacity A (inline storage bytes.length) initial_capacity h =
        .ok (h', onHeap q block'.length bytes.length) ∧
      Transfer h h' none (some q) ∧ h'.block q = some block' ∧ block'.length = initial_capacity ∧
      block'.take bytes.length = bytes.map some := by
  obtain ⟨t, alive⟩ := malloc_spec A initial_capacity h
  have room : 0 + (bytes.map some).length ≤ (List.replicate initial_capacity (none : Option UInt8)).length := by
    rwa [Nat.zero_add, List.length_map, List.length_replicate]
  obtain ⟨h', done, t', alive'⟩ := store_spec alive room
  have size := (length_overwrite room).trans List.length_replicate
  have front := take_overwrite room
  rw [Nat.zero_add, List.length_map, List.take_zero, List.nil_append] at front
  refine ⟨(malloc A initial_capacity h).1, h', _, ?_, t.trans t', alive', size, front⟩
  simp only [allocateHeap, Bind.bind, Except.bind, size_inline bound, storage_inline, cursor_inline, loadInline_ok fits,
    stored, done, Pure.pure, Except.pure, size, ge_iff_le, Int.natCast_nonneg, if_true, flip_inline bound]
  rfl

/-- The inline bytes of a buffer, copied to the front of a new one. -/
theorem copyInline_spec {bytes : List UInt8} (bound : bytes.length < 2147483648) (fits : bytes.length ≤ inlineCapacity) :
    ∃ storage', storeInline inlineCapacity (zeroed inlineCapacity) 0 (bytes.map some) = .ok storage' ∧
      Holds inlineCapacity h (inline storage' bytes.length) bytes := by
  have room : 0 + (bytes.map some).length ≤ inlineCapacity := by rwa [Nat.zero_add, List.length_map]
  obtain ⟨storage', done, full, front⟩ := storeInline_spec room asBuffer_zeroed
  rw [Nat.zero_add, List.length_map, List.take_zero, List.nil_append] at front
  exact ⟨storage', done, .inline bound fits full front⟩

theorem copyConstruct_spec {other : HybridBuffer} {bytes : List UInt8} (holds : Holds inlineCapacity h other bytes) :
    ∃ h' b, copyConstruct inlineCapacity A other h = .ok (h', b) ∧ Holds inlineCapacity h' b bytes ∧
      Transfer h h' none b.owned := by
  cases holds with
  | @inline storage _ bound fits full stored =>
    obtain ⟨storage', done, holds⟩ := copyInline_spec bound fits
    refine ⟨h, inline storage' bytes.length, ?_, holds, transfer_inline⟩
    simp only [copyConstruct, isHeap_inline, Bool.false_eq_true, if_false, Bind.bind, Except.bind, size_inline bound,
      storage_inline, loadInline_ok fits, stored, done, Pure.pure, Except.pure]
    rfl
  | @heap p block _ bound word alive fits stored =>
    obtain ⟨t, fresh⟩ := malloc_spec A block.length h
    have kept : (malloc A block.length h).2.block p = some block :=
      (t.kept p (by rw [alive]; nofun) nofun).1.trans alive
    have room : 0 + (bytes.map some).length ≤ (List.replicate block.length (none : Option UInt8)).length := by
      rwa [Nat.zero_add, List.length_map, List.length_replicate]
    obtain ⟨h', done, t', alive'⟩ := store_spec fresh room
    have size := (length_overwrite room).trans List.length_replicate
    have front := take_overwrite room
    rw [Nat.zero_add, List.length_map, List.take_zero, List.nil_append] at front
    refine ⟨h', onHeap (malloc A block.length h).1 block.length bytes.length, ?_, ?_, transfer_onHeap (t.trans t')⟩
    · simp only [copyConstruct, isHeap_onHeap, if_true, asHeap_onHeap, Bind.bind, Except.bind, size_onHeap bound,
        load_ok kept fits, stored, done, Pure.pure, Except.pure]
      rfl
    · rw [← size] at word fits ⊢
      exact .heap bound word alive' fits front

/-- The new buffer takes over what the other one held, and the block with it. -/
theorem moveConstruct_spec {other : HybridBuffer} {bytes : List UInt8} (holds : Holds inlineCapacity h other bytes) :
    ∃ b other', moveConstruct inlineCapacity other = .ok (b, other') ∧ Holds inlineCapacity h b bytes ∧
      Holds inlineCapacity h other' [] ∧ b.owned = other.owned ∧ other'.owned = none := by
  cases holds with
  | @inline storage _ bound fits full stored =>
    obtain ⟨storage', done, holds⟩ := copyInline_spec bound fits
    refine ⟨inline storage' bytes.length, inline storage 0, ?_, holds,
      holds_nil full, by rw [owned_inline, owned_inline], owned_inline⟩
    simp only [moveConstruct, isHeap_inline, Bool.false_eq_true, if_false, Bind.bind, Except.bind, size_inline bound,
      storage_inline, loadInline_ok fits, stored, done, Pure.pure, Except.pure]
    rfl
  | @heap p block _ bound word alive fits stored =>
    refine ⟨onHeap p block.length bytes.length, inline (.heap none 0) 0, ?_, .heap bound word alive fits stored,
      holds_nil List.length_replicate, rfl, owned_inline⟩
    simp only [moveConstruct, isHeap_onHeap, if_true, asHeap_onHeap, Bind.bind, Except.bind, Pure.pure, Except.pure]
    rfl

/-- A size below `2 ^ 32` is none other in any of the types it is computed in. -/
theorem words_of_lt {m n : Nat} (limit : m + n < 4294967296) :
    toUint32 n = n ∧ toSizeT (m + n : Nat) = m + n ∧ toUint32 (m + n : Nat) = m + n := by
  refine ⟨?_, ?_, ?_⟩
  · rw [toUint32]
    omega
  · rw [toSizeT]
    omega
  · rw [toUint32]
    omega

/-- A reservation keeps the bytes, and gets the room it asks for. -/
theorem reserve_spec {b : HybridBuffer} {bytes : List UInt8} {n : Nat} (holds : Holds inlineCapacity h b bytes)
    (limit : bytes.length + n < 4294967296) :
    ∃ h' b', reserve inlineCapacity A b n h = .ok (h', b') ∧ Holds inlineCapacity h' b' bytes ∧
      Transfer h h' b.owned b'.owned ∧ (b.isHeap = true → b'.isHeap = true) ∧
      b'.room inlineCapacity = if b.isHeap = true ∨ inlineCapacity < bytes.length + n then bytes.length + n
        else inlineCapacity := by
  obtain ⟨num, sum, word⟩ := words_of_lt limit
  cases holds with
  | @inline storage _ bound fits full stored =>
    simp only [reserve, isHeap_inline, Bool.false_eq_true, if_false, size_inline bound, num, sum, word, owned_inline,
      false_or, IsEmpty.forall_iff, true_and]
    by_cases small : inlineCapacity < bytes.length + n
    · obtain ⟨q, h', block', done, t, alive', size, front⟩ :=
        allocateHeap_spec (A := A) (h := h) bound fits stored (Nat.le_add_right bytes.length n)
      rw [if_pos small, if_pos small]
      refine ⟨h', _, done, .heap bound (by omega) alive' (by omega) front, transfer_onHeap t, ?_⟩
      rw [room_onHeap, size]
    · rw [if_neg small, if_neg small]
      exact ⟨h, _, rfl, .inline bound fits full stored, transfer_inline, room_inline⟩
  | @heap p block _ bound small alive fits stored =>
    simp only [reserve, isHeap_onHeap, if_true, size_onHeap bound, num, sum, word, owned_onHeap, true_or, forall_const]
    obtain ⟨q, h', block', done, t, alive', size, front⟩ :=
      resizeHeap_spec (A := A) alive fits stored (Nat.le_add_right bytes.length n)
    refine ⟨h', _, done, .heap bound (by omega) alive' (by omega) front, transfer_onHeap t, isHeap_onHeap, ?_⟩
    rw [room_onHeap, size]

/-- Writing to a buffer that stays in inline mode. -/
theorem write_inline_spec {bytes data : List UInt8} (limit : bytes.length + data.length < 2147483648)
    (room : bytes.length + data.length ≤ inlineCapacity)
    (full : (storage.asBuffer inlineCapacity).length = inlineCapacity)
    (stored : (storage.asBuffer inlineCapacity).take bytes.length = bytes.map some) :
    ∃ storage', storeInline inlineCapacity storage bytes.length (data.map some) = .ok storage' ∧
      Holds inlineCapacity h (inline storage' (bytes.length + data.length)) (bytes ++ data) := by
  have fits : bytes.length + (data.map some).length ≤ inlineCapacity := by rwa [List.length_map]
  obtain ⟨storage', done, full', front⟩ := storeInline_spec fits full
  refine ⟨storage', done, ?_⟩
  rw [List.length_map, stored, ← List.map_append, ← List.length_append] at front
  rw [← List.length_append]
  exact .inline (by rwa [List.length_append]) (by rwa [List.length_append]) full' front

theorem write_spec {b : HybridBuffer} {bytes : List UInt8} (data : List UInt8) (holds : Holds inlineCapacity h b bytes)
    (limit : bytes.length + data.length < 2147483648) :
    ∃ h' b', write inlineCapacity A b data h = .ok (h', b') ∧ Holds inlineCapacity h' b' (bytes ++ data) ∧
      Transfer h h' b.owned b'.owned ∧ (b.isHeap = true → b'.isHeap = true) ∧
      b.room inlineCapacity ≤ b'.room inlineCapacity := by
  obtain ⟨length, sum, word⟩ := words_of_lt (Nat.lt_trans limit (by decide))
  cases holds with
  | @inline storage _ bound fits full stored =>
    simp only [write, isHeap_inline, Bool.false_eq_true, if_false, size_inline bound, length, sum, List.take_length,
      owned_inline, storage_inline, cursor_inline, Int.toNat_natCast, ← Int.natCast_add, word]
    split
    · rename_i room
      obtain ⟨storage', done, holds⟩ := write_inline_spec (h := h) limit room full stored
      have cursor : toInt32 (bytes.length + data.length : Nat) = (bytes.length + data.length : Nat) := by
        rw [toInt32]
        omega
      refine ⟨h, inline storage' (bytes.length + data.length), ?_, holds, transfer_inline, False.elim, ?_⟩
      · simp only [Bind.bind, Except.bind, done, cursor, Pure.pure, Except.pure]
        rfl
      · rw [room_inline, room_inline]
    · have large : bytes.length ≤ max (bytes.length + data.length) (toUint32 (toUint32 inlineCapacity * 2 : Nat)) :=
        Nat.le_trans (Nat.le_add_right ..) (Nat.le_max_left ..)
      obtain ⟨q, h', block', done, t, alive', size, front⟩ := allocateHeap_spec (A := A) (h := h) bound fits stored large
      have capacity : block'.length < 4294967296 := by
        have : toUint32 (toUint32 inlineCapacity * 2 : Nat) < 4294967296 := by
          rw [toUint32]
          omega
        omega
      obtain ⟨h'', appended, holds, t'⟩ := appendHeap_spec limit capacity alive' (by omega) front
      refine ⟨h'', _, ?_, holds, transfer_onHeap (t.trans t'), False.elim, ?_⟩
      · simp only [Bind.bind, Except.bind, done, appended]
      · rw [room_inline, room_onHeap]
        omega
  | @heap p block _ bound small alive fits stored =>
    simp only [write, isHeap_onHeap, if_true, size_onHeap bound, length, sum, List.take_length, asHeap_onHeap,
      owned_onHeap, word, Bind.bind, Except.bind]
    split
    · obtain ⟨q, h', block', done, t, alive', size, front⟩ :=
        resizeHeap_spec (A := A) alive fits stored (Nat.le_add_right bytes.length data.length)
      obtain ⟨h'', appended, holds, t'⟩ := appendHeap_spec limit (by omega) alive' (by omega) front
      refine ⟨h'', _, ?_, holds, transfer_onHeap (t.trans t'), fun _ => isHeap_onHeap, ?_⟩
      · simp only [done, appended]
      · rw [room_onHeap, room_onHeap]
        omega
    · obtain ⟨h', appended, holds, t⟩ := appendHeap_spec limit small alive (by omega) stored
      refine ⟨h', _, appended, holds, transfer_onHeap t, fun _ => isHeap_onHeap, ?_⟩
      rw [room_onHeap, room_onHeap]

end HybridBuffer

end Erl.Message
