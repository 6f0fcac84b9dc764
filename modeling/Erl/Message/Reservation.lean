import Erl.Message.Buffers

/-!
# Reservations of a `HybridBuffer`

Sequences of `write` and `reserve` on one buffer, as a serializer makes them: that of a range
reserves room for its elements, and those of the elements reserve and write in turn. In heap mode
every `reserve` sets the capacity, also to less than the block has.
-/

namespace Erl.Message.Reservation
open Blocks TransitionSystem HybridBuffer

inductive Call where
  | write (data : List UInt8)
  | reserve (num_bytes : Nat)

/-- The bytes that the call wants room for. -/
def Call.length : Call → Nat
  | .write data => data.length
  | .reserve num_bytes => num_bytes

/-- A buffer on its heap. `reserved` is a ghost: the largest size a `reserve` has asked room for. -/
structure Session where
  heap : Heap
  buffer : HybridBuffer
  reserved : Nat

section
variable (inlineCapacity : Nat) (A : Allocator)

def Call.run (b : HybridBuffer) (h : Heap) : Call → Except Fault (Heap × HybridBuffer)
  | .write data => b.write inlineCapacity A data h
  | .reserve num_bytes => b.reserve inlineCapacity A num_bytes h

/-- What `reserve` promises. -/
def Session.promise (s : Session) : Call → Nat
  | .write _ => s.reserved
  | .reserve num_bytes => max s.reserved (s.buffer.size + num_bytes)

/-- One call that takes the size to `2 ^ 31 - 1` at most. -/
def exec : Except Fault Session → Call → Option (Except Fault Session)
  | .ok s, call =>
    if s.buffer.size + call.length ≤ 2147483647 then
      some ((call.run inlineCapacity A s.buffer s.heap).map fun (h, b) => ⟨h, b, s.promise call⟩)
    else none
  | .error _, _ => none

/-- The capacity that the call asks `allocate_heap` or `resize_heap` for, if it calls one. -/
def asks (b : HybridBuffer) : Call → Option Nat
  | .write data =>
    let new_size := toSizeT (b.size + toUint32 data.length : Nat)
    if b.isHeap then
      if new_size > b.room inlineCapacity then some (toUint32 new_size) else none
    else if new_size ≤ inlineCapacity then none
    else some (max (toUint32 (b.cursor + toUint32 data.length)) (toUint32 (toUint32 inlineCapacity * 2 : Nat)))
  | .reserve num_bytes =>
    let new_size := toSizeT (b.size + toUint32 num_bytes : Nat)
    if b.isHeap then some (toUint32 new_size)
    else if new_size > inlineCapacity then some (toUint32 new_size)
    else none

/-- The reallocation that was asked for. -/
def grow (b : HybridBuffer) (h : Heap) : Option Nat → Except Fault (Heap × HybridBuffer)
  | none => pure (h, b)
  | some n => if b.isHeap then resizeHeap A b n h else allocateHeap inlineCapacity A b n h

/-- What is left of the call when there is room: the copy of the data. -/
def Call.finish (b : HybridBuffer) (h : Heap) : Call → Except Fault (Heap × HybridBuffer)
  | .write data =>
    let input : Bytes := (data.take (toUint32 data.length)).map some
    if b.isHeap then appendHeap b input h
    else do
      let storage ← storeInline inlineCapacity b.storage b.cursor.toNat input
      pure (h, ⟨storage, toInt32 (b.cursor + toUint32 data.length)⟩)
  | .reserve _ => pure (h, b)

/-- The capacity does not decrease, a call within the reservation does not reallocate, and no call
asks for zero bytes. -/
def Keeps (r : Except Fault Session) (call : Call) (r' : Except Fault Session) : Prop :=
  ∃ s s', r = .ok s ∧ r' = .ok s' ∧ s.buffer.room inlineCapacity ≤ s'.buffer.room inlineCapacity ∧
    (s.buffer.size + call.length ≤ s.reserved → asks inlineCapacity s.buffer call = none) ∧
    asks inlineCapacity s.buffer call ≠ some 0

/-- No reservation is taken back by the calls. -/
def NeverTakenBack (r : Except Fault Session) (calls : List Call) : Prop :=
  ∀ s call s', Takes r (exec inlineCapacity A) calls s call s' → Keeps inlineCapacity s call s'

/-- A `reserve` in heap mode asks for more than was reserved and not for less than there is. -/
def Enlarges (r : Except Fault Session) (call : Call) : Prop :=
  ∀ s num_bytes, r = .ok s → call = .reserve num_bytes → s.buffer.isHeap = true →
    s.buffer.room inlineCapacity ≤ s.buffer.size + num_bytes ∧ s.reserved < s.buffer.size + num_bytes

end

section
variable {inlineCapacity : Nat} {A : Allocator} {h : Heap} {b : HybridBuffer} {bytes : List UInt8}

theorem isHeap_allocateHeap {n : Nat} {h' : Heap} {b' : HybridBuffer} (inline_mode : b.isHeap = false)
    (bound : b.cursor < 2147483648) (done : allocateHeap inlineCapacity A b n h = .ok (h', b')) : b'.isHeap = true := by
  obtain ⟨_, -, done⟩ := bind_eq_ok done
  obtain ⟨_, -, done⟩ := bind_eq_ok done
  cases done
  have nonneg : b.cursor ≥ 0 := Int.not_lt.mp (of_decide_eq_false inline_mode)
  simp only [HybridBuffer.isHeap, nonneg, if_true, HybridBuffer.flip, toInt32, decide_eq_true_eq]
  omega

theorem isHeap_resizeHeap {n : Nat} {h' : Heap} {b' : HybridBuffer} (done : resizeHeap A b n h = .ok (h', b')) :
    b'.isHeap = b.isHeap := by
  obtain ⟨_, -, done⟩ := bind_eq_ok done
  obtain ⟨_, -, done⟩ := bind_eq_ok done
  cases done
  rfl

theorem bind_congr_ok {ε α β : Type} {x : Except ε α} {f g : α → Except ε β} (same : ∀ a, x = .ok a → f a = g a) :
    x >>= f = x >>= g := by
  cases x with
  | error e => rfl
  | ok a => exact same a rfl

theorem grow_none : grow inlineCapacity A b h none = pure (h, b) := rfl

theorem grow_inline {n : Nat} (inline_mode : b.isHeap = false) :
    grow inlineCapacity A b h (some n) = allocateHeap inlineCapacity A b n h := by
  rw [grow, inline_mode]
  rfl

theorem grow_onHeap {n : Nat} (heap_mode : b.isHeap = true) :
    grow inlineCapacity A b h (some n) = resizeHeap A b n h := by
  rw [grow, heap_mode]
  rfl

/-- A call allocates what it asks for, and then copies its data. -/
theorem run_eq (holds : Holds inlineCapacity h b bytes) (call : Call) :
    call.run inlineCapacity A b h =
      grow inlineCapacity A b h (asks inlineCapacity b call) >>= fun r => call.finish inlineCapacity r.2 r.1 := by
  cases holds with
  | @inline storage _ bound fits full stored =>
    cases call with
    | write data =>
      simp only [Call.run, HybridBuffer.write, isHeap_inline, asks, Bool.false_eq_true, if_false]
      split
      · rw [grow_none, pure_bind]
        simp only [Call.finish, isHeap_inline, Bool.false_eq_true, if_false]
      · rw [grow_inline isHeap_inline]
        apply bind_congr_ok
        rintro ⟨h', b'⟩ done
        have heap := isHeap_allocateHeap isHeap_inline (by rw [cursor_inline]; omega) done
        simp only [Call.finish, heap, if_true]
    | reserve n =>
      simp only [Call.run, HybridBuffer.reserve, isHeap_inline, asks, Bool.false_eq_true, if_false]
      split
      · rw [grow_inline isHeap_inline]
        exact (bind_pure _).symm
      · rfl
  | @heap p block _ bound word alive fits stored =>
    cases call with
    | write data =>
      simp only [Call.run, HybridBuffer.write, isHeap_onHeap, asks, if_true, asHeap_onHeap, room_onHeap]
      show (ite _ _ _ : Except Fault (Heap × HybridBuffer)) = _
      split
      · rw [grow_onHeap isHeap_onHeap]
        apply bind_congr_ok
        rintro ⟨h', b'⟩ done
        have heap := (isHeap_resizeHeap done).trans isHeap_onHeap
        simp only [Call.finish, heap, if_true]
      · rw [grow_none, pure_bind, pure_bind]
        simp only [Call.finish, isHeap_onHeap, if_true]
    | reserve n =>
      simp only [Call.run, HybridBuffer.reserve, isHeap_onHeap, asks, if_true]
      rw [grow_onHeap isHeap_onHeap]
      exact (bind_pure _).symm

/-- A `write` allocates only if there is no room. -/
theorem asks_write {data : List UInt8} (holds : Holds inlineCapacity h b bytes)
    (limit : bytes.length + data.length < 2147483648) :
    (bytes.length + data.length ≤ b.room inlineCapacity → asks inlineCapacity b (.write data) = none) ∧
      asks inlineCapacity b (.write data) ≠ some 0 := by
  obtain ⟨length, sum, word⟩ := words_of_lt (Nat.lt_trans limit (by decide))
  cases holds with
  | @inline storage _ bound fits full stored =>
    simp only [asks, isHeap_inline, Bool.false_eq_true, if_false, size_inline bound, length, sum, room_inline,
      cursor_inline, ← Int.natCast_add, word]
    refine ⟨fun room => if_pos room, ?_⟩
    split
    · exact Option.some_ne_none 0 |>.symm
    · intro zero
      have := Option.some.inj zero
      omega
  | @heap p block _ bound small alive fits stored =>
    simp only [asks, isHeap_onHeap, if_true, size_onHeap bound, length, sum, word, room_onHeap]
    refine ⟨fun room => if_neg (by omega), ?_⟩
    split
    · intro zero
      have := Option.some.inj zero
      omega
    · exact Option.some_ne_none 0 |>.symm

/-- A `reserve` in heap mode always reallocates. -/
theorem asks_reserve {n : Nat} (holds : Holds inlineCapacity h b bytes) (limit : bytes.length + n < 2147483648) :
    asks inlineCapacity b (.reserve n) =
      if b.isHeap = true ∨ inlineCapacity < bytes.length + n then some (bytes.length + n) else none := by
  obtain ⟨num, sum, word⟩ := words_of_lt (Nat.lt_trans limit (by decide))
  cases holds with
  | @inline storage _ bound fits full stored =>
    simp only [asks, isHeap_inline, Bool.false_eq_true, if_false, size_inline bound, num, sum, word, false_or, gt_iff_lt]
  | @heap p block _ bound small alive fits stored =>
    simp only [asks, isHeap_onHeap, if_true, size_onHeap bound, num, sum, word, true_or]

/-! ## One call -/

/-- The buffer holds some bytes and has the room reserved. -/
def Sound (inlineCapacity : Nat) (r : Except Fault Session) : Prop :=
  ∃ s, r = .ok s ∧ (∃ bytes, s.buffer.Holds inlineCapacity s.heap bytes) ∧ s.reserved ≤ s.buffer.room inlineCapacity

variable {s : Session} {r r' : Except Fault Session} {call : Call}

theorem exec_cases (step : exec inlineCapacity A (.ok s) call = some r') :
    s.buffer.size + call.length < 2147483648 ∧
      r' = (call.run inlineCapacity A s.buffer s.heap).map fun (h, b) => ⟨h, b, s.promise call⟩ := by
  by_cases limit : s.buffer.size + call.length ≤ 2147483647
  · simp only [exec, if_pos limit, Option.some.injEq] at step
    exact ⟨Nat.lt_succ_of_le limit, step.symm⟩
  · simp only [exec, if_neg limit] at step
    cases step

theorem write_step {data : List UInt8} (holds : s.buffer.Holds inlineCapacity s.heap bytes)
    (room : s.reserved ≤ s.buffer.room inlineCapacity)
    (step : exec inlineCapacity A (.ok s) (.write data) = some r') :
    Keeps inlineCapacity (.ok s) (.write data) r' ∧ Sound inlineCapacity r' := by
  obtain ⟨limit, rfl⟩ := exec_cases step
  have size := (finalize_spec holds).2.1
  rw [size] at limit
  obtain ⟨h', b', done, holds', -, -, grown⟩ := write_spec (A := A) data holds limit
  obtain ⟨fits, nonzero⟩ := asks_write holds limit
  rw [Call.run, done]
  refine ⟨⟨s, _, rfl, rfl, grown, ?_, nonzero⟩, _, rfl, ⟨_, holds'⟩, Nat.le_trans room grown⟩
  rw [size]
  exact fun within => fits (Nat.le_trans within room)

/-- In heap mode a `reserve` sets the capacity, also to less than it was. -/
theorem exec_reserve {n : Nat} (holds : s.buffer.Holds inlineCapacity s.heap bytes)
    (step : exec inlineCapacity A (.ok s) (.reserve n) = some r') :
    bytes.length + n < 2147483648 ∧ ∃ h' b', r' = .ok ⟨h', b', max s.reserved (bytes.length + n)⟩ ∧
      b'.Holds inlineCapacity h' bytes ∧
      b'.room inlineCapacity = if s.buffer.isHeap = true ∨ inlineCapacity < bytes.length + n then bytes.length + n
        else inlineCapacity := by
  obtain ⟨limit, rfl⟩ := exec_cases step
  have size := (finalize_spec holds).2.1
  have limit : bytes.length + n < 2147483648 := by rwa [size] at limit
  obtain ⟨h', b', done, holds', -, -, grown⟩ := reserve_spec (A := A) holds (Nat.lt_trans limit (by decide))
  refine ⟨limit, h', b', ?_, holds', grown⟩
  rw [Call.run, done, ← size]
  rfl

/-- On the heap, the new capacity takes nothing back exactly if it exceeds what there was. -/
theorem reserve_heap_step {n : Nat} (holds : s.buffer.Holds inlineCapacity s.heap bytes)
    (mode : s.buffer.isHeap = true) (step : exec inlineCapacity A (.ok s) (.reserve n) = some r') :
    (Enlarges inlineCapacity (.ok s) (.reserve n) → Keeps inlineCapacity (.ok s) (.reserve n) r' ∧ Sound inlineCapacity r') ∧
      (Keeps inlineCapacity (.ok s) (.reserve n) r' → Enlarges inlineCapacity (.ok s) (.reserve n)) := by
  obtain ⟨limit, h', b', rfl, holds', grown⟩ := exec_reserve holds step
  have size := (finalize_spec holds).2.1
  have asked := asks_reserve holds limit
  rw [if_pos (.inl mode)] at grown asked
  constructor
  · intro enlarges
    obtain ⟨larger, more⟩ := enlarges s n rfl rfl mode
    rw [size] at larger more
    refine ⟨⟨s, _, rfl, rfl, by rw [grown]; exact larger, ?_, ?_⟩, _, rfl, ⟨bytes, holds'⟩, ?_⟩
    · intro within
      rw [size] at within
      exact absurd more (Nat.not_lt.mpr within)
    · rw [asked]
      intro zero
      have := Option.some.inj zero
      omega
    · show max s.reserved (bytes.length + n) ≤ b'.room inlineCapacity
      omega
  · rintro ⟨s₀, s', same, after, larger, kept, -⟩ s₁ n₁ same₁ call₁ -
    cases same
    cases same₁
    cases call₁
    cases after
    refine ⟨by rw [size, ← grown]; exact larger, ?_⟩
    by_contra within
    have silent := kept (Nat.not_lt.mp within)
    rw [asked] at silent
    cases silent

/-- In inline mode a `reserve` goes to the heap only for more than `inlineCapacity`. -/
theorem reserve_inline_step {n : Nat} (holds : s.buffer.Holds inlineCapacity s.heap bytes)
    (room : s.reserved ≤ s.buffer.room inlineCapacity) (mode : s.buffer.isHeap = false)
    (step : exec inlineCapacity A (.ok s) (.reserve n) = some r') :
    Keeps inlineCapacity (.ok s) (.reserve n) r' ∧ Sound inlineCapacity r' := by
  obtain ⟨limit, h', b', rfl, holds', grown⟩ := exec_reserve holds step
  have size := (finalize_spec holds).2.1
  have asked := asks_reserve holds limit
  have inline_room : s.buffer.room inlineCapacity = inlineCapacity := by
    unfold HybridBuffer.room
    rw [mode]
    rfl
  simp only [mode, Bool.false_eq_true, false_or] at grown asked
  refine ⟨⟨s, _, rfl, rfl, ?_, ?_, ?_⟩, _, rfl, ⟨bytes, holds'⟩, ?_⟩
  · rw [grown, inline_room]
    split <;> omega
  · intro within
    have within : s.buffer.size + n ≤ s.reserved := within
    rw [asked]
    exact if_neg (by omega)
  · rw [asked]
    split
    · intro zero
      have := Option.some.inj zero
      omega
    · exact Option.some_ne_none 0 |>.symm
  · show max s.reserved (bytes.length + n) ≤ b'.room inlineCapacity
    rw [grown]
    split <;> omega

theorem Sound.step (sound : Sound inlineCapacity r) (step : exec inlineCapacity A r call = some r') :
    (Enlarges inlineCapacity r call → Keeps inlineCapacity r call r' ∧ Sound inlineCapacity r') ∧
      (Keeps inlineCapacity r call r' → Enlarges inlineCapacity r call) := by
  obtain ⟨s, rfl, ⟨bytes, holds⟩, room⟩ := sound
  cases call with
  | write data =>
    have kept := write_step holds room step
    refine ⟨fun _ => kept, fun _ s₁ n same call => ?_⟩
    cases call
  | reserve n =>
    cases mode : s.buffer.isHeap with
    | true => exact reserve_heap_step holds mode step
    | false =>
      refine ⟨fun _ => reserve_inline_step holds room mode step, ?_⟩
      intro _ s₁ n₁ same₁ _ heap
      cases same₁
      rw [mode] at heap
      cases heap

/-- **Main result.** From a buffer of any program, the calls take no reservation back exactly if every
`reserve` in heap mode asks for at least the capacity and for more than was reserved before. -/
theorem neverTakenBack_iff {ι : Type} [DecidableEq ι] {w : World ι}
    (reached : Reachable (system inlineCapacity A) (.ok w)) {i : ι} {b : HybridBuffer} (live : w.buffers i = some b)
    (calls : List Call) :
    NeverTakenBack inlineCapacity A (.ok ⟨w.heap, b, 0⟩) calls ↔
      ∀ r call r', Takes (.ok ⟨w.heap, b, 0⟩) (exec inlineCapacity A) calls r call r' →
        Enlarges inlineCapacity r call := by
  obtain ⟨_, same, inv⟩ := invariant.reachable reached
  cases same
  obtain ⟨bytes, -, holds⟩ := inv.holds i b live
  exact forall_takes_iff (Sound inlineCapacity) (Keeps inlineCapacity) (Enlarges inlineCapacity)
    ⟨_, rfl, ⟨bytes, holds⟩, Nat.zero_le _⟩ (fun _ _ _ sound step => sound.step step) calls

end

/-- A constructed buffer. -/
def fresh : World Nat := ⟨⟨.empty, Function.update (fun _ => none) 0 (some (construct 4))⟩,
  Function.update (fun _ => none) 0 (some [])⟩

theorem reachable_fresh : Reachable (system 4 Allocator.bump) (.ok fresh) :=
  reachable_of_actions start (Message.exec 4 Allocator.bump) [.construct 0] rfl

/-- A container of one-byte elements, and then a larger one. -/
def growing : List Call := [.write [3, 0, 0, 0], .reserve 3, .write [7], .write [8], .write [9], .reserve 20]

theorem neverTakenBack_growing :
    NeverTakenBack 4 Allocator.bump (.ok ⟨fresh.heap, construct 4, 0⟩) growing := by
  apply (neverTakenBack_iff reachable_fresh (i := 0) rfl growing).mpr
  intro r call r' taken
  simp only [growing, takes_cons_iff, not_takes_nil, and_false, exists_false, or_false] at taken
  rcases taken with ⟨rfl, rfl, -⟩ | ⟨r₁, h₁, ⟨rfl, rfl, -⟩ | ⟨r₂, h₂, ⟨rfl, rfl, -⟩ | ⟨r₃, h₃, ⟨rfl, rfl, -⟩ |
    ⟨r₄, h₄, ⟨rfl, rfl, -⟩ | ⟨r₅, h₅, rfl, rfl, -⟩⟩⟩⟩⟩
  · rintro _ _ - ⟨⟩
  · cases h₁
    rintro _ _ ⟨⟩ ⟨⟩ heap
    exact absurd heap (by decide)
  · rintro _ _ - ⟨⟩
  · rintro _ _ - ⟨⟩
  · rintro _ _ - ⟨⟩
  · cases h₁
    cases h₂
    cases h₃
    cases h₄
    cases h₅
    rintro _ _ ⟨⟩ ⟨⟩ -
    decide

/-- What serializing a `vector<vector<char>>` of two elements calls, `sizeof(vector<char>)` being 24. -/
def nested : List Call :=
  [.write [2, 0, 0, 0], .reserve 48, .write [1, 0, 0, 0], .reserve 1, .write [7], .write [0, 0, 0, 0], .reserve 0]

/-- The inner `reserve` shrinks the block of 52 bytes to 9. -/
theorem nested_shrinks : Reachable (system 4 Allocator.bump) (.ok fresh) ∧ fresh.buffers 0 = some (construct 4) ∧
    ¬ NeverTakenBack 4 Allocator.bump (.ok ⟨fresh.heap, construct 4, 0⟩) nested := by
  refine ⟨reachable_fresh, rfl, fun never => ?_⟩
  have takes : Takes (.ok ⟨fresh.heap, construct 4, 0⟩) (exec 4 Allocator.bump) nested _ (.reserve 1) _ :=
    ⟨[.write [2, 0, 0, 0], .reserve 48, .write [1, 0, 0, 0]], [.write [7], .write [0, 0, 0, 0], .reserve 0], rfl, rfl, rfl⟩
  obtain ⟨s, s', before, after, larger, -⟩ := never _ _ _ takes
  cases before
  cases after
  exact absurd larger (by decide)

end Erl.Message.Reservation
