import Erl.Message.Buffers

/-!
# The 32-bit arithmetic of `HybridBuffer`

Programs as in `Erl.Message.Buffers`, except that a `write` or `reserve` may be asked for any
number of bytes an `unsigned` holds. The cursor is an `std::int32_t` and a capacity an
`std::uint32_t`, so a size from `2 ^ 31` on and a room from `2 ^ 32` on have no representation.
-/

namespace Erl.Message.Limits
open Blocks TransitionSystem Function HybridBuffer

section
variable {ι : Type} [DecidableEq ι] (inlineCapacity : Nat) (A : Allocator)

/-- `none` where the program has no such operation. -/
def perform (m : Memory ι) : Op ι → Option (Except Fault (Memory ι))
  | .write i data =>
    match m.buffers i with
    | some b =>
      if data.length < 4294967296 then some ((b.write inlineCapacity A data m.heap).map (m.put i)) else none
    | none => none
  | .reserve i num_bytes =>
    match m.buffers i with
    | some b =>
      if num_bytes < 4294967296 then some ((b.reserve inlineCapacity A num_bytes m.heap).map (m.put i)) else none
    | none => none
  | op => Message.perform inlineCapacity A m op

/-- After a memory fault nothing happens any more. -/
def exec : Except Fault (World ι) → Op ι → Option (Except Fault (World ι))
  | .ok w, op => (perform inlineCapacity A w.toMemory op).map (·.map fun m => ⟨m, op.effect w.contents⟩)
  | .error _, _ => none

/-- `b'` is `b` after `n` more bytes: they are counted, there is room for them, and heap mode stays. -/
structure Grows (b b' : HybridBuffer) (n : Nat) : Prop where
  size : b'.size = b.size + n
  room : b.size + n ≤ b'.room inlineCapacity
  mode : b.isHeap = true → b'.isHeap = true

/-- `b'` is `b` with room for `n` more bytes. -/
structure Reserves (b b' : HybridBuffer) (n : Nat) : Prop where
  size : b'.size = b.size
  room : b.size + n ≤ b'.room inlineCapacity
  mode : b.isHeap = true → b'.isHeap = true

/-- The operation does not access anything past its storage, and a `write` or `reserve` has
done its work afterwards. -/
def NoWrap (r : Except Fault (World ι)) (op : Op ι) (r' : Except Fault (World ι)) : Prop :=
  ∃ w w', r = .ok w ∧ r' = .ok w' ∧ match op with
    | .write i data => ∀ b, w.buffers i = some b → ∃ b', w'.buffers i = some b' ∧ Grows inlineCapacity b b' data.length
    | .reserve i n => ∀ b, w.buffers i = some b → ∃ b', w'.buffers i = some b' ∧ Reserves inlineCapacity b b' n
    | _ => True

/-- A `write` leaves the size below `2 ^ 31`, and a `reserve` asks for room below `2 ^ 32`. -/
def WithinLimits (r : Except Fault (World ι)) (op : Op ι) : Prop :=
  ∀ w, r = .ok w → match op with
    | .write i data => ∀ b, w.buffers i = some b → b.size + data.length < 2147483648
    | .reserve i n => ∀ b, w.buffers i = some b → b.size + n < 4294967296
    | _ => True

/-- No operation of the run wraps. -/
def NeverWraps (ops : List (Op ι)) : Prop :=
  ∀ r op r', Takes start (exec inlineCapacity A) ops r op r' → NoWrap inlineCapacity r op r'

end

section
variable {inlineCapacity : Nat} {A : Allocator} {h h' : Heap} {b b' : HybridBuffer}

theorem size_lt_of_cursor {x : Int} (cursor : b.cursor = toInt32 x) : b.size < 2147483648 := by
  simp only [HybridBuffer.size, HybridBuffer.isHeap, HybridBuffer.flip, toSizeT, toInt32, cursor, decide_eq_true_eq]
  split <;> omega

theorem appendHeap_cursor {input : Bytes} (done : appendHeap b input h = .ok (h', b')) :
    ∃ x, b'.cursor = toInt32 x := by
  obtain ⟨_, -, done⟩ := bind_eq_ok done
  obtain ⟨_, -, done⟩ := bind_eq_ok done
  cases done
  exact ⟨_, rfl⟩

/-- Whatever `write` has done, the cursor is an `std::int32_t`. -/
theorem write_size_lt {data : List UInt8} (done : b.write inlineCapacity A data h = .ok (h', b')) :
    b'.size < 2147483648 := by
  have cursor : ∃ x, b'.cursor = toInt32 x := by
    cases mode : b.isHeap with
    | true =>
      simp only [HybridBuffer.write, mode, if_true] at done
      obtain ⟨⟨_, capacity⟩, -, done⟩ := bind_eq_ok done
      dsimp only at done
      split at done
      · obtain ⟨⟨_, _⟩, -, done⟩ := bind_eq_ok done
        exact appendHeap_cursor done
      · exact appendHeap_cursor done
    | false =>
      simp only [HybridBuffer.write, mode, Bool.false_eq_true, if_false] at done
      split at done
      · obtain ⟨_, -, done⟩ := bind_eq_ok done
        cases done
        exact ⟨_, rfl⟩
      · obtain ⟨⟨_, _⟩, -, done⟩ := bind_eq_ok done
        exact appendHeap_cursor done
  obtain ⟨x, cursor⟩ := cursor
  exact size_lt_of_cursor cursor

theorem toUint32_lt (i : Int) : toUint32 i < 4294967296 := by
  rw [toUint32]
  omega

theorem room_heap_lt {p : Pointer} {capacity : Nat} {cursor : Int} (small : inlineCapacity < 4294967296)
    (word : capacity < 4294967296) : (⟨.heap p capacity, cursor⟩ : HybridBuffer).room inlineCapacity < 4294967296 := by
  unfold room
  split
  · exact word
  · exact small

/-- Whatever `reserve` has done, the capacity is an `std::uint32_t`. -/
theorem reserve_room_lt {n : Nat} (small : inlineCapacity < 4294967296)
    (done : b.reserve inlineCapacity A n h = .ok (h', b')) : b'.room inlineCapacity < 4294967296 := by
  cases mode : b.isHeap with
  | true =>
    simp only [HybridBuffer.reserve, mode, if_true] at done
    obtain ⟨_, -, done⟩ := bind_eq_ok done
    obtain ⟨⟨_, _⟩, -, done⟩ := bind_eq_ok done
    cases done
    exact room_heap_lt small (toUint32_lt _)
  | false =>
    simp only [HybridBuffer.reserve, mode, Bool.false_eq_true, if_false] at done
    split at done
    · obtain ⟨_, -, done⟩ := bind_eq_ok done
      obtain ⟨_, -, done⟩ := bind_eq_ok done
      cases done
      exact room_heap_lt small (toUint32_lt _)
    · cases done
      unfold room
      rw [mode]
      exact small

/-! ## One operation -/

variable {ι : Type} [DecidableEq ι] {w w' : World ι} {r' : Except Fault (World ι)} {i : ι}

/-- What the code has done to one buffer, seen in the memory. -/
theorem put_ok {x : Except Fault (Heap × HybridBuffer)} {contents : Contents ι}
    (run : (x.map (w.put i)).map (fun m => (⟨m, contents⟩ : World ι)) = .ok w') :
    ∃ h' b', x = .ok (h', b') ∧ w'.buffers i = some b' := by
  obtain ⟨m, put, rfl⟩ := map_eq_ok run
  obtain ⟨done, ran, rfl⟩ := map_eq_ok put
  exact ⟨done.1, done.2, ran, update_self ..⟩

/-- An operation of the code on one buffer. -/
theorem exec_buffer {op : Op ι} {admitted : Prop} [Decidable admitted]
    {run : HybridBuffer → Except Fault (Heap × HybridBuffer)}
    (same : perform inlineCapacity A w.toMemory op =
      (w.buffers i).bind fun b => if admitted then some ((run b).map (w.put i)) else none)
    (step : exec inlineCapacity A (.ok w) op = some r') :
    ∃ b, w.buffers i = some b ∧ r' = ((run b).map (w.put i)).map fun m => ⟨m, op.effect w.contents⟩ := by
  simp only [exec, same, Option.map_eq_some_iff, Option.bind_eq_some_iff] at step
  obtain ⟨x, ⟨b, live, done⟩, rfl⟩ := step
  split at done
  · cases done
    exact ⟨b, live, rfl⟩
  · cases done

theorem exec_write {data : List UInt8} (step : exec inlineCapacity A (.ok w) (.write i data) = some r') :
    ∃ b, w.buffers i = some b ∧ r' = ((b.write inlineCapacity A data w.heap).map (w.put i)).map
      fun m => ⟨m, (Op.write i data).effect w.contents⟩ := by
  have same : perform inlineCapacity A w.toMemory (.write i data) = (w.buffers i).bind fun b =>
      if data.length < 4294967296 then some ((b.write inlineCapacity A data w.heap).map (w.put i)) else none := by
    simp only [perform]
    cases w.buffers i <;> rfl
  exact exec_buffer same step

theorem exec_reserve {n : Nat} (step : exec inlineCapacity A (.ok w) (.reserve i n) = some r') :
    ∃ b, w.buffers i = some b ∧ r' = ((b.reserve inlineCapacity A n w.heap).map (w.put i)).map
      fun m => ⟨m, (Op.reserve i n).effect w.contents⟩ := by
  have same : perform inlineCapacity A w.toMemory (.reserve i n) = (w.buffers i).bind fun b =>
      if n < 4294967296 then some ((b.reserve inlineCapacity A n w.heap).map (w.put i)) else none := by
    simp only [perform]
    cases w.buffers i <;> rfl
  exact exec_buffer same step

/-- The state after an operation that has wrapped nothing. -/
def Sound (inlineCapacity : Nat) (r : Except Fault (World ι)) : Prop := ∃ w, r = .ok w ∧ Inv inlineCapacity w

theorem write_step {data : List UInt8} (inv : Inv inlineCapacity w)
    (step : exec inlineCapacity A (.ok w) (.write i data) = some r') :
    (WithinLimits (.ok w) (.write i data) → NoWrap inlineCapacity (.ok w) (.write i data) r' ∧ Sound inlineCapacity r') ∧
      (NoWrap inlineCapacity (.ok w) (.write i data) r' → WithinLimits (.ok w) (.write i data)) := by
  obtain ⟨b, live, rfl⟩ := exec_write step
  obtain ⟨bytes, -, holds⟩ := inv.holds i b live
  have size := (finalize_spec holds).2.1
  constructor
  · intro limits
    have limit : b.size + data.length < 2147483648 := limits w rfl b live
    obtain ⟨h', b', done, holds', -, mode, -⟩ := write_spec (A := A) data holds (by omega)
    obtain ⟨m, made, inv'⟩ := inv.write (A := A) live (Nat.le_of_lt_succ limit)
    rw [done] at made ⊢
    cases made
    refine ⟨⟨w, _, rfl, rfl, ?_⟩, _, rfl, inv'⟩
    intro b₀ live₀
    obtain rfl : b = b₀ := Option.some.inj (live.symm.trans live₀)
    have room := holds'.length_le_room
    have size' := (finalize_spec holds').2.1
    rw [List.length_append] at room size'
    exact ⟨b', update_self .., by rw [size', size], by rw [size]; exact room, mode⟩
  · rintro ⟨w₀, w', same, run, grows⟩ w₁ same₁ b₁ live₁
    cases same
    cases same₁
    obtain ⟨h', b', done, after⟩ := put_ok run
    obtain ⟨b'', after'', grows⟩ := grows b₁ live₁
    obtain rfl : b' = b'' := Option.some.inj (after.symm.trans after'')
    rw [← grows.size]
    exact write_size_lt done

theorem reserve_step {n : Nat} (small : inlineCapacity < 4294967296) (inv : Inv inlineCapacity w)
    (step : exec inlineCapacity A (.ok w) (.reserve i n) = some r') :
    (WithinLimits (.ok w) (.reserve i n) → NoWrap inlineCapacity (.ok w) (.reserve i n) r' ∧ Sound inlineCapacity r') ∧
      (NoWrap inlineCapacity (.ok w) (.reserve i n) r' → WithinLimits (.ok w) (.reserve i n)) := by
  obtain ⟨b, live, rfl⟩ := exec_reserve step
  obtain ⟨bytes, -, holds⟩ := inv.holds i b live
  have size := (finalize_spec holds).2.1
  constructor
  · intro limits
    have limit : b.size + n < 4294967296 := limits w rfl b live
    obtain ⟨h', b', done, holds', -, mode, room⟩ := reserve_spec (A := A) holds (n := n) (by omega)
    obtain ⟨m, made, inv'⟩ := inv.reserve (A := A) live limit
    rw [done] at made ⊢
    cases made
    refine ⟨⟨w, _, rfl, rfl, ?_⟩, _, rfl, inv'⟩
    intro b₀ live₀
    obtain rfl : b = b₀ := Option.some.inj (live.symm.trans live₀)
    have enough : b.size + n ≤ b'.room inlineCapacity := by
      rw [room, size]
      split <;> omega
    exact ⟨b', update_self .., by rw [(finalize_spec holds').2.1, size], enough, mode⟩
  · rintro ⟨w₀, w', same, run, reserves⟩ w₁ same₁ b₁ live₁
    cases same
    cases same₁
    obtain ⟨h', b', done, after⟩ := put_ok run
    obtain ⟨b'', after'', reserves⟩ := reserves b₁ live₁
    obtain rfl : b' = b'' := Option.some.inj (after.symm.trans after'')
    exact Nat.lt_of_le_of_lt reserves.room (reserve_room_lt small done)

/-- The other operations do no 32-bit arithmetic on sizes. -/
theorem other_step {op : Op ι} (inv : Inv inlineCapacity w)
    (same : perform inlineCapacity A w.toMemory op = Message.perform inlineCapacity A w.toMemory op)
    (step : exec inlineCapacity A (.ok w) op = some r') : Sound inlineCapacity r' := by
  simp only [exec, same, Option.map_eq_some_iff] at step
  obtain ⟨x, enabled, rfl⟩ := step
  obtain ⟨m, rfl, inv'⟩ := inv.perform enabled
  exact ⟨_, rfl, inv'⟩

theorem Sound.step {r : Except Fault (World ι)} {op : Op ι} (small : inlineCapacity < 4294967296)
    (sound : Sound inlineCapacity r) (step : exec inlineCapacity A r op = some r') :
    (WithinLimits r op → NoWrap inlineCapacity r op r' ∧ Sound inlineCapacity r') ∧
      (NoWrap inlineCapacity r op r' → WithinLimits r op) := by
  obtain ⟨w, rfl, inv⟩ := sound
  cases op with
  | write i data => exact write_step inv step
  | reserve i n => exact reserve_step small inv step
  | construct i | copyConstruct i j | moveConstruct i j | copyAssign i j | moveAssign i j | destroy i =>
    obtain ⟨w', made, inv'⟩ := other_step inv rfl step
    exact ⟨fun _ => ⟨⟨w, w', rfl, made, trivial⟩, w', made, inv'⟩, fun _ _ _ => trivial⟩

theorem sound_start : Sound inlineCapacity (start : Except Fault (World ι)) :=
  (invariant (A := Allocator.bump)).init _ rfl

/-- **No 32-bit computation wraps** in a run of any operations, exactly if every `write` leaves
the size below `2 ^ 31` and every `reserve` asks for room below `2 ^ 32`. -/
theorem neverWraps_iff {inlineCapacity : Nat} (small : inlineCapacity ≤ 1048576) (A : Allocator) (ops : List (Op ι)) :
    NeverWraps inlineCapacity A ops ↔
      ∀ r op r', Takes start (exec inlineCapacity A) ops r op r' → WithinLimits r op :=
  forall_takes_iff (Sound inlineCapacity) (NoWrap inlineCapacity) WithinLimits sound_start
    (fun _ _ _ sound step => sound.step (Nat.lt_of_le_of_lt small (by decide)) step) ops

end

/-- A buffer that goes to the heap, and is written to and reserved there. -/
def heapRun : List (Op Nat) := [.construct 0, .write 0 [1, 2, 3, 4, 5], .reserve 0 100, .write 0 [6]]

theorem neverWraps_heap : NeverWraps 4 Allocator.bump heapRun := by
  apply (neverWraps_iff (by decide) Allocator.bump heapRun).mpr
  intro r op r' taken
  simp only [heapRun, takes_cons_iff, not_takes_nil, and_false, exists_false, or_false] at taken
  rcases taken with ⟨rfl, rfl, -⟩ | ⟨r₁, h₁, ⟨rfl, rfl, -⟩ | ⟨r₂, h₂, ⟨rfl, rfl, -⟩ | ⟨r₃, h₃, rfl, rfl, -⟩⟩⟩
  · exact fun _ _ => trivial
  · cases h₁
    rintro _ ⟨⟩ _ ⟨⟩
    decide
  · cases h₁
    cases h₂
    rintro _ ⟨⟩ _ ⟨⟩
    decide
  · cases h₁
    cases h₂
    cases h₃
    rintro _ ⟨⟩ _ ⟨⟩
    decide

/-- `2 ^ 31` bytes written to an empty buffer. -/
theorem not_neverWraps_write :
    ¬ NeverWraps 4 Allocator.bump [.construct (0 : Nat), .write 0 (List.replicate 2147483648 0)] := by
  intro never
  let w : World Nat := ⟨⟨.empty, update (fun _ => none) 0 (some (construct 4))⟩, update (fun _ => none) 0 (some [])⟩
  have constructed : exec 4 Allocator.bump start (.construct 0) = some (.ok w) := rfl
  have short : (List.replicate 2147483648 (0 : UInt8)).length < 4294967296 := by
    rw [List.length_replicate]
    decide
  have written : exec 4 Allocator.bump (.ok w) (.write 0 (List.replicate 2147483648 0)) =
      some ((((construct 4).write 4 Allocator.bump (List.replicate 2147483648 0) w.heap).map (w.put 0)).map
        fun m => ⟨m, (Op.write 0 (List.replicate 2147483648 0)).effect w.contents⟩) := by
    simp only [exec, perform, if_pos short]
    rfl
  have takes : Takes start (exec 4 Allocator.bump) [.construct (0 : Nat), .write 0 (List.replicate 2147483648 0)]
      (.ok w) (.write 0 (List.replicate 2147483648 0)) _ := ⟨[.construct 0], [], rfl, constructed, written⟩
  have sound := ((sound_start.step (by decide) constructed).1 fun _ _ => trivial).2
  obtain ⟨_, same, inv⟩ := sound
  obtain rfl := Except.ok.inj same
  have limit := (write_step inv written).2 (never _ _ _ takes) w rfl _ rfl
  rw [List.length_replicate] at limit
  exact absurd limit (by decide)

end Erl.Message.Limits
