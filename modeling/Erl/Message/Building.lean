import Erl.Message.HybridBufferSpec
import Erl.Reflect.RoundTrip
import Mathlib.Algebra.GroupWithZero.Nat

/-!
# Messages that encoders build

A message is a `HybridBuffer` of its own that the encoders of `erl/reflect` write to and
reserve in. While the cursor counts its bytes in 31 bits and its capacity the room in 32,
it ends up with the bytes that the encoders write. The byte after the last one that can be
counted turns heap mode into inline mode, and the next access is out of bounds.
-/

namespace Erl.Message
open Blocks

/-- `HybridBuffer<inlineCapacity>`, with the allocator and what is on the heap already. -/
structure MessageType where
  inlineCapacity : Nat
  allocator : Allocator
  heap : Heap

namespace MessageType
variable (T : MessageType)

/-- What an encoder calls on its target. -/
def call (s : Heap × HybridBuffer) : Reflect.Call → Except Fault (Heap × HybridBuffer)
  | .write data => s.2.write T.inlineCapacity T.allocator data s.1
  | .reserve num_bytes => s.2.reserve T.inlineCapacity T.allocator num_bytes s.1

/-- `auto message = message_type{};` and the calls of the encoders. -/
def fill (calls : List Reflect.Call) : Except Fault (Heap × HybridBuffer) :=
  calls.foldlM T.call (T.heap, .construct T.inlineCapacity)

/-- The message as a `std::span<char const>`. -/
def build (calls : List Reflect.Call) : Except Fault Bytes := do
  let (h, b) ← T.fill calls
  b.finalize T.inlineCapacity h

end MessageType

/-- From `size` bytes on, the calls lead to fewer than `2 ^ 31` bytes, and none reserves room
up to `2 ^ 32` bytes. -/
structure Fillable (size : Nat) (calls : List Reflect.Call) : Prop where
  bytes : size + (Reflect.written calls).length < 2147483648
  room : ∀ before num_bytes after, calls = before ++ .reserve num_bytes :: after →
    size + (Reflect.written before).length + num_bytes < 4294967296

section
variable {T : MessageType} {h : Heap} {b : HybridBuffer} {bytes : List UInt8} {size : Nat} {calls : List Reflect.Call}

theorem Fillable.cons {c : Reflect.Call} (fillable : Fillable size (c :: calls)) :
    Fillable (size + (Reflect.written [c]).length) calls where
  bytes := by
    have all := fillable.bytes
    rw [← List.singleton_append, Reflect.written_append, List.length_append] at all
    omega
  room before num_bytes after split := by
    have room := fillable.room (c :: before) num_bytes after (by rw [split, List.cons_append])
    rw [← List.singleton_append, Reflect.written_append, List.length_append] at room
    omega

/-- What a call can add to the size of a buffer or of its room. -/
def amount : Reflect.Call → Nat
  | .write data => data.length
  | .reserve num_bytes => num_bytes

theorem written_le_sum (calls : List Reflect.Call) : (Reflect.written calls).length ≤ (calls.map amount).sum := by
  induction calls with
  | nil => exact Nat.le_refl 0
  | cons c calls ih =>
    rw [← List.singleton_append, Reflect.written_append, List.length_append, List.map_append, List.sum_append]
    refine Nat.add_le_add ?_ ih
    cases c <;> simp [Reflect.written, amount]

theorem sum_serializeInt (h : Reflect.Host) (k : Reflect.IntKind) (i : Int) :
    ((Reflect.serializeInt h k i).map amount).sum = k.size := by
  have bytes := congrArg List.length (Reflect.written_serializeInt (h := h) (k := k) i)
  simpa [Reflect.serializeInt, Reflect.written, amount] using bytes

/-- Reservations that do not reach `2 ^ 32` even on top of one another. -/
theorem Fillable.of_room (bytes : size + (Reflect.written calls).length < 2147483648)
    (little : size + (calls.map amount).sum < 4294967296) : Fillable size calls where
  bytes := bytes
  room before num_bytes after split := by
    have := written_le_sum before
    rw [split, List.map_append, List.sum_append, List.map_cons, List.sum_cons, amount] at little
    omega

/-- Calls that ask for little altogether. -/
theorem Fillable.of_sum (little : size + (calls.map amount).sum < 2147483648) : Fillable size calls := by
  have := written_le_sum calls
  exact .of_room (by omega) (by omega)

/-- A buffer in either mode gets what the calls write. -/
theorem MessageType.calls_spec (holds : b.Holds T.inlineCapacity h bytes) (fillable : Fillable bytes.length calls) :
    ∃ h' b', calls.foldlM T.call (h, b) = .ok (h', b') ∧
      b'.Holds T.inlineCapacity h' (bytes ++ Reflect.written calls) := by
  induction calls generalizing h b bytes with
  | nil => exact ⟨h, b, rfl, by simpa [Reflect.written] using holds⟩
  | cons c calls ih =>
    have one : ∃ h' b', T.call (h, b) c = .ok (h', b') ∧
        b'.Holds T.inlineCapacity h' (bytes ++ Reflect.written [c]) := by
      cases c with
      | write data =>
        have limit : bytes.length + data.length < 2147483648 := by
          have all := fillable.bytes
          rw [← List.singleton_append, Reflect.written_append, List.length_append] at all
          simp only [Reflect.written, List.flatMap_cons, List.flatMap_nil, List.append_nil] at all
          omega
        obtain ⟨h', b', done, holds', -⟩ := HybridBuffer.write_spec (A := T.allocator) data holds limit
        exact ⟨h', b', done, by simpa [Reflect.written] using holds'⟩
      | reserve num_bytes =>
        have limit := fillable.room [] num_bytes calls rfl
        obtain ⟨h', b', done, holds', -⟩ := HybridBuffer.reserve_spec (A := T.allocator) holds (n := num_bytes) limit
        exact ⟨h', b', done, by simpa [Reflect.written] using holds'⟩
    obtain ⟨h₁, b₁, done, holds₁⟩ := one
    have rest : Fillable (bytes ++ Reflect.written [c]).length calls := by
      rw [List.length_append]
      exact fillable.cons
    obtain ⟨h', b', run, holds'⟩ := ih holds₁ rest
    refine ⟨h', b', ?_, ?_⟩
    · rw [List.foldlM_cons, done]
      exact run
    · rwa [List.append_assoc, ← Reflect.written_append, List.singleton_append] at holds'

theorem MessageType.fill_spec (T : MessageType) (fillable : Fillable 0 calls) :
    ∃ h b, T.fill calls = .ok (h, b) ∧ b.Holds T.inlineCapacity h (Reflect.written calls) :=
  MessageType.calls_spec (HybridBuffer.construct_spec T.heap) fillable

/-- **Built messages.** Within the limits of the buffer a message consists of the bytes that
the encoders write. -/
theorem MessageType.build_eq (T : MessageType) (fillable : Fillable 0 calls) :
    T.build calls = .ok ((Reflect.written calls).map some) := by
  obtain ⟨h, b, filled, holds⟩ := T.fill_spec fillable
  rw [MessageType.build, filled]
  exact (HybridBuffer.finalize_spec holds).1

/-! ## Beyond the limits -/

/-- The write of one byte to as many as can be counted wraps the cursor around. -/
theorem MessageType.write_full (holds : b.Holds T.inlineCapacity h bytes) (full : bytes.length = 2147483647)
    (small : T.inlineCapacity < 2147483647) (c : UInt8) :
    ∃ h' b', T.call (h, b) (.write [c]) = .ok (h', b') ∧ b'.cursor = 2147483647 := by
  cases holds with
  | inline bound fits => omega
  | @heap p block _ bound word alive fits stored =>
    have append {h : Heap} {p : Nat} {block : Bytes} (alive : h.block p = some block)
        (fits : bytes.length + 1 ≤ block.length) :
        ∃ h' b', HybridBuffer.appendHeap (.onHeap p block.length bytes.length) [some c] h = .ok (h', b') ∧
          b'.cursor = 2147483647 := by
      obtain ⟨h', stored, -⟩ := store_spec alive (show bytes.length + [some c].length ≤ block.length from fits)
      refine ⟨h', ⟨.heap (some p) block.length, toInt32 (-bytes.length - 1 - 1)⟩, ?_, ?_⟩
      · simp only [HybridBuffer.appendHeap, HybridBuffer.asHeap_onHeap, HybridBuffer.size_onHeap bound, Bind.bind,
          Except.bind, stored]
        rfl
      · simp only [full, toInt32]
        rfl
    obtain ⟨length, sum, word'⟩ := HybridBuffer.words_of_lt (m := bytes.length) (n := [c].length) (by simp [full])
    simp only [MessageType.call, HybridBuffer.write, HybridBuffer.isHeap_onHeap, if_true,
      HybridBuffer.size_onHeap bound, length, sum, HybridBuffer.asHeap_onHeap, word', Bind.bind, Except.bind]
    split
    · obtain ⟨q, h', block', done, -, alive', size, -⟩ :=
        HybridBuffer.resizeHeap_spec (A := T.allocator) alive fits stored (Nat.le_add_right bytes.length [c].length)
      simp only [done]
      exact append alive' (by rw [size]; exact Nat.le_refl _)
    · exact append alive (by simp at *; omega)

/-- What is written after that is looked for in the inline array. -/
theorem MessageType.write_wrapped (wrapped : b.cursor = 2147483647) (small : T.inlineCapacity < 2147483647) (c : UInt8) :
    T.call (h, b) (.write [c]) = .error .outOfBounds := by
  have mode : b.isHeap = false := by simp [HybridBuffer.isHeap, wrapped]
  have size : b.size = 2147483647 := by simp [HybridBuffer.size, mode, wrapped, toSizeT]
  obtain ⟨length, sum, -⟩ := HybridBuffer.words_of_lt (m := b.size) (n := [c].length) (by simp [size])
  have large : ¬ b.size + [c].length ≤ T.inlineCapacity := by
    rw [size, List.length_singleton]
    omega
  have outside : ¬ b.size ≤ T.inlineCapacity := by
    rw [size]
    omega
  simp only [MessageType.call, HybridBuffer.write, mode, Bool.false_eq_true, if_false, length, sum, if_neg large,
    HybridBuffer.allocateHeap, HybridBuffer.loadInline, if_neg outside, Bind.bind, Except.bind]

/-- A loop over the elements of a container writes them one by one. -/
def singles (bytes : List UInt8) : List Reflect.Call := bytes.map fun c => .write [c]

theorem written_singles (bytes : List UInt8) : Reflect.written (singles bytes) = bytes := by
  induction bytes with
  | nil => rfl
  | cons c bytes ih => exact congrArg (c :: ·) ih

/-- Only the number of the bytes matters to what follows some calls. -/
theorem Fillable.singles (fillable : Fillable size calls) (bytes : List UInt8)
    (bound : size + (Reflect.written calls).length + bytes.length < 2147483648) :
    Fillable size (calls ++ Message.singles bytes) where
  bytes := by
    rw [Reflect.written_append, written_singles, List.length_append]
    omega
  room before num_bytes after split := by
    obtain ⟨front, rfl, rest⟩ | ⟨back, rfl, rest⟩ := List.append_eq_append_iff.mp split
    · -- a reservation among the single bytes
      have mem : Reflect.Call.reserve num_bytes ∈ Message.singles bytes := by
        rw [rest]
        exact List.mem_append_right front List.mem_cons_self
      obtain ⟨c, -, same⟩ := List.mem_map.mp mem
      cases same
    · cases back with
      | nil =>
        have mem : Reflect.Call.reserve num_bytes ∈ Message.singles bytes := by
          rw [← List.nil_append (Message.singles bytes), ← rest]
          exact List.mem_cons_self
        obtain ⟨c, -, same⟩ := List.mem_map.mp mem
        cases same
      | cons c back =>
        cases rest
        exact fillable.room before num_bytes back rfl

/-- **Broken messages.** Single bytes beyond the `2 ^ 31` that a cursor can count make the
buffer access what is not its own. -/
theorem MessageType.build_overflow (T : MessageType) (small : T.inlineCapacity < 2147483647)
    (fillable : Fillable 0 calls) (bytes : List UInt8)
    (many : 2147483648 < (Reflect.written calls).length + bytes.length) :
    T.build (calls ++ singles bytes) = .error .outOfBounds := by
  have below := fillable.bytes
  obtain ⟨front, c, d, back, rfl, full⟩ : ∃ front c d back, bytes = front ++ c :: d :: back ∧
      (Reflect.written calls).length + front.length = 2147483647 := by
    let n := 2147483647 - (Reflect.written calls).length
    cases rest : bytes.drop n with
    | nil =>
      have := congrArg List.length rest
      rw [List.length_drop, List.length_nil] at this
      omega
    | cons c rest' =>
      cases rest' with
      | nil =>
        have := congrArg List.length rest
        rw [List.length_drop, List.length_singleton] at this
        omega
      | cons d back =>
        refine ⟨bytes.take n, c, d, back, ?_, ?_⟩
        · rw [← rest, List.take_append_drop]
        · rw [List.length_take]
          omega
  obtain ⟨h, b, filled, holds⟩ := T.fill_spec (fillable.singles front (by omega))
  have size : (Reflect.written (calls ++ singles front)).length = 2147483647 := by
    rw [Reflect.written_append, written_singles, List.length_append]
    exact full
  obtain ⟨h', b', done, wrapped⟩ := MessageType.write_full holds size small c
  have split : calls ++ singles (front ++ c :: d :: back) =
      (calls ++ singles front) ++ (.write [c] :: .write [d] :: singles back) := by
    simp [singles]
  have broken : T.fill (calls ++ singles (front ++ c :: d :: back)) = .error .outOfBounds := by
    rw [split, MessageType.fill, List.foldlM_append]
    show (T.fill (calls ++ singles front) >>= _) = _
    rw [filled]
    show List.foldlM T.call (h, b) _ = _
    rw [List.foldlM_cons, done]
    show List.foldlM T.call (h', b') _ = _
    rw [List.foldlM_cons, MessageType.write_wrapped wrapped small d]
    rfl
  rw [MessageType.build, broken]
  rfl

end

section
variable {T : MessageType} {h : Reflect.Host} {t : Reflect.Ty} {name : String} {vs : List Reflect.Val}
  {before : List Reflect.Call}

/-- What is called in front of the elements of a container. -/
def header (h : Reflect.Host) (t : Reflect.Ty) (n : Nat) : List Reflect.Call :=
  Reflect.serializeInt h Reflect.uint32.kind (n % 2 ^ 32 : Nat) ++ [Reflect.reserveBytes (h.sizeOf t * (n % 2 ^ 32))]

theorem serialize_sequence {n : Nat} (size : vs.length = n) :
    Reflect.serialize h (.sequence name t) (.list vs) = header h t n ++ vs.flatMap (Reflect.serialize h t) := by
  subst size
  rw [Reflect.serialize, header, List.append_assoc, List.singleton_append]

/-- Elements of one byte each are written one by one. -/
theorem flatMap_singles {c : UInt8} (one : ∀ v ∈ vs, Reflect.serialize h t v = [.write [c]]) :
    vs.flatMap (Reflect.serialize h t) = singles (List.replicate vs.length c) := by
  induction vs with
  | nil => rfl
  | cons v vs ih =>
    rw [List.flatMap_cons, one v List.mem_cons_self, ih fun w hw => one w (List.mem_cons_of_mem v hw)]
    rfl

/-- So many elements of one byte each make the cursor wrap around. -/
theorem build_of_elements {n : Nat} {c : UInt8} (size : vs.length = n) (small : T.inlineCapacity < 2147483647)
    (fillable : Fillable 0 (before ++ header h t n)) (one : ∀ v ∈ vs, Reflect.serialize h t v = [.write [c]])
    (many : 2147483648 < (Reflect.written (before ++ header h t n)).length + n) :
    T.build (before ++ Reflect.serialize h (.sequence name t) (.list vs)) = .error .outOfBounds := by
  rw [serialize_sequence size, flatMap_singles one, size, ← List.append_assoc]
  exact T.build_overflow small fillable _ (by rwa [List.length_replicate])

/-- What goes wrong in front of the elements is not made good by them. -/
theorem build_of_header {n : Nat} {f : Fault} (size : vs.length = n) (broken : T.fill (before ++ header h t n) = .error f) :
    T.build (before ++ Reflect.serialize h (.sequence name t) (.list vs)) = .error f := by
  rw [serialize_sequence size, MessageType.build, MessageType.fill, ← List.append_assoc, List.foldlM_append]
  show ((T.fill (before ++ header h t n) >>= _) >>= _) = _
  rw [broken]
  rfl

end

/-- `struct alignas(4) Padded { char c; }`: 4 bytes in memory, one in a message. -/
def padded : Reflect.Ty := .aggregate "Padded" [.integral ⟨"char", .signed .w8⟩]

/-- `struct Empty {}`: none in a message. -/
def emptyClass : Reflect.Ty := .aggregate "Empty" []

theorem padded_proper : padded.proper = true := rfl

theorem emptyClass_proper : emptyClass.proper = true := rfl

def paddedHost : Reflect.Host := ⟨.little, fun t => if t = padded then 4 else 1⟩

end Erl.Message
