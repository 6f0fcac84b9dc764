import Erl.Rpc.Protocol

/-!
# Which opcodes dispatch gets right

The stamped labels are `0, …, size - 1`. An opcode below the number of handlers reaches
its handler and one behind the last label reaches the `default` branch, which throws. An
opcode between the two finds a label without a handler and reaches `std::unreachable()`.
-/

namespace Erl.Rpc
open Reflect Decoding

theorem mem_stamp4 {i offset : Nat} : i ∈ stamp4 offset ↔ offset ≤ i ∧ i < offset + 4 := by
  simp only [stamp4, List.mem_cons, List.not_mem_nil, or_false]
  omega

theorem mem_stamp16 {i offset : Nat} : i ∈ stamp16 offset ↔ offset ≤ i ∧ i < offset + 16 := by
  simp only [stamp16, List.mem_append, mem_stamp4]
  omega

theorem mem_stamp64 {i offset : Nat} : i ∈ stamp64 offset ↔ offset ≤ i ∧ i < offset + 64 := by
  simp only [stamp64, List.mem_append, mem_stamp16]
  omega

theorem mem_stamp256 {i offset : Nat} : i ∈ stamp256 offset ↔ offset ≤ i ∧ i < offset + 256 := by
  simp only [stamp256, List.mem_append, mem_stamp64]
  omega

/-- The size of the switch for `n` handlers. -/
def switchSize (n : Nat) : Nat := if n ≤ 4 then 4 else if n ≤ 16 then 16 else if n ≤ 64 then 64 else 256

theorem mem_caseLabels {i n : Nat} : i ∈ caseLabels n ↔ i < switchSize n := by
  unfold caseLabels switchSize
  split
  · rw [mem_stamp4]
    omega
  · split
    · rw [mem_stamp16]
      omega
    · split
      · rw [mem_stamp64]
        omega
      · rw [mem_stamp256]
        omega

/-- The labels cover the handlers of every service the dispatcher admits. -/
theorem le_switchSize {n : Nat} (h : n ≤ 256) : n ≤ switchSize n := by
  unfold switchSize
  split
  · assumption
  · split
    · assumption
    · split <;> assumption

section
variable {σ : Type} {h : Host} {members : List (Handler σ)} {opcode : Nat} {payload : List UInt8}

/-- A message starting with an index is read as this index and the bytes behind it. -/
theorem decode_index (bound : opcode < 2 ^ 32) :
    decode (deserializeIndex h) ⟨uint32.kind.image opcode ++ payload, 0⟩ =
      .ok (opcode, ⟨uint32.kind.image opcode ++ payload, (uint32.kind.image opcode).length⟩) := by
  have range : uint32.kind.InRange opcode := inRange_unsigned_iff.mpr ⟨opcode, bound, rfl⟩
  have decoded := (denotes_deserializeInt h uint32.kind).decodes ⟨range, rfl⟩ [] payload
  rw [List.nil_append, List.length_nil, Nat.zero_add] at decoded
  rw [decode, deserializeIndex, decoded]
  rfl

/-- `dispatch` hands the bytes behind the opcode to the switch. -/
theorem dispatch_eq (bound : opcode < 2 ^ 32) :
    dispatch h members (uint32.kind.image opcode ++ payload) = dispatcher members opcode payload := by
  rw [dispatch, decode_index bound]
  simp only [Int.toNat_natCast, List.drop_left]

theorem dispatcher_of_handler {member : Handler σ} (small : members.length ≤ 256)
    (found : members[opcode]? = some member) : dispatcher members opcode payload = member payload := by
  have bound := (List.getElem?_eq_some_iff.mp found).1
  have label : opcode ∈ caseLabels members.length := mem_caseLabels.mpr (Nat.lt_of_lt_of_le bound (le_switchSize small))
  rw [dispatcher, if_pos label, generateCase, found]

theorem dispatcher_of_gap (above : members.length ≤ opcode) (below : opcode < switchSize members.length) :
    dispatcher members opcode payload = throw .unreachable := by
  rw [dispatcher, if_pos (mem_caseLabels.mpr below), generateCase, List.getElem?_eq_none above]

theorem dispatcher_of_behind (above : switchSize members.length ≤ opcode) :
    dispatcher members opcode payload = throw (.outOfRange "Invalid opcode") := by
  rw [dispatcher, if_neg]
  rw [mem_caseLabels]
  exact Nat.not_lt_of_le above

end

/-- What dispatch should do with an opcode: run the handler with this number and nothing
else, or throw and leave the service alone. -/
def DispatchesExactly {σ : Type} (h : Host) (members : List (Handler σ)) (opcode : Nat) (payload : List UInt8) (s : σ) :
    Prop :=
  (dispatch h members (uint32.kind.image opcode ++ payload)).run s =
    match members[opcode]? with
    | some member => (member payload).run s
    | none => (.error (.outOfRange "Invalid opcode"), s)

/-- **Dispatch.** For every service that fits the largest switch, every state, opcode and
payload, dispatch does what it should exactly for the opcodes outside the gap between
the handlers and the end of the switch. -/
theorem dispatchesExactly_iff {σ : Type} (h : Host) (members : List (Handler σ)) (opcode : Nat) (payload : List UInt8)
    (s : σ) (small : members.length ≤ 256) (bound : opcode < 2 ^ 32) :
    DispatchesExactly h members opcode payload s ↔ opcode < members.length ∨ switchSize members.length ≤ opcode := by
  rw [DispatchesExactly, dispatch_eq bound]
  rcases Nat.lt_or_ge opcode members.length with handled | above
  · have found := List.getElem?_eq_getElem handled
    rw [dispatcher_of_handler small found, found]
    exact ⟨fun _ => .inl handled, fun _ => rfl⟩
  · rw [List.getElem?_eq_none above]
    rcases Nat.lt_or_ge opcode (switchSize members.length) with gap | behind
    · rw [dispatcher_of_gap above gap]
      constructor
      · intro same
        cases same
      · omega
    · rw [dispatcher_of_behind behind]
      exact ⟨fun _ => .inr behind, fun _ => rfl⟩

/-- A service of five handlers: the last one and the first opcode behind the switch. -/
theorem dispatchesExactly_five :
    let members : List (Handler Nat) := List.replicate 5 fun args => pure args
    DispatchesExactly ⟨.little, fun _ => 0⟩ members 4 [1, 2] 7 ∧
      DispatchesExactly ⟨.little, fun _ => 0⟩ members 16 [] 7 := by
  intro members
  constructor
  · exact (dispatchesExactly_iff _ members 4 _ _ (by decide) (by decide)).mpr (.inl (by decide))
  · exact (dispatchesExactly_iff _ members 16 _ _ (by decide) (by decide)).mpr (.inr (by decide))

/-- With three handlers, opcode 3 has a label but no handler. -/
theorem dispatch_unreachable :
    let members : List (Handler Nat) := List.replicate 3 fun args => pure args
    (dispatch ⟨.little, fun _ => 0⟩ members [3, 0, 0, 0]).run 7 = (.error .unreachable, 7) ∧
      ¬ DispatchesExactly ⟨.little, fun _ => 0⟩ members 3 [] 7 := by
  intro members
  refine ⟨rfl, ?_⟩
  intro same
  cases same

end Erl.Rpc
