import Erl.Message.Buffers
import Erl.Reflect.RoundTrip

/-!
# Values in `HybridBuffer`s

The encoders of `erl/reflect` ask their target to write and to reserve; here the target is
one of any number of `HybridBuffer`s over a heap. What arrives in the buffer is the
encoding, through whichever changes of storage, and stays readable wherever the bytes are
copied or moved.
-/

namespace Erl.Message
open Blocks TransitionSystem Function

section
variable {ι : Type}

/-- A call on the buffer `i`. -/
def asOp (i : ι) : Reflect.Call → Op ι
  | .write data => .write i data
  | .reserve num_bytes => .reserve i num_bytes

/-- `(serialize(args, buffer), ...)`. -/
def serializeTo (h : Reflect.Host) (i : ι) (ts : List Reflect.Ty) (vs : List Reflect.Val) : List (Op ι) :=
  (Reflect.serializeAll h ts vs).map (asOp i)

/-- No call takes a buffer of `n` bytes beyond the size it can count. -/
def Fits : Nat → List Reflect.Call → Prop
  | _, [] => True
  | n, .write data :: calls => n + data.length ≤ 2147483647 ∧ Fits (n + data.length) calls
  | n, .reserve num_bytes :: calls => n + num_bytes ≤ 2147483647 ∧ Fits n calls

variable [DecidableEq ι] {inlineCapacity : Nat} {A : Allocator} {w : World ι} {i : ι}

/-- One call succeeds, whatever storage the buffer is in, and appends what it writes. -/
theorem Inv.call (inv : Inv inlineCapacity w) {bytes : List UInt8} (live : w.contents i = some bytes) (c : Reflect.Call)
    {rest : List Reflect.Call} (fits : Fits bytes.length (c :: rest)) :
    ∃ w', exec inlineCapacity A (.ok w) (asOp i c) = some (.ok w') ∧ Inv inlineCapacity w' ∧
      w'.contents = update w.contents i (some (bytes ++ Reflect.written [c])) ∧
      Fits (bytes ++ Reflect.written [c]).length rest := by
  obtain ⟨b, buffer, size⟩ : ∃ b, w.buffers i = some b ∧ b.size = bytes.length := by
    cases buffer : w.buffers i with
    | none => cases (inv.dead i buffer).symm.trans live
    | some b =>
      obtain ⟨bytes', contents, holds⟩ := inv.holds i b buffer
      cases live.symm.trans contents
      exact ⟨b, rfl, (HybridBuffer.finalize_spec holds).2.1⟩
  -- the program may make the call, so it is one of the sound ones
  have done : ∃ r, Message.perform inlineCapacity A w.toMemory (asOp i c) = some r := by
    cases c with
    | write data =>
      have room : b.size + data.length ≤ 2147483647 := size ▸ fits.1
      simp [Message.perform, asOp, buffer, room]
    | reserve num_bytes =>
      have room : b.size + num_bytes ≤ 2147483647 := size ▸ fits.1
      simp [Message.perform, asOp, buffer, room]
  obtain ⟨r, enabled⟩ := done
  obtain ⟨m, rfl, inv'⟩ := inv.perform enabled
  refine ⟨⟨m, (asOp i c).effect w.contents⟩, ?_, inv', ?_, ?_⟩
  · simp [exec, enabled, Except.map]
  · cases c with
    | write data => simp [asOp, Op.effect, live, Reflect.written]
    | reserve num_bytes => simp [asOp, Op.effect, Reflect.written, ← live]
  · cases c with
    | write data => simpa [Reflect.written] using fits.2
    | reserve num_bytes => simpa [Reflect.written] using fits.2

/-- The calls of an encoder append the bytes it writes. -/
theorem Inv.calls (inv : Inv inlineCapacity w) {bytes : List UInt8} (live : w.contents i = some bytes)
    (cs : List Reflect.Call) (fits : Fits bytes.length cs) :
    ∃ w', (cs.map (asOp i)).foldlM (exec inlineCapacity A) (.ok w) = some (.ok w') ∧ Inv inlineCapacity w' ∧
      w'.contents = update w.contents i (some (bytes ++ Reflect.written cs)) := by
  induction cs generalizing w bytes with
  | nil =>
    refine ⟨w, rfl, inv, ?_⟩
    rw [Reflect.written, List.flatMap_nil, List.append_nil, ← live, update_eq_self]
  | cons c cs ih =>
    obtain ⟨u, step, inv', contents, rest⟩ := inv.call (A := A) live c fits
    have live' : u.contents i = some (bytes ++ Reflect.written [c]) := by rw [contents, update_self]
    obtain ⟨w', run, inv'', contents'⟩ := ih inv' live' rest
    refine ⟨w', ?_, inv'', ?_⟩
    · rw [List.map_cons, List.foldlM_cons, step]
      exact run
    · rw [contents', contents, update_idem, List.append_assoc, ← Reflect.written_append]
      rfl

omit [DecidableEq ι] in
/-- What a buffer stands for is read from it. -/
theorem Inv.decodes (inv : Inv inlineCapacity w) {b : HybridBuffer} (buffer : w.buffers i = some b)
    {before rest : List UInt8} {writer : Reflect.Host} {ts : List Reflect.Ty} {vs : List Reflect.Val}
    (contents : w.contents i = some (before ++ Reflect.encodeAll writer ts vs ++ rest)) {order : Reflect.Containers}
    (reader : Reflect.Host) (proper : Reflect.Ty.properAll ts = true) (typed : Reflect.Ty.admitsAll order ts vs = true)
    (small : Reflect.Val.smallAll vs = true) :
    ∃ data, b.finalize inlineCapacity w.heap = .ok (data.map some) ∧
      Reflect.deserializeAll order reader ts ⟨data, before.length⟩ =
        .ok (vs, ⟨data, before.length + (Reflect.encodeAll writer ts vs).length⟩) := by
  obtain ⟨bytes, same, holds⟩ := inv.holds i b buffer
  cases contents.symm.trans same
  refine ⟨_, (HybridBuffer.finalize_spec holds).1, ?_⟩
  exact (Reflect.denotes_deserializeAll order reader ts).decodes
    (Reflect.wireAll_serializeAll writer ts vs proper typed small) before rest

/-- **Values survive the buffers.** In any reachable memory, values that are serialized to
a live buffer, of any size and in any mode, without taking it beyond the size it can count,
are appended to it without a fault. Whatever is then done to the buffers, each one that
stands for those bytes still - a copy, or what they were moved to - decodes to the same
values, from its heap block or its inline array. -/
theorem values_survive (order : Reflect.Containers) (writer reader : Reflect.Host) (ts : List Reflect.Ty)
    (vs : List Reflect.Val) (proper : Reflect.Ty.properAll ts = true) (typed : Reflect.Ty.admitsAll order ts vs = true)
    (small : Reflect.Val.smallAll vs = true) (reached : Reachable (system inlineCapacity A) (.ok w))
    {bytes : List UInt8} (live : w.contents i = some bytes)
    (fits : Fits bytes.length (Reflect.serializeAll writer ts vs)) :
    ∃ w', (serializeTo writer i ts vs).foldlM (exec inlineCapacity A) (.ok w) = some (.ok w') ∧
      w'.contents = update w.contents i (some (bytes ++ Reflect.encodeAll writer ts vs)) ∧
      ∀ (ops : List (Op ι)) (u : World ι) (j : ι) (b : HybridBuffer) (rest : List UInt8),
        ops.foldlM (exec inlineCapacity A) (.ok w') = some (.ok u) → u.buffers j = some b →
        u.contents j = some (bytes ++ Reflect.encodeAll writer ts vs ++ rest) →
        ∃ data, b.finalize inlineCapacity u.heap = .ok (data.map some) ∧
          Reflect.deserializeAll order reader ts ⟨data, bytes.length⟩ =
            .ok (vs, ⟨data, bytes.length + (Reflect.encodeAll writer ts vs).length⟩) := by
  obtain ⟨_, same, inv⟩ := invariant.reachable reached
  cases same
  obtain ⟨w', run, inv', contents⟩ := inv.calls (A := A) live _ fits
  refine ⟨w', run, contents, ?_⟩
  intro ops u j b rest more buffer stands
  have inv'' : ∃ u', (.ok u : Except Fault (World ι)) = .ok u' ∧ Inv inlineCapacity u' :=
    holds_along (I := fun s : Except Fault (World ι) => ∃ w, s = .ok w ∧ Inv inlineCapacity w) ⟨w', rfl, inv'⟩
      (fun s a t taken hs => invariant.step s t hs ⟨a, taken.enabled⟩) ops [] (List.append_nil ops).symm more
  obtain ⟨_, same, inv''⟩ := inv''
  cases same
  exact inv''.decodes buffer stands reader proper typed small

end

def intVector : Reflect.Ty := .sequence "vector<int>" (.integral ⟨"int", .signed .w32⟩)

/-- A vector of two numbers does not fit into an inline array of four bytes; the buffer is
moved, and the numbers are read from the new one. -/
theorem values_survive_move : ∃ (u : World Nat) (b : HybridBuffer) (data : List UInt8),
    Reachable (system 4 Allocator.bump) (.ok u) ∧ u.contents 0 = some [] ∧ u.buffers 1 = some b ∧
    b.isHeap = true ∧ b.finalize 4 u.heap = .ok (data.map some) ∧
    Reflect.deserializeAll (fun _ => .byKey (fun _ => 0) true) ⟨.big, fun _ => 4⟩ [intVector] ⟨data, 0⟩ =
      .ok ([.list [.int 1, .int (-2)]], ⟨data, 12⟩) := by
  have reached : Reachable (system 4 Allocator.bump : System (Except Fault (World Nat))) _ :=
    reachable_of_actions start (exec 4 Allocator.bump) [.construct 0] rfl
  obtain ⟨w', run, -, reads⟩ := values_survive (i := 0) (fun _ => .byKey (fun _ => 0) true) ⟨.little, fun _ => 4⟩
    ⟨.big, fun _ => 4⟩ [intVector] [.list [.int 1, .int (-2)]] (by decide) (by decide) (by decide) reached
    rfl ⟨by decide, by decide, by decide, by decide, trivial⟩
  cases run
  obtain ⟨data, final, decoded⟩ := reads [.moveConstruct 1 0] _ 1 _ [] rfl rfl rfl
  refine ⟨_, _, data, ?_, rfl, rfl, rfl, final, decoded⟩
  exact reachable_of_actions start (exec 4 Allocator.bump)
    (.construct 0 :: serializeTo ⟨.little, fun _ => 4⟩ 0 [intVector] [.list [.int 1, .int (-2)]] ++
      [.moveConstruct 1 0]) rfl

end Erl.Message
