import Erl.Lib.System
import Erl.Message.HybridBufferSpec

/-!
# Programs on several `HybridBuffer`s

Any number of buffers, named by `ι`, over one heap. `Op.effect` is what each operation
means for the bytes a buffer stands for; `perform` is what the code does. In every run
the two agree, no operation fails, and each live block has exactly one owner.
-/

namespace Erl.Message
open Blocks TransitionSystem Function

inductive Op (ι : Type) where
  | construct (i : ι)
  | write (i : ι) (data : List UInt8)
  | reserve (i : ι) (num_bytes : Nat)
  | copyConstruct (i other : ι)
  | moveConstruct (i other : ι)
  | copyAssign (i other : ι)
  | moveAssign (i other : ι)
  | destroy (i : ι)

/-- The live buffers and the heap. -/
structure Memory (ι : Type) where
  heap : Heap
  buffers : ι → Option HybridBuffer

/-- The bytes each live buffer stands for. -/
abbrev Contents (ι : Type) := ι → Option (List UInt8)

/-- A memory, and as ghost state what the operations so far mean. -/
structure World (ι : Type) extends Memory ι where
  contents : Contents ι

section
variable {ι : Type} [DecidableEq ι] (inlineCapacity : Nat) (A : Allocator)

/-- A buffer is an append-only list of bytes: a copy starts with the bytes of its source,
and moving leaves the source empty. -/
def Op.effect (c : Contents ι) : Op ι → Contents ι
  | .construct i => update c i (some [])
  | .write i data => update c i ((c i).map (· ++ data))
  | .reserve _ _ => c
  | .copyConstruct i other | .copyAssign i other => update c i (c other)
  | .moveConstruct i other => update (update c i (c other)) other (some [])
  | .moveAssign i other => if i = other then c else update (update c i (c other)) other (some [])
  | .destroy i => update c i none

def Memory.put (m : Memory ι) (i : ι) : Heap × HybridBuffer → Memory ι
  | (h, b) => ⟨h, update m.buffers i (some b)⟩

def Memory.move (m : Memory ι) (i other : ι) (h : Heap) : HybridBuffer × HybridBuffer → Memory ι
  | (b, rest) => ⟨h, update (update m.buffers i (some b)) other (some rest)⟩

/-- `none` where the program has no such operation: on a buffer that is not live, or
already is, or when a write or a reservation would take the size beyond `2 ^ 31 - 1`. -/
def perform (m : Memory ι) : Op ι → Option (Except Fault (Memory ι))
  | .construct i =>
    match m.buffers i with
    | none => some (.ok (m.put i (m.heap, .construct inlineCapacity)))
    | some _ => none
  | .write i data =>
    match m.buffers i with
    | some b =>
      if b.size + data.length ≤ 2147483647 then some ((b.write inlineCapacity A data m.heap).map (m.put i)) else none
    | none => none
  | .reserve i num_bytes =>
    match m.buffers i with
    | some b =>
      if b.size + num_bytes ≤ 2147483647 then some ((b.reserve inlineCapacity A num_bytes m.heap).map (m.put i))
      else none
    | none => none
  | .copyConstruct i other =>
    match m.buffers i, m.buffers other with
    | none, some b => some ((HybridBuffer.copyConstruct inlineCapacity A b m.heap).map (m.put i))
    | _, _ => none
  | .moveConstruct i other =>
    match m.buffers i, m.buffers other with
    | none, some b => some ((HybridBuffer.moveConstruct inlineCapacity b).map (m.move i other m.heap))
    | _, _ => none
  | .copyAssign i other =>
    match m.buffers i, m.buffers other with
    | some a, some b =>
      if i = other then some (.ok m)
      else some do
        let h ← a.destroy m.heap
        (HybridBuffer.copyConstruct inlineCapacity A b h).map (m.put i)
    | _, _ => none
  | .moveAssign i other =>
    match m.buffers i, m.buffers other with
    | some a, some b =>
      if i = other then some (.ok m)
      else some do
        let h ← a.destroy m.heap
        (HybridBuffer.moveConstruct inlineCapacity b).map (m.move i other h)
    | _, _ => none
  | .destroy i =>
    match m.buffers i with
    | some b => some ((b.destroy m.heap).map fun h => ⟨h, update m.buffers i none⟩)
    | none => none

/-- After a memory fault nothing happens any more. -/
def exec : Except Fault (World ι) → Op ι → Option (Except Fault (World ι))
  | .ok w, op => (perform inlineCapacity A w.toMemory op).map (·.map fun m => ⟨m, op.effect w.contents⟩)
  | .error _, _ => none

/-- No buffer is live. -/
def start : Except Fault (World ι) := .ok ⟨⟨.empty, fun _ => none⟩, fun _ => none⟩

/-- Programs that construct, use and destroy buffers in any order. -/
def system : System (Except Fault (World ι)) := ofActions start (exec inlineCapacity A)

/-- The buffers an operation is about. -/
def Op.places : Op ι → List ι
  | .construct i | .write i _ | .reserve i _ | .destroy i => [i]
  | .copyConstruct i other | .moveConstruct i other | .copyAssign i other | .moveAssign i other => [i, other]

/-- The block of each buffer. -/
def Memory.owner (m : Memory ι) (i : ι) : Pointer := (m.buffers i).bind HybridBuffer.owned

/-- Every live buffer holds its bytes, and ownership is in order. -/
structure Inv (w : World ι) : Prop where
  holds : ∀ i b, w.buffers i = some b → ∃ bytes, w.contents i = some bytes ∧ b.Holds inlineCapacity w.heap bytes
  dead : ∀ i, w.buffers i = none → w.contents i = none
  owned : Owned w.heap w.owner

end

section
variable {ι : Type} {inlineCapacity : Nat} {A : Allocator} {w : World ι} {h : Heap} {i j k : ι}

theorem owner_of_live {b : HybridBuffer} (live : w.buffers i = some b) : w.owner i = b.owned := by
  rw [Memory.owner, live, Option.bind_some]

theorem owner_of_dead (dead : w.buffers i = none) : w.owner i = none := by
  rw [Memory.owner, dead, Option.bind_none]

theorem Inv.holds_other (inv : Inv inlineCapacity w) {o : Pointer} (t : Transfer w.heap h (w.owner i) o) (ne : j ≠ i)
    {b : HybridBuffer} (live : w.buffers j = some b) :
    ∃ bytes, w.contents j = some bytes ∧ b.Holds inlineCapacity h bytes := by
  obtain ⟨bytes, contents, holds⟩ := inv.holds j b live
  refine ⟨bytes, contents, holds.frame ?_⟩
  intro p own
  exact (inv.owned.kept t ne ((owner_of_live live).trans own)).1

variable [DecidableEq ι]

theorem owner_update (m : Memory ι) (h : Heap) (i : ι) (x : Option HybridBuffer) :
    Memory.owner ⟨h, update m.buffers i x⟩ = update m.owner i (x.bind HybridBuffer.owned) := by
  funext k
  by_cases same : k = i
  · subst same
    simp only [Memory.owner, update_self]
  · simp only [Memory.owner, update_of_ne same]

/-! ## What an operation leaves alone -/

theorem Op.effect_frame {op : Op ι} (away : k ∉ op.places) (c : Contents ι) : op.effect c k = c k := by
  cases op <;> simp only [Op.places, List.mem_cons, List.not_mem_nil, or_false, not_or] at away
  case reserve => rfl
  case moveAssign i other =>
    simp only [Op.effect]
    split
    · rfl
    · rw [update_of_ne away.2, update_of_ne away.1]
  case moveConstruct i other => simp only [Op.effect, update_of_ne away.2, update_of_ne away.1]
  case copyConstruct i other => simp only [Op.effect, update_of_ne away.1]
  case copyAssign i other => simp only [Op.effect, update_of_ne away.1]
  all_goals simp only [Op.effect, update_of_ne away]

theorem bind_eq_ok {ε α β : Type} {x : Except ε α} {f : α → Except ε β} {b : β} (h : x >>= f = .ok b) :
    ∃ a, x = .ok a ∧ f a = .ok b := by
  cases x with
  | error e => cases h
  | ok a => exact ⟨a, rfl, h⟩

theorem map_eq_ok {ε α β : Type} {x : Except ε α} {f : α → β} {b : β} (h : x.map f = .ok b) :
    ∃ a, x = .ok a ∧ f a = b := by
  cases x with
  | error e => cases h
  | ok a => exact ⟨a, rfl, Except.ok.inj h⟩

theorem Memory.put_frame {m m' : Memory ι} {x : Except Fault (Heap × HybridBuffer)} (h : x.map (m.put i) = .ok m')
    (ne : k ≠ i) : m'.buffers k = m.buffers k := by
  obtain ⟨a, -, rfl⟩ := map_eq_ok h
  exact update_of_ne ne ..

theorem Memory.move_frame {m m' : Memory ι} {x : Except Fault (HybridBuffer × HybridBuffer)} {heap : Heap}
    (h : x.map (m.move i j heap) = .ok m') (ne : k ≠ i) (ne' : k ≠ j) : m'.buffers k = m.buffers k := by
  obtain ⟨a, -, rfl⟩ := map_eq_ok h
  exact (update_of_ne ne' ..).trans (update_of_ne ne ..)

theorem perform_frame {m m' : Memory ι} {op : Op ι} (h : perform inlineCapacity A m op = some (.ok m'))
    (away : k ∉ op.places) : m'.buffers k = m.buffers k := by
  cases op <;> simp only [Op.places, List.mem_cons, List.not_mem_nil, or_false, not_or] at away <;>
    simp only [perform] at h
  case construct i =>
    split at h <;> cases h
    exact update_of_ne away ..
  case write i data =>
    split at h
    · split at h
      · exact Memory.put_frame (Option.some.inj h) away
      · cases h
    · cases h
  case reserve i data =>
    split at h
    · split at h
      · exact Memory.put_frame (Option.some.inj h) away
      · cases h
    · cases h
  case copyConstruct i other =>
    split at h
    · exact Memory.put_frame (Option.some.inj h) away.1
    · cases h
  case moveConstruct i other =>
    split at h
    · exact Memory.move_frame (Option.some.inj h) away.1 away.2
    · cases h
  case copyAssign i other =>
    split at h
    · split at h
      · cases h
        rfl
      · obtain ⟨h', -, done⟩ := bind_eq_ok (Option.some.inj h)
        exact Memory.put_frame done away.1
    · cases h
  case moveAssign i other =>
    split at h
    · split at h
      · cases h
        rfl
      · obtain ⟨h', -, done⟩ := bind_eq_ok (Option.some.inj h)
        exact Memory.move_frame done away.1 away.2
    · cases h
  case destroy i =>
    split at h
    · obtain ⟨h', -, rfl⟩ := map_eq_ok (Option.some.inj h)
      exact update_of_ne away ..
    · cases h

/-- One buffer changes, or comes to life, with its part of the heap. -/
theorem Inv.put (inv : Inv inlineCapacity w) {b : HybridBuffer} {bytes : List UInt8}
    (t : Transfer w.heap h (w.owner i) b.owned) (holds : b.Holds inlineCapacity h bytes) :
    Inv inlineCapacity ⟨w.put i (h, b), update w.contents i (some bytes)⟩ := by
  constructor
  · show ∀ k b', update w.buffers i (some b) k = some b' →
      ∃ bytes', update w.contents i (some bytes) k = some bytes' ∧ b'.Holds inlineCapacity h bytes'
    intro k b' live
    by_cases same : k = i
    · subst same
      rw [update_self] at live ⊢
      cases live
      exact ⟨bytes, rfl, holds⟩
    · rw [update_of_ne same] at live ⊢
      exact inv.holds_other t same live
  · show ∀ k, update w.buffers i (some b) k = none → update w.contents i (some bytes) k = none
    intro k dead
    by_cases same : k = i
    · subst same
      rw [update_self] at dead
      cases dead
    · rw [update_of_ne same] at dead ⊢
      exact inv.dead k dead
  · show Owned h (Memory.owner ⟨h, update w.buffers i (some b)⟩)
    rw [owner_update]
    exact inv.owned.update t fun p own => holds.alive own

/-- One buffer ends, and gives up its part of the heap. -/
theorem Inv.remove (inv : Inv inlineCapacity w) (t : Transfer w.heap h (w.owner i) none) :
    Inv inlineCapacity ⟨⟨h, update w.buffers i none⟩, update w.contents i none⟩ := by
  constructor
  · show ∀ k b', update w.buffers i none k = some b' →
      ∃ bytes', update w.contents i none k = some bytes' ∧ b'.Holds inlineCapacity h bytes'
    intro k b' live
    have ne : k ≠ i := by
      rintro rfl
      rw [update_self] at live
      cases live
    rw [update_of_ne ne] at live ⊢
    exact inv.holds_other t ne live
  · show ∀ k, update w.buffers i none k = none → update w.contents i none k = none
    intro k dead
    by_cases same : k = i
    · subst same
      exact update_self ..
    · rw [update_of_ne same] at dead ⊢
      exact inv.dead k dead
  · rw [owner_update]
    exact inv.owned.update t nofun

/-- A buffer that is not live yet takes over the bytes and the block of another one. -/
theorem Inv.move (inv : Inv inlineCapacity w) {b rest other : HybridBuffer} {bytes : List UInt8} (ne : i ≠ j)
    (dead : w.buffers i = none) (live : w.buffers j = some other) (holds : b.Holds inlineCapacity w.heap bytes)
    (empty : rest.Holds inlineCapacity w.heap []) (takes : b.owned = other.owned) (gives : rest.owned = none) :
    Inv inlineCapacity ⟨w.toMemory.move i j w.heap (b, rest),
      update (update w.contents i (some bytes)) j (some [])⟩ := by
  constructor
  · show ∀ k b', update (update w.buffers i (some b)) j (some rest) k = some b' →
      ∃ bytes', update (update w.contents i (some bytes)) j (some []) k = some bytes' ∧
        b'.Holds inlineCapacity w.heap bytes'
    intro k b' live'
    by_cases second : k = j
    · subst second
      rw [update_self] at live' ⊢
      cases live'
      exact ⟨[], rfl, empty⟩
    · rw [update_of_ne second] at live' ⊢
      by_cases first : k = i
      · subst first
        rw [update_self] at live' ⊢
        cases live'
        exact ⟨bytes, rfl, holds⟩
      · rw [update_of_ne first] at live' ⊢
        exact inv.holds k b' live'
  · show ∀ k, update (update w.buffers i (some b)) j (some rest) k = none →
      update (update w.contents i (some bytes)) j (some []) k = none
    intro k dead'
    by_cases second : k = j
    · subst second
      rw [update_self] at dead'
      cases dead'
    · rw [update_of_ne second] at dead' ⊢
      by_cases first : k = i
      · subst first
        rw [update_self] at dead'
        cases dead'
      · rw [update_of_ne first] at dead' ⊢
        exact inv.dead k dead'
  · have owners : Memory.owner ⟨w.heap, update (update w.buffers i (some b)) j (some rest)⟩ =
        update (update w.owner i (w.owner j)) j none := by
      rw [owner_update ⟨w.heap, update w.buffers i (some b)⟩, owner_update, Option.bind_some, Option.bind_some, gives,
        takes, owner_of_live live]
    show Owned w.heap (Memory.owner ⟨w.heap, update (update w.buffers i (some b)) j (some rest)⟩)
    rw [owners]
    exact inv.owned.handOver ne (owner_of_dead dead)

/-! ## Every operation keeps it -/

/-- The outcome of an operation on a memory the invariant holds of. -/
def Sound (inlineCapacity : Nat) (w : World ι) (op : Op ι) (r : Except Fault (Memory ι)) : Prop :=
  ∃ m, r = .ok m ∧ Inv inlineCapacity ⟨m, op.effect w.contents⟩

theorem Inv.construct (inv : Inv inlineCapacity w) (dead : w.buffers i = none) :
    Sound inlineCapacity w (.construct i) (.ok (w.put i (w.heap, .construct inlineCapacity))) := by
  refine ⟨_, rfl, inv.put ?_ (HybridBuffer.construct_spec w.heap)⟩
  rw [owner_of_dead dead]
  exact HybridBuffer.transfer_inline (n := 0)

theorem Inv.write (inv : Inv inlineCapacity w) {b : HybridBuffer} {data : List UInt8} (live : w.buffers i = some b)
    (limit : b.size + data.length ≤ 2147483647) :
    Sound inlineCapacity w (.write i data) ((b.write inlineCapacity A data w.heap).map (w.put i)) := by
  obtain ⟨bytes, contents, holds⟩ := inv.holds i b live
  rw [(HybridBuffer.finalize_spec holds).2.1] at limit
  obtain ⟨h', b', done, holds', t, -⟩ := HybridBuffer.write_spec (A := A) data holds (by omega)
  rw [← owner_of_live live] at t
  refine ⟨w.put i (h', b'), by rw [done, Except.map], ?_⟩
  rw [Op.effect, contents]
  exact inv.put t holds'

theorem Inv.reserve (inv : Inv inlineCapacity w) {b : HybridBuffer} {num_bytes : Nat} (live : w.buffers i = some b)
    (limit : b.size + num_bytes < 4294967296) :
    Sound inlineCapacity w (.reserve i num_bytes) ((b.reserve inlineCapacity A num_bytes w.heap).map (w.put i)) := by
  obtain ⟨bytes, contents, holds⟩ := inv.holds i b live
  rw [(HybridBuffer.finalize_spec holds).2.1] at limit
  obtain ⟨h', b', done, holds', t, -⟩ := HybridBuffer.reserve_spec (A := A) holds (n := num_bytes) (by omega)
  rw [← owner_of_live live] at t
  refine ⟨w.put i (h', b'), by rw [done, Except.map], ?_⟩
  have same := inv.put t holds'
  rwa [← contents, update_eq_self] at same

theorem Inv.copyConstruct (inv : Inv inlineCapacity w) {b : HybridBuffer} (dead : w.buffers i = none)
    (source : w.buffers j = some b) :
    Sound inlineCapacity w (.copyConstruct i j)
      ((HybridBuffer.copyConstruct inlineCapacity A b w.heap).map (w.put i)) := by
  obtain ⟨bytes, contents, holds⟩ := inv.holds j b source
  obtain ⟨h', b', done, holds', t⟩ := HybridBuffer.copyConstruct_spec (A := A) holds
  rw [← owner_of_dead dead] at t
  refine ⟨w.put i (h', b'), by rw [done, Except.map], ?_⟩
  rw [Op.effect, contents]
  exact inv.put t holds'

theorem Inv.moveConstruct (inv : Inv inlineCapacity w) {b : HybridBuffer} (dead : w.buffers i = none)
    (source : w.buffers j = some b) :
    Sound inlineCapacity w (.moveConstruct i j)
      ((HybridBuffer.moveConstruct inlineCapacity b).map (w.toMemory.move i j w.heap)) := by
  have ne : i ≠ j := by
    intro same
    rw [same, source] at dead
    cases dead
  obtain ⟨bytes, contents, holds⟩ := inv.holds j b source
  obtain ⟨b', rest, done, holds', empty, takes, gives⟩ := HybridBuffer.moveConstruct_spec holds
  refine ⟨w.toMemory.move i j w.heap (b', rest), by rw [done, Except.map], ?_⟩
  rw [Op.effect, contents]
  exact inv.move ne dead source holds' empty takes gives

theorem Inv.copyAssign (inv : Inv inlineCapacity w) {a b : HybridBuffer} (live : w.buffers i = some a)
    (source : w.buffers j = some b) (ne : i ≠ j) :
    Sound inlineCapacity w (.copyAssign i j) (do
      let h ← a.destroy w.heap
      (HybridBuffer.copyConstruct inlineCapacity A b h).map (w.put i)) := by
  obtain ⟨old, -, holds⟩ := inv.holds i a live
  obtain ⟨h, destroyed, t⟩ := HybridBuffer.destroy_spec holds
  rw [← owner_of_live live] at t
  obtain ⟨bytes, contents, copied⟩ := inv.holds_other t ne.symm source
  obtain ⟨h', b', constructed, holds', t'⟩ := HybridBuffer.copyConstruct_spec (A := A) copied
  have gone := inv.remove t
  rw [← owner_of_dead (w := ⟨⟨h, update w.buffers i none⟩, update w.contents i none⟩) (i := i) (update_self ..)] at t'
  have done := gone.put t' holds'
  refine ⟨w.put i (h', b'), ?_, ?_⟩
  · simp only [destroyed, Bind.bind, Except.bind, constructed, Except.map]
  · simpa only [Memory.put, update_idem, Op.effect, contents] using done

theorem Inv.moveAssign (inv : Inv inlineCapacity w) {a b : HybridBuffer} (live : w.buffers i = some a)
    (source : w.buffers j = some b) (ne : i ≠ j) :
    Sound inlineCapacity w (.moveAssign i j) (do
      let h ← a.destroy w.heap
      (HybridBuffer.moveConstruct inlineCapacity b).map (w.toMemory.move i j h)) := by
  obtain ⟨old, -, holds⟩ := inv.holds i a live
  obtain ⟨h, destroyed, t⟩ := HybridBuffer.destroy_spec holds
  rw [← owner_of_live live] at t
  obtain ⟨bytes, contents, kept⟩ := inv.holds_other t ne.symm source
  obtain ⟨b', rest, constructed, holds', empty, takes, gives⟩ := HybridBuffer.moveConstruct_spec kept
  have done := (inv.remove t).move ne (update_self ..) ((update_of_ne ne.symm ..).trans source) holds' empty takes gives
  refine ⟨w.toMemory.move i j h (b', rest), ?_, ?_⟩
  · simp only [destroyed, Bind.bind, Except.bind, constructed, Except.map]
  · simpa only [Memory.move, update_idem, Op.effect, if_neg ne, contents] using done

theorem Inv.destroy (inv : Inv inlineCapacity w) {b : HybridBuffer} (live : w.buffers i = some b) :
    Sound inlineCapacity w (.destroy i) ((b.destroy w.heap).map fun h => ⟨h, update w.buffers i none⟩) := by
  obtain ⟨bytes, -, holds⟩ := inv.holds i b live
  obtain ⟨h', done, t⟩ := HybridBuffer.destroy_spec holds
  rw [← owner_of_live live] at t
  exact ⟨_, by rw [done, Except.map], inv.remove t⟩

theorem Inv.perform (inv : Inv inlineCapacity w) {op : Op ι} {r : Except Fault (Memory ι)}
    (enabled : perform inlineCapacity A w.toMemory op = some r) : Sound inlineCapacity w op r := by
  cases op with
  | construct i =>
    simp only [Message.perform] at enabled
    split at enabled
    · rename_i dead
      cases enabled
      exact inv.construct dead
    · cases enabled
  | write i data =>
    simp only [Message.perform] at enabled
    split at enabled
    · rename_i b live
      split at enabled
      · rename_i limit
        cases enabled
        exact inv.write live limit
      · cases enabled
    · cases enabled
  | reserve i num_bytes =>
    simp only [Message.perform] at enabled
    split at enabled
    · rename_i b live
      split at enabled
      · rename_i limit
        cases enabled
        exact inv.reserve live (by omega)
      · cases enabled
    · cases enabled
  | copyConstruct i j =>
    simp only [Message.perform] at enabled
    split at enabled
    · rename_i b dead source
      cases enabled
      exact inv.copyConstruct dead source
    · cases enabled
  | moveConstruct i j =>
    simp only [Message.perform] at enabled
    split at enabled
    · rename_i b dead source
      cases enabled
      exact inv.moveConstruct dead source
    · cases enabled
  | copyAssign i j =>
    simp only [Message.perform] at enabled
    split at enabled
    · rename_i a b live source
      split at enabled
      · rename_i same
        subst same
        cases enabled
        refine ⟨_, rfl, ?_⟩
        rw [Op.effect, update_eq_self]
        exact inv
      · rename_i ne
        cases enabled
        exact inv.copyAssign live source ne
    · cases enabled
  | moveAssign i j =>
    simp only [Message.perform] at enabled
    split at enabled
    · rename_i a b live source
      split at enabled
      · rename_i same
        cases enabled
        refine ⟨_, rfl, ?_⟩
        rw [Op.effect, if_pos same]
        exact inv
      · rename_i ne
        cases enabled
        exact inv.moveAssign live source ne
    · cases enabled
  | destroy i =>
    simp only [Message.perform] at enabled
    split at enabled
    · rename_i b live
      cases enabled
      exact inv.destroy live
    · cases enabled

theorem invariant : Invariant (system inlineCapacity A) fun s : Except Fault (World ι) => ∃ w, s = .ok w ∧ Inv inlineCapacity w := by
  apply invariant_of_actions
  · refine ⟨_, rfl, nofun, fun _ _ => rfl, ?_⟩
    exact owned_empty
  · rintro _ t op ⟨w, rfl, inv⟩ step
    simp only [exec, Option.map_eq_some_iff] at step
    obtain ⟨r, enabled, rfl⟩ := step
    obtain ⟨m, rfl, inv'⟩ := inv.perform enabled
    exact ⟨_, rfl, inv'⟩

/-- **Append-only bytes.** In every run no operation fails: none reads or writes past a
block, frees a block twice or uses it after that. Each live buffer's `finalize()` is
what the operations mean for it; in heap mode its block exists and has room; no block
has two owners, and none is without one. -/
theorem buffers_refine {s : Except Fault (World ι)} (reached : Reachable (system inlineCapacity A) s) :
    ∃ w, s = .ok w ∧
      (∀ i, w.contents i = none ↔ w.buffers i = none) ∧
      (∀ i b, w.buffers i = some b → ∃ bytes, w.contents i = some bytes ∧
        b.finalize inlineCapacity w.heap = .ok (bytes.map some) ∧ b.size = bytes.length ∧
        (b.isHeap = true → ∃ p block capacity, b.storage = .heap (some p) capacity ∧ w.heap.block p = some block ∧
          block.length = capacity ∧ b.size ≤ capacity)) ∧
      (∀ i j p, w.owner i = some p → w.owner j = some p → i = j) ∧
      ∀ p, w.heap.block p ≠ none → ∃ i, w.owner i = some p := by
  obtain ⟨w, rfl, inv⟩ := invariant.reachable reached
  refine ⟨w, rfl, ?_, ?_, inv.owned.separate, inv.owned.covered⟩
  · intro i
    constructor
    · intro gone
      cases live : w.buffers i with
      | none => rfl
      | some b =>
        obtain ⟨bytes, contents, -⟩ := inv.holds i b live
        cases gone.symm.trans contents
    · exact inv.dead i
  · intro i b live
    obtain ⟨bytes, contents, holds⟩ := inv.holds i b live
    exact ⟨bytes, contents, HybridBuffer.finalize_spec holds⟩

end

/-- Three buffers with an inline array of four bytes: a copy made in inline mode, a move
out of a heap buffer that is written to afterwards, and an assignment over a buffer. -/
theorem buffers_refine_three :
    ∃ s, Reachable (system 4 Allocator.bump) s ∧ ∃ w : World Nat, s = .ok w ∧
      w.contents 0 = some [6] ∧ w.contents 1 = some [1, 2, 3, 4, 5] ∧ w.contents 2 = none ∧
      ∀ i b, w.buffers i = some b → ∃ bytes, w.contents i = some bytes ∧
        b.finalize 4 w.heap = .ok (bytes.map some) := by
  have reached : Reachable (system 4 Allocator.bump) _ := reachable_of_actions start (exec 4 Allocator.bump)
    [.construct 0, .write 0 [1, 2, 3], .copyConstruct 1 0, .write 0 [4, 5], .moveConstruct 2 0, .write 0 [6],
      .copyAssign 1 2, .destroy 2] rfl
  obtain ⟨w, same, -, holds, -⟩ := buffers_refine reached
  refine ⟨_, reached, w, same, ?_, ?_, ?_, ?_⟩
  · cases same
    rfl
  · cases same
    rfl
  · cases same
    rfl
  · intro i b live
    obtain ⟨bytes, contents, final, -⟩ := holds i b live
    exact ⟨bytes, contents, final⟩

end Erl.Message
