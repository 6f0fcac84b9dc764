import Erl.Lib.System
import Erl.Lib.Ring
import Mathlib.Logic.Function.Basic

/-!
# `BoundedSPSC` under every interleaving

One producer thread runs `try_push`, one consumer thread runs `try_pop`; the steps are
their atomic loads and stores and the element copies (`_impl/queue/spsc_bounded.hpp`).
The histories `pushed` and `popped` and the positions at the last loads of the cached
indices are ghost state: no step reads them. `Inv` relates the four indices, taken
modulo the capacity, to positions counted from the start of the run.
-/

namespace Erl.Queue.Spsc
open TransitionSystem Function

/-- The members of `BoundedSPSC<T, N>`. -/
structure BoundedSPSC (T : Type) where
  buffer : Nat → T
  writePos : Nat
  writePosCached : Nat
  readPos : Nat
  readPosCached : Nat

/-- Where the producer is inside `try_push(data)`: about to load `read_pos`, to copy
the element into slot `pos`, or to store `write_pos`. -/
inductive Producer (T : Type) where
  | idle
  | reload (data : T) (pos : Nat)
  | construct (data : T) (pos : Nat)
  | publish (data : T) (pos : Nat)

/-- Where the consumer is inside `try_pop`. -/
inductive Consumer (T : Type) where
  | idle
  | reload (pos : Nat)
  | copy (pos : Nat)
  | publish (value : T) (pos : Nat)

structure State (T : Type) where
  queue : BoundedSPSC T
  producer : Producer T
  consumer : Consumer T
  /-- Values of successful pushes, in order. -/
  pushed : List T
  /-- Values delivered by successful pops, in order. -/
  popped : List T
  /-- Number of pops done when the producer last loaded `read_pos`. -/
  readSeen : Nat
  /-- Number of pushes done when the consumer last loaded `write_pos`. -/
  writeSeen : Nat

/-- Which thread moves: `push` and `pop` begin a call, the others continue it. -/
inductive Action (T : Type) where
  | push (data : T)
  | producer
  | pop
  | consumer

section
variable {T : Type} (N : Ring.Size)

/-- `try_push` up to its first decision: load `write_pos`, compare `next` with
`read_pos_cached`. -/
def beginPush (s : State T) (data : T) : State T :=
  let pos := s.queue.writePos
  let next := (pos + 1) &&& N.mask
  { s with producer := if next = s.queue.readPosCached then .reload data pos else .construct data pos }

/-- Load `read_pos` into `read_pos_cached`; still full means `return false`. -/
def reloadRead (s : State T) (data : T) (pos : Nat) : State T :=
  let next := (pos + 1) &&& N.mask
  { s with
    queue.readPosCached := s.queue.readPos
    producer := if next = s.queue.readPos then .idle else .construct data pos
    readSeen := s.popped.length }

/-- `new (buffer + pos) T(data)`. -/
def constructElement (s : State T) (data : T) (pos : Nat) : State T :=
  { s with queue.buffer := update s.queue.buffer pos data, producer := .publish data pos }

/-- `write_pos.store(next)`, `return true`. -/
def publishPush (s : State T) (data : T) (pos : Nat) : State T :=
  { s with
    queue.writePos := (pos + 1) &&& N.mask
    producer := .idle
    pushed := s.pushed ++ [data] }

/-- `try_pop` up to its first decision: load `read_pos`, compare it with
`write_pos_cached`. -/
def beginPop (s : State T) : State T :=
  let pos := s.queue.readPos
  { s with consumer := if pos = s.queue.writePosCached then .reload pos else .copy pos }

/-- Load `write_pos` into `write_pos_cached`; still empty means `return false`. -/
def reloadWrite (s : State T) (pos : Nat) : State T :=
  { s with
    queue.writePosCached := s.queue.writePos
    consumer := if pos = s.queue.writePos then .idle else .copy pos
    writeSeen := s.pushed.length }

/-- `new (target) T(buffer[pos])`. -/
def copyElement (s : State T) (pos : Nat) : State T :=
  { s with consumer := .publish (s.queue.buffer pos) pos }

/-- `read_pos.store(next)`, `return true`. -/
def publishPop (s : State T) (value : T) (pos : Nat) : State T :=
  { s with
    queue.readPos := (pos + 1) &&& N.mask
    consumer := .idle
    popped := s.popped ++ [value] }

/-- One step, if the thread named by the action can take it. -/
def exec (s : State T) : Action T → Option (State T)
  | .push data =>
    match s.producer with
    | .idle => some (beginPush N s data)
    | _ => none
  | .producer =>
    match s.producer with
    | .idle => none
    | .reload data pos => some (reloadRead N s data pos)
    | .construct data pos => some (constructElement s data pos)
    | .publish data pos => some (publishPush N s data pos)
  | .pop =>
    match s.consumer with
    | .idle => some (beginPop s)
    | _ => none
  | .consumer =>
    match s.consumer with
    | .idle => none
    | .reload pos => some (reloadWrite s pos)
    | .copy pos => some (copyElement s pos)
    | .publish value pos => some (publishPop N s value pos)

/-- The constructed queue, with both threads outside any call. -/
def start [Inhabited T] : State T where
  queue := ⟨fun _ => default, 0, 0, 0, 0⟩
  producer := .idle
  consumer := .idle
  pushed := []
  popped := []
  readSeen := 0
  writeSeen := 0

/-- Any interleaving of the two threads, each making any calls. -/
def system [Inhabited T] : System (State T) := ofActions start (exec N)

/-- What the producer knows at each point of `try_push`. -/
def ProducerInv (s : State T) : Prop :=
  match s.producer with
  | .idle => True
  | .reload _ pos => pos = s.pushed.length % N.size
  | .construct _ pos => pos = s.pushed.length % N.size ∧ s.pushed.length + 1 < s.readSeen + N.size
  | .publish data pos =>
    pos = s.pushed.length % N.size ∧ s.pushed.length + 1 < s.readSeen + N.size ∧ s.queue.buffer pos = data

/-- What the consumer knows at each point of `try_pop`. -/
def ConsumerInv (s : State T) : Prop :=
  match s.consumer with
  | .idle => True
  | .reload pos => pos = s.popped.length % N.size
  | .copy pos => pos = s.popped.length % N.size ∧ s.popped.length < s.writeSeen
  | .publish value pos =>
    pos = s.popped.length % N.size ∧ s.popped.length < s.writeSeen ∧ s.pushed[s.popped.length]? = some value

/-- The indices are positions modulo the capacity, the cached ones lag behind, and
the slots between the two positions hold the elements not yet popped. -/
structure Inv (s : State T) : Prop where
  writePos : s.queue.writePos = s.pushed.length % N.size
  readPos : s.queue.readPos = s.popped.length % N.size
  readPosCached : s.queue.readPosCached = s.readSeen % N.size
  writePosCached : s.queue.writePosCached = s.writeSeen % N.size
  readSeen_le : s.readSeen ≤ s.popped.length
  writeSeen_le : s.writeSeen ≤ s.pushed.length
  room : s.pushed.length < s.readSeen + N.size
  popped_le : s.popped.length ≤ s.writeSeen
  stored : ∀ a, s.popped.length ≤ a → a < s.pushed.length → s.pushed[a]? = some (s.queue.buffer (a % N.size))
  order : s.popped <+: s.pushed
  producer : ProducerInv N s
  consumer : ConsumerInv N s

theorem inv_start [Inhabited T] : Inv N (start : State T) where
  writePos := (Nat.zero_mod _).symm
  readPos := (Nat.zero_mod _).symm
  readPosCached := (Nat.zero_mod _).symm
  writePosCached := (Nat.zero_mod _).symm
  readSeen_le := Nat.le_refl _
  writeSeen_le := Nat.le_refl _
  room := by simp [start, N.pos]
  popped_le := Nat.le_refl _
  stored a _ h := absurd h (Nat.not_lt_zero a)
  order := List.prefix_refl _
  producer := trivial
  consumer := trivial

variable {N} {s : State T}

/-- A `next` that differs from the slot of a position the producer may not pass
leaves room for one more element. -/
theorem room_of_next_ne {write read : Nat} (room : write < read + N.size)
    (ne : (write % N.size + 1) &&& N.mask ≠ read % N.size) : write + 1 < read + N.size := by
  have next : write + 1 ≠ read + N.size := by
    intro full
    apply ne
    rw [N.and_mask, Nat.mod_add_mod, full, Nat.add_mod_right]
  omega

theorem Inv.beginPush (inv : Inv N s) (data : T) : Inv N (beginPush N s data) := by
  refine { inv with producer := ?_ }
  simp only [ProducerInv, Spsc.beginPush, inv.writePos, inv.readPosCached]
  by_cases full : (s.pushed.length % N.size + 1) &&& N.mask = s.readSeen % N.size
  · simp only [full, if_true]
  · simp only [full, if_false]
    exact ⟨trivial, room_of_next_ne inv.room full⟩

theorem Inv.reloadRead (inv : Inv N s) {data : T} {pos : Nat} (pc : s.producer = .reload data pos) :
    Inv N (reloadRead N s data pos) := by
  have known := inv.producer
  simp only [ProducerInv, pc] at known
  subst known
  have room : s.pushed.length < s.popped.length + N.size := by
    have := inv.room
    have := inv.readSeen_le
    omega
  refine { inv with
    readPosCached := inv.readPos
    readSeen_le := Nat.le_refl _
    room := room
    producer := ?_ }
  simp only [ProducerInv, Spsc.reloadRead, inv.readPos]
  by_cases full : (s.pushed.length % N.size + 1) &&& N.mask = s.popped.length % N.size
  · simp only [full, if_true]
  · simp only [full, if_false]
    exact ⟨trivial, room_of_next_ne room full⟩

/-- The slot the producer writes is none of the slots still to be read. -/
theorem Inv.construct_free (inv : Inv N s) {data : T} {pos : Nat} (pc : s.producer = .construct data pos) {a : Nat}
    (lo : s.popped.length ≤ a) (hi : a < s.pushed.length) : a % N.size ≠ pos := by
  have known := inv.producer
  simp only [ProducerInv, pc] at known
  obtain ⟨rfl, room⟩ := known
  have := inv.readSeen_le
  intro same
  have := Ring.eq_of_slot_eq s.popped.length lo (by omega) (by omega) (by omega) same
  omega

theorem Inv.constructElement (inv : Inv N s) {data : T} {pos : Nat} (pc : s.producer = .construct data pos) :
    Inv N (constructElement s data pos) := by
  have free {a : Nat} := inv.construct_free pc (a := a)
  have known := inv.producer
  simp only [ProducerInv, pc] at known
  refine { inv with stored := ?_, producer := ⟨known.1, known.2, update_self ..⟩ }
  intro a lo hi
  simp only [Spsc.constructElement, update_of_ne (free lo hi)]
  exact inv.stored a lo hi

theorem Inv.publishPush (inv : Inv N s) {data : T} {pos : Nat} (pc : s.producer = .publish data pos) :
    Inv N (publishPush N s data pos) := by
  have known := inv.producer
  simp only [ProducerInv, pc] at known
  obtain ⟨rfl, room, written⟩ := known
  have more : (s.pushed ++ [data]).length = s.pushed.length + 1 := by simp
  have kept {a : Nat} {v : T} (h : s.pushed[a]? = some v) : (s.pushed ++ [data])[a]? = some v := by
    rw [List.getElem?_append_left (List.getElem?_eq_some_iff.mp h).1]
    exact h
  refine { inv with
    writePos := ?_
    writeSeen_le := ?_
    room := ?_
    stored := ?_
    order := inv.order.trans (List.prefix_append ..)
    producer := trivial
    consumer := ?_ }
  · simp only [Spsc.publishPush, more, N.and_mask, Nat.mod_add_mod]
  · simp only [Spsc.publishPush, more]
    exact Nat.le_succ_of_le inv.writeSeen_le
  · simp only [Spsc.publishPush, more]
    exact room
  · intro a lo hi
    simp only [Spsc.publishPush, more] at lo hi ⊢
    rcases Nat.lt_succ_iff_lt_or_eq.mp hi with old | rfl
    · exact kept (inv.stored a lo old)
    · simp [written]
  · have reader := inv.consumer
    simp only [ConsumerInv, Spsc.publishPush] at reader ⊢
    cases hc : s.consumer with
    | publish value pos =>
      simp only [hc] at reader ⊢
      exact ⟨reader.1, reader.2.1, kept reader.2.2⟩
    | idle => trivial
    | reload pos | copy pos => simpa only [hc] using reader

theorem Inv.beginPop (inv : Inv N s) : Inv N (beginPop s) := by
  refine { inv with consumer := ?_ }
  simp only [ConsumerInv, Spsc.beginPop, inv.readPos, inv.writePosCached]
  by_cases empty : s.popped.length % N.size = s.writeSeen % N.size
  · simp only [empty, if_true]
  · simp only [empty, if_false]
    have ne : s.popped.length ≠ s.writeSeen := fun h => empty (h ▸ rfl)
    have := inv.popped_le
    exact ⟨trivial, by omega⟩

theorem Inv.reloadWrite (inv : Inv N s) {pos : Nat} (pc : s.consumer = .reload pos) :
    Inv N (reloadWrite s pos) := by
  have known := inv.consumer
  simp only [ConsumerInv, pc] at known
  subst known
  have behind : s.popped.length ≤ s.pushed.length := Nat.le_trans inv.popped_le inv.writeSeen_le
  refine { inv with
    writePosCached := inv.writePos
    writeSeen_le := Nat.le_refl _
    popped_le := behind
    consumer := ?_ }
  simp only [ConsumerInv, Spsc.reloadWrite, inv.writePos]
  by_cases empty : s.popped.length % N.size = s.pushed.length % N.size
  · simp only [empty, if_true]
  · simp only [empty, if_false]
    have ne : s.popped.length ≠ s.pushed.length := fun h => empty (h ▸ rfl)
    exact ⟨trivial, by omega⟩

theorem Inv.copyElement (inv : Inv N s) {pos : Nat} (pc : s.consumer = .copy pos) : Inv N (copyElement s pos) := by
  have known := inv.consumer
  simp only [ConsumerInv, pc] at known
  obtain ⟨rfl, ahead⟩ := known
  exact { inv with
    consumer := ⟨rfl, ahead, inv.stored _ (Nat.le_refl _) (Nat.lt_of_lt_of_le ahead inv.writeSeen_le)⟩ }

theorem Inv.publishPop (inv : Inv N s) {value : T} {pos : Nat} (pc : s.consumer = .publish value pos) :
    Inv N (publishPop N s value pos) := by
  have known := inv.consumer
  simp only [ConsumerInv, pc] at known
  obtain ⟨rfl, ahead, next⟩ := known
  have more : (s.popped ++ [value]).length = s.popped.length + 1 := by simp
  refine { inv with
    readPos := ?_
    readSeen_le := ?_
    popped_le := ?_
    stored := ?_
    order := ?_
    consumer := trivial }
  · simp only [Spsc.publishPop, more, N.and_mask, Nat.mod_add_mod]
  · simp only [Spsc.publishPop, more]
    exact Nat.le_succ_of_le inv.readSeen_le
  · simp only [Spsc.publishPop, more]
    exact ahead
  · intro a lo hi
    simp only [Spsc.publishPop, more] at lo hi ⊢
    exact inv.stored a (by omega) hi
  · have taken := List.prefix_iff_eq_take.mp inv.order
    obtain ⟨bound, here⟩ := List.getElem?_eq_some_iff.mp next
    apply List.prefix_iff_eq_take.mpr
    simp only [Spsc.publishPop, more]
    rw [List.take_succ_eq_append_getElem bound, here, ← taken]

/-- Every step of either thread keeps the invariant. -/
theorem Inv.step (inv : Inv N s) {t : State T} {a : Action T} (h : exec N s a = some t) : Inv N t := by
  cases a with
  | push data =>
    cases pc : s.producer <;> simp only [exec, pc] at h <;> cases h
    exact inv.beginPush data
  | producer =>
    cases pc : s.producer <;> simp only [exec, pc] at h <;> cases h
    · exact inv.reloadRead pc
    · exact inv.constructElement pc
    · exact inv.publishPush pc
  | pop =>
    cases pc : s.consumer <;> simp only [exec, pc] at h <;> cases h
    exact inv.beginPop
  | consumer =>
    cases pc : s.consumer <;> simp only [exec, pc] at h <;> cases h
    · exact inv.reloadWrite pc
    · exact inv.copyElement pc
    · exact inv.publishPop pc

theorem invariant [Inhabited T] : Invariant (system (T := T) N) (Inv N) :=
  invariant_of_actions (inv_start N) fun _ _ _ inv h => inv.step h

/-- **Lossless FIFO.** In every reachable state: the popped values are a prefix of the
pushed ones; the slot being written holds no element still to be popped; the slot being
read holds the next element, finished before and not being rewritten; the cached indices
are positions the real ones have reached, so a push that goes ahead finds a free slot
and a pop that goes ahead finds an element. -/
theorem fifo [Inhabited T] (h : Reachable (system N) s) :
    s.popped <+: s.pushed ∧
    (∀ data pos, s.producer = .construct data pos →
      ∀ a, s.popped.length ≤ a → a < s.pushed.length → a % N.size ≠ pos) ∧
    (∀ pos, s.consumer = .copy pos → pos = s.popped.length % N.size ∧
      s.pushed[s.popped.length]? = some (s.queue.buffer pos) ∧
      ∀ data other, s.producer = .construct data other ∨ s.producer = .publish data other → other ≠ pos) ∧
    (s.queue.readPos = s.popped.length % N.size ∧ s.queue.readPosCached = s.readSeen % N.size ∧
      s.readSeen ≤ s.popped.length) ∧
    (s.queue.writePos = s.pushed.length % N.size ∧ s.queue.writePosCached = s.writeSeen % N.size ∧
      s.writeSeen ≤ s.pushed.length) ∧
    (∀ data pos, s.producer = .construct data pos → s.pushed.length + 1 < s.popped.length + N.size) ∧
    ∀ pos, s.consumer = .copy pos → s.popped.length < s.pushed.length := by
  have inv := invariant.reachable h
  have writer := inv.producer
  have reader := inv.consumer
  have lag := inv.readSeen_le
  have behind := inv.writeSeen_le
  refine ⟨inv.order, fun data pos pc a => inv.construct_free pc, ?_,
    ⟨inv.readPos, inv.readPosCached, lag⟩, ⟨inv.writePos, inv.writePosCached, behind⟩, ?_, ?_⟩
  · intro pos pc
    simp only [ConsumerInv, pc] at reader
    obtain ⟨rfl, ahead⟩ := reader
    refine ⟨rfl, inv.stored _ (Nat.le_refl _) (by omega), ?_⟩
    intro data other at_work same
    have room : other = s.pushed.length % N.size ∧ s.pushed.length + 1 < s.readSeen + N.size := by
      rcases at_work with pc' | pc' <;> simp only [ProducerInv, pc'] at writer
      · exact writer
      · exact ⟨writer.1, writer.2.1⟩
    have := Ring.eq_of_slot_eq s.popped.length (Nat.le_refl _) (by omega) (by omega) (by omega)
      (same.symm.trans room.1)
    omega
  · intro data pos pc
    simp only [ProducerInv, pc] at writer
    omega
  · intro pos pc
    simp only [ConsumerInv, pc] at reader
    omega

end

/-- Two slots: one value goes through, and a second push finds the queue full only
until the first value is popped. -/
theorem fifo_two : ∃ s : State Nat, Reachable (system Ring.Size.two) s ∧
    s.popped = [7] ∧ s.pushed = [7, 8] ∧ s.popped <+: s.pushed := by
  have reached : Reachable (system Ring.Size.two) _ := reachable_of_actions start (exec Ring.Size.two)
    [.push 7, .producer, .producer, .push 8, .producer, .pop, .consumer, .consumer, .consumer,
      .push 8, .producer, .producer, .producer] rfl
  exact ⟨_, reached, rfl, rfl, (fifo reached).1⟩

end Erl.Queue.Spsc
