import Erl.Lib.Ring
import Erl.Lib.Fifo
import Mathlib.Data.BitVec
import Mathlib.Logic.Function.Basic

/-!
# `BoundedMPMC` used by one thread

Here the positions and sequence numbers are the 64-bit words of the source
(`_impl/queue/mpmc_bounded.hpp`) and wrap around. `Represents` reads them as positions
counted from the start of the run, modulo `2 ^ 64`; the size divides `2 ^ 64`, so a
wrapped position still selects the slot of the unwrapped one. `moved` is what
`std::move` leaves in a cell.
-/

namespace Erl.Queue.MpmcSequential
open Fifo Function

/-- A capacity that leaves the sign bit of a difference to tell a full queue. -/
structure Capacity extends Ring.Size where
  size_le : size ≤ 2 ^ 63

/-- `cell_t`. -/
structure Cell (T : Type) where
  sequence : BitVec 64
  data : T

/-- The members of `BoundedMPMC<T, N>`. -/
structure BoundedMPMC (T : Type) where
  buffer : Nat → Cell T
  writePos : BitVec 64
  readPos : BitVec 64

/-- How an iteration of a retry loop ends: `break` with the position taken, `return false`,
or another iteration at a reloaded position. -/
inductive Attempt (T : Type) where
  | taken (queue : BoundedMPMC T) (pos : BitVec 64)
  | refused
  | again (pos : BitVec 64)

/-- The retry loop, given up after `fuel` iterations. -/
def retry {T : Type} (attempt : BitVec 64 → Attempt T) : Nat → BitVec 64 →
    Option (Option (BoundedMPMC T × BitVec 64))
  | 0, _ => none
  | fuel + 1, pos =>
    match attempt pos with
    | .taken queue pos => some (some (queue, pos))
    | .refused => some none
    | .again pos => retry attempt fuel pos

section
variable {T : Type} (N : Capacity) (moved : T → T)

/-- `buffer_mask = N - 1`. -/
def bufferMask : BitVec 64 := BitVec.ofNat 64 N.size - 1

/-- `pos & buffer_mask`. -/
def slot (pos : BitVec 64) : Nat := (pos &&& bufferMask N).toNat

/-- The constructor: cell `i` has sequence `i`. -/
def construct [Inhabited T] : BoundedMPMC T where
  buffer i := ⟨BitVec.ofNat 64 i, default⟩
  writePos := 0
  readPos := 0

/-- One iteration of the loop of `try_push`. -/
def pushAttempt (q : BoundedMPMC T) (pos : BitVec 64) : Attempt T :=
  let seq := (q.buffer (slot N pos)).sequence
  let dif := (seq - pos).toInt
  if dif = 0 then
    -- compare_exchange_weak reloads pos where it fails
    if q.writePos = pos then .taken { q with writePos := pos + 1 } pos else .again q.writePos
  else if dif < 0 then .refused
  else .again q.writePos

def tryPush (fuel : Nat) (q : BoundedMPMC T) (data : T) : Option (BoundedMPMC T × Bool) :=
  (retry (pushAttempt N q) fuel q.writePos).map fun
    | none => (q, false)
    | some (q, pos) => ({ q with buffer := update q.buffer (slot N pos) ⟨pos + 1, data⟩ }, true)

/-- One iteration of the loop of `try_pop`. -/
def popAttempt (q : BoundedMPMC T) (pos : BitVec 64) : Attempt T :=
  let seq := (q.buffer (slot N pos)).sequence
  let dif := (seq - (pos + 1)).toInt
  if dif = 0 then
    if q.readPos = pos then .taken { q with readPos := pos + 1 } pos else .again q.readPos
  else if dif < 0 then .refused
  else .again q.readPos

/-- `try_pop`, with the value constructed at the target where it returns true. -/
def tryPop (fuel : Nat) (q : BoundedMPMC T) : Option (BoundedMPMC T × Option T) :=
  (retry (popAttempt N q) fuel q.readPos).map fun
    | none => (q, none)
    | some (q, pos) =>
      let data := (q.buffer (slot N pos)).data
      let cell := ⟨pos + bufferMask N + 1, moved data⟩
      ({ q with buffer := update q.buffer (slot N pos) cell }, some data)

def isEmpty (q : BoundedMPMC T) : Bool :=
  let pos := q.readPos
  let seq := (q.buffer (slot N pos)).sequence
  let dif := (seq - (pos + 1)).toInt
  dif < 0

/-- One call, whose loop may make `fuel` iterations. -/
def exec (fuel : Nat) (q : BoundedMPMC T) : Call T → Option (BoundedMPMC T × Answer T)
  | .push data => (tryPush N fuel q data).map fun (q, ok) => (q, .pushed ok)
  | .pop => (tryPop N moved fuel q).map fun (q, value) => (q, .popped value)
  | .isEmpty => some (q, .empty (isEmpty N q))

/-- The words are the positions `read` and `read + stored.length` modulo `2 ^ 64`. The cells
between them hold the elements, the next ones up to a lap ahead wait for their pushes. -/
structure Represents (q : BoundedMPMC T) (stored : List T) (read : Nat) : Prop where
  readPos : q.readPos = BitVec.ofNat 64 read
  writePos : q.writePos = BitVec.ofNat 64 (read + stored.length)
  length_le : stored.length ≤ N.size
  full : ∀ i (h : i < stored.length),
    q.buffer ((read + i) % N.size) = ⟨BitVec.ofNat 64 (read + i + 1), stored[i]⟩
  free : ∀ p, read + stored.length ≤ p → p < read + N.size →
    (q.buffer (p % N.size)).sequence = BitVec.ofNat 64 p

/-- The queue holds the elements, whatever the number of values read so far. -/
def Stores (q : BoundedMPMC T) (stored : List T) : Prop := ∃ read, Represents N q stored read

theorem Capacity.dvd_word : N.size ∣ 2 ^ 64 := by
  obtain ⟨k, hk⟩ := N.isPowerOfTwo
  rw [hk]
  apply Nat.pow_dvd_pow
  by_contra h
  have : 2 ^ 65 ≤ 2 ^ k := Nat.pow_le_pow_right Nat.two_pos (by omega)
  have := N.size_le
  omega

theorem bufferMask_toNat : (bufferMask N).toNat = N.mask := by
  have := N.two_le
  have := N.size_le
  simp only [bufferMask, Ring.Size.mask]
  bv_omega

/-- A position taken modulo `2 ^ 64` selects the slot of the position. -/
@[simp] theorem slot_ofNat (p : Nat) : slot N (BitVec.ofNat 64 p) = p % N.size := by
  rw [slot, BitVec.toNat_and, bufferMask_toNat, BitVec.toNat_ofNat, N.and_mask]
  exact Nat.mod_mod_of_dvd p N.dvd_word

theorem succ_ofNat (p : Nat) : BitVec.ofNat 64 p + 1 = BitVec.ofNat 64 (p + 1) := (BitVec.ofNat_add p 1).symm

/-- A pop stores the sequence of the position one lap ahead. -/
theorem add_bufferMask (p : Nat) :
    BitVec.ofNat 64 p + bufferMask N + 1 = BitVec.ofNat 64 (p + N.size) := by
  rw [bufferMask, BitVec.add_assoc, BitVec.sub_add_cancel, BitVec.ofNat_add]

/-- The signed difference of positions less than `2 ^ 63` apart. -/
theorem toInt_sub_ahead (p d : Nat) (h : d < 2 ^ 63) :
    (BitVec.ofNat 64 p - BitVec.ofNat 64 (p + d)).toInt = -(d : Int) := by
  have : BitVec.ofNat 64 p - BitVec.ofNat 64 (p + d) = BitVec.ofInt 64 (-(d : Int)) := by
    rw [BitVec.ofNat_add, BitVec.ofInt_neg, BitVec.ofInt_natCast]
    bv_omega
  rw [this, BitVec.toInt_ofInt_eq_self (by decide)] <;> omega

/-! ## One call -/

variable {N} {q : BoundedMPMC T} {stored : List T} {read : Nat}

theorem represents_construct [Inhabited T] : Represents N (construct : BoundedMPMC T) [] 0 where
  readPos := rfl
  writePos := rfl
  length_le := Nat.zero_le _
  full i h := absurd h (Nat.not_lt_zero i)
  free p _ hi := by
    rw [Nat.zero_add] at hi
    rw [Nat.mod_eq_of_lt hi]
    rfl

/-- Below the capacity the cell at the write position waits for the push. -/
theorem Represents.dif_room (rep : Represents N q stored read) (room : stored.length < N.size) :
    ((q.buffer (slot N q.writePos)).sequence - q.writePos).toInt = 0 := by
  have waits := rep.free (read + stored.length) (Nat.le_refl _) (by omega)
  rw [rep.writePos, slot_ofNat, waits, BitVec.sub_self]
  rfl

/-- At the capacity it holds the element written one lap before. -/
theorem Represents.dif_full (rep : Represents N q stored read) (full : stored.length = N.size) :
    ((q.buffer (slot N q.writePos)).sequence - q.writePos).toInt = -((N.size - 1 : Nat) : Int) := by
  have large := N.two_le
  have small := N.size_le
  have lap : q.writePos = BitVec.ofNat 64 (read + 1 + (N.size - 1)) := by
    rw [rep.writePos, full]
    congr 1
    omega
  have oldest : (q.buffer (slot N q.writePos)).sequence = BitVec.ofNat 64 (read + 1) := by
    rw [rep.writePos, slot_ofNat, full, Nat.add_mod_right]
    exact congrArg Cell.sequence (rep.full 0 (by omega))
  rw [oldest, lap]
  exact toInt_sub_ahead _ _ (by omega)

/-- The cell at the read position holds the oldest element. -/
theorem Represents.oldest {value : T} {rest : List T} (rep : Represents N q (value :: rest) read) :
    q.buffer (slot N q.readPos) = ⟨q.readPos + 1, value⟩ := by
  have oldest := rep.full 0 (Nat.succ_pos _)
  rw [rep.readPos, slot_ofNat, succ_ofNat]
  exact oldest

/-- In an empty queue it waits for a push. -/
theorem Represents.dif_empty (rep : Represents N q [] read) :
    ((q.buffer (slot N q.readPos)).sequence - (q.readPos + 1)).toInt = -1 := by
  have waits := rep.free read (Nat.le_refl _) (by have := N.pos; omega)
  rw [rep.readPos, slot_ofNat, waits, succ_ofNat]
  exact toInt_sub_ahead read 1 (by decide)

theorem Represents.pushAttempt_taken (rep : Represents N q stored read) (room : stored.length < N.size) :
    pushAttempt N q q.writePos = .taken { q with writePos := q.writePos + 1 } q.writePos := by
  simp only [pushAttempt, rep.dif_room room, if_true]

theorem Represents.pushAttempt_refused (rep : Represents N q stored read) (full : stored.length = N.size) :
    pushAttempt N q q.writePos = .refused := by
  have negative : -((N.size - 1 : Nat) : Int) < 0 := by have := N.two_le; omega
  simp only [pushAttempt, rep.dif_full full, if_neg (Int.ne_of_lt negative), if_pos negative]

theorem Represents.popAttempt_taken {value : T} {rest : List T} (rep : Represents N q (value :: rest) read) :
    popAttempt N q q.readPos = .taken { q with readPos := q.readPos + 1 } q.readPos := by
  simp only [popAttempt, rep.oldest, BitVec.sub_self, BitVec.toInt_zero, if_true]

theorem Represents.popAttempt_refused (rep : Represents N q [] read) : popAttempt N q q.readPos = .refused := by
  simp only [popAttempt, rep.dif_empty]
  rfl

theorem Represents.isEmpty_eq (rep : Represents N q stored read) : isEmpty N q = stored.isEmpty := by
  cases stored with
  | nil =>
    simp only [isEmpty, rep.dif_empty]
    rfl
  | cons value rest =>
    simp only [isEmpty, rep.oldest, BitVec.sub_self, BitVec.toInt_zero]
    rfl

/-- A push fills the first waiting cell. -/
theorem Represents.push (rep : Represents N q stored read) (room : stored.length < N.size) (data : T) :
    Represents N { q with
      writePos := q.writePos + 1
      buffer := update q.buffer (slot N q.writePos) ⟨q.writePos + 1, data⟩ } (stored ++ [data]) read := by
  have here : slot N q.writePos = (read + stored.length) % N.size := by rw [rep.writePos, slot_ofNat]
  have next : q.writePos + 1 = BitVec.ofNat 64 (read + stored.length + 1) := by
    rw [rep.writePos, succ_ofNat]
  have other {p : Nat} (lo : read ≤ p) (hi : p < read + N.size) (ne : p ≠ read + stored.length) :
      p % N.size ≠ slot N q.writePos := by
    intro same
    rw [here] at same
    exact ne (Ring.eq_of_slot_eq read lo hi (by omega) (by omega) same)
  refine ⟨rep.readPos, ?_, ?_, ?_, ?_⟩
  · rw [List.length_append, ← Nat.add_assoc]
    exact next
  · rw [List.length_append]
    exact room
  · intro i h
    rw [List.length_append, List.length_singleton] at h
    rcases Nat.lt_succ_iff_lt_or_eq.mp h with old | rfl
    · have ne := other (p := read + i) (by omega) (by omega) (by omega)
      simp only [update_of_ne ne, rep.full i old, List.getElem_append_left old]
    · simp only [← here, update_self, next, List.getElem_concat_length]
  · intro p lo hi
    rw [List.length_append, List.length_singleton] at lo
    have ne := other (p := p) (by omega) hi (by omega)
    simp only [update_of_ne ne]
    exact rep.free p (by omega) hi

/-- A pop leaves its cell to the push one lap ahead. -/
theorem Represents.pop (moved : T → T) {value : T} {rest : List T} (rep : Represents N q (value :: rest) read) :
    Represents N { q with
      readPos := q.readPos + 1
      buffer := update q.buffer (slot N q.readPos) ⟨q.readPos + bufferMask N + 1, moved value⟩ } rest (read + 1) := by
  have length : (value :: rest).length = rest.length + 1 := rfl
  have bound := rep.length_le
  have here : slot N q.readPos = read % N.size := by rw [rep.readPos, slot_ofNat]
  have other {p : Nat} (lo : read < p) (hi : p < read + N.size) : p % N.size ≠ slot N q.readPos := by
    intro same
    rw [here] at same
    have := Ring.eq_of_slot_eq read (by omega) hi (Nat.le_refl _) (by omega) same
    omega
  refine ⟨?_, ?_, by omega, ?_, ?_⟩
  · rw [rep.readPos, succ_ofNat]
  · rw [rep.writePos, length]
    congr 1
    omega
  · intro i h
    have ne := other (p := read + 1 + i) (by omega) (by omega)
    have old := rep.full (i + 1) (by omega)
    rw [show read + (i + 1) = read + 1 + i by omega] at old
    simp only [update_of_ne ne, old, List.getElem_cons_succ]
  · intro p lo hi
    rcases Nat.lt_or_ge p (read + N.size) with old | lap
    · simp only [update_of_ne (other (by omega) old)]
      exact rep.free p (by omega) old
    · have at_lap : p = read + N.size := by omega
      have same : p % N.size = slot N q.readPos := by rw [here, at_lap, Nat.add_mod_right]
      simp only [same, update_self]
      rw [rep.readPos, add_bufferMask, at_lap]

end

section
variable {T : Type} {N : Capacity}

/-- Every call answers as the abstract queue does, in one iteration of its loop. -/
theorem exec_step (moved : T → T) (fuel : Nat) {q : BoundedMPMC T} {stored : List T} (call : Call T)
    (rep : Stores N q stored) :
    ∃ t, exec N moved (fuel + 1) q call = some (t, (step N.size stored call).2) ∧
      Stores N t (step N.size stored call).1 := by
  obtain ⟨read, rep⟩ := rep
  cases call with
  | push data =>
    rcases Nat.lt_or_eq_of_le rep.length_le with room | full
    · have stored_next := rep.push room data
      rw [step, if_neg (Nat.ne_of_lt room)]
      refine ⟨_, ?_, read, stored_next⟩
      simp [exec, tryPush, retry, rep.pushAttempt_taken room]
    · rw [step, if_pos full]
      exact ⟨q, by simp [exec, tryPush, retry, rep.pushAttempt_refused full], read, rep⟩
  | pop =>
    cases stored with
    | nil => exact ⟨q, by simp [exec, tryPop, retry, rep.popAttempt_refused, step], read, rep⟩
    | cons value rest =>
      refine ⟨_, ?_, read + 1, rep.pop moved⟩
      simp [exec, tryPop, retry, rep.popAttempt_taken, step, rep.oldest]
  | isEmpty => exact ⟨q, by simp [exec, step, rep.isEmpty_eq], read, rep⟩

/-- **Main result.** From the constructed state every sequence of calls gets the answers of
a queue that holds up to `N` elements, also where the words wrap around; with one
iteration allowed to each loop (`fuel = 0`) as with more. Values come out in push order. -/
theorem boundedMPMC_is_fifo [Inhabited T] (N : Capacity) (moved : T → T) (calls : List (Call T)) (fuel : Nat) :
    ∃ q answers rest, runOn (exec N moved (fuel + 1)) construct calls = some (q, answers) ∧
      run N.size [] calls = (rest, answers) ∧ delivered answers ++ rest = accepted calls answers := by
  have start : Stores N (construct : BoundedMPMC T) [] := ⟨0, represents_construct⟩
  obtain ⟨q, answered, -⟩ := runOn_refines (exec_step moved fuel) calls start
  exact ⟨q, _, _, answered, rfl, delivered_append_stored N.size calls []⟩

end

end Erl.Queue.MpmcSequential
