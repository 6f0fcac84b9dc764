import Mathlib.Data.List.Nodup
import Mathlib.Data.List.Range
import Mathlib.Order.Basic

/-!
# `Client::receive`

The loop of `src/net/tcp.linux.cpp` that reads from a socket until an amount has come or a
read fails. Every read starts at the front of the buffer, so an amount that comes in pieces
ends up with the last piece there and the others overwritten.
-/

namespace Erl.Net

/-- `::read` of `asked` bytes, where `grant` is what the kernel has for this call: 0 at the end
of the stream and a negative number for an error. -/
def read (grant : Int) (asked : Nat) : Int := min grant asked

/-- The memory that `buffer` points to, and the number of bytes read. `written` lists the
offsets in the order in which they were written. -/
structure Reception where
  memory : Nat → UInt8
  written : List Nat
  total_read : Nat

/-- `read` has returned `n` bytes, which are the next ones of the stream. -/
def Reception.put (r : Reception) (stream : Nat → UInt8) (n : Nat) : Reception where
  memory i := if i < n then stream (r.total_read + i) else r.memory i
  written := r.written ++ List.range n
  total_read := r.total_read + n

section
variable (stream : Nat → UInt8) (grants : Nat → Int) (amount : Nat)

/-- The loop, after `calls` reads. -/
def receiveLoop : Nat → Nat → Reception → Option Reception
  | 0, _, _ => none
  | fuel + 1, calls, r =>
    let amount_read := read (grants calls) (amount - r.total_read)
    if amount_read ≤ 0 then some r
    else
      let r := r.put stream amount_read.toNat
      if r.total_read < amount then receiveLoop fuel (calls + 1) r else some r

/-- `Client::receive`. Every turn but the last reads a byte. -/
def receive (memory : Nat → UInt8) : Option Reception := receiveLoop stream grants amount (amount + 1) 0 ⟨memory, [], 0⟩

/-- The call returns, and if it has read the whole amount, the buffer holds it: nothing was
written twice, and nothing outside. -/
def Reassembles (memory : Nat → UInt8) : Prop :=
  ∃ r, receive stream grants amount memory = some r ∧
    (r.total_read = amount →
      (∀ i, i < amount → r.memory i = stream i) ∧ r.written.Nodup ∧ ∀ i ∈ r.written, i < amount)

end

/-- The sum of the first `n` grants. -/
def granted (grants : Nat → Int) : Nat → Int
  | 0 => 0
  | n + 1 => granted grants n + grants n

/-- The amount comes before a read fails. -/
def Completes (grants : Nat → Int) (amount : Nat) : Prop :=
  ∃ n, (∀ i, i < n → 0 < grants i) ∧ amount ≤ granted grants n

/-- The amount comes in two reads or more. -/
def InPieces (grants : Nat → Int) (amount : Nat) : Prop :=
  0 < grants 0 ∧ grants 0 < amount ∧ Completes grants amount

section
variable {stream : Nat → UInt8} {grants : Nat → Int} {amount : Nat}

theorem granted_le {m n : Nat} (le : m ≤ n) (pos : ∀ i, i < n → 0 < grants i) : granted grants m ≤ granted grants n := by
  induction le with
  | refl => exact Int.le_refl _
  | @step n le ih =>
    have more := pos n (Nat.lt_succ_self n)
    have before := ih fun i hi => pos i (Nat.lt_succ_of_lt hi)
    rw [granted]
    omega

/-- A read that fails before the amount has come ends the call for good. -/
theorem not_completes {calls : Nat} (pos : ∀ i, i < calls → 0 < grants i) (short : granted grants calls < amount)
    (fails : grants calls ≤ 0) : ¬ Completes grants amount := by
  rintro ⟨n, pos_n, enough⟩
  by_cases later : calls < n
  · have := pos_n calls later
    omega
  · have := granted_le (Nat.le_of_not_lt later) pos
    omega

theorem completes_last {calls : Nat} (pos : ∀ i, i < calls → 0 < grants i) (more : 0 < grants calls)
    (last : (amount : Int) ≤ granted grants calls + grants calls) : Completes grants amount := by
  refine ⟨calls + 1, ?_, last⟩
  intro i hi
  rcases Nat.lt_or_eq_of_le (Nat.le_of_lt_succ hi) with earlier | rfl
  · exact pos i earlier
  · exact more

variable {fuel calls : Nat} {r : Reception}

theorem turn_fails (fails : grants calls ≤ 0) : receiveLoop stream grants amount (fuel + 1) calls r = some r := by
  have returned : read (grants calls) (amount - r.total_read) ≤ 0 := by
    unfold read
    omega
  exact if_pos returned

theorem turn_last (short : r.total_read < amount) (last : (amount : Int) - r.total_read ≤ grants calls) :
    receiveLoop stream grants amount (fuel + 1) calls r = some (r.put stream (amount - r.total_read)) := by
  have all : read (grants calls) (amount - r.total_read) = (amount - r.total_read : Nat) := by
    unfold read
    omega
  have done : ¬ (r.put stream (amount - r.total_read)).total_read < amount := by
    show ¬ r.total_read + (amount - r.total_read) < amount
    omega
  simp only [receiveLoop, all, Int.toNat_natCast, if_neg done]
  exact if_neg (by omega)

theorem turn_more (more : 0 < grants calls) (rest : grants calls < (amount : Int) - r.total_read) :
    receiveLoop stream grants amount (fuel + 1) calls r =
      receiveLoop stream grants amount fuel (calls + 1) (r.put stream (grants calls).toNat) := by
  have part : read (grants calls) (amount - r.total_read) = grants calls := by
    unfold read
    omega
  have short : (r.put stream (grants calls).toNat).total_read < amount := by
    show r.total_read + (grants calls).toNat < amount
    omega
  simp only [receiveLoop, part, if_pos short]
  exact if_neg (by omega)

/-- A read that returns a byte writes to the front. -/
theorem front_put {n : Nat} (pos : 0 < n) : 0 ∈ (r.put stream n).written :=
  List.mem_append_right _ (List.mem_range.mpr pos)

theorem not_nodup_put {n : Nat} (front : 0 ∈ r.written) (pos : 0 < n) : ¬ (r.put stream n).written.Nodup :=
  fun nodup => (List.nodup_append.mp nodup).2.2 0 front 0 (List.mem_range.mpr pos) rfl

/-! ## The loop -/

/-- Once a byte is at the front, the rest of the amount overwrites it. -/
theorem receiveLoop_spec (enough : amount - r.total_read < fuel) (short : r.total_read < amount)
    (total : (r.total_read : Int) = granted grants calls) (pos : ∀ i, i < calls → 0 < grants i)
    (front : 0 ∈ r.written) :
    ∃ r', receiveLoop stream grants amount fuel calls r = some r' ∧
      (r'.total_read = amount ↔ Completes grants amount) ∧ (r'.total_read = amount → ¬ r'.written.Nodup) := by
  induction fuel generalizing calls r with
  | zero => omega
  | succ fuel ih =>
    by_cases fails : grants calls ≤ 0
    · have never : ¬ Completes grants amount := not_completes pos (by omega) fails
      exact ⟨r, turn_fails fails, ⟨fun done => by omega, fun done => absurd done never⟩, fun done => by omega⟩
    · by_cases last : (amount : Int) - r.total_read ≤ grants calls
      · have done : (r.put stream (amount - r.total_read)).total_read = amount := by
          show r.total_read + (amount - r.total_read) = amount
          omega
        have complete := completes_last pos (by omega) (by omega : (amount : Int) ≤ granted grants calls + grants calls)
        exact ⟨_, turn_last short last, iff_of_true done complete, fun _ => not_nodup_put front (by omega)⟩
      · rw [turn_more (by omega) (by omega)]
        have step : (r.put stream (grants calls).toNat).total_read = r.total_read + (grants calls).toNat := rfl
        apply ih (by omega) (by omega)
        · rw [granted]
          omega
        · intro i hi
          rcases Nat.lt_or_eq_of_le (Nat.le_of_lt_succ hi) with earlier | rfl
          · exact pos i earlier
          · omega
        · exact front_put (by omega)

/-- Without a single byte read nothing is wrong. -/
theorem reassembles_of_failed {memory : Nat → UInt8} (failed : read (grants 0) amount ≤ 0) :
    Reassembles stream grants amount memory := by
  refine ⟨⟨memory, [], 0⟩, if_pos failed, ?_⟩
  rintro rfl
  exact ⟨fun i hi => absurd hi (Nat.not_lt_zero i), List.nodup_nil, fun i mem => absurd mem List.not_mem_nil⟩

/-- One read of everything is what the loop is right for. -/
theorem reassembles_of_one_read {memory : Nat → UInt8} (short : 0 < amount) (all : (amount : Int) ≤ grants 0) :
    Reassembles stream grants amount memory := by
  have turn : receive stream grants amount memory = some (Reception.put ⟨memory, [], 0⟩ stream amount) :=
    turn_last (r := ⟨memory, [], 0⟩) short (by omega)
  refine ⟨_, turn, fun _ => ⟨fun i hi => ?_, List.nodup_range, fun i mem => List.mem_range.mp mem⟩⟩
  show (if i < amount then stream (0 + i) else memory i) = stream i
  rw [if_pos hi, Nat.zero_add]

/-- **Main result.** `receive` reassembles the stream exactly if the amount does not come in
pieces: it comes in one read, or it does not come. -/
theorem reassembles_iff (stream : Nat → UInt8) (grants : Nat → Int) (amount : Nat) (memory : Nat → UInt8) :
    Reassembles stream grants amount memory ↔ ¬ InPieces grants amount := by
  by_cases failed : read (grants 0) amount ≤ 0
  · refine iff_of_true (reassembles_of_failed failed) ?_
    rintro ⟨more, rest, -⟩
    unfold read at failed
    omega
  unfold read at failed
  by_cases all : (amount : Int) ≤ grants 0
  · refine iff_of_true (reassembles_of_one_read (by omega) all) ?_
    rintro ⟨-, rest, -⟩
    omega
  -- the first read leaves something for the next one
  let start : Reception := ⟨memory, [], 0⟩
  have turn : receive stream grants amount memory =
      receiveLoop stream grants amount amount 1 (start.put stream (grants 0).toNat) :=
    turn_more (r := start) (by omega) (by show grants 0 < (amount : Int) - (0 : Nat); omega)
  have first : (start.put stream (grants 0).toNat).total_read = (grants 0).toNat := Nat.zero_add _
  have total : ((start.put stream (grants 0).toNat).total_read : Int) = granted grants 1 := by
    rw [first, granted, granted]
    omega
  have pos : ∀ i, i < 1 → 0 < grants i := by
    intro i hi
    rw [Nat.lt_one_iff.mp hi]
    omega
  have front : 0 ∈ (start.put stream (grants 0).toNat).written := front_put (by omega)
  have enough : amount - (start.put stream (grants 0).toNat).total_read < amount := by omega
  obtain ⟨r', run, complete, overwritten⟩ := receiveLoop_spec enough (by omega) total pos front
  rw [← turn] at run
  constructor
  · rintro ⟨r, run', right⟩ ⟨-, -, completes⟩
    obtain rfl : r = r' := Option.some.inj (run'.symm.trans run)
    have done := complete.mpr completes
    exact overwritten done (right done).2.1
  · intro whole
    refine ⟨r', run, fun done => ?_⟩
    exact absurd ⟨by omega, by omega, complete.mp done⟩ whole

/-- Two bytes that come one after the other: the second is stored over the first. -/
theorem not_reassembles_two : ¬ Reassembles UInt8.ofNat (fun _ => 1) 2 (fun _ => 0) := by
  rintro ⟨r, run, right⟩
  have store : (receive UInt8.ofNat (fun _ => 1) 2 fun _ => 0).map
      (fun r => (r.total_read, r.memory 0, r.memory 1, r.written)) = some (2, 1, 0, [0, 0]) := by decide
  rw [run, Option.map_some, Option.some.injEq, Prod.mk.injEq, Prod.mk.injEq] at store
  have front := (right store.1).1 0 (by decide)
  rw [store.2.1] at front
  exact absurd front (by decide)

end

end Erl.Net
