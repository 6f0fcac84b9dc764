import Mathlib.Data.List.Basic

/-!
# Bounded queues

The abstract queue is the list of its elements, oldest first. `run` answers a sequence of
calls; what has been delivered followed by what is still stored is what was accepted. An
implementation refines the queue when every call answers alike from related states.
-/

namespace Fifo

universe u v
variable {T : Type u}

/-- The calls on a queue. -/
inductive Call (T : Type u) where
  | push (data : T)
  | pop
  | isEmpty

/-- What they return; a failed pop delivers nothing. -/
inductive Answer (T : Type u) where
  | pushed (ok : Bool)
  | popped (value : Option T)
  | empty (yes : Bool)
  deriving DecidableEq

/-- One call on a queue that holds at most `capacity` elements. -/
def step (capacity : Nat) (stored : List T) : Call T → List T × Answer T
  | .push data =>
    if stored.length = capacity then (stored, .pushed false) else (stored ++ [data], .pushed true)
  | .pop =>
    match stored with
    | [] => ([], .popped none)
    | value :: rest => (rest, .popped (some value))
  | .isEmpty => (stored, .empty stored.isEmpty)

/-- The answers to a sequence of calls, with what is stored at the end. -/
def run (capacity : Nat) : List T → List (Call T) → List T × List (Answer T)
  | stored, [] => (stored, [])
  | stored, call :: calls =>
    let (next, answer) := step capacity stored call
    let (last, answers) := run capacity next calls
    (last, answer :: answers)

/-- The values of the pushes that were accepted. -/
def accepted : List (Call T) → List (Answer T) → List T
  | .push data :: calls, .pushed true :: answers => data :: accepted calls answers
  | _ :: calls, _ :: answers => accepted calls answers
  | _, _ => []

/-- The values that pops delivered. -/
def delivered (answers : List (Answer T)) : List T :=
  answers.filterMap fun
    | .popped value => value
    | _ => none

/-- What is delivered, then what remains, is what was stored and accepted, in that order. -/
theorem delivered_append_stored (capacity : Nat) (calls : List (Call T)) (stored : List T) :
    delivered (run capacity stored calls).2 ++ (run capacity stored calls).1 =
      stored ++ accepted calls (run capacity stored calls).2 := by
  induction calls generalizing stored with
  | nil => simp [run, delivered, accepted]
  | cons call calls ih =>
    cases call with
    | push data =>
      by_cases full : stored.length = capacity
      · have := ih stored
        simpa [run, step, full, delivered, accepted] using this
      · have := ih (stored ++ [data])
        simpa [run, step, full, delivered, accepted] using this
    | pop =>
      cases stored with
      | nil =>
        have := ih []
        simpa [run, step, delivered, accepted] using this
      | cons value rest =>
        have := ih rest
        simpa [run, step, delivered, accepted] using this
    | isEmpty =>
      have := ih stored
      simpa [run, step, delivered, accepted] using this

/-- Two queues with room for `capacity` and `capacity + 1` elements answer alike exactly if no
push finds `capacity` elements stored. -/
theorem run_eq_run_succ_iff (capacity : Nat) (calls : List (Call T)) (stored : List T) (fits : stored.length ≤ capacity) :
    (run capacity stored calls).2 = (run (capacity + 1) stored calls).2 ↔
      ∀ before data after, calls = before ++ .push data :: after →
        (run (capacity + 1) stored before).1.length ≠ capacity := by
  induction calls generalizing stored with
  | nil =>
    refine iff_of_true rfl ?_
    intro before data after split
    cases before <;> cases split
  | cons call calls ih =>
    -- the queues part at a push that fills the smaller one
    by_cases full : ∃ data, call = .push data ∧ stored.length = capacity
    · obtain ⟨data, rfl, length⟩ := full
      refine iff_of_false ?_ ?_
      · intro same
        have smaller : (step capacity stored (.push data)).2 = .pushed false := by rw [step, if_pos length]
        have larger : (step (capacity + 1) stored (.push data)).2 = .pushed true := by rw [step, if_neg (by omega)]
        simp only [run, List.cons.injEq, smaller, larger] at same
        cases same.1
      · exact fun clear => clear [] data calls rfl length
    · have same : step capacity stored call = step (capacity + 1) stored call := by
        cases call with
        | push data =>
          have room : stored.length ≠ capacity := fun length => full ⟨data, rfl, length⟩
          rw [step, step, if_neg room, if_neg (by omega)]
        | pop => rfl
        | isEmpty => rfl
      have next : (step capacity stored call).1.length ≤ capacity := by
        cases call with
        | push data =>
          have room : stored.length ≠ capacity := fun length => full ⟨data, rfl, length⟩
          rw [step, if_neg room, List.length_append, List.length_singleton]
          omega
        | pop =>
          cases stored with
          | nil => exact Nat.zero_le _
          | cons value rest => exact Nat.le_of_succ_le fits
        | isEmpty => exact fits
      have rest := ih (step capacity stored call).1 next
      simp only [run, List.cons.injEq, same, true_and] at rest ⊢
      rw [rest]
      constructor
      · rintro clear (_ | ⟨first, before⟩) data after split
        · cases split
          exact fun length => full ⟨data, rfl, length⟩
        · cases split
          exact clear before data after rfl
      · intro clear before data after split
        exact clear (call :: before) data after (congrArg _ split)

section
variable {σ : Type v} (exec : σ → Call T → Option (σ × Answer T))

/-- A sequence of calls on an implementation; `none` when a call does not return. -/
def runOn : σ → List (Call T) → Option (σ × List (Answer T))
  | s, [] => some (s, [])
  | s, call :: calls => do
    let (t, answer) ← exec s call
    let (last, answers) ← runOn t calls
    return (last, answer :: answers)

variable {exec}

/-- **Refinement.** Where every call from related states answers as the queue does and
leaves related states, every sequence of calls does. -/
theorem runOn_refines {capacity : Nat} {related : σ → List T → Prop}
    (one : ∀ {s stored} call, related s stored →
      ∃ t, exec s call = some (t, (step capacity stored call).2) ∧ related t (step capacity stored call).1)
    {s : σ} {stored : List T} (calls : List (Call T)) (rel : related s stored) :
    ∃ t, runOn exec s calls = some (t, (run capacity stored calls).2) ∧
      related t (run capacity stored calls).1 := by
  induction calls generalizing s stored with
  | nil => exact ⟨s, rfl, rel⟩
  | cons call calls ih =>
    obtain ⟨t, answered, next⟩ := one call rel
    obtain ⟨last, rest, final⟩ := ih next
    exact ⟨last, by simp [runOn, run, answered, rest], final⟩

end

end Fifo
