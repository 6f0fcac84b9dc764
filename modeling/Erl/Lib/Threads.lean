import Mathlib.Algebra.BigOperators.Group.Finset.Basic
import Mathlib.Algebra.Order.BigOperators.Group.Finset
import Mathlib.Algebra.Group.Action.Defs
import Mathlib.Data.Fintype.Card

/-!
# Totals over threads

Finitely many threads, each at a place. With weight 1 on some places the total counts the
threads there; with a rank as weight it bounds what all threads can still do. A step moves
one thread, or wakes some.
-/

namespace Threads
open Function

variable {Tid : Type*} {Pc : Type*} [Fintype Tid]

def total (weight : Pc → Nat) (thread : Tid → Pc) : Nat := Finset.univ.sum fun t => weight (thread t)

variable {weight : Pc → Nat} {thread thread' : Tid → Pc}

/-- One thread moves: its weight is exchanged. -/
theorem total_update [DecidableEq Tid] (weight : Pc → Nat) (thread : Tid → Pc) (t : Tid) (pc : Pc) :
    total weight (update thread t pc) + weight (thread t) = total weight thread + weight pc := by
  have split (f : Tid → Pc) : total weight f = weight (f t) + (Finset.univ.erase t).sum fun u => weight (f u) :=
    (Finset.add_sum_erase _ _ (Finset.mem_univ t)).symm
  have rest : ((Finset.univ.erase t).sum fun u => weight (update thread t pc u)) =
      (Finset.univ.erase t).sum fun u => weight (thread u) := by
    apply Finset.sum_congr rfl
    intro u mem
    rw [update_of_ne (Finset.ne_of_mem_erase mem)]
  rw [split, split thread, rest, update_self]
  omega

/-- Every thread gains at most `c`. -/
theorem total_le_add {c : Nat} (gain : ∀ t, weight (thread' t) ≤ weight (thread t) + c) :
    total weight thread' ≤ total weight thread + Fintype.card Tid * c := by
  calc total weight thread' ≤ Finset.univ.sum fun t => weight (thread t) + c := Finset.sum_le_sum fun t _ => gain t
    _ = total weight thread + Fintype.card Tid * c := by
      rw [Finset.sum_add_distrib, Finset.sum_const, Finset.card_univ, smul_eq_mul]
      rfl

theorem total_le {c : Nat} (most : ∀ t, weight (thread t) ≤ c) : total weight thread ≤ Fintype.card Tid * c := by
  have bound := Finset.sum_le_card_nsmul Finset.univ (fun t => weight (thread t)) c fun t _ => most t
  rwa [Finset.card_univ, smul_eq_mul] at bound

theorem total_eq_zero (none : ∀ t, weight (thread t) = 0) : total weight thread = 0 :=
  Finset.sum_eq_zero fun t _ => none t

end Threads
