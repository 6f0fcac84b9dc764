import Erl.Lib.System

/-!
# Forward simulation with stuttering

A system implements an abstract one along a function on states if each of its steps
leaves the abstract state as it is or is a step of the abstract system. What the
abstract system never does, the concrete one never does either. Termination allows for
steps that gain nothing, such as polling: a run is at most as long as its start is far
from the end, plus what its idle steps cost.
-/

namespace TransitionSystem

universe u v

section
variable {σ : Type u} {τ : Type v}

/-- `M`, in the states of its invariant `I`, implements `A` along `f`. -/
structure Simulation (M : System σ) (A : System τ) (I : σ → Prop) (f : σ → τ) : Prop where
  invariant : Invariant M I
  init : ∀ s, M.init s → A.init (f s)
  step : ∀ s t, I s → M.step s t → f t = f s ∨ A.step (f s) (f t)

variable {M : System σ} {A : System τ} {I : σ → Prop} {J : τ → Prop} {f : σ → τ}

/-- An invariant of the abstract system is one of the concrete system. -/
theorem Simulation.pullback (sim : Simulation M A I f) (inv : Invariant A J) : Invariant M fun s => I s ∧ J (f s) where
  init s h := ⟨sim.invariant.init s h, inv.init _ (sim.init s h)⟩
  step s t hs h := by
    refine ⟨sim.invariant.step s t hs.1 h, ?_⟩
    rcases sim.step s t hs.1 h with same | moved
    · rw [same]
      exact hs.2
    · exact inv.step _ _ hs.2 moved

theorem Simulation.reachable (sim : Simulation M A I f) {s : σ} (h : Reachable M s) : Reachable A (f s) := by
  have closed : Invariant A (Reachable A) := ⟨fun _ => .init, fun _ _ => .step⟩
  exact ((sim.pullback closed).reachable h).2

/-- `Counted M Idle n k s t`: `n` steps that are not idle and `k` that are lead from `s` to `t`. -/
inductive Counted (M : System σ) (Idle : σ → σ → Prop) : Nat → Nat → σ → σ → Prop where
  | refl (s : σ) : Counted M Idle 0 0 s s
  | step {n k : Nat} {s t u : σ} : M.step s t → ¬ Idle s t → Counted M Idle n k t u → Counted M Idle (n + 1) k s u
  | idle {n k : Nat} {s t u : σ} : M.step s t → Idle s t → Counted M Idle n k t u → Counted M Idle n (k + 1) s u

/-- If a step that is not idle decreases the rank and an idle one raises it by at most `c`,
the idle steps pay for all steps beyond the rank. -/
theorem Invariant.counted_le (inv : Invariant M I) (rank : σ → Nat) (Idle : σ → σ → Prop) (c : Nat)
    (less : ∀ s t, I s → M.step s t → ¬ Idle s t → rank t < rank s)
    (most : ∀ s t, I s → M.step s t → Idle s t → rank t ≤ rank s + c) {n k : Nat} {s t : σ}
    (h : Counted M Idle n k s t) : I s → n + rank t ≤ rank s + c * k := by
  induction h with
  | refl => intro _; omega
  | step hst busy _ ih =>
    intro hs
    have rest := ih (inv.step _ _ hs hst)
    have first := less _ _ hs hst busy
    omega
  | idle hst idle _ ih =>
    intro hs
    have rest := ih (inv.step _ _ hs hst)
    have first := most _ _ hs hst idle
    rw [Nat.mul_succ]
    omega

/-- If every state short of the goal has a step that decreases the rank, some run of at
most that many steps reaches the goal. -/
theorem exists_run (keep : ∀ s t, I s → M.step s t → I t) (rank : σ → Nat) (Goal : σ → Prop)
    (advance : ∀ s, I s → ¬ Goal s → ∃ t, M.step s t ∧ rank t < rank s) (s : σ) (hs : I s) :
    ∃ n t, n ≤ rank s ∧ Run M n s t ∧ I t ∧ Goal t := by
  generalize hm : rank s = m
  induction m using Nat.strongRecOn generalizing s with
  | ind m ih =>
    by_cases goal : Goal s
    · exact ⟨0, s, Nat.zero_le m, .refl s, hs, goal⟩
    · obtain ⟨t, hst, smaller⟩ := advance s hs goal
      rw [hm] at smaller
      obtain ⟨n, u, le, run, hu, reached⟩ := ih (rank t) smaller t (keep s t hs hst) rfl
      exact ⟨n + 1, u, by omega, .step hst run, hu, reached⟩

end

end TransitionSystem
