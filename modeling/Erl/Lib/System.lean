import Mathlib.Data.List.Basic
import Mathlib.Data.List.Induction
import Mathlib.Logic.Basic
import Mathlib.Tactic.TypeStar

/-!
# Transition systems

A system is a set of initial states and a step relation. `Reachable` closes the
initial states under steps, `Run` counts them. Safety goes through `Invariant`:
what holds initially and survives one step holds wherever the system gets.
Termination goes through a rank that every step decreases.
-/

namespace TransitionSystem

universe u

structure System (σ : Type u) where
  init : σ → Prop
  step : σ → σ → Prop

section
variable {σ : Type u} (M : System σ)

/-- States some run starting from an initial state passes through. -/
inductive Reachable : σ → Prop where
  | init {s : σ} : M.init s → Reachable s
  | step {s t : σ} : Reachable s → M.step s t → Reachable t

/-- `Run n s t`: `n` steps lead from `s` to `t`. -/
inductive Run : Nat → σ → σ → Prop where
  | refl (s : σ) : Run 0 s s
  | step {n : Nat} {s t u : σ} : M.step s t → Run n t u → Run (n + 1) s u

/-- Holds in every initial state and is kept by every step. -/
structure Invariant (I : σ → Prop) : Prop where
  init : ∀ s, M.init s → I s
  step : ∀ s t, I s → M.step s t → I t

variable {M}

theorem Invariant.reachable {I : σ → Prop} (inv : Invariant M I) {s : σ} (h : Reachable M s) : I s := by
  induction h with
  | init hs => exact inv.init _ hs
  | step _ hst ih => exact inv.step _ _ ih hst

theorem Reachable.run {n : Nat} {s t : σ} (hs : Reachable M s) (h : Run M n s t) : Reachable M t := by
  induction h with
  | refl => exact hs
  | step hst _ ih => exact ih (hs.step hst)

/-- A rank that every step from an invariant state decreases bounds the length of
every run. -/
theorem Invariant.run_length_le {I : σ → Prop} (inv : Invariant M I) (rank : σ → Nat)
    (less : ∀ s t, I s → M.step s t → rank t < rank s) {n : Nat} {s t : σ} (h : Run M n s t) :
    I s → n + rank t ≤ rank s := by
  induction h with
  | refl => intro _; omega
  | step hst _ ih =>
    intro hs
    have rest := ih (inv.step _ _ hs hst)
    have first := less _ _ hs hst
    omega

/-- With a decreasing rank some run ends in a state without successors. -/
theorem Invariant.exists_final {I : σ → Prop} (inv : Invariant M I) (rank : σ → Nat)
    (less : ∀ s t, I s → M.step s t → rank t < rank s) (s : σ) (hs : I s) :
    ∃ n t, Run M n s t ∧ I t ∧ ∀ u, ¬ M.step t u := by
  generalize hm : rank s = m
  induction m using Nat.strongRecOn generalizing s with
  | ind m ih =>
    by_cases stuck : ∃ u, M.step s u
    · obtain ⟨u, hu⟩ := stuck
      have smaller : rank u < m := hm ▸ less s u hs hu
      obtain ⟨n, t, run, ht, final⟩ := ih (rank u) smaller u (inv.step _ _ hs hu) rfl
      exact ⟨n + 1, t, .step hu run, ht, final⟩
    · exact ⟨0, s, .refl s, hs, fun u hu => stuck ⟨u, hu⟩⟩

end

section
variable {σ : Type u} {α : Type*} (start : σ) (exec : σ → α → Option σ)

/-- Every action enabled in a state may be the next one. -/
def ofActions : System σ where
  init s := s = start
  step s t := ∃ a, exec s a = some t

variable {start exec}

theorem invariant_of_actions {I : σ → Prop} (init : I start)
    (step : ∀ s t a, I s → exec s a = some t → I t) : Invariant (ofActions start exec) I where
  init _ h := h ▸ init
  step s t hs h := step s t h.choose hs h.choose_spec

/-- A list of enabled actions leads to a reachable state. -/
theorem reachable_of_actions (start : σ) (exec : σ → α → Option σ) (as : List α) {t : σ} (h : as.foldlM exec start = some t) :
    Reachable (ofActions start exec) t := by
  have go : ∀ (as : List α) (s : σ), Reachable (ofActions start exec) s → as.foldlM exec s = some t →
      Reachable (ofActions start exec) t := by
    intro as
    induction as with
    | nil =>
      intro s hs h
      cases h
      exact hs
    | cons a as ih =>
      intro s hs h
      cases ha : exec s a with
      | none => simp [List.foldlM, ha] at h
      | some u =>
        simp only [List.foldlM, ha] at h
        exact ih u (hs.step ⟨a, ha⟩) h
  exact go as start (.init rfl) h

/-! ## The steps of one run -/

/-- The run of the actions `as` takes the step `a`, from `s` to `t`. -/
def Takes (start : σ) (exec : σ → α → Option σ) (as : List α) (s : σ) (a : α) (t : σ) : Prop :=
  ∃ before after, as = before ++ a :: after ∧ before.foldlM exec start = some s ∧ exec s a = some t

theorem Takes.enabled {as : List α} {s t : σ} {a : α} (h : Takes start exec as s a t) : exec s a = some t := by
  obtain ⟨before, after, -, -, hstep⟩ := h
  exact hstep

/-- The steps of a run are its first one and those of the rest. -/
theorem takes_cons_iff {b : α} {as : List α} {s t : σ} {a : α} :
    Takes start exec (b :: as) s a t ↔
      (s = start ∧ a = b ∧ exec start b = some t) ∨ ∃ u, exec start b = some u ∧ Takes u exec as s a t := by
  constructor
  · rintro ⟨before, after, hsplit, hrun, hstep⟩
    cases before with
    | nil =>
      obtain ⟨rfl, rfl⟩ := List.cons.inj hsplit
      cases hrun
      exact .inl ⟨rfl, rfl, hstep⟩
    | cons c before =>
      obtain ⟨rfl, rfl⟩ := List.cons.inj hsplit
      rw [List.foldlM_cons, Option.bind_eq_bind, Option.bind_eq_some_iff] at hrun
      obtain ⟨u, hfirst, hrun⟩ := hrun
      exact .inr ⟨u, hfirst, before, after, rfl, hrun, hstep⟩
  · rintro (⟨rfl, rfl, hstep⟩ | ⟨u, hfirst, before, after, rfl, hrun, hstep⟩)
    · exact ⟨[], as, rfl, rfl, hstep⟩
    · refine ⟨b :: before, after, rfl, ?_, hstep⟩
      rw [List.foldlM_cons, Option.bind_eq_bind, hfirst]
      exact hrun

theorem not_takes_nil {s t : σ} {a : α} : ¬ Takes start exec [] s a t := by
  rintro ⟨before, after, hsplit, -, -⟩
  cases List.append_eq_nil_iff.mp hsplit.symm |>.2

/-- What holds at the start and is kept by the steps of a run holds all along it. -/
theorem holds_along {I : σ → Prop} {as : List α} (init : I start)
    (keep : ∀ s a t, Takes start exec as s a t → I s → I t) (before after : List α) {s : σ}
    (hsplit : as = before ++ after) (hrun : before.foldlM exec start = some s) : I s := by
  induction before using List.reverseRecOn generalizing after s with
  | nil =>
    cases hrun
    exact init
  | append_singleton before a ih =>
    rw [List.append_assoc] at hsplit
    rw [List.foldlM_append, Option.bind_eq_bind, Option.bind_eq_some_iff] at hrun
    obtain ⟨u, hu, hlast⟩ := hrun
    rw [List.foldlM_cons, Option.bind_eq_bind, Option.bind_eq_some_iff] at hlast
    obtain ⟨t, ht, hnil⟩ := hlast
    cases hnil
    exact keep u a s ⟨before, after, hsplit, hu, ht⟩ (ih (a :: after) hsplit hu)

/-- A step of a run starts in a state with the property. -/
theorem holds_before {I : σ → Prop} {as : List α} (init : I start)
    (keep : ∀ s a t, Takes start exec as s a t → I s → I t) {s t : σ} {a : α} (h : Takes start exec as s a t) : I s := by
  obtain ⟨before, after, hsplit, hrun, -⟩ := h
  exact holds_along init keep before (a :: after) hsplit hrun

/-- An invariant that a step keeps if it meets a condition, and that tells the good steps
from the bad ones by that condition: the steps of a run are all good exactly if they all
meet it. -/
theorem forall_takes_iff (I : σ → Prop) (Good : σ → α → σ → Prop) (Meets : σ → α → Prop) (init : I start)
    (step : ∀ s a t, I s → exec s a = some t → (Meets s a → Good s a t ∧ I t) ∧ (Good s a t → Meets s a)) (as : List α) :
    (∀ s a t, Takes start exec as s a t → Good s a t) ↔ ∀ s a t, Takes start exec as s a t → Meets s a := by
  constructor
  · intro good
    have keep : ∀ s a t, Takes start exec as s a t → I s → I t := by
      intro s a t h hs
      have hstep := step s a t hs h.enabled
      exact (hstep.1 (hstep.2 (good s a t h))).2
    intro s a t h
    exact (step s a t (holds_before init keep h) h.enabled).2 (good s a t h)
  · intro meets
    have keep : ∀ s a t, Takes start exec as s a t → I s → I t := by
      intro s a t h hs
      exact ((step s a t hs h.enabled).1 (meets s a t h)).2
    intro s a t h
    exact ((step s a t (holds_before init keep h) h.enabled).1 (meets s a t h)).1

/-- A property that a step keeps exactly if it meets a condition records whether all steps
of a run have met it. -/
theorem record_iff (I P : σ → Prop) (Meets : σ → α → Prop) (init : I start) (initP : P start)
    (keep : ∀ s t a, I s → exec s a = some t → I t)
    (step : ∀ s t a, I s → exec s a = some t → (P t ↔ P s ∧ Meets s a)) (as : List α) {s : σ}
    (hrun : as.foldlM exec start = some s) : P s ↔ ∀ t a u, Takes start exec as t a u → Meets t a := by
  induction as using List.reverseRecOn generalizing s with
  | nil =>
    cases hrun
    exact ⟨fun _ t a u h => absurd h not_takes_nil, fun _ => initP⟩
  | append_singleton as a ih =>
    rw [List.foldlM_append, Option.bind_eq_bind, Option.bind_eq_some_iff] at hrun
    obtain ⟨t, ht, hlast⟩ := hrun
    rw [List.foldlM_cons, Option.bind_eq_bind, Option.bind_eq_some_iff] at hlast
    obtain ⟨u, hu, hnil⟩ := hlast
    cases hnil
    have hsound : I t := holds_along init (fun s a t h hs => keep s t a hs h.enabled) as [] (List.append_nil as).symm ht
    rw [step t s a hsound hu, ih ht]
    constructor
    · rintro ⟨hbefore, hmeets⟩ t' a' u' ⟨before, after, hsplit, hrun', hexec⟩
      rcases List.eq_nil_or_concat' after with rfl | ⟨after, b, rfl⟩
      · obtain ⟨rfl, hsame⟩ := List.append_inj' hsplit rfl
        cases hsame
        cases ht.symm.trans hrun'
        exact hmeets
      · rw [← List.cons_append, ← List.append_assoc] at hsplit
        obtain ⟨rfl, -⟩ := List.append_inj' hsplit rfl
        exact hbefore t' a' u' ⟨before, after, rfl, hrun', hexec⟩
    · intro hall
      refine ⟨?_, hall t a s ⟨as, [], rfl, ht, hu⟩⟩
      rintro t' a' u' ⟨before, after, rfl, hrun', hexec⟩
      exact hall t' a' u' ⟨before, after ++ [a], by rw [List.append_assoc, List.cons_append], hrun', hexec⟩

end

end TransitionSystem
