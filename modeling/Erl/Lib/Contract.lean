import Erl.Lib.Outcome

/-!
# Contracts of code that may end early

`Meets pre x stop post`: from every state with `pre`, `x` ends early only with a reason and
in a state that `stop` allows, and returns only a value and in a state with `post`.
-/

namespace Outcome

variable {ε σ α β : Type}

def Meets (pre : σ → Prop) (x : ExceptT ε (StateM σ) α) (stop : ε → σ → Prop) (post : α → σ → Prop) : Prop :=
  ∀ s, pre s → match x.run.run s with
    | (.ok a, s') => post a s'
    | (.error e, s') => stop e s'

variable {pre : σ → Prop} {stop : ε → σ → Prop}

theorem Meets.pure {a : α} {post : α → σ → Prop} (h : ∀ s, pre s → post a s) :
    Meets pre (pure a : ExceptT ε (StateM σ) α) stop post := h

theorem Meets.throw {e : ε} {post : α → σ → Prop} (h : ∀ s, pre s → stop e s) :
    Meets pre (throw e : ExceptT ε (StateM σ) α) stop post := h

theorem Meets.bind {x : ExceptT ε (StateM σ) α} {f : α → ExceptT ε (StateM σ) β} {M : α → σ → Prop}
    {post : β → σ → Prop} (hx : Meets pre x stop M) (hf : ∀ a, Meets (M a) (f a) stop post) :
    Meets pre (x >>= f) stop post := by
  intro s hs
  have hx := hx s hs
  rw [ExceptT.run_bind, StateT.run_bind]
  cases h : x.run.run s with
  | mk result s' =>
    rw [h] at hx
    cases result with
    | error e => exact hx
    | ok a => exact hf a s' hx

theorem Meets.get {post : σ → σ → Prop} (h : ∀ s, pre s → post s s) :
    Meets pre (get : ExceptT ε (StateM σ) σ) stop post := h

theorem Meets.modify {f : σ → σ} {post : PUnit → σ → Prop} (h : ∀ s, pre s → post ⟨⟩ (f s)) :
    Meets pre (modify f : ExceptT ε (StateM σ) PUnit) stop post := h

/-- Nothing is promised. -/
theorem Meets.any (x : ExceptT ε (StateM σ) α) : Meets pre x (fun _ _ => True) fun _ _ => True := by
  intro s _
  cases x.run.run s with
  | mk result s' => cases result <;> trivial

theorem Meets.consequence {pre' : σ → Prop} {stop' : ε → σ → Prop} {x : ExceptT ε (StateM σ) α}
    {post post' : α → σ → Prop} (hx : Meets pre x stop post) (hpre : ∀ s, pre' s → pre s) (hstop : ∀ e s, stop e s → stop' e s)
    (hpost : ∀ a s, post a s → post' a s) : Meets pre' x stop' post' := by
  intro s hs
  have hx := hx s (hpre s hs)
  cases h : x.run.run s with
  | mk result s' =>
    rw [h] at hx
    cases result with
    | error e => exact hstop e s' hx
    | ok a => exact hpost a s' hx

theorem Meets.mono {x : ExceptT ε (StateM σ) α} {post post' : α → σ → Prop} (hx : Meets pre x stop post)
    (h : ∀ a s, post a s → post' a s) : Meets pre x stop post' :=
  hx.consequence (fun _ hs => hs) (fun _ _ he => he) h

/-- A fact about the state may be used. -/
theorem Meets.of_pre {p : Prop} {x : ExceptT ε (StateM σ) α} {post : α → σ → Prop} (h : ∀ s, pre s → p)
    (hx : p → Meets pre x stop post) : Meets pre x stop post :=
  fun s hs => hx (h s hs) s hs

/-- Code whose ends are translated. -/
theorem Meets.adapt {ε' : Type} (f : ε → ε') {x : ExceptT ε (StateM σ) α} {stop : ε → σ → Prop}
    {stop' : ε' → σ → Prop} {post : α → σ → Prop} (hx : Meets pre x stop post) (h : ∀ e s, stop e s → stop' (f e) s) :
    Meets pre (ExceptT.adapt f x) stop' post := by
  intro s hs
  have hx := hx s hs
  have run : (ExceptT.adapt f x).run.run s = ((x.run.run s).1.mapError f, (x.run.run s).2) := rfl
  rw [run]
  cases h' : x.run.run s with
  | mk result s' =>
    rw [h'] at hx
    cases result with
    | error e => exact h e s' hx
    | ok a => exact hx

end Outcome
