import Mathlib.Init

/-!
# Partial specifications of code that may end early

`Ends x stop post`: from every state, `x` ends early only in a way that `stop` allows and
returns only values that meet `post`. `Agrees x y s t stop post` relates the ends of two
programs. The rules follow the monad's operations.
-/

namespace Outcome

variable {ε σ α β : Type}

def Ends (x : ExceptT ε (StateM σ) α) (stop : ε → Prop) (post : α → Prop) : Prop :=
  ∀ s, match (x.run.run s).1 with
    | .ok a => post a
    | .error e => stop e

variable {stop : ε → Prop}

theorem Ends.pure {a : α} {post : α → Prop} (h : post a) : Ends (pure a : ExceptT ε (StateM σ) α) stop post :=
  fun _ => h

theorem Ends.throw {e : ε} {post : α → Prop} (h : stop e) : Ends (throw e : ExceptT ε (StateM σ) α) stop post :=
  fun _ => h

theorem Ends.bind {x : ExceptT ε (StateM σ) α} {f : α → ExceptT ε (StateM σ) β} {mid : α → Prop} {post : β → Prop}
    (hx : Ends x stop mid) (hf : ∀ a, mid a → Ends (f a) stop post) : Ends (x >>= f) stop post := by
  intro s
  have hx := hx s
  rw [ExceptT.run_bind, StateT.run_bind]
  cases h : x.run.run s with
  | mk result s' =>
    rw [h] at hx
    cases result with
    | error e => exact hx
    | ok a => exact hf a hx s'

theorem Ends.mono {x : ExceptT ε (StateM σ) α} {post post' : α → Prop} (hx : Ends x stop post)
    (h : ∀ a, post a → post' a) : Ends x stop post' := by
  rw [← bind_pure x]
  exact hx.bind fun a ha => Ends.pure (h a ha)

theorem Ends.any (x : ExceptT ε (StateM σ) α) : Ends x (fun _ => True) fun _ => True := by
  intro s
  cases (x.run.run s).1 <;> exact trivial

/-- A run that returns meets what is required of the values returned. -/
theorem Ends.of_run {x : ExceptT ε (StateM σ) α} {post : α → Prop} (hx : Ends x stop post) {s s' : σ} {a : α}
    (run : x.run.run s = (.ok a, s')) : post a := by
  have hs := hx s
  rwa [run] at hs

/-- A sequence that returns has returned from its first part. -/
theorem run_bind_ok {x : ExceptT ε (StateM σ) α} {f : α → ExceptT ε (StateM σ) β} {s s' : σ} {b : β} :
    (x >>= f).run.run s = (.ok b, s') ↔
      ∃ a s₁, x.run.run s = (.ok a, s₁) ∧ (f a).run.run s₁ = (.ok b, s') := by
  rw [ExceptT.run_bind, StateT.run_bind]
  cases h : x.run.run s with
  | mk result s₁ =>
    cases result with
    | error e => exact ⟨nofun, nofun⟩
    | ok a => exact ⟨fun rest => ⟨a, s₁, rfl, rest⟩, fun ⟨_, _, same, rest⟩ => by cases same; exact rest⟩

/-- What comes behind code that has come to its end. -/
theorem run_bind_of_ok {x : ExceptT ε (StateM σ) α} {f : α → ExceptT ε (StateM σ) β} {s s' : σ} {a : α}
    (h : x.run.run s = (.ok a, s')) : (x >>= f).run.run s = (f a).run.run s' := by
  rw [ExceptT.run_bind, StateT.run_bind, h]
  rfl

/-- Code whose ends are translated: it ends early in the translated ways only. -/
theorem Ends.adapt {ε' : Type} (f : ε → ε') (x : ExceptT ε (StateM σ) α) {stop : ε' → Prop} (h : ∀ e, stop (f e)) :
    Ends (ExceptT.adapt f x) stop fun _ => True := by
  intro s
  have hrun : ((ExceptT.adapt f x).run.run s).1 = (x.run.run s).1.mapError f := rfl
  rw [hrun]
  cases (x.run.run s).1 with
  | ok a => exact trivial
  | error e => exact h e

/-- From `s` and `t`, the programs return together, with results and states as `post` says, or
end early together, as `stop` says. -/
def Agrees {ε' σ' : Type} (x : ExceptT ε (StateM σ) α) (y : ExceptT ε' (StateM σ') β) (s : σ) (t : σ')
    (stop : ε → σ → ε' → σ' → Prop) (post : α → σ → β → σ' → Prop) : Prop :=
  match x.run.run s, y.run.run t with
  | (.ok a, s'), (.ok b, t') => post a s' b t'
  | (.error e, s'), (.error e', t') => stop e s' e' t'
  | _, _ => False

section
variable {ε' σ' γ δ : Type} {s : σ} {t : σ'} {stop : ε → σ → ε' → σ' → Prop} {post : α → σ → β → σ' → Prop}

theorem Agrees.pure {a : α} {b : β} (h : post a s b t) :
    Agrees (pure a : ExceptT ε (StateM σ) α) (pure b : ExceptT ε' (StateM σ') β) s t stop post := h

/-- Only the first changes the state. -/
theorem Agrees.modify {f : σ → σ} {b : β} {post : PUnit → σ → β → σ' → Prop} (h : post ⟨⟩ (f s) b t) :
    Agrees (modify f : ExceptT ε (StateM σ) PUnit) (Pure.pure b : ExceptT ε' (StateM σ') β) s t stop post := h

/-- Only the first reads the state. -/
theorem Agrees.get {f : σ → ExceptT ε (StateM σ) α} {y : ExceptT ε' (StateM σ') β} (h : Agrees (f s) y s t stop post) :
    Agrees (get >>= f) y s t stop post := h

/-- The ends of the first are translated. -/
theorem Agrees.adapt {ε₁ : Type} (f : ε → ε₁) {x : ExceptT ε (StateM σ) α} {y : ExceptT ε' (StateM σ') β}
    {stop' : ε₁ → σ → ε' → σ' → Prop} (h : Agrees x y s t (fun e => stop' (f e)) post) :
    Agrees (ExceptT.adapt f x) y s t stop' post := by
  have run : (ExceptT.adapt f x).run.run s = ((x.run.run s).1.mapError f, (x.run.run s).2) := rfl
  unfold Agrees at h ⊢
  rw [run]
  cases hx : x.run.run s with
  | mk r s' =>
    rw [hx] at h
    cases hy : y.run.run t with
    | mk r' t' =>
      rw [hy] at h
      cases r <;> cases r' <;> exact h

theorem Agrees.bind {x : ExceptT ε (StateM σ) α} {y : ExceptT ε' (StateM σ') β} {f : α → ExceptT ε (StateM σ) γ}
    {g : β → ExceptT ε' (StateM σ') δ} {post' : γ → σ → δ → σ' → Prop} (first : Agrees x y s t stop post)
    (rest : ∀ a s' b t', post a s' b t' → Agrees (f a) (g b) s' t' stop post') :
    Agrees (x >>= f) (y >>= g) s t stop post' := by
  unfold Agrees at first ⊢
  simp only [ExceptT.run_bind, StateT.run_bind]
  cases hx : x.run.run s with
  | mk r s' =>
    cases hy : y.run.run t with
    | mk r' t' =>
      rw [hx, hy] at first
      cases r with
      | ok a =>
        cases r' with
        | ok b => exact rest a s' b t' first
        | error e' => exact first.elim
      | error e =>
        cases r' with
        | ok b => exact first.elim
        | error e' => exact first

/-- Where the second returns, the first does. -/
theorem Agrees.of_ok {x : ExceptT ε (StateM σ) α} {y : ExceptT ε' (StateM σ') β} (h : Agrees x y s t stop post) {b : β}
    {t' : σ'} (run : y.run.run t = (.ok b, t')) : ∃ a s', x.run.run s = (.ok a, s') ∧ post a s' b t' := by
  unfold Agrees at h
  rw [run] at h
  cases hx : x.run.run s with
  | mk r s' =>
    rw [hx] at h
    cases r with
    | ok a => exact ⟨a, s', rfl, h⟩
    | error e => exact h.elim

end

end Outcome
