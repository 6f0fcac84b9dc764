import Mathlib.Tactic.TypeStar
import Mathlib.Logic.Basic

/-!
# Decoders and the languages they accept

A decoder reads symbols from a view at its cursor and may fail. `Denotes d R` says that
`d` succeeds with `a` exactly on the inputs that start with some `w` with `R w a`, and
then leaves the cursor behind `w`; what surrounds `w` plays no part. One rule for each
way of building a decoder turns `R` into the language of the whole.
-/

namespace Decoding

/-- A buffer and the position of the next symbol. -/
structure Cursor (β : Type) where
  buffer : List β
  cursor : Nat

/-- A decoder that fails with `ε`. -/
abbrev Decoder (β ε α : Type) := StateT (Cursor β) (Except ε) α

section
variable {β ε α γ : Type}

/-- The next `n` symbols; `past` is the failure of reading behind the buffer. -/
def read (past : ε) (n : Nat) : Decoder β ε (List β) := fun view =>
  if view.cursor + n ≤ view.buffer.length then
    .ok ((view.buffer.drop view.cursor).take n, { view with cursor := view.cursor + n })
  else .error past

/-- `d`, `n` times. -/
def times (d : Decoder β ε α) : Nat → Decoder β ε (List α)
  | 0 => pure []
  | n + 1 => do
    let a ← d
    let as ← times d n
    pure (a :: as)

/-- `d` accepts `w` as an image of `a`, in any context, for exactly the pairs in `R`. -/
def Denotes (d : Decoder β ε α) (R : List β → α → Prop) : Prop :=
  ∀ before tail a view, d ⟨before ++ tail, before.length⟩ = .ok (a, view) ↔
    ∃ w rest, tail = w ++ rest ∧ R w a ∧ view = ⟨before ++ tail, before.length + w.length⟩

/-- Images of a list: images of its elements, one after the other. -/
def Each (R : List β → α → Prop) : List β → List α → Prop
  | w, [] => w = []
  | w, a :: as => ∃ w₁ w₂, w = w₁ ++ w₂ ∧ R w₁ a ∧ Each R w₂ as

theorem Each.flatMap {R : List β → α → Prop} {f : α → List β} {as : List α} (h : ∀ a ∈ as, R (f a) a) :
    Each R (as.flatMap f) as := by
  induction as with
  | nil => rfl
  | cons a as ih =>
    refine ⟨f a, as.flatMap f, rfl, h a List.mem_cons_self, ih ?_⟩
    intro b hb
    exact h b (List.mem_cons_of_mem a hb)

theorem Each.exists_image {R : List β → α → Prop} {w : List β} {as : List α} (h : Each R w as) {a : α} (ha : a ∈ as) :
    ∃ w', R w' a := by
  induction as generalizing w with
  | nil => cases ha
  | cons b as ih =>
    obtain ⟨w₁, w₂, -, here, rest⟩ := h
    rcases List.mem_cons.mp ha with rfl | ha
    · exact ⟨w₁, here⟩
    · exact ih rest ha

/-- Images of `n` elements, one after the other, are `n` words with an element each. -/
theorem Each.exists_iff {R : List β → α → Prop} {n : Nat} {w : List β} :
    (∃ as, as.length = n ∧ Each R w as) ↔
      ∃ ws : List (List β), ws.length = n ∧ (∀ x ∈ ws, ∃ a, R x a) ∧ w = ws.flatten := by
  induction n generalizing w with
  | zero =>
    constructor
    · rintro ⟨as, empty, each⟩
      obtain rfl := List.eq_nil_of_length_eq_zero empty
      exact ⟨[], rfl, fun x mem => absurd mem List.not_mem_nil, each⟩
    · rintro ⟨ws, empty, -, rfl⟩
      obtain rfl := List.eq_nil_of_length_eq_zero empty
      exact ⟨[], rfl, rfl⟩
  | succ n ih =>
    constructor
    · rintro ⟨as, length, each⟩
      obtain ⟨a, as, rfl⟩ := List.exists_cons_of_length_eq_add_one length
      obtain ⟨w₁, w₂, rfl, here, rest⟩ := each
      obtain ⟨ws, length', elements, rfl⟩ := ih.mp ⟨as, Nat.succ.inj length, rest⟩
      refine ⟨w₁ :: ws, congrArg (· + 1) length', ?_, rfl⟩
      exact List.forall_mem_cons.mpr ⟨⟨a, here⟩, elements⟩
    · rintro ⟨ws, length, elements, rfl⟩
      obtain ⟨x, ws, rfl⟩ := List.exists_cons_of_length_eq_add_one length
      obtain ⟨⟨a, here⟩, elements⟩ := List.forall_mem_cons.mp elements
      obtain ⟨as, length', rest⟩ := ih.mpr ⟨ws, Nat.succ.inj length, elements, rfl⟩
      exact ⟨a :: as, congrArg (· + 1) length', x, ws.flatten, rfl, here, rest⟩

/-- Elements whose images all have `n` symbols. -/
theorem Each.length_eq {R : List β → α → Prop} {n : Nat} (one : ∀ w a, R w a → w.length = n) {w : List β} {as : List α}
    (h : Each R w as) : w.length = as.length * n := by
  induction as generalizing w with
  | nil =>
    rw [h]
    simp
  | cons a as ih =>
    obtain ⟨w₁, w₂, rfl, here, rest⟩ := h
    rw [List.length_append, one w₁ a here, ih rest, List.length_cons, Nat.succ_mul, Nat.add_comm]

/-! ## Rules -/

namespace Denotes

theorem congr {d : Decoder β ε α} {R S : List β → α → Prop} (h : Denotes d R) (same : ∀ w a, R w a ↔ S w a) :
    Denotes d S := by
  intro before tail a view
  rw [h before tail a view]
  simp only [same]

theorem pure (a : α) : Denotes (pure a : Decoder β ε α) fun w b => w = [] ∧ b = a := by
  intro before tail b view
  constructor
  · intro h
    cases h
    exact ⟨[], tail, rfl, ⟨rfl, rfl⟩, rfl⟩
  · rintro ⟨w, rest, rfl, ⟨rfl, rfl⟩, rfl⟩
    rfl

/-- A decoder that always fails accepts nothing. -/
theorem throw (e : ε) : Denotes (fun _ => .error e : Decoder β ε α) fun _ _ => False := by
  intro before tail a view
  constructor
  · intro h
    cases h
  · rintro ⟨w, rest, -, none, -⟩
    exact none.elim

theorem read (past : ε) (n : Nat) : Denotes (read past n : Decoder β ε (List β)) fun w a => w.length = n ∧ a = w := by
  intro before tail a view
  have room : (before.length + n ≤ (before ++ tail).length) ↔ n ≤ tail.length := by
    rw [List.length_append]
    omega
  simp only [Decoding.read, room]
  constructor
  · intro h
    split at h
    · rename_i enough
      cases h
      refine ⟨tail.take n, tail.drop n, (List.take_append_drop n tail).symm, ⟨List.length_take_of_le enough, ?_⟩, ?_⟩
      · rw [List.drop_left]
      · rw [List.length_take_of_le enough]
    · cases h
  · rintro ⟨w, rest, rfl, ⟨rfl, rfl⟩, rfl⟩
    rw [if_pos (by simp), List.drop_left, List.take_left]

theorem bind {d : Decoder β ε α} {f : α → Decoder β ε γ} {R : List β → α → Prop} {S : α → List β → γ → Prop}
    (hd : Denotes d R) (hf : ∀ a, Denotes (f a) (S a)) :
    Denotes (d >>= f) fun w c => ∃ a w₁ w₂, w = w₁ ++ w₂ ∧ R w₁ a ∧ S a w₂ c := by
  intro before tail c view
  -- Behind `w₁` the rest of the computation sees `before ++ w₁` as its past.
  have shift (w₁ tail₁ : List β) (a : α) : f a ⟨before ++ (w₁ ++ tail₁), before.length + w₁.length⟩ = .ok (c, view) ↔
      ∃ w₂ rest, tail₁ = w₂ ++ rest ∧ S a w₂ c ∧
        view = ⟨before ++ (w₁ ++ tail₁), before.length + w₁.length + w₂.length⟩ := by
    have := hf a (before ++ w₁) tail₁ c view
    rwa [List.append_assoc, List.length_append] at this
  constructor
  · intro h
    cases first : d ⟨before ++ tail, before.length⟩ with
    | error e => simp [Bind.bind, StateT.bind, Except.bind, first] at h
    | ok r =>
      obtain ⟨a, middle⟩ := r
      have second : f a middle = .ok (c, view) := by simpa [Bind.bind, StateT.bind, Except.bind, first] using h
      obtain ⟨w₁, tail₁, rfl, here, rfl⟩ := (hd before tail a middle).mp first
      obtain ⟨w₂, rest, rfl, there, rfl⟩ := (shift w₁ tail₁ a).mp second
      refine ⟨w₁ ++ w₂, rest, (List.append_assoc ..).symm, ⟨a, w₁, w₂, rfl, here, there⟩, ?_⟩
      rw [List.length_append, Nat.add_assoc]
  · rintro ⟨w, rest, rfl, ⟨a, w₁, w₂, rfl, here, there⟩, rfl⟩
    have first := (hd before (w₁ ++ (w₂ ++ rest)) a ⟨_, before.length + w₁.length⟩).mpr ⟨w₁, _, rfl, here, rfl⟩
    have second := (shift w₁ (w₂ ++ rest) a).mpr ⟨w₂, rest, rfl, there, by simp [Nat.add_assoc]⟩
    simp only [List.append_assoc]
    simpa [Bind.bind, StateT.bind, Except.bind, first] using second

theorem map {d : Decoder β ε α} {R : List β → α → Prop} (f : α → γ) (hd : Denotes d R) :
    Denotes (f <$> d) fun w c => ∃ a, R w a ∧ c = f a := by
  rw [← bind_pure_comp]
  apply (hd.bind fun a => Denotes.pure (f a)).congr
  intro w c
  constructor
  · rintro ⟨a, w₁, w₂, rfl, here, rfl, rfl⟩
    exact ⟨a, by rwa [List.append_nil], rfl⟩
  · rintro ⟨a, here, rfl⟩
    exact ⟨a, w, [], (List.append_nil w).symm, here, rfl, rfl⟩

theorem ite {d e : Decoder β ε α} {R S : List β → α → Prop} (p : Prop) [Decidable p] (hd : Denotes d R)
    (he : Denotes e S) : Denotes (if p then d else e) fun w a => if p then R w a else S w a := by
  split
  · exact hd
  · exact he

theorem times {d : Decoder β ε α} {R : List β → α → Prop} (hd : Denotes d R) (n : Nat) :
    Denotes (times d n) fun w as => as.length = n ∧ Each R w as := by
  induction n with
  | zero =>
    apply (Denotes.pure []).congr
    intro w as
    constructor
    · rintro ⟨rfl, rfl⟩
      exact ⟨rfl, rfl⟩
    · rintro ⟨empty, each⟩
      obtain rfl := List.eq_nil_of_length_eq_zero empty
      exact ⟨each, rfl⟩
  | succ n ih =>
    apply (hd.bind fun a => ih.bind fun as => Denotes.pure (a :: as)).congr
    intro w as
    constructor
    · rintro ⟨a, w₁, _, rfl, here, bs, w₂, _, rfl, ⟨rfl, each⟩, rfl, rfl⟩
      refine ⟨rfl, w₁, w₂, by simp, here, each⟩
    · rintro ⟨size, each⟩
      cases as with
      | nil => cases size
      | cons a as =>
        obtain ⟨w₁, w₂, rfl, here, rest⟩ := each
        exact ⟨a, w₁, w₂, rfl, here, as, w₂, [], (List.append_nil _).symm, ⟨Nat.succ.inj size, rest⟩, rfl, rfl⟩

/-- An image is decoded wherever it stands. -/
theorem decodes {d : Decoder β ε α} {R : List β → α → Prop} (hd : Denotes d R) {w : List β} {a : α} (h : R w a)
    (before rest : List β) :
    d ⟨before ++ w ++ rest, before.length⟩ = .ok (a, ⟨before ++ w ++ rest, before.length + w.length⟩) := by
  rw [List.append_assoc]
  exact (hd before (w ++ rest) a _).mpr ⟨w, rest, rfl, h, rfl⟩

/-- What a decoder that returns has read, whatever the buffer holds. -/
theorem exists_split {d : Decoder β ε α} {R : List β → α → Prop} (hd : Denotes d R) {start view : Cursor β} {a : α}
    (hstart : start.cursor ≤ start.buffer.length) (h : d start = .ok (a, view)) :
    ∃ w rest, start.buffer.drop start.cursor = w ++ rest ∧ R w a ∧ view = ⟨start.buffer, start.cursor + w.length⟩ := by
  obtain ⟨buffer, cursor⟩ := start
  have hread := hd (buffer.take cursor) (buffer.drop cursor) a view
  rw [List.take_append_drop, List.length_take_of_le hstart] at hread
  exact hread.mp h

/-- It leaves the buffer alone, has moved the cursor forward and has not moved it past the
end. -/
theorem cursor_le {d : Decoder β ε α} {R : List β → α → Prop} (hd : Denotes d R) {start view : Cursor β} {a : α}
    (hstart : start.cursor ≤ start.buffer.length) (h : d start = .ok (a, view)) :
    view.buffer = start.buffer ∧ start.cursor ≤ view.cursor ∧ view.cursor ≤ view.buffer.length := by
  obtain ⟨w, rest, htail, -, rfl⟩ := hd.exists_split hstart h
  have htotal := congrArg List.length htail
  rw [List.length_drop, List.length_append] at htotal
  refine ⟨rfl, Nat.le_add_right _ _, ?_⟩
  show start.cursor + w.length ≤ start.buffer.length
  omega

/-- A buffer read from its start to its end is an image. -/
theorem decodes_all_iff {d : Decoder β ε α} {R : List β → α → Prop} (hd : Denotes d R) {w : List β} {a : α} :
    d ⟨w, 0⟩ = .ok (a, ⟨w, w.length⟩) ↔ R w a := by
  rw [show (⟨w, 0⟩ : Cursor β) = ⟨[] ++ w, ([] : List β).length⟩ from rfl, hd [] w]
  constructor
  · rintro ⟨w', rest, rfl, h, same⟩
    simp only [Cursor.mk.injEq, List.nil_append, List.length_nil, Nat.zero_add, List.length_append] at same
    have empty : rest = [] := List.eq_nil_of_length_eq_zero (by omega)
    rwa [empty, List.append_nil]
  · intro h
    exact ⟨w, [], (List.append_nil w).symm, h, by simp⟩

end Denotes

end

end Decoding
