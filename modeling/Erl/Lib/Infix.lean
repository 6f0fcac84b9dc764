import Mathlib.Data.List.TakeWhile
import Mathlib.Logic.Function.Basic

/-!
# Infix expressions as text

Expressions in which every operator has brackets around it and blanks beside it. If the
operands and the names of the operators are free of brackets and blanks, an expression is
determined by its text.
-/

namespace Infix

/-- `O` are the operators; an operand is its text. -/
inductive Tree (O : Type) where
  | atom (text : List Char)
  | node (op : O) (left right : Tree O)
deriving DecidableEq

/-- A character that no operand contains. -/
def isMark (c : Char) : Bool := c == '(' || c == ')' || c == ' '

/-- A text that is not empty and has no mark in it. -/
def Plain (text : List Char) : Prop := text ≠ [] ∧ ∀ c ∈ text, isMark c = false

instance : DecidablePred Plain := fun text =>
  decidable_of_iff (text ≠ [] ∧ text.all (fun c => !isMark c) = true) (by simp [Plain])

/-- Nothing follows, or a mark that ends an operand. -/
def Ended (rest : List Char) : Prop := ∀ c ∈ rest.head?, isMark c = true

namespace Tree
variable {O : Type}

def text (name : O → List Char) : Tree O → List Char
  | atom t => t
  | node op left right => '(' :: (left.text name ++ ' ' :: (name op ++ ' ' :: (right.text name ++ [')'])))

/-- All operands are plain. -/
def Plain : Tree O → Prop
  | atom t => Infix.Plain t
  | node _ left right => left.Plain ∧ right.Plain

end Tree

/-- Where a plain text ends can be seen. -/
theorem Plain.append_inj {a b rest rest' : List Char} (ha : Plain a) (hb : Plain b) (end_a : Ended rest)
    (end_b : Ended rest') (same : a ++ rest = b ++ rest') : a = b ∧ rest = rest' := by
  have front : ∀ {t r : List Char}, Plain t → Ended r → (t ++ r).takeWhile (fun c => !isMark c) = t := by
    intro t r ht hr
    rw [List.takeWhile_append_of_pos fun c mem => by rw [ht.2 c mem, Bool.not_false]]
    have none : r.takeWhile (fun c => !isMark c) = [] := by
      cases r with
      | nil => rfl
      | cons c r =>
        have mark := hr c rfl
        rw [List.takeWhile_cons_of_neg (by simp [mark])]
    rw [none, List.append_nil]
  have texts : a = b := by rw [← front ha end_a, same, front hb end_b]
  subst texts
  exact ⟨rfl, List.append_cancel_left same⟩

theorem Plain.ne_bracket {t rest rest' : List Char} (ht : Plain t) : t ++ rest ≠ '(' :: rest' := by
  intro same
  obtain ⟨c, t, rfl⟩ := List.exists_cons_of_ne_nil ht.1
  rw [List.cons_append, List.cons.injEq] at same
  have mark := ht.2 c List.mem_cons_self
  rw [same.1] at mark
  cases mark

namespace Tree
variable {O : Type} {name : O → List Char}

/-- **Unique readability.** -/
theorem text_append_inj (plain : ∀ op, Infix.Plain (name op)) (inj : Function.Injective name) :
    ∀ {s t : Tree O}, s.Plain → t.Plain → ∀ {rest rest' : List Char}, Ended rest → Ended rest' →
      s.text name ++ rest = t.text name ++ rest' → s = t ∧ rest = rest' := by
  have blank : ∀ r : List Char, Ended (' ' :: r) := fun r c hc => by
    cases hc
    rfl
  have bracket : ∀ r : List Char, Ended (')' :: r) := fun r c hc => by
    cases hc
    rfl
  intro s
  induction s with
  | atom a =>
    intro t hs ht rest rest' end_s end_t same
    cases t with
    | atom b =>
      obtain ⟨rfl, rests⟩ := Plain.append_inj hs ht end_s end_t same
      exact ⟨rfl, rests⟩
    | node op left right => exact absurd same (Plain.ne_bracket hs)
  | node op left right ihl ihr =>
    intro t hs ht rest rest' end_s end_t same
    cases t with
    | atom b => exact absurd same.symm (Plain.ne_bracket ht)
    | node op' left' right' =>
      simp only [text, List.cons_append, List.append_assoc, List.cons.injEq, true_and, List.nil_append] at same
      obtain ⟨rfl, after_left⟩ := ihl hs.1 ht.1 (blank _) (blank _) same
      obtain ⟨names, after_op⟩ := Plain.append_inj (plain op) (plain op') (blank _) (blank _) (List.cons.inj after_left).2
      obtain ⟨rfl, after_right⟩ := ihr hs.2 ht.2 (bracket _) (bracket _) (List.cons.inj after_op).2
      exact ⟨by rw [inj names], (List.cons.inj after_right).2⟩

theorem text_inj (plain : ∀ op, Infix.Plain (name op)) (inj : Function.Injective name) {s t : Tree O} (hs : s.Plain)
    (ht : t.Plain) (same : s.text name = t.text name) : s = t := by
  have ended : Ended [] := fun c hc => by cases hc
  exact (text_append_inj plain inj hs ht ended ended (by rw [same])).1

end Tree

end Infix
