import Erl.Lib.FormatString
import Erl.Format.FormatParser

/-!
# What the scan does

One turn of the loop at a time: how it moves the cursor, and what it adds to the text that
has been written so far. The numbers of the accessors are not known before the end, so
that text is a list of cells.
-/

namespace Erl.Format
open Util FormatString

/-- A character, or the number of an accessor. -/
inductive Cell where
  | char (c : Char)
  | accessor (index : Nat)
deriving DecidableEq, Repr

def textCells (s : StringView) : List Cell := s.map .char

def Fragment.cells : Fragment → List Cell
  | .text data => textCells data
  | .accessor index => [.accessor index]

def Slot.cells : Slot → List Cell
  | .none => []
  | .number value => textCells (utos (toUInt64 value))
  | .accessor index => [.accessor (index % 2 ^ 32)]

@[simp] theorem textCells_nil : textCells [] = [] := rfl

@[simp] theorem textCells_cons (c : Char) (s : StringView) : textCells (c :: s) = .char c :: textCells s := rfl

theorem textCells_append (s s' : StringView) : textCells (s ++ s') = textCells s ++ textCells s' := List.map_append

namespace FormatParser

/-- The fragments, and the text behind the last one. -/
def written (p : FormatParser) : List Cell :=
  p.fragments.flatMap Fragment.cells ++ textCells (p.since p.fragment_start)

/-- What has not been read yet. -/
def rest (p : FormatParser) : StringView := p.data.drop p.cursor

variable {C : Classes} {arg_types : List C.Ty} {p p' p'' : FormatParser} {l l' : Locals}

theorem current_eq {c : Char} {r : StringView} (h : p.rest = c :: r) : p.current = some c := by
  unfold current
  rw [← List.head?_drop]
  show p.rest.head? = _
  rw [h]
  rfl

theorem isValid_iff : p.isValid = true ↔ p.cursor < p.data.length := decide_eq_true_iff

theorem isValid_of_rest {c : Char} {r : StringView} (h : p.rest = c :: r) : p.isValid = true := by
  rw [isValid_iff]
  by_contra hle
  have hnil : p.rest = [] := List.drop_eq_nil_of_le (by omega)
  rw [h] at hnil
  cases hnil

theorem not_isValid_of_rest (h : p.rest = []) : p.isValid = false := by
  have := List.drop_eq_nil_iff.mp h
  unfold isValid
  rw [decide_eq_false_iff_not]
  omega

theorem since_self (p : FormatParser) : p.since p.cursor = [] := by
  unfold since
  rw [Nat.sub_self, List.take_zero]

@[simp] theorem pushText_data (p : FormatParser) (str : StringView) : (p.pushText str).data = p.data := by
  unfold pushText
  split
  · rfl
  · split <;> rfl

@[simp] theorem pushText_cursor (p : FormatParser) (str : StringView) : (p.pushText str).cursor = p.cursor := by
  unfold pushText
  split
  · rfl
  · split <;> rfl

@[simp] theorem pushText_fields (p : FormatParser) (str : StringView) : (p.pushText str).fields = p.fields := by
  unfold pushText
  split
  · rfl
  · split <;> rfl

@[simp] theorem pushText_rest (p : FormatParser) (str : StringView) : (p.pushText str).rest = p.rest := by
  unfold rest
  rw [pushText_data, pushText_cursor]

@[simp] theorem pushText_start (p : FormatParser) (str : StringView) :
    (p.pushText str).fragment_start = p.cursor := by
  unfold pushText
  split
  · rfl
  · split
    · assumption
    · rfl

/-- All that has been written is in the fragments. -/
theorem pushText_cells (p : FormatParser) : p.pushText.fragments.flatMap Fragment.cells = p.written := by
  unfold pushText written
  rw [if_neg (by simp)]
  split
  · rename_i hstart
    rw [hstart, since_self, textCells_nil, List.append_nil]
  · rw [List.flatMap_append]
    simp [Fragment.cells]

@[simp] theorem written_pushText (p : FormatParser) : p.pushText.written = p.written := by
  rw [written, pushText_start, pushText_cells, ← pushText_cursor p [], since_self, textCells_nil, List.append_nil]

theorem skipFrom_eq_some {needles : List Char} {brace_count : Int} (h : p.skipFrom needles brace_count = some p') :
    ∃ n, p' = p.skip n := by
  obtain ⟨n, -, rfl⟩ := Option.map_eq_some_iff.mp h
  exact ⟨n, rfl⟩

/-- How a turn moves: forward, and it takes no field but the one at the cursor. -/
structure Moves (p p' : FormatParser) : Prop where
  data : p'.data = p.data
  cursor : p.cursor < p'.cursor
  fields : ∀ x ∈ p'.fields, x ∈ p.fields ∨ x = p.cursor

theorem field_moves (h : field C arg_types p l = .ok (p', l')) :
    p'.data = p.data ∧ p.cursor ≤ p'.cursor ∧ p'.fields = p.fields := by
  unfold field at h
  cases hskip : p.skipTo ['}', ':'] with
  | none =>
    rw [hskip] at h
    cases h
  | some p₁ =>
    obtain ⟨n, rfl⟩ := skipFrom_eq_some hskip
    rw [hskip] at h
    simp only at h
    split at h
    · cases h
    · rename_i l₁ slot _
      cases h
      cases slot with
      | none =>
        refine ⟨by simp [pushSlot, advance, skip], ?_, by simp [pushSlot, advance, skip]⟩
        simp only [pushSlot, advance, skip, pushText_cursor]
        omega
      | number value =>
        refine ⟨by simp [pushSlot, skip], ?_, by simp [pushSlot, skip]⟩
        simp only [pushSlot, skip, pushText_cursor]
        omega
      | accessor index =>
        refine ⟨rfl, ?_, rfl⟩
        simp only [pushSlot, pushAccessor, advance, skip]
        omega

theorem turn_moves (h : turn C arg_types p l = .ok (p', l')) : Moves p p' := by
  unfold turn at h
  simp only [bind, Except.bind, pure, Except.pure] at h
  split at h
  · cases h
  · split at h
    · cases h
      exact ⟨rfl, Nat.lt_succ_self _, fun x hx => .inl hx⟩
    · split at h
      · cases h
      · split at h
        · split at h
          · cases h
          · rename_i p₁ hskip
            cases h
            unfold skipTo at hskip
            cases hfrom : p.advance.skipFrom ['}'] 0 with
            | none =>
              rw [hfrom] at hskip
              cases hskip
            | some p₂ =>
              rw [hfrom] at hskip
              cases hskip
              obtain ⟨n, rfl⟩ := skipFrom_eq_some hfrom
              refine ⟨pushText_data _ _, ?_, ?_⟩
              · rw [pushText_cursor]
                show p.cursor < p.cursor + 1 + n
                omega
              · intro x hx
                rw [pushText_fields] at hx
                exact .inl hx
        · obtain ⟨hdata, hcursor, hfields⟩ := field_moves h
          simp only [pushText_data, pushText_cursor, pushText_fields, advance, skip] at hdata hcursor hfields
          refine ⟨hdata, by omega, ?_⟩
          intro x hx
          rw [hfields, List.mem_append, List.mem_singleton] at hx
          exact hx

/-- As much fuel as there are characters left is enough. -/
theorem loop_eq_of_le {fuel fuel' : Nat} (hfuel : p.data.length - p.cursor ≤ fuel)
    (hfuel' : p.data.length - p.cursor ≤ fuel') : loop C arg_types fuel p l = loop C arg_types fuel' p l := by
  induction fuel generalizing fuel' p l with
  | zero =>
    have hend : p.isValid = false := by
      rw [← Bool.not_eq_true, isValid_iff]
      omega
    cases fuel' <;> simp [loop, hend]
  | succ fuel ih =>
    cases hvalid : p.isValid with
    | false => cases fuel' <;> simp [loop, hvalid]
    | true =>
      have hlt := isValid_iff.mp hvalid
      cases fuel' with
      | zero => omega
      | succ fuel' =>
        simp only [loop, hvalid, if_true]
        cases hturn : turn C arg_types p l with
        | error stop => rfl
        | ok r =>
          obtain ⟨p₁, l₁⟩ := r
          have hmoves := turn_moves hturn
          have hdata := hmoves.data
          have hcursor := hmoves.cursor
          have hle : p₁.data.length - p₁.cursor ≤ fuel := by
            rw [hdata]
            omega
          have hle' : p₁.data.length - p₁.cursor ≤ fuel' := by
            rw [hdata]
            omega
          exact ih hle hle'

variable (C arg_types) in
/-- The loop from a position on. -/
def run (p : FormatParser) (l : Locals) : Except Stop (FormatParser × Locals) :=
  loop C arg_types (p.data.length - p.cursor) p l

theorem run_of_end (h : p.rest = []) : run C arg_types p l = .ok (p, l) := by
  have hend := not_isValid_of_rest h
  unfold run
  cases p.data.length - p.cursor <;> simp [loop, hend]

variable (C arg_types l) in
theorem run_of_valid (h : p.isValid = true) :
    run C arg_types p l = turn C arg_types p l >>= fun r => run C arg_types r.1 r.2 := by
  have hlt := isValid_iff.mp h
  obtain ⟨fuel, hfuel⟩ : ∃ fuel, p.data.length - p.cursor = fuel + 1 := ⟨p.data.length - p.cursor - 1, by omega⟩
  unfold run
  rw [hfuel]
  simp only [loop, h, if_true]
  cases hturn : turn C arg_types p l with
  | error stop => rfl
  | ok r =>
    have hmoves := turn_moves hturn
    have hdata := hmoves.data
    have hcursor := hmoves.cursor
    exact loop_eq_of_le (by rw [hdata]; omega) (Nat.le_refl _)

theorem run_of_turn {c : Char} {r : StringView} (h : p.rest = c :: r) (hturn : turn C arg_types p l = .ok (p', l')) :
    run C arg_types p l = run C arg_types p' l' := by
  rw [run_of_valid C arg_types l (isValid_of_rest h), hturn]
  rfl

/-- No field is taken before the position where a run begins. -/
theorem run_fields {final : FormatParser} (h : run C arg_types p l = .ok (final, l')) :
    ∀ x ∈ final.fields, x ∈ p.fields ∨ p.cursor ≤ x := by
  have hloop : ∀ fuel p l, loop C arg_types fuel p l = .ok (final, l') →
      ∀ x ∈ final.fields, x ∈ p.fields ∨ p.cursor ≤ x := by
    intro fuel
    induction fuel with
    | zero =>
      intro p l h x hx
      unfold loop at h
      split at h
      · cases h
      · cases h
        exact .inl hx
    | succ fuel ih =>
      intro p l h x hx
      unfold loop at h
      split at h
      · cases hturn : turn C arg_types p l with
        | error stop =>
          rw [hturn] at h
          cases h
        | ok r =>
          rw [hturn] at h
          have hmoves := turn_moves hturn
          rcases ih r.1 r.2 h x hx with hmem | hle
          · rcases hmoves.fields x hmem with hmem | rfl
            · exact .inl hmem
            · exact .inr (Nat.le_refl _)
          · have := hmoves.cursor
            exact .inr (by omega)
      · cases h
        exact .inl hx
  exact hloop _ p l h

/-- `p'` stands `n` characters behind `p`; in between `cells` were written and `fields`
taken. -/
structure After (p : FormatParser) (n : Nat) (cells : List Cell) (fields : List Nat) (p' : FormatParser) : Prop where
  data : p'.data = p.data
  cursor : p'.cursor = p.cursor + n
  start : p'.fragment_start ≤ p'.cursor
  written : p'.written = p.written ++ cells
  fields : p'.fields = p.fields ++ fields

theorem After.refl (h : p.fragment_start ≤ p.cursor) : After p 0 [] [] p :=
  ⟨rfl, rfl, h, (List.append_nil _).symm, (List.append_nil _).symm⟩

theorem After.trans {n n' : Nat} {cells cells' : List Cell} {fields fields' : List Nat} (h : After p n cells fields p')
    (h' : After p' n' cells' fields' p'') : After p (n + n') (cells ++ cells') (fields ++ fields') p'' where
  data := h'.data.trans h.data
  cursor := by rw [h'.cursor, h.cursor, Nat.add_assoc]
  start := h'.start
  written := by rw [h'.written, h.written, List.append_assoc]
  fields := by rw [h'.fields, h.fields, List.append_assoc]

/-- What is left behind a stretch. -/
theorem After.rest {n : Nat} {cells : List Cell} {fields : List Nat} (h : After p n cells fields p') {s r : StringView}
    (hrest : p.rest = s ++ r) (hn : s.length = n) : p'.rest = r := by
  have hdrop : p'.rest = p.rest.drop n := by
    unfold FormatParser.rest
    rw [h.data, h.cursor, List.drop_drop]
  rw [hdrop, hrest, List.drop_left' hn]

theorem since_append {start : Nat} (hstart : start ≤ p.cursor) {s r : StringView} (h : p.rest = s ++ r) :
    (p.skip s.length).since start = p.since start ++ s := by
  have hdrop : (p.data.drop start).drop (p.cursor - start) = s ++ r := by
    rw [List.drop_drop, ← h]
    unfold rest
    congr 1
    omega
  have hlength : p.cursor + s.length - start = (p.cursor - start) + s.length := by omega
  show (p.data.drop start).take (p.cursor + s.length - start) = (p.data.drop start).take (p.cursor - start) ++ s
  rw [hlength, List.take_add, hdrop, List.take_left]

/-- Characters that are passed are written. -/
theorem after_passed (hstart : p.fragment_start ≤ p.cursor) {s r : StringView} (h : p.rest = s ++ r) :
    After p s.length (textCells s) [] (p.skip s.length) where
  data := rfl
  cursor := rfl
  start := by
    show p.fragment_start ≤ p.cursor + s.length
    omega
  written := by
    show p.fragments.flatMap Fragment.cells ++ textCells (since _ p.fragment_start) = _
    rw [since_append hstart h, textCells_append, ← List.append_assoc]
    rfl
  fields := (List.append_nil _).symm

theorem after_advance (hstart : p.fragment_start ≤ p.cursor) {c : Char} {r : StringView} (h : p.rest = c :: r) :
    After p 1 [.char c] [] p.advance := after_passed (s := [c]) hstart h

theorem after_pushText (p : FormatParser) : After p 0 [] [] p.pushText where
  data := pushText_data p []
  cursor := pushText_cursor p []
  start := by rw [pushText_start, pushText_cursor]
  written := by rw [written_pushText, List.append_nil]
  fields := by rw [pushText_fields, List.append_nil]

/-! ## Turns -/

theorem turn_text {c : Char} {r : StringView} (h : p.rest = c :: r) (hc : c ≠ '{') :
    turn C arg_types p l = .ok (p.advance, l) := by
  unfold turn
  rw [current_eq h]
  show (if c ≠ '{' then pure (p.advance, l) else _) = _
  rw [if_pos hc]
  rfl

/-- A character other than `{` is passed. -/
theorem run_text {c : Char} {r : StringView} (h : p.rest = c :: r) (hc : c ≠ '{') :
    run C arg_types p l = run C arg_types p.advance l := run_of_turn h (turn_text h hc)

theorem rest_advance {c : Char} {r : StringView} (h : p.rest = c :: r) : p.advance.rest = r := by
  unfold rest at h ⊢
  show p.data.drop (p.cursor + 1) = r
  rw [← List.drop_drop, h]
  rfl

theorem turn_escaped {r : StringView} (h : p.rest = '{' :: '{' :: r) :
    turn C arg_types p l = constant (p.advance.skipTo ['}']) >>= fun p₁ => .ok (p₁.pushText, l) := by
  unfold turn
  simp only [current_eq h, current_eq (rest_advance h), constant, bind, Except.bind, pure, Except.pure, ne_eq,
    not_true_eq_false, if_false, if_true]

/-- Behind `{{` the loop goes on where `skip_to` stops. -/
theorem run_escaped {r : StringView} (h : p.rest = '{' :: '{' :: r) :
    run C arg_types p l = constant (p.advance.skipTo ['}']) >>= fun p₁ => run C arg_types p₁.pushText l := by
  rw [run_of_valid C arg_types l (isValid_of_rest h), turn_escaped h]
  cases p.advance.skipTo ['}'] <;> rfl

/-- A name is skipped up to the end of the field or the `:`. -/
theorem skipped_name {name : StringView} (hname : ∀ c ∈ name, isNameChar c = true) {d : Char} (hd : d = '}' ∨ d = ':')
    (r : StringView) : skipped ['}', ':'] 0 (name ++ d :: r) = some name.length := by
  induction name with
  | nil => rcases hd with rfl | rfl <;> rfl
  | cons c name ih =>
    have hc : c ∉ ['{', '}', '(', ')', '[', ']', ':'] := decide_eq_true_iff.mp (hname c List.mem_cons_self)
    simp only [List.mem_cons, List.not_mem_nil, or_false, not_or] at hc
    obtain ⟨ho, hcl, hp, hq, hs, ht, hcolon⟩ := hc
    have hbracket : bracket c = 0 := by simp [bracket, ho, hcl, hp, hq, hs, ht]
    have hneedle : ¬ ((0 : Int) = 0 ∧ c ∈ ['}', ':']) := by simp [hcl, hcolon]
    rw [List.cons_append, skipped, if_neg hneedle, hbracket]
    show (skipped ['}', ':'] 0 (name ++ d :: r)).bind (fun n => some (n + 1)) = _
    rw [ih fun x hx => hname x (List.mem_cons_of_mem c hx)]
    rfl

/-- A field behind its brace, which is pushed and noted. -/
def opened (p : FormatParser) : FormatParser :=
  { p.advance.pushText with fields := p.fields ++ [p.cursor] }

theorem after_opened (hstart : p.fragment_start ≤ p.cursor) {r : StringView} (h : p.rest = '{' :: r) :
    After p 1 [.char '{'] [p.cursor] p.opened := by
  have hpush := (after_advance hstart h).trans (after_pushText p.advance)
  rw [List.append_nil, List.append_nil, Nat.add_zero] at hpush
  exact ⟨hpush.data, hpush.cursor, hpush.start, hpush.written, rfl⟩

theorem turn_field {c : Char} {r : StringView} (h : p.rest = '{' :: c :: r) (hc : c ≠ '{') :
    turn C arg_types p l = field C arg_types p.opened l := by
  unfold turn
  simp only [current_eq h, current_eq (rest_advance h), constant, bind, Except.bind, pure, Except.pure, ne_eq,
    not_true_eq_false, if_false, hc]
  rw [pushText_fields]
  rfl

/-- At the end of its name a field is looked up. -/
theorem field_eq {name : Name} {d : Char} (hd : d = '}' ∨ d = ':') {r : StringView} (h : p.rest = name.chars ++ d :: r) :
    field C arg_types p l =
      match resolve C arg_types l name.chars with
      | .error refusal => .error ((p.skip name.chars.length).refuse refusal)
      | .ok x => .ok ((p.skip name.chars.length).pushSlot x.2, x.1) := by
  have hskip : p.skipTo ['}', ':'] = some (p.skip name.chars.length) := by
    show (skipped ['}', ':'] 0 p.rest).map p.skip = _
    rw [h, skipped_name name.valid hd r]
    rfl
  have hname : (p.skip name.chars.length).since p.cursor = name.chars := by
    have happend := since_append (Nat.le_refl p.cursor) h
    rwa [since_self] at happend
  unfold field
  simp only [hskip, hname]
  cases resolve C arg_types l name.chars <;> rfl

theorem written_of_start (h : p.fragment_start = p.cursor) : p.written = p.fragments.flatMap Fragment.cells := by
  rw [written, h, since_self, textCells_nil, List.append_nil]

/-- Pushing `str` in the place of a name. -/
theorem after_pushText_str {n : Nat} {str : StringView} (hstart : p.fragment_start = p.cursor) (hstr : str ≠ []) :
    After p n (textCells str) [] ((p.skip n).pushText str) := by
  have hend : ((p.skip n).pushText str).fragment_start = ((p.skip n).pushText str).cursor := by
    rw [pushText_start, pushText_cursor]
  refine ⟨pushText_data _ _, pushText_cursor _ _, Nat.le_of_eq hend, ?_, ?_⟩
  · rw [written_of_start hend, written_of_start hstart]
    unfold pushText
    rw [if_pos hstr, List.flatMap_append]
    simp [Fragment.cells, skip]
  · rw [pushText_fields, List.append_nil]
    rfl

theorem after_pushAccessor {n : Nat} (index : Nat) (hstart : p.fragment_start = p.cursor) :
    After p n [.accessor (index % 2 ^ 32)] [] ((p.skip n).pushAccessor index) := by
  refine ⟨rfl, rfl, Nat.le_refl _, ?_, (List.append_nil _).symm⟩
  rw [written_of_start (p := (p.skip n).pushAccessor index) rfl, written_of_start hstart]
  exact List.flatMap_append

/-! ## Runs -/

/-- One piece of text behind another. -/
def followedBy (r : Option (Locals × List Cell)) (k : Locals → Option (Locals × List Cell)) :
    Option (Locals × List Cell) := r.bind fun x => (k x.1).map fun x' => (x'.1, x.2 ++ x'.2)

variable (C arg_types) in
/-- From `p` on the loop goes `n` characters, takes `fields` and writes the cells, if the
names have something to be replaced with; otherwise it stops. -/
def Runs (p : FormatParser) (l : Locals) (n : Nat) (fields : List Nat) : Option (Locals × List Cell) → Prop
  | none => ∃ stop, run C arg_types p l = .error stop
  | some (l', cells) => ∃ p', After p n cells fields p' ∧ run C arg_types p l = run C arg_types p' l'

variable {n n' : Nat} {fields fields' : List Nat}

/-- One stretch behind another. -/
theorem Runs.followedBy {r : Option (Locals × List Cell)} {k : Locals → Option (Locals × List Cell)}
    (h : Runs C arg_types p l n fields r)
    (h' : ∀ l' cells p', After p n cells fields p' → Runs C arg_types p' l' n' fields' (k l')) :
    Runs C arg_types p l (n + n') (fields ++ fields') (followedBy r k) := by
  cases r with
  | none => exact h
  | some x =>
    obtain ⟨l', cells⟩ := x
    obtain ⟨p', hafter, hrun⟩ := h
    have hnext := h' l' cells p' hafter
    show Runs C arg_types p l _ _ ((k l').map fun x' => (x'.1, cells ++ x'.2))
    cases hk : k l' with
    | none =>
      rw [hk] at hnext
      obtain ⟨stop, hstop⟩ := hnext
      exact ⟨stop, hrun.trans hstop⟩
    | some x' =>
      rw [hk] at hnext
      obtain ⟨p'', hafter', hrun'⟩ := hnext
      exact ⟨p'', hafter.trans hafter', hrun.trans hrun'⟩

theorem runs_text (hstart : p.fragment_start ≤ p.cursor) {c : Char} {r : StringView} (h : p.rest = c :: r)
    (hc : c ≠ '{') : Runs C arg_types p l 1 [] (some (l, [.char c])) :=
  ⟨p.advance, after_advance hstart h, run_text h hc⟩

theorem byIndex_slot {index : Nat} {slot : Slot} (h : byIndex l index = .ok (l', slot)) : slot ≠ .none := by
  unfold byIndex at h
  split at h
  · cases h
  · split at h <;> (cases h; exact Slot.noConfusion)

theorem byPath_slot {index : Nat} {path : StringView} {slot : Slot}
    (h : byPath C arg_types l index path = .ok (l', slot)) : slot ≠ .none := by
  unfold byPath at h
  split at h
  · cases h
  · cases h
    exact Slot.noConfusion

theorem implicitField_slot {name : StringView} {slot : Slot}
    (h : implicitField C arg_types l name = .ok (l', slot)) : slot ≠ .none := by
  unfold implicitField at h
  split at h
  · cases h
  · exact byPath_slot h

/-- Only an empty name leaves its place empty. -/
theorem resolve_none {name : StringView} (h : resolve C arg_types l name = .ok (l', .none)) : name = [] := by
  by_contra hname
  unfold resolve at h
  rw [if_neg hname] at h
  split at h
  · cases h
  · split at h
    · exact byIndex_slot h rfl
    · split at h
      · exact implicitField_slot h rfl
      · split at h
        · exact byPath_slot h rfl
        · exact implicitField_slot h rfl

variable (C arg_types) in
/-- What a name is replaced with. -/
def lookUp (l : Locals) (name : Name) : Option (Locals × Slot) := (resolve C arg_types l name.chars).toOption

variable (C arg_types) in
/-- The head of a field with its new name. -/
def rewriteHead (l : Locals) (name : Name) (d : Char) : Option (Locals × List Cell) :=
  (lookUp C arg_types l name).map fun x => (x.1, .char '{' :: (x.2.cells ++ [.char d]))

/-- The head of a field: the brace, the name and what ends it. -/
theorem runs_head (hstart : p.fragment_start ≤ p.cursor) {name : Name} {d : Char} (hd : d = '}' ∨ d = ':')
    {r : StringView} (h : p.rest = '{' :: (name.chars ++ d :: r)) :
    Runs C arg_types p l (name.chars.length + 2) [p.cursor]
      (rewriteHead C arg_types l name d) := by
  have hopened := after_opened hstart h
  have hrest : p.opened.rest = name.chars ++ d :: r := hopened.rest (s := ['{']) h rfl
  have hfirst : p.opened.fragment_start = p.opened.cursor := by
    show p.advance.pushText.fragment_start = p.advance.pushText.cursor
    rw [pushText_start, pushText_cursor]
  have hother : d ≠ '{' := by rcases hd with rfl | rfl <;> decide
  have hturn : turn C arg_types p l = field C arg_types p.opened l := by
    cases hchars : name.chars with
    | nil =>
      rw [hchars] at h
      exact turn_field h hother
    | cons c cs =>
      rw [hchars] at h
      refine turn_field h ?_
      rintro rfl
      have hvalid := name.valid '{' (by rw [hchars]; exact List.mem_cons_self)
      cases hvalid
  rw [field_eq hd hrest] at hturn
  have hrun := run_of_valid C arg_types l (isValid_of_rest h)
  rw [hturn] at hrun
  unfold rewriteHead lookUp
  cases hresolve : resolve C arg_types l name.chars with
  | error refusal =>
    rw [hresolve] at hrun
    exact ⟨_, hrun⟩
  | ok x =>
    obtain ⟨l', slot⟩ := x
    rw [hresolve] at hrun
    have hn : name.chars.length + 2 = 1 + name.chars.length + 1 := by omega
    cases slot with
    | none =>
      have hname := resolve_none hresolve
      rw [hname] at hrest hrun
      have hbehind := (after_advance (Nat.le_of_eq hfirst) hrest).trans (after_pushText _)
      rw [hname]
      exact ⟨_, hopened.trans hbehind, hrun⟩
    | number value =>
      have hnumber := after_pushText_str (n := name.chars.length) hfirst (utos_ne_nil (toUInt64 value))
      have hend := hnumber.rest hrest rfl
      rw [hn]
      exact ⟨_, (hopened.trans hnumber).trans (after_advance hnumber.start hend),
        hrun.trans (run_text hend hother)⟩
    | accessor index =>
      have haccessor := after_pushAccessor (n := name.chars.length) index hfirst
      have hend := haccessor.rest hrest rfl
      rw [hn]
      exact ⟨_, (hopened.trans haccessor).trans (after_advance haccessor.start hend), hrun⟩

end FormatParser

end Erl.Format
