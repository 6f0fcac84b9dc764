import Erl.Format.Direct

/-!
# What a format string that is not accepted is told

`do_parse` leaves off at the first field it cannot resolve. If that is one the programmer
can be told about, `error` shows the source line and underlines the field: a caret below
its brace, a tilde below each character of its name and below the one that ends it.
-/

namespace Erl.Format
open Util FormatString FormatParser Firsts

/-- The braces and the names of the fields, from left to right. -/
def heads (pos : Nat) (ps : List (Piece Name)) : List (Nat × Name) := (starts pos ps).zip (names ps)

section
variable {C : Classes} (arg_types : List C.Ty)

/-- A path that cannot be followed in the type of its argument. -/
def judgePath (index : Nat) (path : StringView) : Option Refusal :=
  if (arg_types[index]?.bind (getAccessor C path index)).isSome then none else some .notConstant

/-- A name that is no index; it is a path in the only argument unless it begins with one. -/
def judgeNamed (name : StringView) : Option Refusal :=
  match name.idxOf? '.', name.head?.any isDigit with
  | some dot, true => judgePath arg_types (stou (name.take dot)) (name.drop (dot + 1))
  | _, _ =>
    if arg_types.length = 1 then judgePath arg_types 0 name
    else some (.message "Field names cannot be directly used if there's more than one argument".toList)

/-- What is wrong with a name behind those that stand before it. -/
def judge (earlier : List StringView) (name : StringView) : Option Refusal :=
  if earlier.any fun other => other.isEmpty != name.isEmpty then some mixed
  else if name = [] then none
  else if isInteger name then if stou name < arg_types.length then none else some .notConstant
  else judgeNamed arg_types name

/-- The first field that is refused, behind the names `earlier`. -/
def firstRefused : List StringView → List (Nat × Name) → Option ((Nat × Name) × Refusal)
  | _, [] => none
  | earlier, head :: rest =>
    match judge arg_types earlier head.2.chars with
    | some refusal => some (head, refusal)
    | none => firstRefused (earlier ++ [head.2.chars]) rest

end

/-- A caret in a column and tildes behind it. -/
def underline (column length : Nat) : StringView :=
  List.replicate column ' ' ++ "^".toList ++ List.replicate length '~'

/-- The text for a field: where the format string stands, the message, the string behind a
margin and the field underlined. -/
def diagnosis (location : SourceLocation) (source : StringView) (head : Nat × Name) (message : StringView) : StringView :=
  let line := utos location.line.toUInt64
  let column := utos (location.column - 1).toUInt64
  let margin := "  ".toList ++ line ++ " | ".toList
  "Invalid format string\n".toList ++ location.file_name ++ ":".toList ++ line ++ ":".toList ++
    column ++ ": error: ".toList ++ message ++ "\n".toList ++
    margin ++ source ++ "\n".toList ++
    underline (margin.length + head.1) (head.2.chars.length + 1) ++ "\n".toList ++ "raised from:".toList

/-- How the parse ends at a field that is refused. -/
def stopAt (location : SourceLocation) (source : StringView) (head : Nat × Name) : Refusal → Stop
  | .message text => .error (diagnosis location source head text)
  | .notConstant => .notConstant

variable {C : Classes} {arg_types : List C.Ty} {p p' p'' : FormatParser} {l l' : Locals} {earlier : List StringView}

theorem firstRefused_append (first rest : List (Nat × Name)) :
    firstRefused arg_types earlier (first ++ rest) =
      (firstRefused arg_types earlier first).or
        (firstRefused arg_types (earlier ++ first.map fun head => head.2.chars) rest) := by
  induction first generalizing earlier with
  | nil => simp [firstRefused]
  | cons head first ih =>
    rw [List.cons_append, firstRefused, firstRefused]
    cases judge arg_types earlier head.2.chars with
    | some refusal => rfl
    | none => simp [ih]

@[simp] theorem pushText_location (p : FormatParser) (str : StringView) : (p.pushText str).location = p.location := by
  unfold pushText
  split
  · rfl
  · split <;> rfl

/-- `error` underlines what stands between the start of the fragment and the cursor. -/
theorem error_eq {name : Name} (text : StringView) (start : p.fragment_start = p'.cursor + 1)
    (cursor : p.cursor = p'.cursor + 1 + name.chars.length) :
    p.error text = .error (diagnosis p.location p.data (p'.cursor, name) text) := by
  have highlight : p.cursor - p.fragment_start + 1 = name.chars.length + 1 := by omega
  unfold error diagnosis underline
  extract_lets line column margin
  have below : List.replicate (margin.length + p'.cursor) ' ' =
      List.replicate (5 + line.length) ' ' ++ List.replicate (p.fragment_start - 1) ' ' := by
    have width : margin.length = 5 + line.length := by
      have first : "  ".toList.length = 2 := by decide
      have last : " | ".toList.length = 3 := by decide
      rw [List.length_append, List.length_append, first, last]
      omega
    rw [← List.replicate_add, start, width, Nat.add_sub_cancel]
  rw [highlight, below]
  simp only [margin, List.append_assoc]

/-- The caret stands below the brace, the tildes below the name and what ends it. -/
theorem refuse_opened {name : Name} (refusal : Refusal) :
    (p.opened.skip name.chars.length).refuse refusal = stopAt p.location p.data (p.cursor, name) refusal := by
  have data : (p.opened.skip name.chars.length).data = p.data := pushText_data p.advance []
  have location : (p.opened.skip name.chars.length).location = p.location := pushText_location p.advance []
  cases refusal with
  | notConstant => simp only [refuse, stopAt]
  | message text =>
    have start : (p.opened.skip name.chars.length).fragment_start = p.cursor + 1 := pushText_start p.advance []
    have cursor : (p.opened.skip name.chars.length).cursor = p.cursor + 1 + name.chars.length :=
      congrArg (· + name.chars.length) (pushText_cursor p.advance [])
    rw [refuse, error_eq text start cursor, data, location, stopAt]

/-! ## The locals -/

variable (arg_types) in
/-- The locals behind the names `earlier`. -/
structure Seen (earlier : List StringView) (l : Locals) : Prop where
  empty : l.has_empty = earlier.any fun other => other.isEmpty
  positional : l.has_positional = earlier.any fun other => !other.isEmpty
  table : ∃ u, Table arg_types.length u l ∧ u.length ≤ earlier.length
  accessors : l.accessors.length ≤ earlier.length

theorem Seen.start : Seen arg_types [] (.start arg_types.length) where
  empty := rfl
  positional := rfl
  table := ⟨[], Table.start _, Nat.le_refl _⟩
  accessors := Nat.le_refl _

/-- What is pushed can be numbered later. -/
def Slot.Below (n : Nat) : Slot → Prop
  | .accessor index => index ≤ n
  | _ => True

theorem byPath_judge {index : Nat} {path : StringView} :
    (∃ refusal, judgePath arg_types index path = some refusal ∧ byPath C arg_types l index path = .error refusal) ∨
      ∃ accessor, judgePath arg_types index path = none ∧ byPath C arg_types l index path =
        .ok ({ l with accessors := l.accessors ++ [accessor] }, .accessor (l.accessors ++ [accessor]).length) := by
  unfold judgePath byPath
  cases arg_types[index]?.bind (getAccessor C path index) with
  | none => exact .inl ⟨_, rfl, rfl⟩
  | some accessor => exact .inr ⟨accessor, rfl, rfl⟩

theorem named_judge {name : StringView} (hne : name ≠ []) (hinteger : isInteger name = false)
    (hempty : l.has_empty = false) :
    (∃ refusal, judgeNamed arg_types name = some refusal ∧ resolve C arg_types l name = .error refusal) ∨
      ∃ accessor, judgeNamed arg_types name = none ∧ resolve C arg_types l name =
        .ok ({ l with has_positional := true, accessors := l.accessors ++ [accessor] },
          .accessor (l.accessors ++ [accessor]).length) := by
  have implicit : ∀ l : Locals, implicitField C arg_types l name =
      if arg_types.length = 1 then byPath C arg_types l 0 name
      else .error (.message "Field names cannot be directly used if there's more than one argument".toList) := by
    intro l
    unfold implicitField
    rw [ite_not]
  have resolved : resolve C arg_types l name =
      match name.idxOf? '.', name.head?.any isDigit with
      | some dot, true =>
        byPath C arg_types { l with has_positional := true } (stou (name.take dot)) (name.drop (dot + 1))
      | _, _ => implicitField C arg_types { l with has_positional := true } name := by
    unfold resolve
    rw [if_neg hne, hempty, if_neg Bool.false_ne_true]
    simp only
    rw [hinteger, if_neg Bool.false_ne_true]
    cases name.idxOf? '.' with
    | none => rfl
    | some dot => cases name.head?.any isDigit <;> rfl
  rw [resolved]
  unfold judgeNamed
  split
  · exact byPath_judge
  · rw [implicit]
    split
    · exact byPath_judge
    · exact .inl ⟨_, rfl, rfl⟩

/-- One name: it is refused as judged, or it has something to be replaced with. -/
theorem resolve_judge (seen : Seen arg_types earlier l) (few : earlier.length < 2 ^ 31) (name : StringView) :
    (∃ refusal, judge arg_types earlier name = some refusal ∧ resolve C arg_types l name = .error refusal) ∨
      ∃ l' slot, judge arg_types earlier name = none ∧ resolve C arg_types l name = .ok (l', slot) ∧
        Seen arg_types (earlier ++ [name]) l' ∧ slot.Below (earlier.length + 1) ∧
        (l'.has_positional = false → slot = .none) := by
  obtain ⟨u, table, appeared⟩ := seen.table
  have longer : (earlier ++ [name]).length = earlier.length + 1 := by rw [List.length_append, List.length_singleton]
  by_cases hname : name = []
  · subst hname
    have mixes : (earlier.any fun other => other.isEmpty != List.isEmpty ([] : StringView)) = l.has_positional := by
      rw [seen.positional]
      simp
    have resolved : resolve C arg_types l [] =
        if l.has_positional then .error mixed else .ok ({ l with has_empty := true }, .none) := if_pos rfl
    unfold judge
    rw [mixes, resolved]
    cases positional : l.has_positional with
    | true => exact .inl ⟨_, rfl, rfl⟩
    | false =>
      refine .inr ⟨_, _, rfl, rfl, ⟨?_, ?_, ⟨u, table.of_direct rfl rfl, by omega⟩, ?_⟩, trivial, fun _ => rfl⟩
      · simp
      · rw [List.any_append, ← seen.positional, positional]
        rfl
      · have := seen.accessors
        show l.accessors.length ≤ _
        omega
  · have mixes : (earlier.any fun other => other.isEmpty != name.isEmpty) = l.has_empty := by
      rw [seen.empty]
      simp [List.isEmpty_eq_false_iff.mpr hname]
    unfold judge
    rw [mixes]
    cases empty : l.has_empty with
    | true =>
      refine .inl ⟨_, rfl, ?_⟩
      unfold resolve
      rw [if_neg hname, empty, if_pos rfl]
    | false =>
      have none_empty : (earlier ++ [name]).any (fun other => other.isEmpty) = false := by
        rw [List.any_append, ← seen.empty, empty]
        simp [hname]
      have some_named : (earlier ++ [name]).any (fun other => !other.isEmpty) = true := by
        rw [List.any_append]
        simp [hname]
      rw [if_neg Bool.false_ne_true, if_neg hname]
      cases hinteger : isInteger name with
      | true =>
        have resolved : resolve C arg_types l name = byIndex { l with has_positional := true } (stou name) := by
          unfold resolve
          rw [if_neg hname, empty, if_neg Bool.false_ne_true]
          simp only
          rw [hinteger, if_pos rfl]
        have begun : Table arg_types.length u { l with has_positional := true } := table.of_direct rfl rfl
        rw [if_pos rfl, resolved]
        by_cases inside : stou name < arg_types.length
        · have grown : (add u (stou name)).length ≤ u.length + 1 := by
            by_cases mem : stou name ∈ u
            · rw [add_of_mem mem]
              omega
            · rw [add_of_not_mem mem, List.length_append, List.length_singleton]
          obtain ⟨l', found, table', only⟩ := begun.byIndex inside (by omega)
          refine .inr ⟨l', _, by rw [if_pos inside], found, ⟨?_, ?_, ⟨_, table', by omega⟩, ?_⟩, trivial, ?_⟩
          · rw [only.has_empty, none_empty]
            exact empty
          · rw [only.has_positional, some_named]
          · rw [only.accessors, longer]
            exact Nat.le_succ_of_le seen.accessors
          · rw [only.has_positional]
            intro h
            cases h
        · refine .inl ⟨_, by rw [if_neg inside], ?_⟩
          unfold byIndex
          rw [List.getElem?_eq_none (by rw [begun.length]; omega)]
      | false =>
        rw [if_neg Bool.false_ne_true]
        rcases named_judge hname hinteger empty with refused | ⟨accessor, fine, resolved⟩
        · exact .inl refused
        · refine .inr ⟨_, _, fine, resolved, ⟨?_, ?_, ⟨u, table.of_direct rfl rfl, by omega⟩, ?_⟩, ?_, ?_⟩
          · rw [none_empty]
            exact empty
          · rw [some_named]
          · have := seen.accessors
            simp only [List.length_append, List.length_singleton]
            omega
          · have := seen.accessors
            simp only [Slot.Below, List.length_append, List.length_singleton]
            omega
          · intro h
            cases h

/-! ## The scan -/

/-- `p'` stands `n` characters behind `p`. -/
structure Ahead (p : FormatParser) (n : Nat) (p' : FormatParser) : Prop where
  data : p'.data = p.data
  location : p'.location = p.location
  cursor : p'.cursor = p.cursor + n
  start : p'.fragment_start ≤ p'.cursor

theorem Ahead.trans {n n' : Nat} (h : Ahead p n p') (h' : Ahead p' n' p'') : Ahead p (n + n') p'' where
  data := h'.data.trans h.data
  location := h'.location.trans h.location
  cursor := by rw [h'.cursor, h.cursor, Nat.add_assoc]
  start := h'.start

theorem Ahead.rest {n : Nat} (h : Ahead p n p') {s r : StringView} (hrest : p.rest = s ++ r) (hn : s.length = n) :
    p'.rest = r := by
  have hdrop : p'.rest = p.rest.drop n := by
    unfold FormatParser.rest
    rw [h.data, h.cursor, List.drop_drop]
  rw [hdrop, hrest, List.drop_left' hn]

theorem ahead_skip (hstart : p.fragment_start ≤ p.cursor) (n : Nat) : Ahead p n (p.skip n) :=
  ⟨rfl, rfl, rfl, Nat.le_trans hstart (Nat.le_add_right _ n)⟩

theorem ahead_pushText (p : FormatParser) (str : StringView) : Ahead p 0 (p.pushText str) :=
  ⟨pushText_data p str, pushText_location p str, pushText_cursor p str, by rw [pushText_start, pushText_cursor]⟩

/-- The names of heads. -/
def headNames (fs : List (Nat × Name)) : List StringView := fs.map fun head => head.2.chars

variable (arg_types) in
/-- The loop stands at `p` behind the names `earlier`; each of them took two characters at
least. -/
structure Ready (p : FormatParser) (earlier : List StringView) (l : Locals) : Prop where
  start : p.fragment_start ≤ p.cursor
  seen : Seen arg_types earlier l
  few : 2 * earlier.length ≤ p.cursor
  short : p.data.length < 2 ^ 31

theorem Ready.ahead (ready : Ready arg_types p earlier l) {n : Nat} (ahead : Ahead p n p') {fs : List (Nat × Name)}
    (seen : Seen arg_types (earlier ++ headNames fs) l') (few : 2 * fs.length ≤ n) :
    Ready arg_types p' (earlier ++ headNames fs) l' := by
  refine ⟨ahead.start, seen, ?_, ?_⟩
  · have := ready.few
    rw [ahead.cursor, List.length_append, headNames, List.length_map]
    omega
  · rw [ahead.data]
    exact ready.short

variable (arg_types) in
/-- The computation `x` goes on `n` characters behind `p`, where the fields `fs` have been
seen, or it ends at the first of them that is refused. -/
def Scans (x : Except Stop (FormatParser × Locals)) (p : FormatParser) (earlier : List StringView) (n : Nat)
    (fs : List (Nat × Name)) : Prop :=
  match firstRefused arg_types earlier fs with
  | some (head, refusal) => x = .error (stopAt p.location p.data head refusal)
  | none => ∃ p' l', x = run C arg_types p' l' ∧ Ahead p n p' ∧ Ready arg_types p' (earlier ++ headNames fs) l'

variable {x : Except Stop (FormatParser × Locals)} {n n' : Nat} {fs fs' : List (Nat × Name)}

theorem Scans.followedBy (h : Scans arg_types x p earlier n fs)
    (h' : ∀ p' l', Ahead p n p' → Ready arg_types p' (earlier ++ headNames fs) l' →
      Scans arg_types (run C arg_types p' l') p' (earlier ++ headNames fs) n' fs') :
    Scans arg_types x p earlier (n + n') (fs ++ fs') := by
  unfold Scans at h ⊢
  rw [firstRefused_append]
  cases first : firstRefused arg_types earlier fs with
  | some refused =>
    rw [first] at h
    exact h
  | none =>
    rw [first] at h
    obtain ⟨p', l', rfl, ahead, ready⟩ := h
    have behind := h' p' l' ahead ready
    unfold Scans at behind
    show match firstRefused arg_types (earlier ++ headNames fs) fs' with
      | some (head, refusal) => _
      | none => _
    cases second : firstRefused arg_types (earlier ++ headNames fs) fs' with
    | some refused =>
      rw [second] at behind
      rw [← ahead.data, ← ahead.location]
      exact behind
    | none =>
      rw [second] at behind
      obtain ⟨p'', l'', goes, ahead', ready'⟩ := behind
      refine ⟨p'', l'', goes, ahead.trans ahead', ?_⟩
      rwa [headNames, List.map_append, ← List.append_assoc]

/-- Characters that are passed. -/
theorem Scans.passed (ready : Ready arg_types p earlier l) (ahead : Ahead p n p') (goes : x = run C arg_types p' l) :
    Scans arg_types x p earlier n [] := by
  have seen : Seen arg_types (earlier ++ headNames []) l := by
    rw [headNames, List.map_nil, List.append_nil]
    exact ready.seen
  exact ⟨p', l, goes, ahead, ready.ahead ahead seen (Nat.zero_le n)⟩

/-- Characters in front that are passed. -/
theorem Scans.behind (ahead : Ahead p n p') (h : Scans arg_types x p' earlier n' fs) :
    Scans arg_types x p earlier (n + n') fs := by
  unfold Scans at h ⊢
  cases first : firstRefused arg_types earlier fs with
  | some refused =>
    rw [first] at h
    rw [← ahead.data, ← ahead.location]
    exact h
  | none =>
    rw [first] at h
    obtain ⟨p'', l', goes, ahead', ready⟩ := h
    exact ⟨p'', l', goes, ahead.trans ahead', ready⟩

/-- At the head of a field the loop ends, or goes on with what is pushed. -/
theorem run_head (hstart : p.fragment_start ≤ p.cursor) {name : Name} {d : Char} (hd : d = '}' ∨ d = ':')
    {r : StringView} (h : p.rest = '{' :: (name.chars ++ d :: r)) :
    run C arg_types p l =
      match resolve C arg_types l name.chars with
      | .error refusal => .error (stopAt p.location p.data (p.cursor, name) refusal)
      | .ok found => run C arg_types ((p.opened.skip name.chars.length).pushSlot found.2) found.1 := by
  have hrest : p.opened.rest = name.chars ++ d :: r := (after_opened hstart h).rest (s := ['{']) h rfl
  have hturn : turn C arg_types p l = field C arg_types p.opened l := by
    cases hchars : name.chars with
    | nil =>
      rw [hchars] at h
      exact turn_field h (by rcases hd with rfl | rfl <;> decide)
    | cons c cs =>
      rw [hchars] at h
      refine turn_field h ?_
      rintro rfl
      have hvalid := name.valid '{' (by rw [hchars]; exact List.mem_cons_self)
      cases hvalid
  rw [run_of_valid C arg_types l (isValid_of_rest h), hturn, field_eq hd hrest]
  cases resolve C arg_types l name.chars with
  | error refusal =>
    show Except.error ((p.opened.skip name.chars.length).refuse refusal) = _
    rw [refuse_opened]
  | ok found => rfl

theorem scans_head (ready : Ready arg_types p earlier l) {name : Name} {d : Char} (hd : d = '}' ∨ d = ':')
    {r : StringView} (h : p.rest = '{' :: (name.chars ++ d :: r)) :
    Scans arg_types (run C arg_types p l) p earlier (name.chars.length + 2) [(p.cursor, name)] := by
  have hopened : Ahead p 1 p.opened := ⟨pushText_data p.advance [], pushText_location p.advance [],
    pushText_cursor p.advance [], (ahead_pushText p.advance []).start⟩
  have hrest : p.opened.rest = name.chars ++ d :: r := hopened.rest (s := ['{']) h rfl
  have hname := hopened.trans (ahead_skip hopened.start name.chars.length)
  have hbehind : (p.opened.skip name.chars.length).rest = d :: r :=
    (ahead_skip hopened.start name.chars.length).rest hrest rfl
  have hother : d ≠ '{' := by rcases hd with rfl | rfl <;> decide
  have hn : name.chars.length + 2 = 1 + name.chars.length + 1 := by omega
  have few : earlier.length < 2 ^ 31 := by
    have inside := isValid_iff.mp (isValid_of_rest h)
    have := ready.few
    have := ready.short
    omega
  rw [run_head ready.start hd h]
  unfold Scans firstRefused
  rcases resolve_judge (C := C) ready.seen few name.chars with
    ⟨refusal, judged, resolved⟩ | ⟨l', slot, judged, resolved, seen, -, -⟩
  · simp only [judged, resolved]
  · simp only [judged, resolved, firstRefused, hn]
    have goesOn {q : FormatParser} (ahead : Ahead p (1 + name.chars.length + 1) q) :
        Ready arg_types q (earlier ++ headNames [(p.cursor, name)]) l' := by
      refine ready.ahead ahead seen ?_
      rw [List.length_singleton]
      omega
    cases slot with
    | none =>
      have ahead := hname.trans ((ahead_skip hname.start 1).trans (ahead_pushText _ []))
      exact ⟨_, l', rfl, ahead, goesOn ahead⟩
    | number value =>
      have pushed := ahead_pushText (p.opened.skip name.chars.length) (utos (toUInt64 value))
      have ahead := (hname.trans pushed).trans (ahead_skip pushed.start 1)
      exact ⟨_, l', run_text (pushed.rest (s := []) hbehind rfl) hother, ahead, goesOn ahead⟩
    | accessor index =>
      have pushed : Ahead (p.opened.skip name.chars.length) 0 ((p.opened.skip name.chars.length).pushAccessor index) :=
        ⟨rfl, rfl, rfl, Nat.le_refl _⟩
      have ahead := (hname.trans pushed).trans (ahead_skip pushed.start 1)
      exact ⟨_, l', rfl, ahead, goesOn ahead⟩

/-- The heads in a spec. -/
def specHeads (pos : Nat) (spec : List (SpecPiece Name)) : List (Nat × Name) := (specStarts pos spec).zip (specNames spec)

theorem length_specStarts (pos : Nat) (spec : List (SpecPiece Name)) :
    (specStarts pos spec).length = (specNames spec).length := by
  induction spec generalizing pos with
  | nil => rfl
  | cons piece spec ih =>
    cases piece with
    | text c => exact ih (pos + 1)
    | field name => exact congrArg (· + 1) (ih _)

theorem scans_spec (ready : Ready arg_types p earlier l) {spec : List (SpecPiece Name)} {r : StringView}
    (h : p.rest = specChars spec ++ r) :
    Scans arg_types (run C arg_types p l) p earlier (specChars spec).length (specHeads p.cursor spec) := by
  induction spec generalizing p l earlier with
  | nil => exact Scans.passed ready (ahead_skip ready.start 0) rfl
  | cons piece spec ih =>
    rw [specChars_cons, List.append_assoc] at h
    rw [specChars_cons, List.length_append]
    cases piece with
    | text c =>
      have here := Scans.passed (x := run C arg_types p l) ready (ahead_skip ready.start 1) (run_text h c.notBrace.1)
      apply here.followedBy
      intro p' l' ahead ready'
      have behind := ih ready' (ahead.rest h rfl)
      rw [ahead.cursor] at behind
      exact behind
    | field name =>
      have hchars : (SpecPiece.field name).chars.length = name.chars.length + 2 := by simp [SpecPiece.chars]
      have hhead : p.rest = '{' :: (name.chars ++ '}' :: (specChars spec ++ r)) := by
        rw [h]
        simp [SpecPiece.chars]
      rw [hchars]
      apply (scans_head ready (.inl rfl) hhead).followedBy
      intro p' l' ahead ready'
      have behind := ih ready' (ahead.rest h hchars)
      rw [ahead.cursor] at behind
      exact behind

/-- The heads of a piece. -/
def pieceHeads (pos : Nat) (piece : Piece Name) : List (Nat × Name) := (pieceStarts pos piece).zip piece.names

theorem pieceHeads_plain {piece : Piece Name} (hplain : ∀ name spec, piece ≠ .field name spec) (pos : Nat) :
    pieceHeads pos piece = [] := by
  rw [pieceHeads, pieceStarts_plain hplain, List.zip_nil_left]

theorem length_pieceStarts (pos : Nat) (piece : Piece Name) : (pieceStarts pos piece).length = piece.names.length := by
  cases piece with
  | field name spec =>
    cases spec with
    | none => rfl
    | some spec => exact congrArg (· + 1) (length_specStarts _ spec)
  | _ => rfl

theorem heads_cons (pos : Nat) (piece : Piece Name) (ps : List (Piece Name)) :
    heads pos (piece :: ps) = pieceHeads pos piece ++ heads (pos + piece.chars.length) ps := by
  unfold heads pieceHeads
  rw [starts_cons, names_cons, List.zip_append (length_pieceStarts pos piece)]

theorem length_heads (pos : Nat) (ps : List (Piece Name)) : (heads pos ps).length = (names ps).length := by
  induction ps generalizing pos with
  | nil => rfl
  | cons piece ps ih =>
    rw [heads_cons, List.length_append, ih, pieceHeads, List.length_zip, length_pieceStarts, Nat.min_self, names_cons,
      List.length_append]

theorem scans_field (ready : Ready arg_types p earlier l) {name : Name} {spec : Option (List (SpecPiece Name))}
    {r : StringView} (h : p.rest = (Piece.field name spec).chars ++ r) :
    Scans arg_types (run C arg_types p l) p earlier (Piece.field name spec).chars.length
      (pieceHeads p.cursor (.field name spec)) := by
  cases spec with
  | none =>
    have hchars : (Piece.field name none).chars.length = name.chars.length + 2 := by simp [Piece.chars]
    have hhead : p.rest = '{' :: (name.chars ++ '}' :: r) := by
      rw [h]
      simp [Piece.chars]
    rw [hchars]
    exact scans_head ready (.inl rfl) hhead
  | some spec =>
    have hchars : (Piece.field name (some spec)).chars.length =
        name.chars.length + 2 + ((specChars spec).length + 1) := by
      simp [Piece.chars]
      omega
    have hhead : p.rest = '{' :: (name.chars ++ ':' :: (specChars spec ++ '}' :: r)) := by
      rw [h]
      simp [Piece.chars]
    have hsplit : p.rest = ('{' :: (name.chars ++ [':'])) ++ (specChars spec ++ '}' :: r) := by
      rw [hhead]
      simp
    rw [hchars]
    apply (scans_head ready (.inr rfl) hhead).followedBy
    intro p' l' ahead ready'
    have hrest := ahead.rest hsplit (by simp)
    have behind := (scans_spec ready' hrest).followedBy fun p'' l'' ahead' ready'' =>
      Scans.passed ready'' (ahead_skip ready''.start 1) (run_text (ahead'.rest hrest rfl) (by decide))
    rw [List.append_nil, ahead.cursor] at behind
    exact behind

/-! ## Escapes -/

variable (C arg_types l) in
/-- One character of a stretch that is skipped. -/
theorem skip_one {count : Int} {c : Char} {r : StringView} (h : p.rest = c :: r) (hc : ¬ (count = 0 ∧ c = '}'))
    (small : |count| ≤ p.cursor) (short : p.data.length < 2 ^ 31) :
    parseFrom C arg_types (some count) p l = parseFrom C arg_types (some (count + bracket c)) p.advance l ∧
      |count + bracket c| ≤ p.advance.cursor := by
  have inside := isValid_iff.mp (isValid_of_rest h)
  have step : |bracket c| ≤ 1 := by
    unfold bracket
    split
    · decide
    · split <;> decide
  have small' : |count + bracket c| ≤ ((p.cursor + 1 : Nat) : Int) := by
    have := abs_add_le count (bracket c)
    omega
  refine ⟨?_, small'⟩
  have bounds := abs_le.mp small'
  simp only [parseFrom]
  rw [skipFrom_pass h (by simpa using hc), checkedInt, if_pos (by omega)]
  rfl

variable (C arg_types l) in
/-- `}}` behind a stretch with `count` open brackets. -/
theorem skip_close {count : Int} {r : StringView} (h : p.rest = '}' :: '}' :: r) (start : p.fragment_start ≤ p.cursor)
    (small : |count| ≤ p.cursor) (short : p.data.length < 2 ^ 31) :
    ∃ p', Ahead p 2 p' ∧ (count = 0 ∨ count = 1 → parseFrom C arg_types (some count) p l = run C arg_types p' l) ∧
      (¬ (count = 0 ∨ count = 1) →
        parseFrom C arg_types (some count) p l = parseFrom C arg_types (some (count - 2)) p' l ∧
          |count - 2| ≤ p'.cursor) := by
  have two : Ahead p 2 p.advance.advance := (ahead_skip start 1).trans (ahead_skip (ahead_skip start 1).start 1)
  by_cases h0 : count = 0
  · subst h0
    have push := ahead_pushText p []
    have rest : p.pushText.rest = '}' :: '}' :: r := by rw [pushText_rest, h]
    have first := ahead_skip push.start 1
    refine ⟨_, push.trans (first.trans (ahead_skip first.start 1)), ?_, by simp⟩
    intro _
    rw [parseFrom_stop h, run_close rest]
    rfl
  · obtain ⟨one, small'⟩ := skip_one C arg_types l h (fun hc => h0 hc.1) small short
    have less : count + bracket '}' = count - 1 := rfl
    rw [less] at one small'
    have second := rest_advance h
    by_cases h1 : count = 1
    · subst h1
      have push := (ahead_skip start 1).trans (ahead_pushText p.advance [])
      have rest : p.advance.pushText.rest = '}' :: r := by rw [pushText_rest, second]
      refine ⟨_, push.trans (ahead_skip push.start 1), ?_, by simp⟩
      intro _
      rw [one]
      show parseFrom C arg_types (some 0) p.advance l = _
      rw [parseFrom_stop second, run_text rest (by decide)]
      rfl
    · obtain ⟨two', small''⟩ := skip_one C arg_types l second (fun hc => h1 (by omega))
        small' short
      have less' : count - 1 + bracket '}' = count - 2 := by
        show count - 1 + -1 = count - 2
        omega
      rw [less'] at two' small''
      exact ⟨_, two, fun hc => absurd hc (by omega), fun _ => ⟨one.trans two', small''⟩⟩

/-- A piece that is no field is passed, whether it is skipped or not. -/
theorem scans_plain (ready : Ready arg_types p earlier l) {mode : Option Int} (small : ∀ count ∈ mode, |count| ≤ p.cursor)
    {piece : Piece Name} (hplain : ∀ name spec, piece ≠ .field name spec) {ps : List (Piece Name)}
    (h : p.rest = piece.chars ++ render ps) :
    ∃ mode' p', clearFrom mode (piece :: ps) = clearFrom mode' ps ∧ Ahead p piece.chars.length p' ∧
      (∀ count ∈ mode', |count| ≤ p'.cursor) ∧ parseFrom C arg_types mode p l = parseFrom C arg_types mode' p' l := by
  have one := ahead_skip ready.start 1
  have two : Ahead p 2 p.advance.advance := one.trans (ahead_skip one.start 1)
  have nothing : ∀ q : FormatParser, ∀ count ∈ (none : Option Int), |count| ≤ q.cursor := fun q count mem => by cases mem
  cases piece with
  | field name spec => exact absurd rfl (hplain name spec)
  | text c =>
    cases mode with
    | none => exact ⟨none, p.advance, rfl, one, nothing _, run_text h c.notBrace.1⟩
    | some count =>
      obtain ⟨goes, small'⟩ := skip_one C arg_types l h (fun hc => c.notBrace.2 hc.2)
        (small count rfl) ready.short
      exact ⟨some (count + bracket c.char), p.advance, rfl, one, by rintro _ ⟨⟩; exact small', goes⟩
  | escapedOpen =>
    have second : p.advance.rest = '{' :: render ps := rest_advance h
    cases mode with
    | none =>
      have zero : |(0 : Int)| ≤ p.advance.cursor := by simp
      obtain ⟨goes, small'⟩ := skip_one C arg_types l second (by simp) zero ready.short
      refine ⟨some 1, p.advance.advance, rfl, two, by rintro _ ⟨⟩; exact small', ?_⟩
      show run C arg_types p l = _
      rw [run_escaped h]
      exact goes
    | some count =>
      obtain ⟨first, small'⟩ := skip_one C arg_types l h (by simp) (small count rfl)
        ready.short
      obtain ⟨goes, small''⟩ := skip_one C arg_types l second (by simp) small' ready.short
      have more : count + bracket '{' + bracket '{' = count + 2 := by
        show count + 1 + 1 = count + 2
        omega
      rw [more] at goes small''
      exact ⟨some (count + 2), p.advance.advance, rfl, two, by rintro _ ⟨⟩; exact small'', first.trans goes⟩
  | escapedClose =>
    cases mode with
    | none => exact ⟨none, p.advance.advance, rfl, two, nothing _, run_close h⟩
    | some count =>
      obtain ⟨p', ahead, past, still⟩ := skip_close C arg_types l h ready.start
        (small count rfl) ready.short
      by_cases hcount : count = 0 ∨ count = 1
      · exact ⟨none, p', by rw [clearFrom, if_pos hcount], ahead, nothing _, past hcount⟩
      · obtain ⟨goes, small'⟩ := still hcount
        exact ⟨some (count - 2), p', by rw [clearFrom, if_neg hcount], ahead, by rintro _ ⟨⟩; exact small', goes⟩

/-- The scan ends at the first field that is refused, or sees them all. -/
theorem scans_render {mode : Option Int} {ps : List (Piece Name)} (clear : clearFrom mode ps = true)
    (small : ∀ count ∈ mode, |count| ≤ p.cursor) (ready : Ready arg_types p earlier l) (h : p.rest = render ps) :
    Scans arg_types (parseFrom C arg_types mode p l) p earlier (render ps).length (heads p.cursor ps) := by
  induction ps generalizing mode p l earlier with
  | nil =>
    cases mode with
    | none => exact Scans.passed ready (ahead_skip ready.start 0) rfl
    | some count =>
      apply Scans.passed ready (ahead_pushText p [])
      simp only [parseFrom, skipFrom_end h]
      rfl
  | cons piece ps ih =>
    rw [render_cons] at h
    rw [render_cons, List.length_append, heads_cons]
    by_cases hplain : ∀ name spec, piece ≠ .field name spec
    · obtain ⟨mode', p', same, ahead, small', goes⟩ := scans_plain (C := C) ready small hplain h
      have seen : Seen arg_types (earlier ++ headNames []) l := by
        rw [headNames, List.map_nil, List.append_nil]
        exact ready.seen
      have ready' := ready.ahead ahead seen (Nat.zero_le _)
      rw [headNames, List.map_nil, List.append_nil] at ready'
      have behind := ih (same.symm.trans clear) small' ready' (ahead.rest h rfl)
      rw [← goes, ahead.cursor] at behind
      rw [pieceHeads_plain hplain]
      exact Scans.behind ahead behind
    · simp only [not_forall, not_not] at hplain
      obtain ⟨name, spec, rfl⟩ := hplain
      cases mode with
      | some count => cases clear
      | none =>
        apply (scans_field ready h).followedBy
        intro p' l' ahead ready'
        have behind := ih clear (fun count mem => by cases mem) ready' (ahead.rest h rfl)
        rw [ahead.cursor] at behind
        exact behind

theorem accumulate_seen {ns : List Name} {slots : List Slot} (seen : Seen arg_types earlier l)
    (few : earlier.length + ns.length < 2 ^ 31) (h : accumulate (lookUp C arg_types) l ns = some (l', slots)) :
    Seen arg_types (earlier ++ ns.map Name.chars) l' ∧
      ∀ slot ∈ slots, slot.Below (earlier.length + ns.length) ∧ (l'.has_positional = false → slot = .none) := by
  induction ns generalizing earlier l slots with
  | nil =>
    cases h
    rw [List.map_nil, List.append_nil]
    exact ⟨seen, fun slot mem => absurd mem List.not_mem_nil⟩
  | cons name ns ih =>
    obtain ⟨l₁, slot, rest, hslot, hrest, rfl⟩ := accumulate_cons_eq_some.mp h
    rw [List.length_cons] at few ⊢
    have resolved : resolve C arg_types l name.chars = .ok (l₁, slot) := by
      unfold lookUp at hslot
      cases hresolve : resolve C arg_types l name.chars with
      | error refusal =>
        rw [hresolve] at hslot
        cases hslot
      | ok found =>
        rw [hresolve] at hslot
        cases hslot
        rfl
    rcases resolve_judge (C := C) seen (by omega) name.chars with
      ⟨_, _, refused⟩ | ⟨l₂, slot', _, same, seen₁, below, empty⟩
    · cases refused.symm.trans resolved
    · cases same.symm.trans resolved
      have length : (earlier ++ [name.chars]).length = earlier.length + 1 := by
        rw [List.length_append, List.length_singleton]
      obtain ⟨seen', all⟩ := ih seen₁ (by omega) hrest
      have whole := seen'
      rw [List.append_assoc] at whole
      refine ⟨whole, List.forall_mem_cons.mpr ⟨⟨?_, ?_⟩, ?_⟩⟩
      · cases slot with
        | accessor index =>
          have : index ≤ earlier.length + 1 := below
          show index ≤ earlier.length + (ns.length + 1)
          omega
        | _ => trivial
      · intro none
        apply empty
        rw [seen'.positional, List.any_append, Bool.or_eq_false_iff] at none
        rw [seen₁.positional]
        exact none.1
      · rw [show earlier.length + (ns.length + 1) = (earlier ++ [name.chars]).length + ns.length by omega]
        exact all

/-- A slot that is low enough can be numbered. -/
theorem Slot.Below.exists_name {k : Nat} {slot : Slot} {offset : Int} (below : slot.Below k) (few : k < 2 ^ 31)
    (low : -1 ≤ offset) (high : offset + k < 2 ^ 31) : ∃ m, slot.name offset = some m := by
  cases slot with
  | none => exact ⟨_, rfl⟩
  | number value => exact ⟨_, rfl⟩
  | accessor index =>
    have hindex : index ≤ k := below
    rw [Slot.name, toInt_eq (by omega), checkedInt_eq (by omega)]
    exact ⟨_, rfl⟩

theorem parse_of_stop {source : StringView} {location : SourceLocation} {stop : Stop}
    (h : run C arg_types { data := source, location := location } (.start arg_types.length) = .error stop) :
    parse C arg_types source location = .error stop := by
  show run C arg_types { data := source, location := location } (.start arg_types.length) >>= _ = _
  rw [h]
  rfl

/-- The numbers fit: what has been scanned is rendered. -/
theorem parse_of_run {ps : List (Piece Name)} {location : SourceLocation} (clear : Clear ps)
    (fields : 2 * (names ps).length < 2 ^ 31) (few : arg_types.length < 2 ^ 31)
    (hrun : run C arg_types { data := FormatString.render ps, location := location } (.start arg_types.length) =
      .ok (p, l)) :
    ∃ t final, parse C arg_types (FormatString.render ps) location = .ok (t, final) := by
  have hclear : clearFrom none ps = true := clear
  obtain ⟨text, hrewrite, hafter⟩ := parseFrom_render hclear (Nat.le_refl 0) rfl hrun
  obtain ⟨⟨l', slots⟩, htraverse, heq⟩ := Option.map_eq_some_iff.mp hrewrite
  obtain ⟨rfl, rfl⟩ := Prod.mk.inj heq
  have accumulated : accumulate (lookUp C arg_types) (.start arg_types.length) (names ps) = some (l', names slots) := by
    rw [← map_names_traverse, htraverse]
    rfl
  obtain ⟨seen, all⟩ := accumulate_seen Seen.start (by simpa using by omega) accumulated
  obtain ⟨u, table, appeared⟩ := seen.table
  rw [List.nil_append, List.length_map] at appeared
  rw [List.length_nil, Nat.zero_add] at all
  -- Without positional fields all arguments are passed, but there is no accessor.
  have passed : (directIndices arg_types.length l').length =
      if l'.has_positional then u.length else arg_types.length := by
    cases positional : l'.has_positional with
    | true => exact (table.perm_directIndices positional).length_eq
    | false => rw [directIndices_of_none positional, List.length_range, if_neg Bool.false_ne_true]
  have inside : (directIndices arg_types.length l').length < 2 ^ 31 := by
    rw [passed]
    split <;> omega
  obtain ⟨offset, hoffset⟩ : ∃ offset : Int, offset = (directIndices arg_types.length l').length - 1 := ⟨_, rfl⟩
  have checked : checkedInt (toInt (directIndices arg_types.length l').length - 1) = some offset := by
    rw [toInt_eq inside, ← hoffset, checkedInt_eq (by omega)]
  have numbered : ∀ slot ∈ names slots, ∃ m, slot.name offset = some m := by
    intro slot mem
    cases positional : l'.has_positional with
    | false => exact ⟨.none, by rw [(all slot mem).2 positional]; rfl⟩
    | true =>
      rw [positional, if_pos rfl] at passed
      exact (all slot mem).1.exists_name (by omega) (by omega) (by omega)
  have named : List.Forall₂ (fun slot m => slot.name offset = some m) (names slots)
      ((names slots).map fun slot => (slot.name offset).getD .none) := by
    rw [List.forall₂_map_right_iff, List.forall₂_same]
    intro slot mem
    obtain ⟨m, hm⟩ := numbered slot mem
    rw [hm, Option.getD_some]
  obtain ⟨renamed, hnumbered, -⟩ := numbered_of_names named
  refine ⟨⟨FormatString.render renamed, _, _⟩, _, parse_eq_ok.mpr ⟨p, l', _, hrun, checked, ?_, rfl, rfl, rfl⟩⟩
  have written : p.written = cells slots := hafter.written
  rw [written, spellCells_cells, hnumbered]
  rfl

/-- What `diagnosis` underlines. -/
def underlined (source : StringView) (head : Nat × Name) : StringView :=
  (source.drop head.1).take (head.2.chars.length + 2)

/-- A head is underlined as it is written. -/
def Marked (source : StringView) (head : Nat × Name) : Prop :=
  underlined source head = '{' :: (head.2.chars ++ ['}']) ∨ underlined source head = '{' :: (head.2.chars ++ [':'])

theorem underlined_head {source r : StringView} {pos : Nat} {name : Name} {d : Char}
    (h : source.drop pos = '{' :: (name.chars ++ d :: r)) : underlined source (pos, name) = '{' :: (name.chars ++ [d]) := by
  unfold underlined
  rw [h, show '{' :: (name.chars ++ d :: r) = '{' :: (name.chars ++ [d]) ++ r by simp]
  exact List.take_left' (by simp)

theorem drop_behind {source s r : StringView} {pos n : Nat} (h : source.drop pos = s ++ r) (hn : s.length = n) :
    source.drop (pos + n) = r := by
  rw [← List.drop_drop, h, List.drop_left' hn]

theorem marked_spec {source r : StringView} {pos : Nat} {spec : List (SpecPiece Name)}
    (h : source.drop pos = specChars spec ++ r) : ∀ head ∈ specHeads pos spec, Marked source head := by
  induction spec generalizing pos with
  | nil => exact fun head mem => absurd mem List.not_mem_nil
  | cons piece spec ih =>
    rw [specChars_cons, List.append_assoc] at h
    have rest := ih (drop_behind h rfl)
    cases piece with
    | text c => exact rest
    | field name =>
      have hchars : (SpecPiece.field name).chars.length = name.chars.length + 2 := by simp [SpecPiece.chars]
      have here : source.drop pos = '{' :: (name.chars ++ '}' :: (specChars spec ++ r)) := by
        rw [h]
        simp [SpecPiece.chars]
      rw [hchars] at rest
      exact List.forall_mem_cons.mpr ⟨.inl (underlined_head here), rest⟩

theorem marked_render {source r : StringView} {pos : Nat} {ps : List (Piece Name)}
    (h : source.drop pos = render ps ++ r) : ∀ head ∈ heads pos ps, Marked source head := by
  induction ps generalizing pos with
  | nil => exact fun head mem => absurd mem List.not_mem_nil
  | cons piece ps ih =>
    rw [render_cons, List.append_assoc] at h
    rw [heads_cons]
    refine List.forall_mem_append.mpr ⟨?_, ih (drop_behind h rfl)⟩
    cases piece with
    | field name spec =>
      cases spec with
      | none =>
        have here : source.drop pos = '{' :: (name.chars ++ '}' :: (render ps ++ r)) := by
          rw [h]
          simp [Piece.chars]
        exact List.forall_mem_singleton.mpr (.inl (underlined_head here))
      | some spec =>
        have here : source.drop pos = '{' :: (name.chars ++ ':' :: (specChars spec ++ '}' :: (render ps ++ r))) := by
          rw [h]
          simp [Piece.chars]
        have inner : source.drop (pos + (name.chars.length + 2)) = specChars spec ++ '}' :: (render ps ++ r) := by
          apply drop_behind (s := '{' :: (name.chars ++ [':']))
          · rw [here]
            simp
          · simp
        exact List.forall_mem_cons.mpr ⟨.inr (underlined_head here), marked_spec inner⟩
    | _ => exact fun head mem => absurd mem List.not_mem_nil

/-- **Diagnostics.** A well-formed format string none of whose fields begins in a stretch
that is skipped is accepted if no field is refused. Otherwise the parse ends at the first one
that is, with the message for it or none; what the message underlines is the field's brace,
its name and what ends it. -/
theorem refusals_told {source : StringView} {ps : List (Piece Name)} (location : SourceLocation)
    (hscan : scan source = some ps) (clear : Clear ps) (short : source.length < 2 ^ 31)
    (few : arg_types.length < 2 ^ 31) :
    (∀ stop, parse C arg_types source location = .error stop ↔
      ∃ head refusal, firstRefused arg_types [] (heads 0 ps) = some (head, refusal) ∧
        stop = stopAt location source head refusal) ∧
      ∀ head ∈ heads 0 ps, Marked source head := by
  obtain rfl := scan_eq_some_iff.mp hscan
  refine ⟨?_, marked_render (List.append_nil _).symm⟩
  have ready : Ready arg_types { data := render ps, location := location } [] (.start arg_types.length) :=
    ⟨Nat.le_refl 0, Seen.start, Nat.zero_le _, short⟩
  have hclear : clearFrom none ps = true := clear
  have scans := scans_render (C := C) hclear (fun count mem => by cases mem) ready rfl
  unfold Scans at scans
  intro stop
  cases refused : firstRefused arg_types [] (heads 0 ps) with
  | some first =>
    obtain ⟨head, refusal⟩ := first
    rw [refused] at scans
    rw [parse_of_stop scans]
    constructor
    · intro h
      cases h
      exact ⟨head, refusal, rfl, rfl⟩
    · rintro ⟨_, _, same, rfl⟩
      cases same
      rfl
  | none =>
    rw [refused] at scans
    obtain ⟨p', l', goes, ahead, ready'⟩ := scans
    have rest : p'.rest = [] := ahead.rest (List.append_nil _).symm rfl
    have fields : 2 * (names ps).length < 2 ^ 31 := by
      have few' := ready'.few
      have cursor : p'.cursor = 0 + (render ps).length := ahead.cursor
      rw [List.nil_append, headNames, List.length_map, length_heads] at few'
      omega
    obtain ⟨t, final, accepted⟩ := parse_of_run clear fields few (goes.trans (run_of_end rest))
    rw [accepted]
    constructor
    · intro h
      cases h
    · rintro ⟨_, _, same, -⟩
      cases same

/-- `{0} {x:3}` with two arguments. -/
theorem refusals_told_name :
    parse numbersOnly [(), ()] "{0} {x:3}".toList { file_name := "a.cpp".toList, line := 12, column := 7 } =
      .error (.error ("Invalid format string\n".toList ++
        "a.cpp:12:6: error: Field names cannot be directly used if there's more than one argument\n".toList ++
        "  12 | {0} {x:3}\n".toList ++
        "           ^~~\n".toList ++ "raised from:".toList)) := by
  obtain ⟨ps, hscan, clear, refused⟩ : ∃ ps, scan "{0} {x:3}".toList = some ps ∧ Clear ps ∧
      firstRefused (C := numbersOnly) [(), ()] [] (heads 0 ps) = some ((4, Name.none.push 'x' (by decide)),
        .message "Field names cannot be directly used if there's more than one argument".toList) :=
    ⟨_, rfl, rfl, by decide +kernel⟩
  exact ((refusals_told _ hscan clear (by decide) (by decide)).1 _).mpr ⟨_, _, refused, by decide +kernel⟩

end Erl.Format
