import Erl.Format.Scan

/-!
# The rewritten format string

A format string whose escapes do not confuse `skip_to` is parsed piece by piece: `do_parse`
replaces the names from left to right and copies the rest.
-/

namespace Erl.Format
open Util FormatString FormatParser

def specPieceCells : SpecPiece Slot → List Cell
  | .text c => [.char c.char]
  | .field slot => .char '{' :: (slot.cells ++ [.char '}'])

def specCells (spec : List (SpecPiece Slot)) : List Cell := spec.flatMap specPieceCells

def pieceCells : Piece Slot → List Cell
  | .text c => [.char c.char]
  | .escapedOpen => [.char '{', .char '{']
  | .escapedClose => [.char '}', .char '}']
  | .field slot none => .char '{' :: (slot.cells ++ [.char '}'])
  | .field slot (some spec) => .char '{' :: (slot.cells ++ [.char ':']) ++ (specCells spec ++ [.char '}'])

def cells (ps : List (Piece Slot)) : List Cell := ps.flatMap pieceCells

section
variable (C : Classes) (arg_types : List C.Ty)

def rewriteSpec (l : Locals) (spec : List (SpecPiece Name)) : Option (Locals × List Cell) :=
  (traverseSpec (lookUp C arg_types) l spec).map fun x => (x.1, specCells x.2)

def rewritePiece (l : Locals) (p : Piece Name) : Option (Locals × List Cell) :=
  (p.traverse (lookUp C arg_types) l).map fun x => (x.1, pieceCells x.2)

/-- The text of the pieces with their new names. -/
def rewrite (l : Locals) (ps : List (Piece Name)) : Option (Locals × List Cell) :=
  (traversePieces (lookUp C arg_types) l ps).map fun x => (x.1, cells x.2)

end

variable {C : Classes} {arg_types : List C.Ty} {p : FormatParser} {l : Locals}

theorem rewriteSpec_text (c : TextChar) (spec : List (SpecPiece Name)) :
    rewriteSpec C arg_types l (.text c :: spec) =
      followedBy (some (l, [.char c.char])) fun l => rewriteSpec C arg_types l spec := by
  unfold rewriteSpec followedBy
  cases h : traverseSpec (lookUp C arg_types) l spec <;> simp [traverseSpec, h, specCells, specPieceCells]

theorem rewriteSpec_field (name : Name) (spec : List (SpecPiece Name)) :
    rewriteSpec C arg_types l (.field name :: spec) =
      followedBy (rewriteHead C arg_types l name '}') fun l => rewriteSpec C arg_types l spec := by
  unfold rewriteSpec followedBy rewriteHead
  cases h : lookUp C arg_types l name with
  | none => simp [traverseSpec, h]
  | some x =>
    cases h' : traverseSpec (lookUp C arg_types) x.1 spec <;> simp [traverseSpec, h, h', specCells, specPieceCells]

theorem rewritePiece_field (name : Name) :
    rewritePiece C arg_types l (.field name none) = rewriteHead C arg_types l name '}' := by
  unfold rewritePiece rewriteHead
  cases h : lookUp C arg_types l name <;> simp [Piece.traverse, h, pieceCells]

theorem rewritePiece_spec (name : Name) (spec : List (SpecPiece Name)) :
    rewritePiece C arg_types l (.field name (some spec)) =
      followedBy (followedBy (rewriteHead C arg_types l name ':') fun l => rewriteSpec C arg_types l spec) fun l =>
        some (l, [.char '}']) := by
  unfold rewritePiece rewriteSpec followedBy rewriteHead
  cases h : lookUp C arg_types l name with
  | none => simp [Piece.traverse, h]
  | some x =>
    cases h' : traverseSpec (lookUp C arg_types) x.1 spec <;> simp [Piece.traverse, h, h', pieceCells]

theorem rewrite_cons (piece : Piece Name) (ps : List (Piece Name)) :
    rewrite C arg_types l (piece :: ps) =
      followedBy (rewritePiece C arg_types l piece) fun l => rewrite C arg_types l ps := by
  unfold rewrite rewritePiece followedBy
  cases h : piece.traverse (lookUp C arg_types) l with
  | none => simp [traversePieces, h]
  | some x => cases h' : traversePieces (lookUp C arg_types) x.1 ps <;> simp [traversePieces, h, h', cells]

theorem runs_spec (hstart : p.fragment_start ≤ p.cursor) {spec : List (SpecPiece Name)} {r : StringView}
    (h : p.rest = specChars spec ++ r) :
    Runs C arg_types p l (specChars spec).length (specStarts p.cursor spec) (rewriteSpec C arg_types l spec) := by
  induction spec generalizing p l with
  | nil => exact ⟨p, After.refl hstart, rfl⟩
  | cons piece spec ih =>
    rw [specChars_cons, List.append_assoc] at h
    cases piece with
    | text c =>
      rw [rewriteSpec_text, specChars_cons, List.length_append]
      apply (runs_text hstart h c.notBrace.1).followedBy
      intro l' _ p' hafter
      rw [show p.cursor + 1 = p'.cursor from hafter.cursor.symm]
      exact ih hafter.start (hafter.rest h rfl)
    | field name =>
      have hchars : (SpecPiece.field name).chars.length = name.chars.length + 2 := by simp [SpecPiece.chars]
      have hhead : p.rest = '{' :: (name.chars ++ '}' :: (specChars spec ++ r)) := by
        rw [h]
        simp [SpecPiece.chars]
      rw [rewriteSpec_field, specChars_cons, List.length_append, hchars]
      apply (runs_head hstart (.inl rfl) hhead).followedBy
      intro l' _ p' hafter
      rw [← hafter.cursor]
      exact ih hafter.start (hafter.rest h hchars)

/-- The fields of a piece. -/
def pieceStarts (pos : Nat) : Piece Name → List Nat
  | .field _ none => [pos]
  | .field name (some spec) => pos :: specStarts (pos + (name.chars.length + 2)) spec
  | _ => []

theorem starts_cons (pos : Nat) (piece : Piece Name) (ps : List (Piece Name)) :
    starts pos (piece :: ps) = pieceStarts pos piece ++ starts (pos + piece.chars.length) ps := by
  cases piece with
  | field name spec => cases spec <;> rfl
  | _ => rfl

variable (C arg_types l) in
/-- A replacement field is parsed. -/
theorem runs_field (hstart : p.fragment_start ≤ p.cursor) {name : Name} {spec : Option (List (SpecPiece Name))}
    {r : StringView} (h : p.rest = (Piece.field name spec).chars ++ r) :
    Runs C arg_types p l (Piece.field name spec).chars.length (pieceStarts p.cursor (.field name spec))
      (rewritePiece C arg_types l (.field name spec)) := by
  cases spec with
  | none =>
    have hchars : (Piece.field name none).chars.length = name.chars.length + 2 := by simp [Piece.chars]
    have hhead : p.rest = '{' :: (name.chars ++ '}' :: r) := by
      rw [h]
      simp [Piece.chars]
    rw [rewritePiece_field, hchars]
    exact runs_head hstart (.inl rfl) hhead
  | some spec =>
    have hchars : (Piece.field name (some spec)).chars.length =
        name.chars.length + 2 + (specChars spec).length + 1 := by
      simp [Piece.chars]
      omega
    have hhead : p.rest = '{' :: (name.chars ++ ':' :: (specChars spec ++ '}' :: r)) := by
      rw [h]
      simp [Piece.chars]
    have hsplit : p.rest = ('{' :: (name.chars ++ [':'])) ++ (specChars spec ++ '}' :: r) := by
      rw [hhead]
      simp
    have hsplit' : p.rest = ('{' :: (name.chars ++ [':']) ++ specChars spec) ++ '}' :: r := by
      rw [hhead]
      simp
    have hfields : pieceStarts p.cursor (.field name (some spec)) =
        [p.cursor] ++ specStarts (p.cursor + (name.chars.length + 2)) spec ++ [] := (List.append_nil _).symm
    rw [rewritePiece_spec, hchars, hfields]
    refine Runs.followedBy (Runs.followedBy (runs_head hstart (.inr rfl) hhead) ?_) ?_
    · intro l' _ p' hafter
      rw [← hafter.cursor]
      exact runs_spec hafter.start (hafter.rest hsplit (by simp))
    · intro l' _ p' hafter
      have hlength : ('{' :: (name.chars ++ [':']) ++ specChars spec).length =
          name.chars.length + 2 + (specChars spec).length := by
        simp
        omega
      exact runs_text hafter.start (hafter.rest hsplit' hlength) (by decide)

/-- No field begins in a stretch that is skipped. Such a stretch begins at the second brace
of a `{{` and is over at the first `}` with as many brackets closed as opened before it; in
one, `mode` is the number of open brackets. -/
def clearFrom {ν : Type} : Option Int → List (Piece ν) → Bool
  | _, [] => true
  | none, .escapedOpen :: ps => clearFrom (some 1) ps
  | none, _ :: ps => clearFrom none ps
  | some open_, .text c :: ps => clearFrom (some (open_ + bracket c.char)) ps
  | some open_, .escapedOpen :: ps => clearFrom (some (open_ + 2)) ps
  | some open_, .escapedClose :: ps =>
    if open_ = 0 ∨ open_ = 1 then clearFrom none ps else clearFrom (some (open_ - 2)) ps
  | some _, .field _ _ :: _ => false

/-- No field begins in a stretch that is skipped. -/
def Clear {ν : Type} (ps : List (Piece ν)) : Prop := clearFrom none ps = true

theorem skipFrom_pass {needles : List Char} {brace_count : Int} {c : Char} {r : StringView} (h : p.rest = c :: r)
    (hc : ¬ (brace_count = 0 ∧ c ∈ needles)) :
    p.skipFrom needles brace_count =
      (checkedInt (brace_count + bracket c)).bind fun brace_count => p.advance.skipFrom needles brace_count := by
  show (skipped needles brace_count p.rest).map p.skip = _
  rw [h, skipped, if_neg hc]
  cases checkedInt (brace_count + bracket c) with
  | none => rfl
  | some count =>
    show ((skipped needles count r).bind fun n => some (n + 1)).map p.skip =
      (skipped needles count p.advance.rest).map p.advance.skip
    rw [rest_advance h]
    cases skipped needles count r with
    | none => rfl
    | some n =>
      show some (p.skip (n + 1)) = some ((p.skip 1).skip n)
      unfold skip
      simp only [Option.some.injEq, FormatParser.mk.injEq, and_true, true_and]
      omega

theorem skipFrom_stop {r : StringView} (h : p.rest = '}' :: r) : p.skipFrom ['}'] 0 = some p := by
  show (skipped ['}'] 0 p.rest).map p.skip = _
  rw [h]
  rfl

theorem skipFrom_end {brace_count : Int} (h : p.rest = []) : p.skipFrom ['}'] brace_count = some p := by
  show (skipped ['}'] brace_count p.rest).map p.skip = _
  rw [h]
  rfl

variable (C arg_types) in
/-- The rest of the parse: of a stretch that is skipped, and what is behind it. -/
def parseFrom : Option Int → FormatParser → Locals → Except Stop (FormatParser × Locals)
  | none, p, l => run C arg_types p l
  | some brace_count, p, l =>
    constant (p.skipFrom ['}'] brace_count) >>= fun p₁ => run C arg_types p₁.pushText l

variable {final : FormatParser} {l' : Locals}

theorem parseFrom_pass {brace_count : Int} {c : Char} {r : StringView} (h : p.rest = c :: r)
    (hc : ¬ (brace_count = 0 ∧ c = '}')) (hok : parseFrom C arg_types (some brace_count) p l = .ok (final, l')) :
    parseFrom C arg_types (some (brace_count + bracket c)) p.advance l = .ok (final, l') := by
  simp only [parseFrom] at hok ⊢
  rw [skipFrom_pass h (by simpa using hc)] at hok
  unfold checkedInt at hok
  split at hok
  · exact hok
  · cases hok

theorem parseFrom_stop {r : StringView} (h : p.rest = '}' :: r) :
    parseFrom C arg_types (some 0) p l = run C arg_types p.pushText l := by
  simp only [parseFrom, skipFrom_stop h]
  rfl

theorem run_open {r : StringView} (h : p.rest = '{' :: '{' :: r) (hok : run C arg_types p l = .ok (final, l')) :
    parseFrom C arg_types (some 1) p.advance.advance l = .ok (final, l') := by
  rw [run_escaped h] at hok
  have hzero : (0 : Int) + bracket '{' = 1 := rfl
  rw [← hzero]
  exact parseFrom_pass (rest_advance h) (by simp) hok

/-! ## The whole string -/

theorem rewrite_plain {piece : Piece Name} (hplain : ∀ name spec, piece ≠ .field name spec) (ps : List (Piece Name)) :
    rewrite C arg_types l (piece :: ps) =
      (rewrite C arg_types l ps).map fun x => (x.1, textCells piece.chars ++ x.2) := by
  rw [rewrite_cons]
  cases piece with
  | field name spec => exact absurd rfl (hplain name spec)
  | _ => rfl

theorem pieceStarts_plain {piece : Piece Name} (hplain : ∀ name spec, piece ≠ .field name spec) (pos : Nat) :
    pieceStarts pos piece = [] := by
  cases piece with
  | field name spec => exact absurd rfl (hplain name spec)
  | _ => rfl

/-- Two braces that are passed. -/
theorem after_braces (hstart : p.fragment_start ≤ p.cursor) {c : Char} {r : StringView} (h : p.rest = c :: c :: r) :
    After p 2 [.char c, .char c] [] p.advance.advance := by
  have hfirst := after_advance hstart h
  exact hfirst.trans (after_advance hfirst.start (rest_advance h))

theorem run_close {r : StringView} (h : p.rest = '}' :: '}' :: r) :
    run C arg_types p l = run C arg_types p.advance.advance l := by
  rw [run_text h (by decide), run_text (rest_advance h) (by decide)]

/-- `}}` behind a stretch with `brace_count` open brackets. -/
theorem parseFrom_close (hstart : p.fragment_start ≤ p.cursor) {brace_count : Int} {r : StringView}
    (h : p.rest = '}' :: '}' :: r) (hok : parseFrom C arg_types (some brace_count) p l = .ok (final, l')) :
    ∃ p', After p 2 [.char '}', .char '}'] [] p' ∧
      parseFrom C arg_types (if brace_count = 0 ∨ brace_count = 1 then none else some (brace_count - 2)) p' l =
        .ok (final, l') := by
  by_cases h0 : brace_count = 0
  · subst h0
    have hpush := after_pushText p
    have hrest : p.pushText.rest = '}' :: '}' :: r := by rw [pushText_rest, h]
    rw [parseFrom_stop h, run_close hrest] at hok
    exact ⟨_, hpush.trans (after_braces hpush.start hrest), hok⟩
  · have hpass := parseFrom_pass h (fun hc => h0 hc.1) hok
    have hfirst := after_advance hstart h
    have hsecond := rest_advance h
    by_cases h1 : brace_count = 1
    · subst h1
      have hstop : parseFrom C arg_types (some (1 + bracket '}')) p.advance l = run C arg_types p.advance.pushText l :=
        parseFrom_stop hsecond
      have hpush := after_pushText p.advance
      have hrest : p.advance.pushText.rest = '}' :: r := by rw [pushText_rest, hsecond]
      rw [hstop, run_text hrest (by decide)] at hpass
      exact ⟨_, hfirst.trans (hpush.trans (after_advance hpush.start hrest)), hpass⟩
    · have hcount : brace_count + bracket '}' = brace_count - 1 := rfl
      rw [hcount] at hpass
      have hpass' := parseFrom_pass hsecond (fun hc => h1 (by omega)) hpass
      have hcount' : brace_count - 1 + bracket '}' = brace_count - 2 := by
        show brace_count - 1 + -1 = brace_count - 2
        omega
      rw [hcount'] at hpass'
      rw [if_neg (by omega)]
      exact ⟨_, after_braces hstart h, hpass'⟩

/-- A piece that is no field is copied, whether it is skipped or not. -/
theorem parseFrom_plain (hstart : p.fragment_start ≤ p.cursor) {mode : Option Int} {piece : Piece Name}
    (hplain : ∀ name spec, piece ≠ .field name spec) {ps : List (Piece Name)} (h : p.rest = piece.chars ++ render ps)
    (hok : parseFrom C arg_types mode p l = .ok (final, l')) :
    ∃ mode' p', clearFrom mode (piece :: ps) = clearFrom mode' ps ∧
      After p piece.chars.length (textCells piece.chars) [] p' ∧
      parseFrom C arg_types mode' p' l = .ok (final, l') := by
  cases piece with
  | field name spec => exact absurd rfl (hplain name spec)
  | text c =>
    refine ⟨mode.map (· + bracket c.char), p.advance, ?_, after_advance hstart h, ?_⟩
    · cases mode <;> rfl
    · cases mode with
      | none => exact (run_text h c.notBrace.1).symm.trans hok
      | some count => exact parseFrom_pass h (fun hc => c.notBrace.2 hc.2) hok
  | escapedOpen =>
    cases mode with
    | none => exact ⟨some 1, p.advance.advance, rfl, after_braces hstart h, run_open h hok⟩
    | some count =>
      have hpass := parseFrom_pass (rest_advance h) (by simp) (parseFrom_pass h (by simp) hok)
      have hcount : count + bracket '{' + bracket '{' = count + 2 := by
        show count + 1 + 1 = count + 2
        omega
      rw [hcount] at hpass
      exact ⟨some (count + 2), p.advance.advance, rfl, after_braces hstart h, hpass⟩
  | escapedClose =>
    cases mode with
    | none => exact ⟨none, p.advance.advance, rfl, after_braces hstart h, (run_close h).symm.trans hok⟩
    | some count =>
      obtain ⟨p', hafter, hok'⟩ := parseFrom_close hstart h hok
      refine ⟨_, p', ?_, hafter, hok'⟩
      rw [clearFrom]
      split <;> rfl

/-- Outside a stretch that is skipped, a field is rewritten and taken. -/
theorem parseFrom_field {name : Name} {spec : Option (List (SpecPiece Name))} {r : StringView}
    (hstart : p.fragment_start ≤ p.cursor) (h : p.rest = (Piece.field name spec).chars ++ r)
    (hok : parseFrom C arg_types none p l = .ok (final, l')) :
    ∃ x p', rewritePiece C arg_types l (.field name spec) = some x ∧
      After p (Piece.field name spec).chars.length x.2 (pieceStarts p.cursor (.field name spec)) p' ∧
      parseFrom C arg_types none p' x.1 = .ok (final, l') := by
  have hruns := runs_field C arg_types l hstart h
  cases hpiece : rewritePiece C arg_types l (.field name spec) with
  | none =>
    rw [hpiece] at hruns
    obtain ⟨stop, hstop⟩ := hruns
    cases hok.symm.trans hstop
  | some x =>
    rw [hpiece] at hruns
    obtain ⟨p', hafter, hrun⟩ := hruns
    exact ⟨x, p', rfl, hafter, hrun.symm.trans hok⟩

/-- **The scan.** If no field begins in a stretch that is skipped, what is parsed is the
format string with its names replaced, and all its fields were taken. -/
theorem parseFrom_render {mode : Option Int} {ps : List (Piece Name)} (clear : clearFrom mode ps = true)
    (hstart : p.fragment_start ≤ p.cursor) (h : p.rest = render ps)
    (hok : parseFrom C arg_types mode p l = .ok (final, l')) :
    ∃ text, rewrite C arg_types l ps = some (l', text) ∧
      After p (render ps).length text (starts p.cursor ps) final := by
  induction ps generalizing mode p l with
  | nil =>
    cases mode with
    | none =>
      cases hok.symm.trans (run_of_end h)
      exact ⟨[], rfl, After.refl hstart⟩
    | some count =>
      simp only [parseFrom, skipFrom_end h] at hok
      have hend : p.pushText.rest = [] := by rw [pushText_rest, h, render_nil]
      cases hok.symm.trans (run_of_end hend)
      exact ⟨[], rfl, after_pushText p⟩
  | cons piece ps ih =>
    rw [render_cons] at h
    rw [render_cons, List.length_append, starts_cons]
    by_cases hplain : ∀ name spec, piece ≠ .field name spec
    · obtain ⟨mode', p', hclear, hafter, hok'⟩ := parseFrom_plain hstart hplain h hok
      obtain ⟨text, hrewrite, hbehind⟩ := ih (hclear.symm.trans clear) hafter.start (hafter.rest h rfl) hok'
      rw [hafter.cursor] at hbehind
      rw [rewrite_plain hplain, hrewrite, pieceStarts_plain hplain]
      exact ⟨_, rfl, hafter.trans hbehind⟩
    · simp only [not_forall, not_not] at hplain
      obtain ⟨name, spec, rfl⟩ := hplain
      cases mode with
      | some count => cases clear
      | none =>
        obtain ⟨x, p', hpiece, hafter, hok'⟩ := parseFrom_field hstart h hok
        obtain ⟨text, hrewrite, hbehind⟩ := ih clear hafter.start (hafter.rest h rfl) hok'
        rw [hafter.cursor] at hbehind
        rw [rewrite_cons, hpiece]
        simp only [followedBy, Option.bind_some, hrewrite]
        exact ⟨_, rfl, hafter.trans hbehind⟩

variable (C arg_types l) in
/-- Without `{{` nothing is skipped. -/
theorem runs_render {ps : List (Piece Name)} (hopen : .escapedOpen ∉ ps) (hstart : p.fragment_start ≤ p.cursor)
    (h : p.rest = render ps) :
    Runs C arg_types p l (render ps).length (starts p.cursor ps) (rewrite C arg_types l ps) := by
  induction ps generalizing p l with
  | nil => exact ⟨p, After.refl hstart, rfl⟩
  | cons piece ps ih =>
    rw [List.mem_cons, not_or] at hopen
    rw [render_cons] at h
    rw [render_cons, List.length_append, starts_cons, rewrite_cons]
    have hpiece : Runs C arg_types p l piece.chars.length (pieceStarts p.cursor piece)
        (rewritePiece C arg_types l piece) := by
      cases piece with
      | text c => exact runs_text hstart h c.notBrace.1
      | escapedOpen => exact absurd rfl hopen.1
      | escapedClose => exact ⟨_, after_braces hstart h, run_close h⟩
      | field name spec => exact runs_field C arg_types l hstart h
    apply hpiece.followedBy
    intro l' _ p' hafter
    rw [← hafter.cursor]
    exact ih l' hopen.2 hafter.start (hafter.rest h rfl)

/-! ## Fields that are missed -/

theorem mem_specStarts {pos x : Nat} {spec : List (SpecPiece Name)} (h : x ∈ specStarts pos spec) :
    x < pos + (specChars spec).length := by
  induction spec generalizing pos with
  | nil => cases h
  | cons piece spec ih =>
    rw [specChars_cons, List.length_append]
    cases piece with
    | text c =>
      have := ih h
      simp only [SpecPiece.chars, List.length_singleton]
      omega
    | field name =>
      simp only [SpecPiece.chars, List.length_cons, List.length_append, List.length_nil]
      rcases List.mem_cons.mp h with rfl | h
      · omega
      · have := ih h
        omega

theorem mem_pieceStarts {pos x : Nat} {piece : Piece Name} (h : x ∈ pieceStarts pos piece) :
    x < pos + piece.chars.length := by
  cases piece with
  | field name spec =>
    cases spec with
    | none =>
      obtain rfl := List.mem_singleton.mp h
      simp only [Piece.chars, List.length_cons]
      omega
    | some spec =>
      simp only [Piece.chars, List.length_cons, List.length_append, List.length_nil]
      rcases List.mem_cons.mp h with rfl | h
      · omega
      · have := mem_specStarts h
        omega
  | _ => cases h

/-- A skip goes past the brace of a field, and the run begins behind it. -/
theorem parseFrom_skipped {count : Int} {name : Name} {spec : Option (List (SpecPiece Name))} {r : StringView}
    (hfields : ∀ x ∈ p.fields, x < p.cursor) (h : p.rest = (Piece.field name spec).chars ++ r)
    (hok : parseFrom C arg_types (some count) p l = .ok (final, l')) : p.cursor ∉ final.fields := by
  obtain ⟨r', hbrace⟩ : ∃ r', p.rest = '{' :: r' := by
    rw [h]
    cases spec <;> exact ⟨_, rfl⟩
  have hpass := parseFrom_pass hbrace (by simp) hok
  simp only [parseFrom] at hpass
  cases hskip : p.advance.skipFrom ['}'] (count + bracket '{') with
  | none =>
    rw [hskip] at hpass
    cases hpass
  | some p₁ =>
    rw [hskip] at hpass
    obtain ⟨n, rfl⟩ := skipFrom_eq_some hskip
    intro hmem
    rcases run_fields hpass p.cursor hmem with hmem | hle
    · rw [pushText_fields] at hmem
      have hlt : p.cursor < p.cursor := hfields p.cursor hmem
      omega
    · rw [pushText_cursor] at hle
      have hle' : p.cursor + 1 + n ≤ p.cursor := hle
      omega

/-- A field that begins in a stretch that is skipped is not taken. -/
theorem parseFrom_missed {mode : Option Int} {ps : List (Piece Name)} (clear : clearFrom mode ps = false)
    (hstart : p.fragment_start ≤ p.cursor) (hfields : ∀ x ∈ p.fields, x < p.cursor) (h : p.rest = render ps)
    (hok : parseFrom C arg_types mode p l = .ok (final, l')) :
    ∃ x ∈ starts p.cursor ps, x ∉ final.fields := by
  induction ps generalizing mode p l with
  | nil => cases mode <;> cases clear
  | cons piece ps ih =>
    rw [render_cons] at h
    rw [starts_cons]
    have hlater : ∀ mode' p' l₁ text, clearFrom mode' ps = false →
        After p piece.chars.length text (pieceStarts p.cursor piece) p' →
        parseFrom C arg_types mode' p' l₁ = .ok (final, l') →
        ∃ x ∈ pieceStarts p.cursor piece ++ starts (p.cursor + piece.chars.length) ps, x ∉ final.fields := by
      intro mode' p' l₁ text hclear hafter hok'
      have hfields' : ∀ x ∈ p'.fields, x < p'.cursor := by
        intro x hx
        rw [hafter.fields, List.mem_append] at hx
        rw [hafter.cursor]
        rcases hx with hx | hx
        · have := hfields x hx
          omega
        · exact mem_pieceStarts hx
      obtain ⟨x, hx, hmissed⟩ := ih hclear hafter.start hfields' (hafter.rest h rfl) hok'
      rw [hafter.cursor] at hx
      exact ⟨x, List.mem_append_right _ hx, hmissed⟩
    by_cases hplain : ∀ name spec, piece ≠ .field name spec
    · obtain ⟨mode', p', hclear, hafter, hok'⟩ := parseFrom_plain hstart hplain h hok
      rw [← pieceStarts_plain hplain p.cursor] at hafter
      exact hlater mode' p' l _ (hclear.symm.trans clear) hafter hok'
    · simp only [not_forall, not_not] at hplain
      obtain ⟨name, spec, rfl⟩ := hplain
      cases mode with
      | none =>
        obtain ⟨x, p', -, hafter, hok'⟩ := parseFrom_field hstart h hok
        exact hlater none p' x.1 x.2 clear hafter hok'
      | some count =>
        refine ⟨p.cursor, List.mem_append_left _ ?_, parseFrom_skipped hfields h hok⟩
        cases spec <;> exact List.mem_cons_self

end Erl.Format
