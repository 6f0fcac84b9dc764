import Erl.Format.Rewriting

/-!
# The transformed format string

At the end of the parse the numbers of the accessors are known, and the fragments are put
together: what is left of a format string are its pieces with new names.
-/

namespace Erl.Format
open Util FormatString FormatParser

theorem toInt_mod (n : Nat) : toInt (n % 2 ^ 32) = toInt n := by
  unfold toInt
  rw [Nat.mod_mod]
  split <;> omega

theorem toInt_eq {n : Nat} (h : n < 2 ^ 31) : toInt n = n := by
  unfold toInt
  rw [if_pos (by omega)]
  omega

theorem checkedInt_eq {i : Int} (h : -2 ^ 31 ≤ i ∧ i < 2 ^ 31) : checkedInt i = some i := if_pos h

theorem toUInt64_natCast {n : Nat} (h : n < 2 ^ 64) : (toUInt64 n).toNat = n := by
  unfold toUInt64
  rw [UInt64.toNat_ofNat']
  omega

/-- The name in the place of a slot, if an accessor with number 0 is numbered `offset`. -/
def Slot.name (offset : Int) : Slot → Option Name
  | .none => some .none
  | .number value => some (.ofNat (toUInt64 value).toNat)
  | .accessor index =>
    (checkedInt (offset + toInt index)).map fun value => .ofNat (toUInt64 (max value 0)).toNat

/-- `Slot.name`, without a state. -/
def nameSlot (offset : Int) (_ : Unit) (slot : Slot) : Option (Unit × Name) :=
  (slot.name offset).map fun name => ((), name)

/-- The pieces with names for their slots. -/
def numbered (offset : Int) (ps : List (Piece Slot)) : Option (List (Piece Name)) :=
  (traversePieces (nameSlot offset) () ps).map Prod.snd

def spellCell (offset : Int) : Cell → Option StringView
  | .char c => some [c]
  | .accessor index =>
    (checkedInt (offset + toInt index)).map fun value => utos (toUInt64 (max value 0))

def spellCells (offset : Int) : List Cell → Option StringView
  | [] => some []
  | cell :: rest => (spellCell offset cell).bind fun s => (spellCells offset rest).map (s ++ ·)

theorem spellCells_append (offset : Int) (text text' : List Cell) :
    spellCells offset (text ++ text') =
      (spellCells offset text).bind fun s => (spellCells offset text').map (s ++ ·) := by
  induction text with
  | nil => cases h : spellCells offset text' <;> simp [spellCells, h]
  | cons cell text ih =>
    simp only [List.cons_append, spellCells, ih]
    cases spellCell offset cell with
    | none => rfl
    | some s =>
      cases spellCells offset text with
      | none => rfl
      | some s' => cases h : spellCells offset text' <;> simp

theorem spellCells_textCells (offset : Int) (s : StringView) : spellCells offset (textCells s) = some s := by
  induction s with
  | nil => rfl
  | cons c s ih =>
    rw [textCells_cons, spellCells, ih]
    rfl

theorem spellCells_char (offset : Int) (c : Char) (text : List Cell) :
    spellCells offset (.char c :: text) = (spellCells offset text).map (c :: ·) := rfl

/-- Rendering is spelling the cells. -/
theorem render_eq (p : FormatParser) (offset : Int) :
    p.render offset = spellCells offset (p.fragments.flatMap Fragment.cells) := by
  have hfold : ∀ (fragments : List Fragment) (out : StringView), fragments.foldlM (pushFragment offset) out =
      (spellCells offset (fragments.flatMap Fragment.cells)).map (out ++ ·) := by
    intro fragments
    induction fragments with
    | nil =>
      intro out
      simp [spellCells]
    | cons fragment fragments ih =>
      intro out
      rw [List.foldlM_cons, List.flatMap_cons, spellCells_append]
      cases fragment with
      | text data =>
        show fragments.foldlM (pushFragment offset) (out ++ data) = _
        rw [ih, Fragment.cells, spellCells_textCells]
        cases h : spellCells offset (fragments.flatMap Fragment.cells) <;> simp
      | accessor index =>
        simp only [pushFragment, Fragment.cells, spellCells, spellCell]
        cases checkedInt (offset + toInt index) with
        | none => rfl
        | some value =>
          show fragments.foldlM (pushFragment offset) (out ++ _) = _
          rw [ih]
          cases h : spellCells offset (fragments.flatMap Fragment.cells) <;> simp
  unfold FormatParser.render
  rw [hfold]
  cases spellCells offset (p.fragments.flatMap Fragment.cells) <;> rfl

/-- A slot is spelled as its name. -/
theorem spellCells_slot (offset : Int) (slot : Slot) :
    spellCells offset slot.cells = (slot.name offset).map Name.chars := by
  cases slot with
  | none => rfl
  | number value =>
    rw [Slot.cells, spellCells_textCells, utos_eq]
    rfl
  | accessor index =>
    simp only [Slot.cells, Slot.name, spellCells, spellCell, toInt_mod]
    cases checkedInt (offset + toInt index) with
    | none => rfl
    | some value =>
      simp only [Option.map_some, Option.bind_some, List.append_nil, utos_eq]
      rfl

theorem spellCells_spec (offset : Int) (spec : List (SpecPiece Slot)) :
    spellCells offset (specCells spec) =
      (traverseSpec (nameSlot offset) () spec).map fun x => specChars x.2 := by
  induction spec with
  | nil => rfl
  | cons piece spec ih =>
    cases piece with
    | text c =>
      show spellCells offset (.char c.char :: specCells spec) = _
      rw [spellCells_char, ih]
      cases h : traverseSpec (nameSlot offset) () spec <;> simp [traverseSpec, h, SpecPiece.chars]
    | field slot =>
      show spellCells offset ((.char '{' :: (slot.cells ++ [.char '}'])) ++ specCells spec) = _
      rw [List.cons_append, spellCells_char, List.append_assoc, spellCells_append, spellCells_slot]
      cases hslot : slot.name offset with
      | none => simp [traverseSpec, nameSlot, hslot]
      | some name =>
        show ((spellCells offset (.char '}' :: specCells spec)).map _).map _ = _
        rw [spellCells_char, ih]
        cases h : traverseSpec (nameSlot offset) () spec <;>
          simp [traverseSpec, nameSlot, hslot, h, SpecPiece.chars]

theorem spellCells_piece (offset : Int) (piece : Piece Slot) :
    spellCells offset (pieceCells piece) = (piece.traverse (nameSlot offset) ()).map fun x => x.2.chars := by
  cases piece with
  | text c => rfl
  | escapedOpen => rfl
  | escapedClose => rfl
  | field slot spec =>
    cases spec with
    | none =>
      rw [pieceCells, spellCells_char, spellCells_append, spellCells_slot]
      cases hslot : slot.name offset <;> simp [Piece.traverse, nameSlot, hslot, Piece.chars, spellCells, spellCell]
    | some spec =>
      rw [pieceCells, List.cons_append, spellCells_char, spellCells_append, spellCells_append, spellCells_append,
        spellCells_slot, spellCells_spec]
      cases hslot : slot.name offset with
      | none => simp [Piece.traverse, nameSlot, hslot]
      | some name =>
        cases h : traverseSpec (nameSlot offset) () spec <;>
          simp [Piece.traverse, nameSlot, hslot, h, Piece.chars, spellCells, spellCell]

theorem spellCells_cells (offset : Int) (ps : List (Piece Slot)) :
    spellCells offset (cells ps) = (numbered offset ps).map FormatString.render := by
  unfold numbered
  induction ps with
  | nil => rfl
  | cons piece ps ih =>
    show spellCells offset (pieceCells piece ++ cells ps) = _
    rw [spellCells_append, spellCells_piece, ih]
    cases hpiece : piece.traverse (nameSlot offset) () with
    | none => simp [traversePieces, hpiece]
    | some x => cases h : traversePieces (nameSlot offset) () ps <;> simp [traversePieces, hpiece, h]

/-! ## The parse -/

variable {C : Classes} {arg_types : List C.Ty} {location : SourceLocation} {ps : List (Piece Name)}

/-- The locals of `do_parse` at the start. -/
def Locals.start (n : Nat) : Locals := { direct := List.replicate n (-1) }

/-- What a format string is transformed to: its names are looked up from left to right,
then numbered. -/
structure Transforms (C : Classes) (arg_types : List C.Ty) (ps : List (Piece Name)) (t : Transformed) where
  l : Locals
  slots : List (Piece Slot)
  renamed : List (Piece Name)
  offset : Int
  traversed : traversePieces (lookUp C arg_types) (.start arg_types.length) ps = some (l, slots)
  checked : checkedInt (toInt (directIndices arg_types.length l).length - 1) = some offset
  numbers : numbered offset slots = some renamed
  fmt : t.fmt = FormatString.render renamed
  direct_list : t.direct_list = directIndices arg_types.length l
  accessors : t.accessors = l.accessors

/-- The end of the parse, behind the loop. -/
theorem parse_eq_ok {source : StringView} {t : Transformed} {final : FormatParser} :
    parse C arg_types source location = .ok (t, final) ↔
      ∃ p l offset, run C arg_types { data := source, location := location } (.start arg_types.length) = .ok (p, l) ∧
        checkedInt (toInt (directIndices arg_types.length l).length - 1) = some offset ∧
        spellCells offset p.written = some t.fmt ∧ t.direct_list = directIndices arg_types.length l ∧
        t.accessors = l.accessors ∧ final = p.pushText := by
  have hloop : parse C arg_types source location =
      run C arg_types { data := source, location := location } (.start arg_types.length) >>= fun x =>
        constant ((checkedInt (toInt (directIndices arg_types.length x.2).length - 1)).bind x.1.pushText.render) >>=
          fun fmt => .ok (⟨fmt, directIndices arg_types.length x.2, x.2.accessors⟩, x.1.pushText) := rfl
  rw [hloop]
  cases hrun : run C arg_types { data := source, location := location } (.start arg_types.length) with
  | error stop =>
    constructor
    · intro h
      cases h
    · rintro ⟨p, l, offset, hrun', -⟩
      cases hrun'
  | ok x =>
    obtain ⟨p, l⟩ := x
    show (constant ((checkedInt (toInt (directIndices arg_types.length l).length - 1)).bind p.pushText.render) >>=
      fun fmt => Except.ok (Transformed.mk fmt (directIndices arg_types.length l) l.accessors, p.pushText)) = _ ↔ _
    constructor
    · intro h
      cases hchecked : checkedInt (toInt (directIndices arg_types.length l).length - 1) with
      | none =>
        rw [hchecked] at h
        cases h
      | some offset =>
        rw [hchecked, Option.bind_some, render_eq, pushText_cells] at h
        cases hspell : spellCells offset p.written with
        | none =>
          rw [hspell] at h
          cases h
        | some fmt =>
          rw [hspell] at h
          cases h
          exact ⟨p, l, offset, rfl, hchecked, hspell, rfl, rfl, rfl⟩
    · rintro ⟨p', l', offset, hrun', hchecked, hspell, hdirect, haccessors, rfl⟩
      cases hrun'
      rw [hchecked, Option.bind_some, render_eq, pushText_cells, hspell, ← hdirect, ← haccessors]
      rfl

/-- **The parse.** If no field begins in a stretch that is skipped, the format string is
transformed piece by piece, and the fields that were taken are its fields. -/
theorem parse_render (clear : Clear ps) {t : Transformed} {final : FormatParser}
    (hok : parse C arg_types (FormatString.render ps) location = .ok (t, final)) :
    Nonempty (Transforms C arg_types ps t) ∧ final.fields = starts 0 ps := by
  obtain ⟨p, l, offset, hrun, hchecked, hspell, hdirect, haccessors, rfl⟩ := parse_eq_ok.mp hok
  have hclear : clearFrom none ps = true := clear
  obtain ⟨text, hrewrite, hafter⟩ := parseFrom_render hclear (Nat.le_refl 0) rfl hrun
  obtain ⟨⟨l', slots⟩, htraverse, heq⟩ := Option.map_eq_some_iff.mp hrewrite
  cases heq
  have hwritten : p.written = cells slots := hafter.written
  rw [hwritten, spellCells_cells] at hspell
  obtain ⟨renamed, hnumbers, hfmt⟩ := Option.map_eq_some_iff.mp hspell
  refine ⟨⟨⟨_, slots, renamed, offset, htraverse, hchecked, hnumbers, hfmt.symm, hdirect, haccessors⟩⟩, ?_⟩
  rw [pushText_fields, hafter.fields]
  rfl

/-- Without `{{` every format string that can be transformed is accepted. -/
theorem parse_of_transforms (hopen : .escapedOpen ∉ ps) {t : Transformed} (h : Transforms C arg_types ps t) :
    ∃ final, parse C arg_types (FormatString.render ps) location = .ok (t, final) := by
  have hruns := runs_render C arg_types (.start arg_types.length)
    (p := { data := FormatString.render ps, location := location }) hopen (Nat.le_refl 0) rfl
  have hrewrite : rewrite C arg_types (.start arg_types.length) ps = some (h.l, cells h.slots) := by
    unfold rewrite
    rw [h.traversed]
    rfl
  rw [hrewrite] at hruns
  obtain ⟨p, hafter, hrun⟩ := hruns
  have hend : p.rest = [] := hafter.rest (List.append_nil _).symm rfl
  have hwritten : p.written = cells h.slots := hafter.written
  refine ⟨p.pushText, parse_eq_ok.mpr ⟨p, h.l, h.offset, hrun.trans (run_of_end hend), h.checked, ?_, h.direct_list,
    h.accessors, rfl⟩⟩
  rw [hwritten, spellCells_cells, h.numbers, h.fmt]
  rfl

theorem clear_of_notMem {ν : Type} {ps : List (Piece ν)} (hopen : .escapedOpen ∉ ps) : Clear ps := by
  unfold Clear
  induction ps with
  | nil => rfl
  | cons piece ps ih =>
    rw [List.mem_cons, not_or] at hopen
    cases piece with
    | escapedOpen => exact absurd rfl hopen.1
    | _ => exact ih hopen.2

end Erl.Format
