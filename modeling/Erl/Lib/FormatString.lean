import Mathlib.Tactic.TypeStar
import Mathlib.Logic.Basic

/-!
# Format strings with replacement fields

The format strings of `std::format`, as pieces over a type of field names: literal
characters, the escapes `{{` and `}}`, and fields `{name}` or `{name:spec}` whose specs
have literal characters and fields of their own. `scan` reads the pieces back from the
characters they `render`, so a format string has one reading. `traverse` replaces the
names from left to right.
-/

namespace FormatString

/-- What a name is made of: no brackets, and no `:`, which begins a spec. -/
def isNameChar (c : Char) : Bool := c ∉ ['{', '}', '(', ')', '[', ']', ':']

structure TextChar where
  char : Char
  notBrace : char ≠ '{' ∧ char ≠ '}'
deriving DecidableEq

structure Name where
  chars : List Char
  valid : ∀ c ∈ chars, isNameChar c = true
deriving DecidableEq

inductive SpecPiece (ν : Type) where
  | text (c : TextChar)
  | field (name : ν)
deriving DecidableEq

inductive Piece (ν : Type) where
  | text (c : TextChar)
  | escapedOpen
  | escapedClose
  | field (name : ν) (spec : Option (List (SpecPiece ν)))
deriving DecidableEq

@[ext] theorem Name.ext {m n : Name} (h : m.chars = n.chars) : m = n := by
  cases m
  cases n
  cases h
  rfl

/-- The name that is not there. -/
def Name.none : Name := ⟨[], fun _ h => absurd h List.not_mem_nil⟩

def Name.push (n : Name) (c : Char) (h : isNameChar c = true) : Name :=
  ⟨n.chars ++ [c], fun x hx => (List.mem_append.mp hx).elim (n.valid x) fun hx => by rwa [List.mem_singleton.mp hx]⟩

theorem isNameChar_of_mem_toDigits {n : Nat} {c : Char} (h : c ∈ Nat.toDigits 10 n) : isNameChar c = true := by
  have hdigit := Nat.isDigit_of_mem_toDigits (by omega) (Nat.le_refl 10) h
  unfold isNameChar
  rw [decide_eq_true_iff]
  intro hmem
  simp only [List.mem_cons, List.not_mem_nil, or_false] at hmem
  rcases hmem with rfl | rfl | rfl | rfl | rfl | rfl | rfl <;> cases hdigit

/-- A number as a name. -/
def Name.ofNat (n : Nat) : Name := ⟨Nat.toDigits 10 n, fun _ h => isNameChar_of_mem_toDigits h⟩

/-- The number a name is, written without leading zeros. -/
def Name.toNat? (n : Name) : Option Nat :=
  let value := Nat.ofDigitChars 10 n.chars 0
  if n.chars = Nat.toDigits 10 value then some value else Option.none

@[simp] theorem Name.toNat?_ofNat (n : Nat) : (Name.ofNat n).toNat? = some n := by
  unfold Name.toNat? Name.ofNat
  simp only [Nat.ofDigitChars_ten_toDigits, if_true]

def SpecPiece.chars : SpecPiece Name → List Char
  | .text c => [c.char]
  | .field name => '{' :: (name.chars ++ ['}'])

def specChars (spec : List (SpecPiece Name)) : List Char := spec.flatMap SpecPiece.chars

def Piece.chars : Piece Name → List Char
  | .text c => [c.char]
  | .escapedOpen => ['{', '{']
  | .escapedClose => ['}', '}']
  | .field name .none => '{' :: (name.chars ++ ['}'])
  | .field name (some spec) => '{' :: (name.chars ++ ':' :: (specChars spec ++ ['}']))

/-- The format string the pieces make up. -/
def render (ps : List (Piece Name)) : List Char := ps.flatMap Piece.chars

@[simp] theorem render_nil : render [] = [] := rfl

@[simp] theorem render_cons (p : Piece Name) (ps : List (Piece Name)) : render (p :: ps) = p.chars ++ render ps :=
  List.flatMap_cons

@[simp] theorem specChars_nil : specChars [] = [] := rfl

@[simp] theorem specChars_cons (p : SpecPiece Name) (spec : List (SpecPiece Name)) :
    specChars (p :: spec) = p.chars ++ specChars spec := List.flatMap_cons

theorem specChars_append (spec spec' : List (SpecPiece Name)) :
    specChars (spec ++ spec') = specChars spec ++ specChars spec' := List.flatMap_append

/-! ## Scanning -/

/-- Where in a format string the next character stands. -/
inductive Mode where
  | text
  /-- Behind a `}` of the text. -/
  | close
  | name (n : Name)
  | spec (n : Name) (read : List (SpecPiece Name))
  | nested (n : Name) (read : List (SpecPiece Name)) (m : Name)

/-- The characters of the piece that is being read. -/
def Mode.pending : Mode → List Char
  | .text => []
  | .close => ['}']
  | .name n => '{' :: n.chars
  | .spec n read => '{' :: (n.chars ++ ':' :: specChars read)
  | .nested n read m => '{' :: (n.chars ++ ':' :: (specChars read ++ '{' :: m.chars))

/-- The pieces of a format string, from a mode on. -/
def scanFrom : Mode → List Char → Option (List (Piece Name))
  | .text, [] => some []
  | _, [] => Option.none
  | .text, c :: rest =>
    if ho : c = '{' then scanFrom (.name .none) rest
    else if hc : c = '}' then scanFrom .close rest
    else (scanFrom .text rest).map (.text ⟨c, ho, hc⟩ :: ·)
  | .close, c :: rest => if c = '}' then (scanFrom .text rest).map (.escapedClose :: ·) else Option.none
  | .name n, c :: rest =>
    if c = '{' ∧ n = .none then (scanFrom .text rest).map (.escapedOpen :: ·)
    else if c = '}' then (scanFrom .text rest).map (.field n .none :: ·)
    else if c = ':' then scanFrom (.spec n []) rest
    else if h : isNameChar c = true then scanFrom (.name (n.push c h)) rest
    else Option.none
  | .spec n read, c :: rest =>
    if ho : c = '{' then scanFrom (.nested n read .none) rest
    else if hc : c = '}' then (scanFrom .text rest).map (.field n (some read) :: ·)
    else scanFrom (.spec n (read ++ [.text ⟨c, ho, hc⟩])) rest
  | .nested n read m, c :: rest =>
    if c = '}' then scanFrom (.spec n (read ++ [.field m])) rest
    else if h : isNameChar c = true then scanFrom (.nested n read (m.push c h)) rest
    else Option.none

/-- The pieces of a format string. -/
def scan (chars : List Char) : Option (List (Piece Name)) := scanFrom .text chars

/-- What has been scanned renders to the characters that were read. -/
theorem render_of_scanFrom {mode : Mode} {chars : List Char} {ps : List (Piece Name)}
    (h : scanFrom mode chars = some ps) : render ps = mode.pending ++ chars := by
  fun_induction scanFrom mode chars generalizing ps with
  | case1 =>
    cases h
    rfl
  | case2 => cases h
  | case3 rest ih => exact ih h
  | case4 rest _ ih => exact ih h
  | case5 c rest ho hc ih =>
    obtain ⟨ps, hps, rfl⟩ := Option.map_eq_some_iff.mp h
    rw [render_cons, ih hps]
    rfl
  | case6 rest ih =>
    obtain ⟨ps, hps, rfl⟩ := Option.map_eq_some_iff.mp h
    rw [render_cons, ih hps]
    rfl
  | case7 => cases h
  | case8 n c rest hopen ih =>
    obtain ⟨ps, hps, rfl⟩ := Option.map_eq_some_iff.mp h
    obtain ⟨rfl, rfl⟩ := hopen
    rw [render_cons, ih hps]
    rfl
  | case9 n rest _ ih =>
    obtain ⟨ps, hps, rfl⟩ := Option.map_eq_some_iff.mp h
    rw [render_cons, ih hps]
    simp [Piece.chars, Mode.pending]
  | case10 n rest _ _ ih =>
    rw [ih h]
    simp [Mode.pending]
  | case11 n c rest _ _ _ hname ih =>
    rw [ih h]
    simp [Mode.pending, Name.push]
  | case12 => cases h
  | case13 n read rest ih =>
    rw [ih h]
    simp [Mode.pending, Name.none]
  | case14 n read rest _ ih =>
    obtain ⟨ps, hps, rfl⟩ := Option.map_eq_some_iff.mp h
    rw [render_cons, ih hps]
    simp [Piece.chars, Mode.pending]
  | case15 n read c rest ho hc ih =>
    rw [ih h]
    simp [Mode.pending, specChars_append, SpecPiece.chars]
  | case16 n read m rest ih =>
    rw [ih h]
    simp [Mode.pending, specChars_append, SpecPiece.chars]
  | case17 n read m c rest _ hname ih =>
    rw [ih h]
    simp [Mode.pending, Name.push]
  | case18 => cases h

/-- In a mode that reads a name, its characters are read. -/
theorem scanFrom_name {n : Name} {cs : List Char} (rest : List Char) (h : ∀ c ∈ cs, isNameChar c = true) :
    ∃ m : Name, m.chars = n.chars ++ cs ∧ scanFrom (.name n) (cs ++ rest) = scanFrom (.name m) rest := by
  induction cs generalizing n with
  | nil => exact ⟨n, (List.append_nil _).symm, rfl⟩
  | cons c cs ih =>
    have hc := h c List.mem_cons_self
    have hother : c ≠ '{' ∧ c ≠ '}' ∧ c ≠ ':' := by
      refine ⟨?_, ?_, ?_⟩ <;> rintro rfl <;> cases hc
    obtain ⟨m, hm, hscan⟩ := ih (n := n.push c hc) fun x hx => h x (List.mem_cons_of_mem c hx)
    refine ⟨m, by rw [hm, Name.push, List.append_assoc]; rfl, ?_⟩
    rw [List.cons_append, scanFrom, if_neg fun h => hother.1 h.1, if_neg hother.2.1, if_neg hother.2.2, dif_pos hc]
    exact hscan

theorem scanFrom_nested (n m : Name) (read : List (SpecPiece Name)) {cs : List Char} (rest : List Char)
    (h : ∀ c ∈ cs, isNameChar c = true) :
    ∃ m' : Name, m'.chars = m.chars ++ cs ∧
      scanFrom (.nested n read m) (cs ++ rest) = scanFrom (.nested n read m') rest := by
  induction cs generalizing m with
  | nil => exact ⟨m, (List.append_nil _).symm, rfl⟩
  | cons c cs ih =>
    have hc := h c List.mem_cons_self
    have hother : c ≠ '}' := by
      rintro rfl
      cases hc
    obtain ⟨m', hm, hscan⟩ := ih (m.push c hc) fun x hx => h x (List.mem_cons_of_mem c hx)
    refine ⟨m', by rw [hm, Name.push, List.append_assoc]; rfl, ?_⟩
    rw [List.cons_append, scanFrom, if_neg hother, dif_pos hc]
    exact hscan

theorem scanFrom_spec (n : Name) (read spec : List (SpecPiece Name)) (rest : List Char) :
    scanFrom (.spec n read) (specChars spec ++ rest) = scanFrom (.spec n (read ++ spec)) rest := by
  induction spec generalizing read with
  | nil => rw [List.append_nil]; rfl
  | cons p spec ih =>
    rw [specChars_cons, List.append_assoc]
    cases p with
    | text c =>
      show scanFrom _ (c.char :: (specChars spec ++ rest)) = _
      rw [scanFrom, dif_neg c.notBrace.1, dif_neg c.notBrace.2, ih, List.append_assoc]
      rfl
    | field m =>
      obtain ⟨m', hm, hscan⟩ := scanFrom_nested n .none read ('}' :: (specChars spec ++ rest)) m.valid
      obtain rfl : m' = m := Name.ext hm
      show scanFrom _ ('{' :: (m'.chars ++ ['}'] ++ _)) = _
      rw [scanFrom, dif_pos rfl, List.append_assoc]
      show scanFrom _ (m'.chars ++ '}' :: (specChars spec ++ rest)) = _
      rw [hscan, scanFrom, if_pos rfl, ih, List.append_assoc]
      rfl

/-- The name of a field is read up to what ends it. -/
theorem scanFrom_open (n : Name) (d : Char) (rest : List Char) :
    scanFrom .text ('{' :: (n.chars ++ d :: rest)) = scanFrom (.name n) (d :: rest) := by
  obtain ⟨m, hm, hscan⟩ := scanFrom_name (n := .none) (d :: rest) n.valid
  obtain rfl : m = n := Name.ext hm
  rw [scanFrom, dif_pos rfl, hscan]

/-- **Scanning inverts rendering.** -/
theorem scan_render (ps : List (Piece Name)) : scan (render ps) = some ps := by
  unfold scan
  induction ps with
  | nil => rfl
  | cons p ps ih =>
    rw [render_cons]
    cases p with
    | text c =>
      show scanFrom _ (c.char :: render ps) = _
      rw [scanFrom, dif_neg c.notBrace.1, dif_neg c.notBrace.2, ih]
      rfl
    | escapedOpen =>
      show scanFrom _ ('{' :: '{' :: render ps) = _
      rw [scanFrom, dif_pos rfl, scanFrom, if_pos ⟨rfl, rfl⟩, ih]
      rfl
    | escapedClose =>
      show scanFrom _ ('}' :: '}' :: render ps) = _
      rw [scanFrom, dif_neg (by decide), dif_pos rfl, scanFrom, if_pos rfl, ih]
      rfl
    | field n spec =>
      cases spec with
      | none =>
        show scanFrom _ ('{' :: (n.chars ++ ['}'] ++ render ps)) = _
        rw [List.append_assoc]
        show scanFrom _ ('{' :: (n.chars ++ '}' :: render ps)) = _
        rw [scanFrom_open n, scanFrom, if_neg (by simp), if_pos rfl, ih]
        rfl
      | some spec =>
        show scanFrom _ ('{' :: (n.chars ++ ':' :: (specChars spec ++ ['}']) ++ render ps)) = _
        rw [List.append_assoc, List.cons_append, List.append_assoc]
        show scanFrom _ ('{' :: (n.chars ++ ':' :: (specChars spec ++ '}' :: render ps))) = _
        rw [scanFrom_open n, scanFrom, if_neg (by simp), if_neg (by decide), if_pos rfl, scanFrom_spec,
          List.nil_append, scanFrom, dif_neg (by decide), dif_pos rfl, ih]
        rfl

/-- A format string has one reading. -/
theorem scan_eq_some_iff {chars : List Char} {ps : List (Piece Name)} : scan chars = some ps ↔ render ps = chars := by
  constructor
  · intro h
    exact render_of_scanFrom h
  · rintro rfl
    exact scan_render ps

section
variable {ν μ σ : Type}

def SpecPiece.map (f : ν → μ) : SpecPiece ν → SpecPiece μ
  | .text c => .text c
  | .field n => .field (f n)

def Piece.map (f : ν → μ) : Piece ν → Piece μ
  | .text c => .text c
  | .escapedOpen => .escapedOpen
  | .escapedClose => .escapedClose
  | .field n spec => .field (f n) (spec.map (List.map (SpecPiece.map f)))

/-- The pieces without their names. -/
def shape (ps : List (Piece ν)) : List (Piece Unit) := ps.map (Piece.map fun _ => ())

def SpecPiece.name? : SpecPiece ν → Option ν
  | .text _ => none
  | .field n => some n

def specNames (spec : List (SpecPiece ν)) : List ν := spec.filterMap SpecPiece.name?

@[simp] theorem specNames_text (c : TextChar) (spec : List (SpecPiece ν)) :
    specNames (.text c :: spec) = specNames spec := rfl

@[simp] theorem specNames_field (n : ν) (spec : List (SpecPiece ν)) :
    specNames (.field n :: spec) = n :: specNames spec := rfl

def Piece.names : Piece ν → List ν
  | .field n none => [n]
  | .field n (some spec) => n :: specNames spec
  | _ => []

/-- The names of all fields, from left to right. -/
def names (ps : List (Piece ν)) : List ν := ps.flatMap Piece.names

@[simp] theorem names_cons (p : Piece ν) (ps : List (Piece ν)) : names (p :: ps) = p.names ++ names ps :=
  List.flatMap_cons

theorem escapedOpen_mem_map {f : ν → μ} {ps : List (Piece ν)} :
    .escapedOpen ∈ ps.map (Piece.map f) ↔ .escapedOpen ∈ ps := by
  rw [List.mem_map]
  constructor
  · rintro ⟨p, hp, heq⟩
    cases p with
    | escapedOpen => exact hp
    | _ => cases heq
  · intro h
    exact ⟨.escapedOpen, h, rfl⟩

theorem specNames_map (f : ν → μ) (spec : List (SpecPiece ν)) :
    specNames (spec.map (SpecPiece.map f)) = (specNames spec).map f := by
  induction spec with
  | nil => rfl
  | cons p spec ih =>
    cases p with
    | text c =>
      rw [List.map_cons, SpecPiece.map, specNames_text, specNames_text, ih]
    | field n =>
      rw [List.map_cons, SpecPiece.map, specNames_field, specNames_field, ih, List.map_cons]

theorem names_map (f : ν → μ) (ps : List (Piece ν)) : names (ps.map (Piece.map f)) = (names ps).map f := by
  induction ps with
  | nil => rfl
  | cons p ps ih =>
    have hp : (p.map f).names = p.names.map f := by
      cases p with
      | field n spec =>
        cases spec with
        | none => rfl
        | some spec =>
          show f n :: specNames (spec.map (SpecPiece.map f)) = (n :: specNames spec).map f
          rw [specNames_map, List.map_cons]
      | _ => rfl
    rw [List.map_cons, names_cons, names_cons, List.map_append, hp, ih]

theorem shape_map (f : ν → μ) (ps : List (Piece ν)) : shape (ps.map (Piece.map f)) = shape ps := by
  unfold shape
  rw [List.map_map]
  apply List.map_congr_left
  intro p _
  cases p with
  | field n spec =>
    have hspec : (SpecPiece.map fun _ => ()) ∘ SpecPiece.map f = SpecPiece.map fun _ => () := by
      funext piece
      cases piece <;> rfl
    cases spec with
    | none => rfl
    | some spec =>
      show Piece.field () (some ((spec.map (SpecPiece.map f)).map _)) = Piece.field () (some (spec.map _))
      rw [List.map_map, hspec]
  | _ => rfl

/-- Where the fields of a spec begin. -/
def specStarts : Nat → List (SpecPiece Name) → List Nat
  | _, [] => []
  | pos, .text _ :: spec => specStarts (pos + 1) spec
  | pos, .field n :: spec => pos :: specStarts (pos + (n.chars.length + 2)) spec

/-- Where the fields begin: the positions of their first braces, from left to right. -/
def starts : Nat → List (Piece Name) → List Nat
  | _, [] => []
  | pos, .field n none :: ps => pos :: starts (pos + (Piece.field n none).chars.length) ps
  | pos, .field n (some spec) :: ps =>
    pos :: (specStarts (pos + (n.chars.length + 2)) spec ++ starts (pos + (Piece.field n (some spec)).chars.length) ps)
  | pos, p :: ps => starts (pos + p.chars.length) ps

/-- What the arguments of `std::format` put in for the fields: field `k` stands for
argument `k`. -/
def substituted {α : Type} (passed : List α) (ps : List (Piece Name)) : List (Option α) :=
  (names ps).map fun n => n.toNat?.bind (passed[·]?)

/-! ## Replacing the names -/

/-- The results of `f` on a list, with a state passed along. -/
def accumulate (f : σ → ν → Option (σ × μ)) : σ → List ν → Option (σ × List μ)
  | s, [] => some (s, [])
  | s, n :: ns => do
    let (s, m) ← f s n
    let (s, ms) ← accumulate f s ns
    some (s, m :: ms)

def traverseSpec (f : σ → ν → Option (σ × μ)) : σ → List (SpecPiece ν) → Option (σ × List (SpecPiece μ))
  | s, [] => some (s, [])
  | s, .text c :: spec => do
    let (s, spec) ← traverseSpec f s spec
    some (s, .text c :: spec)
  | s, .field n :: spec => do
    let (s, m) ← f s n
    let (s, spec) ← traverseSpec f s spec
    some (s, .field m :: spec)

/-- `f` on one piece. -/
def Piece.traverse (f : σ → ν → Option (σ × μ)) : σ → Piece ν → Option (σ × Piece μ)
  | s, .text c => some (s, .text c)
  | s, .escapedOpen => some (s, .escapedOpen)
  | s, .escapedClose => some (s, .escapedClose)
  | s, .field n none => do
    let (s, m) ← f s n
    some (s, .field m none)
  | s, .field n (some spec) => do
    let (s, m) ← f s n
    let (s, spec) ← traverseSpec f s spec
    some (s, .field m (some spec))

/-- `f` on all names from left to right. -/
def traversePieces (f : σ → ν → Option (σ × μ)) : σ → List (Piece ν) → Option (σ × List (Piece μ))
  | s, [] => some (s, [])
  | s, p :: ps => do
    let (s, p) ← p.traverse f s
    let (s, ps) ← traversePieces f s ps
    some (s, p :: ps)

variable {f : σ → ν → Option (σ × μ)}

theorem accumulate_cons_eq_some {s s' : σ} {n : ν} {ns : List ν} {ms : List μ} :
    accumulate f s (n :: ns) = some (s', ms) ↔
      ∃ s₁ m rest, f s n = some (s₁, m) ∧ accumulate f s₁ ns = some (s', rest) ∧ ms = m :: rest := by
  simp only [accumulate, Option.bind_eq_bind, Option.bind_eq_some_iff, Option.some.injEq, Prod.mk.injEq]
  constructor
  · rintro ⟨⟨s₁, m⟩, hf, ⟨s₂, rest⟩, hrest, rfl, rfl⟩
    exact ⟨s₁, m, rest, hf, hrest, rfl⟩
  · rintro ⟨s₁, m, rest, hf, hrest, rfl⟩
    exact ⟨(s₁, m), hf, (s', rest), hrest, rfl, rfl⟩

theorem accumulate_append (s : σ) (ns ns' : List ν) :
    accumulate f s (ns ++ ns') =
      (accumulate f s ns).bind fun r => (accumulate f r.1 ns').map fun r' => (r'.1, r.2 ++ r'.2) := by
  induction ns generalizing s with
  | nil => cases h : accumulate f s ns' <;> simp [accumulate, h]
  | cons n ns ih =>
    simp only [List.cons_append, accumulate, Option.bind_eq_bind]
    cases f s n with
    | none => rfl
    | some r =>
      simp only [Option.bind_some, ih]
      cases accumulate f r.1 ns with
      | none => rfl
      | some r' => cases h : accumulate f r'.1 ns' <;> simp [h]

theorem map_specNames_traverse (s : σ) (spec : List (SpecPiece ν)) :
    (traverseSpec f s spec).map (fun r => (r.1, specNames r.2)) = accumulate f s (specNames spec) := by
  induction spec generalizing s with
  | nil => rfl
  | cons p spec ih =>
    cases p with
    | text c =>
      rw [specNames_text, ← ih]
      cases h : traverseSpec f s spec <;> simp [traverseSpec, h]
    | field n =>
      simp only [specNames_field, traverseSpec, accumulate, Option.bind_eq_bind]
      cases f s n with
      | none => rfl
      | some r =>
        simp only [Option.bind_some, ← ih]
        cases traverseSpec f r.1 spec <;> simp

theorem Piece.map_names_traverse (s : σ) (p : Piece ν) :
    (p.traverse f s).map (fun r => (r.1, r.2.names)) = accumulate f s p.names := by
  cases p with
  | text c => rfl
  | escapedOpen => rfl
  | escapedClose => rfl
  | field n spec =>
    cases spec with
    | none => cases h : f s n <;> simp [Piece.traverse, Piece.names, accumulate, h]
    | some spec =>
      simp only [Piece.traverse, Piece.names, accumulate, Option.bind_eq_bind]
      cases f s n with
      | none => rfl
      | some r =>
        simp only [Option.bind_some, ← map_specNames_traverse]
        cases traverseSpec f r.1 spec <;> simp

/-- Replacing the names is going through the list of names. -/
theorem map_names_traverse (s : σ) (ps : List (Piece ν)) :
    (traversePieces f s ps).map (fun r => (r.1, names r.2)) = accumulate f s (names ps) := by
  induction ps generalizing s with
  | nil => rfl
  | cons p ps ih =>
    rw [names_cons, accumulate_append, ← Piece.map_names_traverse]
    simp only [traversePieces, Option.bind_eq_bind]
    cases p.traverse f s with
    | none => rfl
    | some r =>
      simp only [Option.bind_some, Option.map_some, ← ih]
      cases traversePieces f r.1 ps <;> simp

theorem traverseSpec_shape {s s' : σ} {spec : List (SpecPiece ν)} {spec' : List (SpecPiece μ)}
    (h : traverseSpec f s spec = some (s', spec')) :
    spec'.map (SpecPiece.map fun _ => ()) = spec.map (SpecPiece.map fun _ => ()) := by
  induction spec generalizing s spec' with
  | nil =>
    cases h
    rfl
  | cons p spec ih =>
    cases p with
    | text c =>
      simp only [traverseSpec, Option.bind_eq_bind, Option.bind_eq_some_iff, Option.some.injEq, Prod.mk.injEq] at h
      obtain ⟨⟨s₁, spec₁⟩, h₁, rfl, rfl⟩ := h
      rw [List.map_cons, ih h₁]
      rfl
    | field n =>
      simp only [traverseSpec, Option.bind_eq_bind, Option.bind_eq_some_iff, Option.some.injEq, Prod.mk.injEq] at h
      obtain ⟨⟨s₁, m⟩, -, ⟨s₂, spec₂⟩, h₂, rfl, rfl⟩ := h
      rw [List.map_cons, ih h₂]
      rfl

theorem Piece.traverse_shape {s s' : σ} {p : Piece ν} {p' : Piece μ} (h : p.traverse f s = some (s', p')) :
    p'.map (fun _ => ()) = p.map fun _ => () := by
  cases p with
  | text c =>
    cases h
    rfl
  | escapedOpen =>
    cases h
    rfl
  | escapedClose =>
    cases h
    rfl
  | field n spec =>
    cases spec with
    | none =>
      simp only [Piece.traverse, Option.bind_eq_bind, Option.bind_eq_some_iff, Option.some.injEq, Prod.mk.injEq] at h
      obtain ⟨⟨s₁, m⟩, -, rfl, rfl⟩ := h
      rfl
    | some spec =>
      simp only [Piece.traverse, Option.bind_eq_bind, Option.bind_eq_some_iff, Option.some.injEq, Prod.mk.injEq] at h
      obtain ⟨⟨s₁, m⟩, -, ⟨s₂, spec₂⟩, h₂, rfl, rfl⟩ := h
      simp only [Piece.map, Option.map_some, traverseSpec_shape h₂]

/-- Nothing but names is replaced. -/
theorem traverse_shape {s s' : σ} {ps : List (Piece ν)} {ps' : List (Piece μ)}
    (h : traversePieces f s ps = some (s', ps')) : shape ps' = shape ps := by
  induction ps generalizing s ps' with
  | nil =>
    cases h
    rfl
  | cons p ps ih =>
    simp only [traversePieces, Option.bind_eq_bind, Option.bind_eq_some_iff, Option.some.injEq, Prod.mk.injEq] at h
    obtain ⟨⟨s₁, p₁⟩, h₁, ⟨s₂, ps₂⟩, h₂, rfl, rfl⟩ := h
    show p₁.map _ :: shape ps₂ = p.map _ :: shape ps
    rw [Piece.traverse_shape h₁, ih h₂]

end

end FormatString
