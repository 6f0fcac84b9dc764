import Erl.Format.Accessors

/-!
# The format string parser

`FormatParser` of `_impl/format/named.hpp` with its base `Parser` of
`_impl/util/parser.hpp`, and the arguments `do_format` calls `std::format` with. All of it
runs at compile time: what would be undefined at run time is no constant expression, and
the program does not compile. Format strings have no NUL characters: `fixed_string`, in which
they are passed on, converts to a view that ends at the first.
-/

namespace Erl.Format
open Util

/-- `static_cast<int>`. -/
def toInt (n : Nat) : Int := if n % 2 ^ 32 < 2 ^ 31 then n % 2 ^ 32 else n % 2 ^ 32 - 2 ^ 32

/-- The result of an operation on `int`s. -/
def checkedInt (i : Int) : Option Int := if -2 ^ 31 ≤ i ∧ i < 2 ^ 31 then some i else none

/-- An `int` as a `std::uint64_t`. -/
def toUInt64 (i : Int) : UInt64 := UInt64.ofNat (i % 2 ^ 64).toNat

/-! ## The parser -/

/-- `std::source_location`. -/
structure SourceLocation where
  file_name : StringView := []
  line : UInt32 := 0
  column : UInt32 := 0

/-- `TextFragment`, `AccessorFragment`. -/
inductive Fragment where
  | text (data : StringView)
  | accessor (index : Nat)
deriving DecidableEq, Repr

/-- `FormatParser`. The positions of the braces it has taken for the first of a replacement
field are kept in `fields`. -/
structure FormatParser where
  data : StringView
  location : SourceLocation := {}
  cursor : Nat := 0
  fragments : List Fragment := []
  fragment_start : Nat := 0
  fields : List Nat := []

/-- Parsing ends early with an `error`, which `do_format` does not compile with, or because
it is no constant expression. -/
inductive Stop where
  | error (fmt : StringView)
  | notConstant
  | endless
deriving DecidableEq, Repr

/-- An operation that may be no constant expression. -/
def constant {α : Type} : Option α → Except Stop α
  | some a => .ok a
  | none => .error .notConstant

namespace FormatParser

/-- `current`. -/
def current (p : FormatParser) : Option Char := p.data[p.cursor]?

/-- `is_valid`. -/
def isValid (p : FormatParser) : Bool := p.cursor < p.data.length

def skip (p : FormatParser) (n : Nat) : FormatParser := { p with cursor := p.cursor + n }

/-- `++cursor`. -/
def advance (p : FormatParser) : FormatParser := p.skip 1

/-- `data.substr(start, cursor - start)`. -/
def since (p : FormatParser) (start : Nat) : StringView := (p.data.drop start).take (p.cursor - start)

/-- What a character adds to `brace_count`. -/
def bracket (c : Char) : Int :=
  if c ∈ ['[', '{', '('] then 1 else if c ∈ [']', '}', ')'] then -1 else 0

/-- How many characters the loop of `skip_to` passes. -/
def skipped (needles : List Char) : Int → StringView → Option Nat
  | _, [] => some 0
  | brace_count, c :: rest =>
    if brace_count = 0 ∧ c ∈ needles then some 0
    else do
      let brace_count ← checkedInt (brace_count + bracket c)
      let n ← skipped needles brace_count rest
      some (n + 1)

/-- `skip_to`, with the value of `brace_count`. -/
def skipFrom (needles : List Char) (brace_count : Int) (p : FormatParser) : Option FormatParser :=
  (skipped needles brace_count (p.data.drop p.cursor)).map p.skip

/-- `skip_to`. -/
def skipTo (needles : List Char) (p : FormatParser) : Option FormatParser := p.skipFrom needles 0

/-- `push_text`. -/
def pushText (p : FormatParser) (str : StringView := []) : FormatParser :=
  if str ≠ [] then { p with fragments := p.fragments ++ [.text str], fragment_start := p.cursor }
  else if p.fragment_start = p.cursor then p
  else { p with fragments := p.fragments ++ [.text (p.since p.fragment_start)], fragment_start := p.cursor }

/-- `push_accessor`; the fragment stores an `unsigned`. -/
def pushAccessor (p : FormatParser) (index : Nat) : FormatParser :=
  { p with fragments := p.fragments ++ [.accessor (index % 2 ^ 32)], fragment_start := p.cursor }

/-- `error`. -/
def error (p : FormatParser) (message : StringView) : Stop :=
  let line := utos p.location.line.toUInt64
  let column := utos (p.location.column - 1).toUInt64
  .error ("Invalid format string\n".toList ++ p.location.file_name ++ ":".toList ++ line ++ ":".toList ++ column ++
    ": error: ".toList ++ message ++ "\n".toList ++ "  ".toList ++ line ++ " | ".toList ++ p.data ++ "\n".toList ++
    List.replicate (5 + line.length) ' ' ++ List.replicate (p.fragment_start - 1) ' ' ++ "^".toList ++
    List.replicate (p.cursor - p.fragment_start + 1) '~' ++ "\n".toList ++ "raised from:".toList)

end FormatParser

variable (C : Classes)

/-- The locals of `do_parse`. -/
structure Locals where
  direct : List Int
  used : Nat := 0
  accessors : List Accessor := []
  has_empty : Bool := false
  has_positional : Bool := false
deriving DecidableEq, Repr

/-- What is pushed for a name: nothing for an empty one, a number for an index, the number
of an accessor otherwise. -/
inductive Slot where
  | none
  | number (value : Int)
  | accessor (index : Nat)
deriving DecidableEq, Repr

/-- Why there is nothing to push. -/
inductive Refusal where
  | message (text : StringView)
  | notConstant
deriving DecidableEq, Repr

def mixed : Refusal := .message "Either all or no arguments can be positional".toList

/-- By-index field, `{0}`. -/
def byIndex (l : Locals) (index : Nat) : Except Refusal (Locals × Slot) :=
  match l.direct[index]? with
  | none => .error .notConstant
  | some number =>
    if number = -1 then
      .ok ({ l with direct := l.direct.set index (toInt l.used), used := (l.used + 1) % 2 ^ 32 },
        .number (toInt l.used))
    else .ok (l, .number number)

def byPath (arg_types : List C.Ty) (l : Locals) (index : Nat) (path : StringView) : Except Refusal (Locals × Slot) :=
  match arg_types[index]?.bind (getAccessor C path index) with
  | none => .error .notConstant
  | some accessor =>
    let accessors := l.accessors ++ [accessor]
    .ok ({ l with accessors := accessors }, .accessor accessors.length)

/-- Just a name: implicit field 0. -/
def implicitField (arg_types : List C.Ty) (l : Locals) (name : StringView) : Except Refusal (Locals × Slot) :=
  if arg_types.length ≠ 1 then
    .error (.message "Field names cannot be directly used if there's more than one argument".toList)
  else byPath C arg_types l 0 name

/-- The part of the loop of `do_parse` that looks at the name of a field. -/
def resolve (arg_types : List C.Ty) (l : Locals) (name : StringView) : Except Refusal (Locals × Slot) :=
  if name = [] then
    if l.has_positional then .error mixed else .ok ({ l with has_empty := true }, .none)
  else if l.has_empty then .error mixed
  else
    let l := { l with has_positional := true }
    if isInteger name then byIndex l (stou name)
    else
      match name.idxOf? '.' with
      | none => implicitField C arg_types l name
      | some dot_pos =>
        if name.head?.any isDigit then byPath C arg_types l (stou (name.take dot_pos)) (name.drop (dot_pos + 1))
        else implicitField C arg_types l name

/-- `Transformed`, unless it is an error. -/
structure Transformed where
  fmt : StringView
  direct_list : List Nat
  accessors : List Accessor

namespace FormatParser

/-- Leaving the parse with a refusal. -/
def refuse (p : FormatParser) : Refusal → Stop
  | .message text => p.error text
  | .notConstant => .notConstant

/-- What is pushed for a field whose name ends at the cursor. -/
def pushSlot (p : FormatParser) : Slot → FormatParser
  | .none => p.advance.pushText
  | .number value => p.pushText (utos (toUInt64 value))
  | .accessor index => (p.pushAccessor index).advance

/-- A replacement field, from its name on. -/
def field (arg_types : List C.Ty) (p : FormatParser) (l : Locals) : Except Stop (FormatParser × Locals) :=
  let start := p.cursor
  match p.skipTo ['}', ':'] with
  | none => .error .notConstant
  | some p =>
    match resolve C arg_types l (p.since start) with
    | .error refusal => .error (p.refuse refusal)
    | .ok (l, slot) => .ok (p.pushSlot slot, l)

/-- One turn of the loop of `do_parse`. -/
def turn (arg_types : List C.Ty) (p : FormatParser) (l : Locals) : Except Stop (FormatParser × Locals) := do
  let c ← constant p.current
  if c ≠ '{' then pure (p.advance, l)
  else
    let first := p.cursor
    let p := p.advance
    let c ← constant p.current
    if c = '{' then
      -- skip to first unbalanced }
      let p ← constant (p.skipTo ['}'])
      pure (p.pushText, l)
    else
      let p := p.pushText
      field C arg_types { p with fields := p.fields ++ [first] } l

/-- The loop of `do_parse`. -/
def loop (arg_types : List C.Ty) : Nat → FormatParser → Locals → Except Stop (FormatParser × Locals)
  | 0, p, l => if p.isValid then .error .endless else .ok (p, l)
  | fuel + 1, p, l =>
    if p.isValid then do
      let (p, l) ← turn C arg_types p l
      loop arg_types fuel p l
    else .ok (p, l)

/-- `direct_indices`, of `n` arguments. -/
def directIndices (n : Nat) (l : Locals) : List Nat :=
  if l.has_positional then (List.range n).filter fun x => l.direct[x]? ≠ some (-1) else List.range n

/-- `Fragment::push`. -/
def pushFragment (direct_size : Int) (out : StringView) : Fragment → Option StringView
  | .text data => some (out ++ data)
  | .accessor index =>
    -- clamp to 0
    (checkedInt (direct_size + toInt index)).map fun value => out ++ utos (toUInt64 (max value 0))

/-- `render`. -/
def render (p : FormatParser) (accessor_offset : Int) : Option StringView :=
  p.fragments.foldlM (pushFragment accessor_offset) []

/-- `do_parse`; the parser is there for its `fields`. -/
def doParse (arg_types : List C.Ty) (p : FormatParser) : Except Stop (Transformed × FormatParser) := do
  let (p, l) ← loop C arg_types p.data.length p { direct := List.replicate arg_types.length (-1) }
  let p := p.pushText
  let direct_indices := directIndices arg_types.length l
  let fmt ← constant ((checkedInt (toInt direct_indices.length - 1)).bind p.render)
  pure (⟨fmt, direct_indices, l.accessors⟩, p)

/-- `parse`. -/
def parse (arg_types : List C.Ty) (source : StringView) (location : SourceLocation) :
    Except Stop (Transformed × FormatParser) :=
  doParse C arg_types { data := source, location := location }

end FormatParser

/-- The arguments behind the format string in the call of `std::format`. -/
def Transformed.passed (t : Transformed) (args : List C.Obj) : List (Option C.Obj) :=
  t.direct_list.map (args[·]?) ++ t.accessors.map fun a => args[a.index]?.bind (a.get C)

end Erl.Format
