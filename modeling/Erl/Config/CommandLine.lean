import Erl.Config.Progress
import Mathlib.Data.List.Nodup

/-!
# What the command-line parser accepts

A grammar of command lines over a `Spec`: a program name, positional values, then items
`--name v1 .. vm`. `parseLine` reads a rendered line back: it calls the listed commands,
records the positional values and the options, and steps over every token once.

The induction over the items rests on one fact: an item's values are consumed by its own
arguments and the next token, which starts with `--`, stops them.
-/

namespace Erl.Config
open Util Outcome

variable {R V O ε σ : Type}

/-- A value token. -/
def IsValue (v : StringView) : Prop := v ≠ [] ∧ v.head? ≠ some '-'

instance (v : StringView) : Decidable (IsValue v) := inferInstanceAs (Decidable (_ ∧ _))

/-- The number of arguments that must be given. -/
def required (arguments : List (Argument R)) : Nat := arguments.countP fun a => !a.is_optional

inductive Kind where
  | command
  | option
deriving DecidableEq

def Spec.entries (spec : Spec R) : Kind → List (OptionEntry R)
  | .command => spec.commands
  | .option => spec.options

/-- `--name v1 .. vm`: an entry of the specification with as many values as it takes. -/
structure Item (spec : Spec R) where
  kind : Kind
  entry : OptionEntry R
  listed : entry ∈ spec.entries kind
  values : List StringView
  proper : ∀ v ∈ values, IsValue v
  enough : required entry.arguments ≤ values.length
  fits : values.length ≤ entry.arguments.length

def Item.tokens {spec : Spec R} (item : Item spec) : List StringView :=
  ("--".toList ++ item.entry.name) :: item.values

structure CommandLine (spec : Spec R) where
  program : StringView
  positionals : List StringView
  proper : ∀ v ∈ positionals, IsValue v
  enough : required spec.arguments ≤ positionals.length
  fits : positionals.length ≤ spec.arguments.length
  items : List (Item spec)

def CommandLine.render {spec : Spec R} (line : CommandLine spec) : List StringView :=
  line.program :: (line.positionals ++ line.items.flatMap Item.tokens)

/-- The value `v`, given to the argument `a`. -/
def record (a : Argument R) (v : StringView) : Argument.Unevaluated R := ⟨v, some (a.index, a.reflection)⟩

def Item.record {spec : Spec R} (item : Item spec) : OptionEntry.Unevaluated R :=
  ⟨List.zipWith Config.record item.entry.arguments item.values, some item.entry.reflection⟩

/-- The commands, or the options, among the items, in order of appearance. -/
def records {spec : Spec R} (kind : Kind) (items : List (Item spec)) : List (OptionEntry.Unevaluated R) :=
  (items.filter fun item => item.kind = kind).map Item.record

/-- The given positional values, each with the argument at its place. -/
def CommandLine.given {spec : Spec R} (line : CommandLine spec) : List (Argument.Unevaluated R) :=
  List.zipWith Config.record spec.arguments line.positionals

/-- Tokens no argument takes anything from: none, or the head of an item first. -/
def Stops (toks : List StringView) : Prop :=
  toks = [] ∨ ∃ name more, toks = ("--".toList ++ name) :: more

theorem stops_flatMap {spec : Spec R} (items : List (Item spec)) : Stops (items.flatMap Item.tokens) := by
  cases items with
  | nil => exact Or.inl rfl
  | cons item items => exact Or.inr ⟨item.entry.name, item.values ++ items.flatMap Item.tokens, rfl⟩

theorem Argument.doParse_value (a : Argument R) (u : Argument.Unevaluated R) {p : ArgParser} {v : StringView}
    {toks : List StringView} (h : p.rest = v :: toks) (hv : IsValue v) :
    (a.doParse u p : Run ε σ _) = pure (true, record a v, p.advance) := by
  obtain ⟨hne, hdash⟩ := hv
  have hvalid : p.valid = true := by simp [p.valid_eq, h]
  unfold Argument.doParse
  simp only [hvalid, currentToken_eq h, pure_bind, Bool.not_true, Bool.false_eq_true, if_false]
  split
  · exact absurd rfl hne
  · exact absurd rfl hdash
  · rfl

theorem Argument.doParse_stop (a : Argument R) (u : Argument.Unevaluated R) {p : ArgParser} (h : Stops p.rest) :
    (a.doParse u p : Run ε σ _) = pure (false, u, p) := by
  unfold Argument.doParse
  rcases h with h | ⟨name, more, h⟩
  · have hvalid : p.valid = false := by simp [p.valid_eq, h]
    simp [hvalid]
  · have hvalid : p.valid = true := by simp [p.valid_eq, h]
    simp only [hvalid, currentToken_eq h, pure_bind, Bool.not_true, Bool.false_eq_true, if_false]
    rfl

theorem required_cons (a : Argument R) (arguments : List (Argument R)) :
    required (a :: arguments) = required arguments + if a.is_optional then 0 else 1 := by
  unfold required
  rw [List.countP_cons]
  cases a.is_optional <;> simp

/-- Behind an optional argument nothing is required. -/
theorem required_eq_zero {arguments : List (Argument R)} (h : ∀ a ∈ arguments, a.is_optional = true) :
    required arguments = 0 := by
  unfold required
  simpa [List.countP_eq_zero] using h

theorem required_tail {a : Argument R} {arguments : List (Argument R)} {n : Nat} (ht : OptionalTrail (a :: arguments))
    (h : required (a :: arguments) ≤ n + 1) : required arguments ≤ n := by
  rw [required_cons] at h
  cases ho : a.is_optional with
  | true =>
    rw [required_eq_zero fun b hb => (List.pairwise_cons.mp ht).1 b hb ho]
    omega
  | false =>
    simp only [ho, Bool.false_eq_true, if_false] at h
    omega

/-- Arguments followed by enough values, and then by tokens that stop them, take these
values; those left over are optional and take nothing. -/
theorem parseArguments_values (arg_name : StringView) {toks : List StringView} (hs : Stops toks) :
    ∀ (arguments : List (Argument R)) (values : List StringView) (u : OptionEntry.Unevaluated R) (p : ArgParser),
      OptionalTrail arguments → required arguments ≤ values.length → values.length ≤ arguments.length →
      (∀ v ∈ values, IsValue v) → p.rest = values ++ toks →
      (parseArguments arg_name arguments u p : Run ε σ _) =
        pure ({ u with arguments := u.arguments ++ List.zipWith record arguments values }, p.skip values.length) := by
  intro arguments
  induction arguments with
  | nil =>
    intro values u p _ _ hfits _ _
    obtain rfl := List.eq_nil_of_length_eq_zero (Nat.le_zero.mp hfits)
    simp [parseArguments]
  | cons a arguments ih =>
    intro values u p ht henough hfits hv hp
    rw [parseArguments]
    cases values with
    | nil =>
      rw [required_cons] at henough
      have ho : a.is_optional = true := by
        cases ho : a.is_optional with
        | true => rfl
        | false => simp [ho] at henough
      rw [List.nil_append] at hp
      rw [Argument.doParse_stop a _ (hp ▸ hs), pure_bind]
      simp only [Bool.false_eq_true, if_false, ho, if_true]
      rw [ih [] u p (List.pairwise_cons.mp ht).2 (by simp only [List.length_nil] at henough ⊢; omega) (Nat.zero_le _)
        hv hp]
      simp
    | cons v values =>
      rw [List.cons_append] at hp
      rw [Argument.doParse_value a _ hp (hv v List.mem_cons_self), pure_bind]
      simp only [if_true]
      rw [ih values _ p.advance (List.pairwise_cons.mp ht).2 (required_tail ht henough) (Nat.le_of_succ_le_succ hfits)
        (fun w hw => hv w (List.mem_cons_of_mem _ hw)) (by rw [p.rest_advance, hp, List.tail_cons])]
      simp [p.advance_skip]

/-- The positional arguments take the positional values. -/
theorem parsePositional_values {toks : List StringView} (hs : Stops toks) :
    ∀ (arguments : List (Argument R)) (values : List StringView) (parsed : List (Argument.Unevaluated R))
      (p : ArgParser), values.length ≤ arguments.length → (∀ v ∈ values, IsValue v) → p.rest = values ++ toks →
      (parsePositional arguments parsed p : Run ε σ _) =
        pure (parsed ++ List.zipWith record arguments values, p.skip values.length) := by
  intro arguments
  induction arguments with
  | nil =>
    intro values parsed p hfits _ _
    obtain rfl := List.eq_nil_of_length_eq_zero (Nat.le_zero.mp hfits)
    simp [parsePositional]
  | cons a arguments ih =>
    intro values parsed p hfits hv hp
    rw [parsePositional]
    cases values with
    | nil =>
      rw [List.nil_append] at hp
      rw [Argument.doParse_stop a _ (hp ▸ hs), pure_bind]
      simp
    | cons v values =>
      rw [List.cons_append] at hp
      rw [Argument.doParse_value a _ hp (hv v List.mem_cons_self), pure_bind]
      simp only [if_true]
      rw [ih values _ p.advance (Nat.le_of_succ_le_succ hfits) (fun w hw => hv w (List.mem_cons_of_mem _ hw))
        (by rw [p.rest_advance, hp, List.tail_cons])]
      simp [p.advance_skip]

/-! ## One item -/

/-- An entry of another name is passed over. -/
theorem OptionEntry.doParse_other {o : OptionEntry R} (u : OptionEntry.Unevaluated R) {p : ArgParser}
    {name : StringView} {toks : List StringView} (hp : p.rest = ("--".toList ++ name) :: toks) (h : o.name ≠ name) :
    (o.doParse u p : Run ε σ _) = pure (false, u, p) := by
  have hlength : ¬ ("--".toList ++ name).length < 2 := by simp
  unfold OptionEntry.doParse
  rw [currentToken_eq hp, pure_bind, if_neg hlength]
  simp [Ne.symm h]

/-- The named entry takes the whole item. -/
theorem Item.doParse {spec : Spec R} (item : Item spec) {p : ArgParser} {toks : List StringView} (hs : Stops toks)
    (hp : p.rest = item.tokens ++ toks) :
    (item.entry.doParse {} p : Run ε σ _) = pure (true, item.record, p.skip item.tokens.length) := by
  have hhead : p.rest = ("--".toList ++ item.entry.name) :: (item.values ++ toks) := hp
  have hlength : ¬ ("--".toList ++ item.entry.name).length < 2 := by simp
  have hname : ("--".toList ++ item.entry.name).drop 2 = item.entry.name := rfl
  unfold OptionEntry.doParse
  rw [currentToken_eq hhead, pure_bind, if_neg hlength, hname, if_neg (not_not_intro rfl)]
  rw [parseArguments_values _ hs item.entry.arguments item.values {} p.advance item.entry.trailing item.enough item.fits
    item.proper (by rw [p.rest_advance, hhead, List.tail_cons])]
  simp [p.advance_skip, Item.record, Item.tokens]

theorem parseAny_other {p : ArgParser} {name : StringView} {toks : List StringView} (u : OptionEntry.Unevaluated R)
    (hp : p.rest = ("--".toList ++ name) :: toks) :
    ∀ entries : List (OptionEntry R), (∀ o ∈ entries, o.name ≠ name) →
      (parseAny entries u p : Run ε σ _) = pure (false, u, p) := by
  intro entries
  induction entries with
  | nil => intro _; rfl
  | cons o entries ih =>
    intro h
    rw [parseAny, OptionEntry.doParse_other u hp (h o List.mem_cons_self), pure_bind]
    exact ih fun o' ho' => h o' (List.mem_cons_of_mem _ ho')

/-- Among entries of distinct names the item's own is found. -/
theorem Item.parseAny {spec : Spec R} (item : Item spec) {p : ArgParser} {toks : List StringView} (hs : Stops toks)
    (hp : p.rest = item.tokens ++ toks) :
    ∀ entries : List (OptionEntry R), item.entry ∈ entries → (entries.map OptionEntry.name).Nodup →
      (Config.parseAny entries {} p : Run ε σ _) = pure (true, item.record, p.skip item.tokens.length) := by
  intro entries
  induction entries with
  | nil => intro hmem _; exact absurd hmem List.not_mem_nil
  | cons o entries ih =>
    intro hmem hnames
    rw [List.map_cons, List.nodup_cons] at hnames
    rw [Config.parseAny]
    rcases List.mem_cons.mp hmem with rfl | hmem
    · rw [item.doParse hs hp, pure_bind]
      rfl
    · have hne : o.name ≠ item.entry.name := fun h => hnames.1 (h ▸ List.mem_map_of_mem hmem)
      rw [OptionEntry.doParse_other {} hp hne, pure_bind]
      exact ih hmem hnames.2

theorem records_same {spec : Spec R} {item : Item spec} {kind : Kind} (h : item.kind = kind) :
    records kind [item] = [item.record] := by
  unfold records
  rw [List.filter_cons_of_pos (by simpa using h)]
  rfl

theorem records_other {spec : Spec R} {item : Item spec} {kind : Kind} (h : item.kind ≠ kind) :
    records kind [item] = [] := by
  unfold records
  rw [List.filter_cons_of_neg (by simpa using h)]
  rfl

/-- One turn of the loop at an item: a command runs, an option is recorded. -/
theorem turn_item {spec : Spec R} (target : Target R V O ε σ)
    (hnames : ((spec.commands ++ spec.options).map OptionEntry.name).Nodup) (item : Item spec) {p : ArgParser}
    {toks : List StringView} (hs : Stops toks) (hp : p.rest = item.tokens ++ toks)
    (opts : List (OptionEntry.Unevaluated R)) :
    turn spec target p opts = (do
      runOptions target none (records .command [item])
      pure (p.skip item.tokens.length, opts ++ records .option [item])) := by
  rw [List.map_append, List.nodup_append] at hnames
  obtain ⟨hcommands, hoptions, hdisjoint⟩ := hnames
  have hlisted := item.listed
  unfold turn
  cases hkind : item.kind with
  | command =>
    rw [hkind] at hlisted
    rw [item.parseAny hs hp spec.commands hlisted hcommands, records_same hkind,
      records_other (by rw [hkind]; decide)]
    simp only [pure_bind, bind_assoc, if_true, runOptions, List.append_nil]
  | option =>
    rw [hkind] at hlisted
    have hother : ∀ o ∈ spec.commands, o.name ≠ item.entry.name := fun o ho =>
      hdisjoint _ (List.mem_map_of_mem ho) _ (List.mem_map_of_mem hlisted)
    rw [parseAny_other {} hp spec.commands hother, pure_bind]
    simp only [Bool.false_eq_true, if_false]
    rw [item.parseAny hs hp spec.options hlisted hoptions, records_same hkind,
      records_other (by rw [hkind]; decide)]
    simp only [pure_bind, if_true, runOptions]

/-! ## The whole line -/

theorem runOptions_append (target : Target R V O ε σ) (object : Option O)
    (first rest : List (OptionEntry.Unevaluated R)) :
    runOptions target object (first ++ rest) = (do
      runOptions target object first
      runOptions target object rest) := by
  induction first with
  | nil => simp [runOptions]
  | cons option first ih => simp [runOptions, ih]

theorem records_cons {spec : Spec R} (kind : Kind) (item : Item spec) (items : List (Item spec)) :
    records kind (item :: items) = records kind [item] ++ records kind items := by
  unfold records
  rw [← List.map_append, ← List.filter_append]
  rfl

/-- The `while` loop over the items. -/
theorem parseOptions_items {spec : Spec R} (target : Target R V O ε σ)
    (hnames : ((spec.commands ++ spec.options).map OptionEntry.name).Nodup) :
    ∀ (items : List (Item spec)) (fuel : Nat) (p : ArgParser) (opts : List (OptionEntry.Unevaluated R)),
      p.rest = items.flatMap Item.tokens → items.length ≤ fuel →
      parseOptions spec target fuel p opts = (do
        runOptions target none (records .command items)
        pure (p.skip p.rest.length, opts ++ records .option items)) := by
  intro items
  induction items with
  | nil =>
    intro fuel p opts hp _
    rw [List.flatMap_nil] at hp
    have hvalid : p.valid = false := by simp [p.valid_eq, hp]
    cases fuel <;> simp [parseOptions, hvalid, hp, records, runOptions]
  | cons item items ih =>
    intro fuel p opts hp hfuel
    obtain ⟨fuel, rfl⟩ : ∃ n, fuel = n + 1 := ⟨fuel - 1, by simp only [List.length_cons] at hfuel; omega⟩
    rw [List.flatMap_cons] at hp
    have hvalid : p.valid = true := by simp [p.valid_eq, hp, Item.tokens]
    have hrest : (p.skip item.tokens.length).rest = items.flatMap Item.tokens := by simp [hp]
    rw [parseOptions, if_pos hvalid, turn_item target hnames item (stops_flatMap items) hp opts]
    simp only [bind_assoc, pure_bind]
    have hlength : p.rest.length = item.tokens.length + (p.skip item.tokens.length).rest.length := by
      rw [hrest, hp, List.length_append]
    rw [ih fuel _ _ hrest (Nat.le_of_succ_le_succ hfuel), records_cons .command item items, records_cons .option item items,
      runOptions_append, p.skip_skip, hlength]
    simp

/-- What `validate` lets pass has its optional arguments last. -/
theorem optionalTrail_of_validateArguments :
    ∀ (arguments : List (Argument R)) (has_optional : Bool) (flags : Bool × Bool),
      validateArguments arguments false has_optional = .ok flags →
      OptionalTrail arguments ∧ (has_optional = true → ∀ a ∈ arguments, a.is_optional = true) := by
  intro arguments
  induction arguments with
  | nil => intro _ _ _; exact ⟨List.Pairwise.nil, fun _ _ h => absurd h List.not_mem_nil⟩
  | cons a arguments ih =>
    intro has_optional flags h
    simp only [validateArguments, Argument.is_variadic, Bool.false_eq_true, if_false] at h
    cases ha : a.is_optional with
    | true =>
      simp only [ha, if_true] at h
      obtain ⟨htrail, hall⟩ := ih true flags h
      refine ⟨List.pairwise_cons.mpr ⟨fun b hb _ => hall rfl b hb, htrail⟩, fun _ b hb => ?_⟩
      rcases List.mem_cons.mp hb with rfl | hb
      · exact ha
      · exact hall rfl b hb
    | false =>
      cases has_optional with
      | true => simp [ha] at h
      | false =>
        simp only [ha, Bool.false_eq_true, if_false] at h
        obtain ⟨htrail, -⟩ := ih false flags h
        refine ⟨List.pairwise_cons.mpr ⟨fun b _ hb => ?_, htrail⟩, fun h => absurd h (by simp)⟩
        rw [ha] at hb
        exact absurd hb (by simp)

theorem Spec.optionalTrail {spec : Spec R} (h : spec.validate = .ok ()) : OptionalTrail spec.arguments := by
  unfold Spec.validate at h
  cases hflags : validateArguments spec.arguments false false with
  | error message => simp [hflags] at h
  | ok flags => exact (optionalTrail_of_validateArguments spec.arguments false flags hflags).1

/-- Enough positional values leave optional arguments only. -/
theorem requireOptional_drop :
    ∀ (arguments : List (Argument R)) (n : Nat), OptionalTrail arguments → required arguments ≤ n →
      (requireOptional (arguments.drop n) : Run ε σ Unit) = pure () := by
  intro arguments
  induction arguments with
  | nil => intro n _ _; rw [List.drop_nil]; rfl
  | cons a arguments ih =>
    intro n ht hn
    cases n with
    | zero =>
      rw [required_cons] at hn
      have ha : a.is_optional = true := by
        cases ha : a.is_optional with
        | true => rfl
        | false => simp [ha] at hn
      rw [List.drop_zero, requireOptional, if_pos ha]
      simpa using ih 0 (List.pairwise_cons.mp ht).2 (by omega)
    | succ n =>
      rw [List.drop_succ_cons]
      exact ih n (List.pairwise_cons.mp ht).2 (required_tail ht hn)

/-- The parser behind the whole line. -/
def CommandLine.behind {spec : Spec R} (line : CommandLine spec) : ArgParser where
  args := line.render
  cursor := line.render.length
  consumed := List.range line.render.length

theorem CommandLine.items_length {spec : Spec R} (line : CommandLine spec) : line.items.length ≤ line.render.length := by
  have h : ∀ items : List (Item spec), items.length ≤ (items.flatMap Item.tokens).length := by
    intro items
    induction items with
    | nil => exact Nat.le_refl 0
    | cons item items ih =>
      rw [List.flatMap_cons, List.length_append, Item.tokens, List.length_cons, List.length_cons]
      omega
  have := h line.items
  unfold CommandLine.render
  rw [List.length_cons, List.length_append]
  omega

/-- The parsing of a rendered line is the running of its commands. -/
theorem parseLine_render {spec : Spec R} (target : Target R V O ε σ)
    (hnames : ((spec.commands ++ spec.options).map OptionEntry.name).Nodup) (line : CommandLine spec) :
    parseLine spec target line.render = (do
      own (target.setName line.program)
      runOptions target none (records .command line.items)
      pure ⟨line.behind, line.given, records .option line.items⟩) := by
  let start : ArgParser := { args := line.render }
  let inner : ArgParser := start.advance.skip line.positionals.length
  have hstart : start.rest = line.program :: (line.positionals ++ line.items.flatMap Item.tokens) := rfl
  have hfirst : start.advance.rest = line.positionals ++ line.items.flatMap Item.tokens := by
    rw [start.rest_advance, hstart, List.tail_cons]
  have hinner : inner.rest = line.items.flatMap Item.tokens := by
    rw [start.advance.rest_skip, hfirst, List.drop_left]
  have hbehind : inner.skip inner.rest.length = line.behind := by
    have hlength : line.positionals.length + 1 + inner.rest.length = line.render.length := by
      rw [hinner, CommandLine.render, List.length_cons, List.length_append]
      omega
    show (start.advance.skip line.positionals.length).skip inner.rest.length = _
    rw [start.advance_skip, start.skip_skip, hlength]
    simp [ArgParser.skip, CommandLine.behind, start, List.range_eq_range']
  unfold parseLine
  change (currentToken start >>= _) = _
  rw [currentToken_eq hstart, pure_bind]
  congr 1
  funext _
  rw [parsePositional_values (stops_flatMap line.items) spec.arguments line.positionals [] start.advance line.fits
    line.proper hfirst, pure_bind]
  simp only
  rw [parseOptions_items target hnames line.items line.render.length inner [] hinner line.items_length, hbehind]
  simp [CommandLine.given]

theorem CommandLine.given_length {spec : Spec R} (line : CommandLine spec) :
    line.given.length = line.positionals.length := by
  have := line.fits
  unfold CommandLine.given
  rw [List.length_zipWith]
  omega

/-- The whole of `parse_args` on a rendered line is what its target does with what is recorded. -/
theorem parseArgs_eq {spec : Spec R} (target : Target R V O ε σ) (hvalid : spec.validate = .ok ())
    (hnames : ((spec.commands ++ spec.options).map OptionEntry.name).Nodup) (line : CommandLine spec) :
    parseArgs spec target line.render = (do
      own (target.setName line.program)
      runOptions target none (records .command line.items)
      let args_tuple ← callAll target line.given fun _ => none
      let object ← own (target.defaultConstruct args_tuple)
      runOptions target (some object) (records .option line.items)
      pure object) := by
  have hrequired : (requireOptional (spec.arguments.drop line.given.length) : Run ε σ Unit) = pure () := by
    rw [line.given_length]
    exact requireOptional_drop spec.arguments _ (Spec.optionalTrail hvalid) line.enough
  unfold parseArgs
  rw [parseLine_render target hnames line]
  simp only [bind_assoc, pure_bind, hrequired]

end Erl.Config
