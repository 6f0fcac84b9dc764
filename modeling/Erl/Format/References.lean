import Erl.Format.Numbering

/-!
# What the names refer to

A name is a direct index, an index with a path, or just a path. Going through the names of
a format string, `do_parse` numbers the direct indices and collects an accessor for every
path.
-/

namespace Erl.Format
open Util FormatString FormatParser Firsts

/-! ## References -/

/-- `{i}`, `{i.path}` and `{path}`; a path has at least one step, and does not begin with a
number if it stands alone. -/
inductive Reference where
  | direct (index : Nat)
  | accessor (index : Nat) (first : Step) (rest : List Step)
  | implicit (first : Identifier) (rest : List Step)

namespace Reference

/-- The index of a direct field. -/
def direct? : Reference → Option Nat
  | .direct index => some index
  | _ => none

/-- The argument and the path of an accessor field. -/
def path? : Reference → Option (Nat × List Step)
  | .direct _ => none
  | .accessor index first rest => some (index, first :: rest)
  | .implicit first rest => some (0, .identifier first :: rest)

/-- A reference as it is written. -/
def spell : Reference → StringView
  | .direct index => Nat.toDigits 10 index
  | .accessor index first rest => Nat.toDigits 10 index ++ '.' :: spellPath (first :: rest)
  | .implicit first rest => spellPath (.identifier first :: rest)

end Reference

theorem isNameChar_spell {step : Step} {c : Char} (h : c ∈ step.spell) : isNameChar c = true := by
  cases step with
  | number n => exact isNameChar_of_mem_toDigits h
  | identifier name => exact name.valid c h

theorem isNameChar_spellPath {path : List Step} {c : Char} (h : c ∈ spellPath path) : isNameChar c = true := by
  induction path with
  | nil => cases h
  | cons step path ih =>
    cases path with
    | nil =>
      have hstep : c ∈ step.spell := by simpa [spellPath] using h
      exact isNameChar_spell hstep
    | cons next path =>
      have hsplit : spellPath (step :: next :: path) = step.spell ++ '.' :: spellPath (next :: path) := by
        simp [spellPath, List.intercalate_cons_of_ne_nil]
      rw [hsplit, List.mem_append, List.mem_cons] at h
      rcases h with h | rfl | h
      · exact isNameChar_spell h
      · decide
      · exact ih h

theorem Reference.isNameChar_spell (r : Reference) : ∀ c ∈ r.spell, isNameChar c = true := by
  intro c h
  cases r with
  | direct index => exact isNameChar_of_mem_toDigits h
  | accessor index first rest =>
    rcases List.mem_append.mp h with h | h
    · exact isNameChar_of_mem_toDigits h
    · rcases List.mem_cons.mp h with rfl | h
      · decide
      · exact isNameChar_spellPath h
  | implicit first rest => exact isNameChar_spellPath h

/-- A field is direct, or it has a path. -/
theorem Reference.direct_or_path (r : Reference) :
    (∃ index, r = .direct index) ∨ ∃ x, r.direct? = none ∧ r.path? = some x := by
  cases r with
  | direct index => exact .inl ⟨index, rfl⟩
  | accessor index first rest => exact .inr ⟨_, rfl, rfl⟩
  | implicit first rest => exact .inr ⟨_, rfl, rfl⟩

/-- A reference as a name. -/
def Reference.name (r : Reference) : Name := ⟨r.spell, r.isNameChar_spell⟩

/-- The distinct arguments of the direct fields are numbered in this order. -/
def directs (rs : List Reference) : List Nat := rs.filterMap Reference.direct?

/-- The arguments and the paths of the accessor fields, from left to right. -/
def paths (rs : List Reference) : List (Nat × List Step) := rs.filterMap Reference.path?

theorem directs_path {r : Reference} (hr : r.direct? = none) (rs : List Reference) : directs (r :: rs) = directs rs :=
  List.filterMap_cons_none hr

theorem paths_path {r : Reference} {x : Nat × List Step} (hr : r.path? = some x) (rs : List Reference) :
    paths (r :: rs) = x :: paths rs := List.filterMap_cons_some hr

/-- Its numbers fit into the `unsigned` of `stou`. -/
def Reference.Fits (r : Reference) : Prop :=
  (∀ index ∈ r.direct?, index < 2 ^ 32) ∧ ∀ x ∈ r.path?, x.1 < 2 ^ 32 ∧ ∀ step ∈ x.2, step.Fits

instance (r : Reference) : Decidable r.Fits := inferInstanceAs (Decidable (_ ∧ _))

variable {C : Classes} {arg_types : List C.Ty} {n : Nat} {u : List Nat} {l l' : Locals} {slot : Slot}

theorem toOption_eq_some_iff {ε α : Type} {x : Except ε α} {a : α} : x.toOption = some a ↔ x = .ok a := by
  cases x <;> simp [Except.toOption]

theorem idxOf?_dot {s : StringView} (h : '.' ∉ s) (r : StringView) : (s ++ '.' :: r).idxOf? '.' = some s.length := by
  induction s with
  | nil => rfl
  | cons c s ih =>
    rw [List.mem_cons, not_or] at h
    rw [List.cons_append, List.idxOf?_cons, if_neg (by simpa using Ne.symm h.1), ih h.2]
    rfl

theorem lookUp_direct (hempty : l.has_empty = false) (index : Nat) :
    lookUp C arg_types l (Reference.direct index).name =
      (byIndex { l with has_positional := true } (index % 2 ^ 32)).toOption := lookUp_ofNat hempty index

/-- The digits in front of the first dot are the argument. -/
theorem lookUp_accessor (hempty : l.has_empty = false) (index : Nat) (first : Step) (rest : List Step) :
    lookUp C arg_types l (Reference.accessor index first rest).name =
      (byPath C arg_types { l with has_positional := true } (index % 2 ^ 32) (spellPath (first :: rest))).toOption := by
  have hspell : (Reference.accessor index first rest).name.chars =
      Nat.toDigits 10 index ++ '.' :: spellPath (first :: rest) := rfl
  have hdot := idxOf?_dot (dot_not_mem_spell (.number index)) (spellPath (first :: rest))
  have hstou := stou_toDigits index
  obtain ⟨d, ds, hdigits⟩ := List.exists_cons_of_ne_nil (Nat.toDigits_ne_nil (n := index) (b := 10))
  have hdigit : isDigit d = true := isDigit_of_mem_toDigits (by rw [hdigits]; exact List.mem_cons_self)
  have hminus : d ≠ '-' := by
    rintro rfl
    cases hdigit
  have hinteger : isInteger (d :: ds ++ '.' :: spellPath (first :: rest)) = false := by
    rw [List.cons_append, isInteger_cons _ hminus, hdigit, Bool.true_and, List.all_append, List.all_cons]
    simp [show isDigit '.' = false from rfl]
  rw [Step.spell, hdigits] at hdot
  rw [hdigits] at hspell hstou
  unfold lookUp resolve
  rw [hspell, if_neg (List.append_ne_nil_of_left_ne_nil (List.cons_ne_nil d ds) _), hempty, if_neg Bool.false_ne_true]
  simp only
  rw [hinteger, if_neg Bool.false_ne_true, hdot]
  simp only
  rw [if_pos (by simpa using hdigit), List.take_left, hstou, ← List.drop_drop, List.drop_left, List.drop_one]
  rfl

/-- A path alone belongs to the only argument. -/
theorem lookUp_implicit (hempty : l.has_empty = false) (first : Identifier) (rest : List Step) :
    lookUp C arg_types l (Reference.implicit first rest).name =
      (implicitField C arg_types { l with has_positional := true } (spellPath (.identifier first :: rest))).toOption := by
  obtain ⟨r, hr⟩ := spellPath_cons (.identifier first) rest
  have hspell : (Reference.implicit first rest).name.chars = first.chars ++ r := hr
  have hinteger := isInteger_identifier first r
  obtain ⟨c, cs, hchars, hdigit, -⟩ := first.head
  unfold lookUp resolve
  rw [hr, hspell, Step.spell, hchars]
  rw [hchars] at hinteger
  rw [if_neg (List.append_ne_nil_of_left_ne_nil (List.cons_ne_nil c cs) _), hempty, if_neg Bool.false_ne_true]
  simp only
  rw [hinteger, if_neg Bool.false_ne_true]
  split
  · rfl
  · rw [if_neg (by simp [hdigit])]

variable (C arg_types) in
/-- What a path reaches in any arguments of these types is there when its accessor has returned. -/
def ReachesLasting (x : Nat × List Step) : Prop :=
  ∀ args : List C.Obj, args.map C.typeOf = arg_types → ∀ obj ∈ args[x.1]?, Lasts C x.2 obj .lasting

variable (C arg_types) in
/-- An accessor reaches the value of a path. -/
def Resolves (x : Nat × List Step) (a : Accessor) : Prop :=
  ReachesLasting C arg_types x → ∀ args : List C.Obj, args.map C.typeOf = arg_types →
    args[a.index]?.bind (a.get C) = args[x.1]?.bind (evalPath C x.2)

theorem byPath_spec {index : Nat} {path : List Step} (hne : path ≠ []) (hfits : ∀ step ∈ path, step.Fits)
    (h : byPath C arg_types l index (spellPath path) = .ok (l', slot)) :
    ∃ a, l' = { l with accessors := l.accessors ++ [a] } ∧ slot = .accessor (l.accessors.length + 1) ∧
      Resolves C arg_types (index, path) a := by
  unfold byPath at h
  cases hbind : arg_types[index]?.bind (getAccessor C (spellPath path) index) with
  | none =>
    rw [hbind] at h
    cases h
  | some a =>
    rw [hbind] at h
    cases h
    obtain ⟨type, htype, haccessor⟩ := Option.bind_eq_some_iff.mp hbind
    obtain ⟨hindex, hget⟩ := getAccessor_spec hne hfits haccessor
    refine ⟨a, rfl, by rw [List.length_append, List.length_singleton], ?_⟩
    rintro hlasts args rfl
    rw [List.getElem?_map] at htype
    obtain ⟨obj, hobj, rfl⟩ := Option.map_eq_some_iff.mp htype
    show args[a.index]?.bind (a.get C) = args[index]?.bind (evalPath C path)
    rw [hindex, hobj]
    exact hget obj rfl (hlasts args rfl obj hobj)

/-- A path gets the next accessor. -/
theorem lookUp_path {r : Reference} {x : Nat × List Step} (hempty : l.has_empty = false) (hr : r.path? = some x)
    (hfits : r.Fits) (h : lookUp C arg_types l r.name = some (l', slot)) :
    ∃ a, l' = { l with has_positional := true, accessors := l.accessors ++ [a] } ∧
      slot = .accessor (l.accessors.length + 1) ∧ Resolves C arg_types x a := by
  obtain ⟨hindex, hsteps⟩ := hfits.2 x hr
  cases r with
  | direct index => cases hr
  | accessor index first rest =>
    cases hr
    rw [lookUp_accessor hempty, Nat.mod_eq_of_lt hindex, toOption_eq_some_iff] at h
    exact byPath_spec (List.cons_ne_nil first rest) hsteps h
  | implicit first rest =>
    cases hr
    rw [lookUp_implicit hempty, toOption_eq_some_iff] at h
    unfold implicitField at h
    split at h
    · cases h
    · exact byPath_spec (List.cons_ne_nil _ rest) hsteps h

/-- A direct index gets its number. -/
theorem Table.lookUp (table : Table n u l) (hempty : l.has_empty = false) {index : Nat}
    (hfits : (Reference.direct index).Fits) (hfew : (add u index).length ≤ 2 ^ 31)
    (h : FormatParser.lookUp C arg_types l (Reference.direct index).name = some (l', slot)) :
    slot = .number ((add u index).idxOf index) ∧ Table n (add u index) l' ∧
      OnlyDirect { l with has_positional := true } l' := by
  have hindex : index < 2 ^ 32 := hfits.1 index rfl
  have hstart : Table n u { l with has_positional := true } := table.of_direct rfl rfl
  rw [lookUp_direct hempty, Nat.mod_eq_of_lt hindex, toOption_eq_some_iff] at h
  have hlt : index < n := by
    rw [← hstart.length]
    by_contra hge
    unfold Format.byIndex at h
    rw [List.getElem?_eq_none (by omega)] at h
    cases h
  obtain ⟨l₁, hbyIndex, htable, honly⟩ := hstart.byIndex hlt hfew
  cases hbyIndex.symm.trans h
  exact ⟨rfl, htable, honly⟩

/-- What the fields get, if the accessor fields are counted from `j` on. -/
def fieldsFrom {α : Type} (direct accessor : Nat → α) : Nat → List Reference → List α
  | _, [] => []
  | j, r :: rs =>
    match r.direct? with
    | some index => direct index :: fieldsFrom direct accessor j rs
    | none => accessor j :: fieldsFrom direct accessor (j + 1) rs

theorem fieldsFrom_path {α : Type} {direct accessor : Nat → α} {j : Nat} {r : Reference} (hr : r.direct? = none)
    (rs : List Reference) :
    fieldsFrom direct accessor j (r :: rs) = accessor j :: fieldsFrom direct accessor (j + 1) rs := by
  rw [fieldsFrom, hr]

/-- **The names.** Direct indices are numbered in order of first appearance, and the `j`-th
path has the `j`-th accessor. -/
theorem accumulate_references {rs : List Reference} {slots : List Slot} (table : Table n u l)
    (hempty : l.has_empty = false) (hfits : ∀ r ∈ rs, r.Fits) (hfew : (addAll u (directs rs)).length ≤ 2 ^ 31)
    (h : accumulate (lookUp C arg_types) l (rs.map Reference.name) = some (l', slots)) :
    Table n (addAll u (directs rs)) l' ∧ l'.has_positional = (l.has_positional || !rs.isEmpty) ∧
      slots = fieldsFrom (fun index => .number ((addAll u (directs rs)).idxOf index)) (fun j => .accessor (j + 1))
        l.accessors.length rs ∧
      ∃ as, l'.accessors = l.accessors ++ as ∧ List.Forall₂ (Resolves C arg_types) (paths rs) as := by
  induction rs generalizing u l slots with
  | nil =>
    cases h
    exact ⟨table, by simp, rfl, [], (List.append_nil _).symm, .nil⟩
  | cons r rs ih =>
    obtain ⟨l₁, slot, rest, hslot, hrest, rfl⟩ := accumulate_cons_eq_some.mp h
    have hfit := hfits r List.mem_cons_self
    have hfits' : ∀ r ∈ rs, r.Fits := fun r hr => hfits r (List.mem_cons_of_mem _ hr)
    rcases r.direct_or_path with ⟨index, rfl⟩ | ⟨x, hdirect, hr⟩
    · have hextends : add u index <+: addAll u (directs (.direct index :: rs)) := prefix_addAll _ _
      obtain ⟨rfl, htable, honly⟩ := table.lookUp hempty hfit (hextends.length_le.trans hfew) hslot
      obtain ⟨htable', hpositional, rfl, hpaths⟩ := ih htable (honly.has_empty.trans hempty) hfits' hfew hrest
      refine ⟨htable', ?_, ?_, ?_⟩
      · rw [hpositional, honly.has_positional]
        simp
      · rw [honly.accessors, ← idxOf_of_isPrefix (mem_add.mpr (.inr rfl)) hextends]
        rfl
      · rwa [honly.accessors] at hpaths
    · obtain ⟨a, rfl, rfl, hresolves⟩ := lookUp_path hempty hr hfit hslot
      rw [directs_path hdirect] at hfew ⊢
      obtain ⟨htable', hpositional, rfl, as, has, hall⟩ :=
        ih (l := { l with has_positional := true, accessors := l.accessors ++ [a] }) (table.of_direct rfl rfl) hempty
          hfits' hfew hrest
      refine ⟨htable', ?_, ?_, a :: as, ?_, ?_⟩
      · rw [hpositional]
        simp
      · rw [fieldsFrom_path hdirect, List.length_append, List.length_singleton]
      · rw [has, List.append_assoc]
        rfl
      · rw [paths_path hr]
        exact .cons hresolves hall

end Erl.Format
