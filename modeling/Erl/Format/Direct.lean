import Erl.Format.Numbering
import Mathlib.Data.List.Perm.Subperm

/-!
# Direct fields

The fields of a format string are numbered in order of first appearance, but the arguments
they stand for are passed to `std::format` in ascending order. The two agree exactly for
the format strings in which every argument appears first behind those before it.
-/

namespace Erl.Format
open Util FormatString FormatParser Firsts

variable {C : Classes} {arg_types : List C.Ty} {n : Nat} {u : List Nat} {l l' : Locals} {is : List Nat}

/-! ## Numbers -/

variable (C arg_types) in
/-- While they fit into an `int`, the numbers are those of first appearance. -/
theorem accumulate_numbers (table : Table n u l) (hempty : l.has_empty = false) (his : ∀ i ∈ is, i < n)
    (hfew : (addAll u (is.map (· % 2 ^ 32))).length ≤ 2 ^ 31) :
    ∃ l', accumulate (lookUp C arg_types) l (is.map Name.ofNat) =
        some (l', is.map fun i => .number ((addAll u (is.map (· % 2 ^ 32))).idxOf (i % 2 ^ 32))) ∧
      Table n (addAll u (is.map (· % 2 ^ 32))) l' ∧ l'.accessors = l.accessors ∧
      l'.has_positional = (l.has_positional || !is.isEmpty) := by
  induction is generalizing u l with
  | nil => exact ⟨l, rfl, table, rfl, by simp⟩
  | cons i is ih =>
    have hi : i % 2 ^ 32 < n := by
      have := his i List.mem_cons_self
      omega
    have hextends : add u (i % 2 ^ 32) <+: addAll u ((i :: is).map (· % 2 ^ 32)) := prefix_addAll _ _
    have htable : Table n u { l with has_positional := true } := table.of_direct rfl rfl
    obtain ⟨l₁, hindex, htable₁, honly⟩ := htable.byIndex hi (hextends.length_le.trans hfew)
    obtain ⟨l', hrest, htable', haccessors, hpositional⟩ :=
      ih htable₁ (honly.has_empty.trans hempty) (fun j hj => his j (List.mem_cons_of_mem i hj)) hfew
    refine ⟨l', ?_, htable', haccessors.trans honly.accessors, ?_⟩
    · rw [List.map_cons, List.map_cons, accumulate, lookUp_ofNat hempty, hindex]
      show (accumulate (lookUp C arg_types) l₁ (is.map Name.ofNat)).bind _ = _
      rw [hrest, idxOf_of_isPrefix (mem_add.mpr (.inr rfl)) hextends]
      rfl
    · rw [hpositional, honly.has_positional]
      simp

/-- Past the last `int`, there is a number that is none. -/
theorem accumulate_numbers_full (table : Table n u l) (hempty : l.has_empty = false) (his : ∀ i ∈ is, i < n)
    (hfull : 2 ^ 31 < (addAll u (is.map (· % 2 ^ 32))).length) {slots : List Slot}
    (h : accumulate (lookUp C arg_types) l (is.map Name.ofNat) = some (l', slots)) :
    .number (-2 ^ 31) ∈ slots := by
  induction is generalizing u l slots with
  | nil =>
    have hfew : u.length ≤ 2 ^ 31 := table.few
    have hlt : 2 ^ 31 < u.length := hfull
    omega
  | cons i is ih =>
    have hi : i % 2 ^ 32 < n := by
      have := his i List.mem_cons_self
      omega
    have htable : Table n u { l with has_positional := true } := table.of_direct rfl rfl
    obtain ⟨l₂, slot, rest, hslot, hrest, rfl⟩ := accumulate_cons_eq_some.mp h
    rw [lookUp_ofNat hempty] at hslot
    by_cases hfew : (add u (i % 2 ^ 32)).length ≤ 2 ^ 31
    · obtain ⟨l₁, hindex, htable₁, honly⟩ := htable.byIndex hi hfew
      rw [hindex] at hslot
      cases hslot
      exact List.mem_cons_of_mem _ (ih htable₁ (honly.has_empty.trans hempty)
        (fun j hj => his j (List.mem_cons_of_mem i hj)) hfull hrest)
    · obtain ⟨l₁, hindex⟩ := htable.byIndex_full hi (by omega)
      rw [hindex] at hslot
      cases hslot
      exact List.mem_cons_self

/-- Only direct fields so far, with indices an `unsigned` can hold. -/
structure OnlyLow (n : Nat) (l : Locals) : Prop where
  length : l.direct.length = n
  direct : ∀ x d, l.direct[x]? = some d → d ≠ -1 → x < 2 ^ 32
  accessors : l.accessors = []
  has_empty : l.has_empty = false

theorem OnlyLow.start (n : Nat) : OnlyLow n (.start n) where
  length := List.length_replicate
  direct := by
    intro x d h hd
    have hmem : d ∈ List.replicate n (-1 : Int) := List.mem_of_getElem? h
    exact absurd (List.eq_of_mem_replicate hmem) hd
  accessors := rfl
  has_empty := rfl

theorem OnlyLow.byIndex (h : OnlyLow n l) {index : Nat} (hindex : index < 2 ^ 32) {slot : Slot}
    (hl : Format.byIndex l index = .ok (l', slot)) : OnlyLow n l' ∧ l'.has_positional = l.has_positional := by
  unfold Format.byIndex at hl
  split at hl
  · cases hl
  · split at hl
    · cases hl
      refine ⟨⟨List.length_set.trans h.length, ?_, h.accessors, h.has_empty⟩, rfl⟩
      intro x d hx hd
      by_cases hxi : index = x
      · omega
      · have hx' : (l.direct.set index (toInt l.used))[x]? = some d := hx
        rw [List.getElem?_set_ne hxi] at hx'
        exact h.direct x d hx' hd
    · cases hl
      exact ⟨h, rfl⟩

theorem OnlyLow.accumulate (h : OnlyLow n l) {slots : List Slot}
    (hl : FormatString.accumulate (lookUp C arg_types) l (is.map Name.ofNat) = some (l', slots)) :
    OnlyLow n l' ∧ l'.has_positional = (l.has_positional || !is.isEmpty) := by
  induction is generalizing l slots with
  | nil =>
    cases hl
    exact ⟨h, by simp⟩
  | cons i is ih =>
    obtain ⟨l₁, slot, rest, hslot, hrest, rfl⟩ := accumulate_cons_eq_some.mp hl
    rw [lookUp_ofNat h.has_empty] at hslot
    have hpositional : OnlyLow n { l with has_positional := true } := ⟨h.length, h.direct, h.accessors, h.has_empty⟩
    cases hindex : Format.byIndex { l with has_positional := true } (i % 2 ^ 32) with
    | error refusal =>
      rw [hindex] at hslot
      cases hslot
    | ok x =>
      rw [hindex] at hslot
      cases hslot
      obtain ⟨hlow, hkept⟩ := hpositional.byIndex (Nat.mod_lt i (by omega)) hindex
      obtain ⟨hlow', hkept'⟩ := ih hlow hrest
      refine ⟨hlow', ?_⟩
      rw [hkept', hkept]
      simp

/-- There are at most as many of them as an `unsigned` has values. -/
theorem OnlyLow.directIndices_length (h : OnlyLow n l) (hpositional : l.has_positional = true) :
    (directIndices n l).length ≤ 2 ^ 32 := by
  unfold FormatParser.directIndices
  rw [if_pos hpositional]
  have hsubset : (List.range n).filter (fun x => l.direct[x]? ≠ some (-1)) ⊆ List.range (2 ^ 32) := by
    intro x hx
    obtain ⟨hx, hd⟩ := List.mem_filter.mp hx
    have hlt : x < l.direct.length := by
      rw [h.length]
      exact List.mem_range.mp hx
    rw [List.getElem?_eq_getElem hlt, decide_eq_true_iff] at hd
    exact List.mem_range.mpr (h.direct x _ (List.getElem?_eq_getElem hlt) (by simpa using hd))
  have hle := (List.Nodup.subperm (List.nodup_range.filter _) hsubset).length_le
  rwa [List.length_range] at hle

/-- The format string with indices for names. -/
def withNames (ps : List (Piece Nat)) : List (Piece Name) := ps.map (Piece.map Name.ofNat)

/-- Whatever the types of the `n` arguments are, `std::format` puts in argument `i` for
every field `i`. -/
def PrintsOwn (n : Nat) (ps : List (Piece Nat)) : Prop :=
  ∀ (C : Classes) (arg_types : List C.Ty) (location : SourceLocation), arg_types.length = n →
    ∃ t final renamed, parse C arg_types (FormatString.render (withNames ps)) location = .ok (t, final) ∧
      scan t.fmt = some renamed ∧
      ∀ args : List C.Obj, args.map C.typeOf = arg_types →
        substituted (t.passed C args) renamed = (names ps).map fun i => some args[i]?

/-- Every index appears first behind all lower ones; the numbers fit into their types. -/
structure InOrder (n : Nat) (is : List Nat) : Prop where
  ascending : (firsts is).Pairwise (· < ·)
  low : ∀ i ∈ is, i < 2 ^ 32
  few : (firsts is).length < 2 ^ 31
  none : is = [] → n % 2 ^ 32 ≠ 2 ^ 31

theorem names_of_numbers {offset : Int} {values : List Int} {ms : List Name}
    (h : List.Forall₂ (fun slot m => Slot.name offset slot = some m) (values.map .number) ms) :
    ms = values.map fun value => .ofNat (toUInt64 value).toNat := by
  induction values generalizing ms with
  | nil => exact List.forall₂_nil_left_iff.mp h
  | cons value values ih =>
    obtain ⟨m, rest, hm, hrest, rfl⟩ := List.forall₂_cons_left_iff.mp h
    rw [ih hrest, List.map_cons, ← Option.some.inj hm]

theorem numbers_named (offset : Int) (values : List Int) :
    List.Forall₂ (fun slot m => Slot.name offset slot = some m) (values.map .number)
      (values.map fun value => .ofNat (toUInt64 value).toNat) := by
  induction values with
  | nil => exact .nil
  | cons value values ih => exact .cons rfl ih

/-- A number stands for the argument at its position. -/
theorem substituted_numbers {α : Type} {values : List Int} {ps : List (Piece Name)} (passed : List α)
    (h : names ps = values.map fun value => .ofNat (toUInt64 value).toNat) :
    substituted passed ps = values.map fun value => passed[(toUInt64 value).toNat]? := by
  unfold substituted
  rw [h, List.map_map]
  apply List.map_congr_left
  intro value _
  show ((Name.ofNat _).toNat?).bind _ = _
  rw [Name.toNat?_ofNat, Option.bind_some]

/-! ## Agreement -/

section
variable {ps : List (Piece Nat)}

theorem names_withNames (ps : List (Piece Nat)) : names (withNames ps) = (names ps).map Name.ofNat := names_map _ ps

theorem map_mod {is : List Nat} (h : ∀ i ∈ is, i < 2 ^ 32) : is.map (· % 2 ^ 32) = is := by
  conv_rhs => rw [← List.map_id is]
  apply List.map_congr_left
  intro i hi
  exact Nat.mod_eq_of_lt (h i hi)

theorem toInt_sub_one {d : Nat} (h : d < 2 ^ 31) : checkedInt (toInt d - 1) = some ((d : Int) - 1) := by
  rw [toInt_eq h]
  exact checkedInt_eq (by omega)

/-- What a table in order passes. -/
theorem Table.directIndices_eq (table : Table n u l) (hpositional : l.has_positional = true)
    (hascending : u.Pairwise (· < ·)) : FormatParser.directIndices n l = u := by
  apply (table.perm_directIndices hpositional).eq_of_pairwise _ (directIndices_ascending n l) hascending
  intro a b _ _ hab hba
  omega

theorem printsOwn_of_inOrder (hopen : .escapedOpen ∉ ps) (his : ∀ i ∈ names ps, i < n) (h : InOrder n (names ps)) :
    PrintsOwn n ps := by
  intro C arg_types location hn
  have hmod : (names ps).map (· % 2 ^ 32) = names ps := map_mod h.low
  have hfirsts : addAll [] ((names ps).map (· % 2 ^ 32)) = firsts (names ps) := by
    rw [hmod]
    rfl
  have hfew := h.few
  obtain ⟨l, haccumulate, table, haccessors, hpositional⟩ := accumulate_numbers C arg_types
    (Table.start n) rfl his (by rw [hfirsts]; omega)
  rw [hfirsts] at haccumulate table
  have hdirect : names ps ≠ [] → FormatParser.directIndices n l = firsts (names ps) := by
    intro hne
    refine table.directIndices_eq ?_ h.ascending
    rw [hpositional]
    simp [hne]
  obtain ⟨offset, hoffset⟩ : ∃ offset, checkedInt (toInt (FormatParser.directIndices n l).length - 1) = some offset := by
    by_cases hne : names ps = []
    · have hunnamed : l.has_positional = false := by
        rw [hpositional, hne]
        rfl
      rw [directIndices_of_none hunnamed, List.length_range]
      refine ⟨_, checkedInt_eq ?_⟩
      have := h.none hne
      unfold toInt
      split <;> omega
    · rw [hdirect hne]
      exact ⟨_, toInt_sub_one hfew⟩
  subst hn
  rw [← names_withNames] at haccumulate
  have hvalues : ((names ps).map fun i => Slot.number ((firsts (names ps)).idxOf (i % 2 ^ 32))) =
      ((names ps).map fun i => (((firsts (names ps)).idxOf i : Nat) : Int)).map .number := by
    rw [List.map_map]
    apply List.map_congr_left
    intro i hi
    rw [Nat.mod_eq_of_lt (h.low i hi)]
    rfl
  rw [hvalues] at haccumulate
  obtain ⟨t, T, hl, hnames⟩ := exists_transforms haccumulate hoffset (numbers_named offset _)
  obtain ⟨final, hparse⟩ := parse_of_transforms (mt escapedOpen_mem_map.mp hopen) T
  refine ⟨t, final, T.renamed, hparse, T.scan, ?_⟩
  intro args _
  rw [substituted_numbers _ hnames, List.map_map]
  apply List.map_congr_left
  intro i hi
  have hmem : i ∈ firsts (names ps) := mem_firsts.mpr hi
  have hlt := List.idxOf_lt_length_of_mem hmem
  have hpassed : t.passed C args = (firsts (names ps)).map (args[·]?) := by
    unfold Transformed.passed
    rw [T.direct_list, T.accessors, hl, hdirect (List.ne_nil_of_mem hi), haccessors]
    exact List.append_nil _
  show (t.passed C args)[(toUInt64 ((firsts (names ps)).idxOf i : Nat)).toNat]? = _
  rw [toUInt64_natCast (by omega), hpassed, List.getElem?_map, List.getElem?_idxOf hmem]
  rfl

/-- Objects that are numbers, without subscripts, elements or members. -/
abbrev numbersOnly : Classes where
  Ty := Unit
  Obj := Nat
  typeOf _ := ()
  subscriptResult _ := none
  tupleElements _ := none
  members _ := []
  members_length _ := by decide
  subscript _ _ := none
  get _ _ := none
  member _ _ := none
  subscriptReturns _ := .part
  getReturns _ _ := .part
  memberReturns _ _ := .part
  typeOf_subscript h _ := by cases h
  typeOf_get h _ _ := by cases h
  typeOf_member h _ := by cases h

/-- The arguments `0, 1, …` and the numbers their fields got. -/
theorem PrintsOwn.passed (hown : PrintsOwn n ps) (hopen : .escapedOpen ∉ ps) :
    ∃ (arg_types : List numbersOnly.Ty) (t : Transformed) (T : Transforms numbersOnly arg_types (withNames ps) t),
      arg_types.length = n ∧
      substituted (t.passed numbersOnly (List.range n)) T.renamed = (names ps).map fun i => some (List.range n)[i]? := by
  have hlength : ((List.range n).map numbersOnly.typeOf).length = n := by rw [List.length_map, List.length_range]
  obtain ⟨t, final, renamed, hparse, hscan, hprints⟩ := hown numbersOnly _ {} hlength
  obtain ⟨⟨T⟩, -⟩ := parse_render (clear_of_notMem (mt escapedOpen_mem_map.mp hopen)) hparse
  obtain rfl : T.renamed = renamed := Option.some.inj (T.scan.symm.trans hscan)
  exact ⟨_, t, T, hlength, hprints (List.range n) rfl⟩

/-- The numbers of a format string that prints its own arguments fit into an `int`. -/
theorem PrintsOwn.few (hown : PrintsOwn n ps) (hopen : .escapedOpen ∉ ps) (his : ∀ i ∈ names ps, i < n) :
    (addAll [] ((names ps).map (· % 2 ^ 32))).length ≤ 2 ^ 31 := by
  by_contra hfull
  obtain ⟨arg_types, t, T, hn, hprints⟩ := hown.passed hopen
  have haccumulate := T.accumulated
  rw [names_withNames, hn] at haccumulate
  have hfirst := accumulate_numbers_full (Table.start n) rfl his (by omega) haccumulate
  obtain ⟨honly, hpositional⟩ := (OnlyLow.start n).accumulate haccumulate
  have hne : names ps ≠ [] := by
    intro hnil
    rw [hnil] at hfull
    exact hfull (Nat.zero_le _)
  have hlength : (t.passed numbersOnly (List.range n)).length ≤ 2 ^ 32 := by
    unfold Transformed.passed
    rw [T.direct_list, T.accessors, honly.accessors, hn, List.map_nil, List.append_nil, List.length_map]
    exact honly.directIndices_length (by rw [hpositional]; simp [hne])
  -- the number of the last index is behind all that is passed
  obtain ⟨m, hm, hname⟩ := exists_name (numbered_names T.numbers) hfirst
  have hmem : m.toNat?.bind ((t.passed numbersOnly (List.range n))[·]?) ∈ (names ps).map fun i => some (List.range n)[i]? := by
    rw [← hprints]
    exact List.mem_map_of_mem hm
  obtain ⟨i, -, hsome⟩ := List.mem_map.mp hmem
  obtain rfl : Name.ofNat (toUInt64 (-2 ^ 31)).toNat = m := Option.some.inj hname
  rw [Name.toNat?_ofNat, Option.bind_some] at hsome
  have hnumber : (toUInt64 (-2 ^ 31)).toNat = 2 ^ 64 - 2 ^ 31 := rfl
  have hnone : (t.passed numbersOnly (List.range n))[2 ^ 64 - 2 ^ 31]? = none := List.getElem?_eq_none (by omega)
  rw [hnumber, hnone] at hsome
  cases hsome

/-- Field `i` has the number of `i` in order of first appearance, and there `i` is passed. -/
theorem PrintsOwn.positions (hown : PrintsOwn n ps) (hopen : .escapedOpen ∉ ps) (his : ∀ i ∈ names ps, i < n)
    {v : List Nat} (hv : v = addAll [] ((names ps).map (· % 2 ^ 32))) :
    ∃ l, Table n v l ∧ l.has_positional = !(names ps).isEmpty ∧
      (∃ offset, checkedInt (toInt (directIndices n l).length - 1) = some offset) ∧
      ∀ i ∈ names ps, (directIndices n l)[v.idxOf (i % 2 ^ 32)]? = some i := by
  have hfew := hown.few hopen his
  obtain ⟨arg_types, t, T, hn, hprints⟩ := hown.passed hopen
  have haccumulate := T.accumulated
  rw [names_withNames, hn] at haccumulate
  obtain ⟨l, hnumbers, table, haccessors, hpositional⟩ := accumulate_numbers numbersOnly arg_types
    (Table.start n) rfl his hfew
  rw [← hv] at hfew hnumbers table
  obtain ⟨hl, hslots⟩ := Prod.mk.inj (Option.some.inj (haccumulate.symm.trans hnumbers))
  have hchecked := T.checked
  rw [hl, hn] at hchecked
  refine ⟨l, table, hpositional.trans (Bool.false_or _), ⟨_, hchecked⟩, ?_⟩
  have hpassed : t.passed numbersOnly (List.range n) = (directIndices n l).map ((List.range n)[·]?) := by
    unfold Transformed.passed
    rw [T.direct_list, T.accessors, hl, hn, haccessors]
    exact List.append_nil _
  have hvalues : names T.slots =
      ((names ps).map fun i => ((v.idxOf (i % 2 ^ 32) : Nat) : Int)).map .number := by
    rw [hslots, List.map_map]
    rfl
  have hnamed := numbered_names T.numbers
  rw [hvalues] at hnamed
  rw [substituted_numbers _ (names_of_numbers hnamed), List.map_map, hpassed] at hprints
  intro i hi
  have hnumber := List.map_inj_left.mp hprints i hi
  have hle := v.idxOf_le_length (a := i % 2 ^ 32)
  simp only [Function.comp_apply] at hnumber
  rw [toUInt64_natCast (by omega), List.getElem?_map] at hnumber
  obtain ⟨x, hx, hxi⟩ := Option.map_eq_some_iff.mp hnumber
  rw [List.getElem?_range (his i hi)] at hxi
  obtain ⟨hlt, hxi⟩ := List.getElem?_eq_some_iff.mp hxi
  rw [List.getElem_range] at hxi
  rw [hx, hxi]

theorem eq_of_positions {d v : List Nat} (hperm : d.Perm v) (hnodup : v.Nodup)
    (h : ∀ x ∈ v, d[v.idxOf x]? = some x) : d = v := by
  apply List.ext_getElem hperm.length_eq
  intro k hd hk
  have hx := h v[k] (List.getElem_mem hk)
  rw [hnodup.idxOf_getElem k hk, List.getElem?_eq_getElem hd] at hx
  exact Option.some.inj hx

/-- A field with an index from 2^32 on has the number of a lower one. -/
theorem low_of_positions {d : List Nat} (hperm : d.Perm (addAll [] (is.map (· % 2 ^ 32)))) {position : Nat → Nat}
    (hfield : ∀ i ∈ is, d[position i]? = some i) : ∀ i ∈ is, i < 2 ^ 32 := by
  intro i hi
  have hmem := hperm.mem_iff.mp (List.mem_of_getElem? (hfield i hi))
  rcases mem_addAll.mp hmem with hmem | hmem
  · cases hmem
  · obtain ⟨j, -, rfl⟩ := List.mem_map.mp hmem
    exact Nat.mod_lt j (by omega)

/-- Without fields all arguments are passed. -/
theorem inOrder_of_unnamed {offset : Int} (hchecked : checkedInt (toInt n - 1) = some offset) : InOrder n [] := by
  refine ⟨.nil, fun i hi => absurd hi List.not_mem_nil, Nat.two_pow_pos 31, fun _ hmod => ?_⟩
  have hint : toInt n = -2 ^ 31 := by
    unfold toInt
    split <;> omega
  rw [hint] at hchecked
  cases hchecked

theorem inOrder_of_printsOwn (hopen : .escapedOpen ∉ ps) (his : ∀ i ∈ names ps, i < n) (hown : PrintsOwn n ps) :
    InOrder n (names ps) := by
  obtain ⟨l, table, hpositional, ⟨offset, hchecked⟩, hfield⟩ := hown.positions hopen his rfl
  by_cases hne : names ps = []
  · rw [hne] at hpositional ⊢
    rw [directIndices_of_none hpositional, List.length_range] at hchecked
    exact inOrder_of_unnamed hchecked
  · have hpos : l.has_positional = true := by
      rw [hpositional]
      simp [hne]
    have hperm := table.perm_directIndices hpos
    have hlow := low_of_positions hperm hfield
    have hmod : (names ps).map (· % 2 ^ 32) = names ps := map_mod hlow
    have hfirsts : addAll [] ((names ps).map (· % 2 ^ 32)) = firsts (names ps) := congrArg (addAll []) hmod
    rw [hfirsts] at table hperm hfield
    have heq : directIndices n l = firsts (names ps) := by
      apply eq_of_positions hperm table.nodup
      intro x hx
      have hx' := mem_firsts.mp hx
      have hposition := hfield x hx'
      rwa [Nat.mod_eq_of_lt (hlow x hx')] at hposition
    have hsorted := directIndices_ascending n l
    rw [heq] at hsorted hchecked
    refine ⟨hsorted, hlow, ?_, fun h => absurd h hne⟩
    -- with exactly 2^31 of them, `direct_indices.size()` is no `int`
    have hfew := table.few
    by_contra hfull
    have hlength : (firsts (names ps)).length = 2 ^ 31 := by omega
    rw [hlength] at hchecked
    cases hchecked

/-- **Direct fields.** `std::format` puts in argument `i` for every field `i` exactly if the
indices appear first in ascending order (and the numbers fit into their types). -/
theorem printsOwn_iff (n : Nat) (ps : List (Piece Nat)) (hopen : .escapedOpen ∉ ps) (his : ∀ i ∈ names ps, i < n) :
    PrintsOwn n ps ↔ InOrder n (names ps) :=
  ⟨inOrder_of_printsOwn hopen his, printsOwn_of_inOrder hopen his⟩

end

/-- `{0:>{1}} {0}`. -/
def padded : List (Piece Nat) :=
  [.field 0 (some [.text ⟨'>', by decide⟩, .field 1]), .text ⟨' ', by decide⟩, .field 0 none]

theorem printsOwn_padded : PrintsOwn 2 padded :=
  (printsOwn_iff 2 padded (by decide) (by decide)).mpr
    ⟨by decide, by decide, by decide, fun h => absurd h (by decide)⟩

/-- `{1} {0}`. -/
def swapped : List (Piece Nat) := [.field 1 none, .text ⟨' ', by decide⟩, .field 0 none]

/-- `{1} {0}` is rendered as `{0} {1}` with the arguments in ascending order, so that the
two are printed in the wrong places. -/
theorem not_printsOwn_swapped :
    FormatString.render (withNames swapped) = "{1} {0}".toList ∧
    (∃ final, parse numbersOnly [(), ()] "{1} {0}".toList {} = .ok (⟨"{0} {1}".toList, [0, 1], []⟩, final)) ∧
    ¬ ∀ (n : Nat) (ps : List (Piece Nat)), .escapedOpen ∉ ps → .escapedClose ∉ ps → (∀ i ∈ names ps, i < n) →
      PrintsOwn n ps := by
  refine ⟨by decide, ⟨_, rfl⟩, fun h => ?_⟩
  have hown := h 2 swapped (by decide) (by decide) (by decide)
  have horder := inOrder_of_printsOwn (by decide) (by decide) hown
  exact absurd horder.ascending (by decide)

end Erl.Format
