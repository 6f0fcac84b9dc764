import Erl.Format.Direct
import Erl.Format.References

/-!
# Accessor fields

The accessors are numbered behind the direct arguments, in the order of their fields, and
reach the values of their paths. The text around the names stays as it is.
-/

namespace Erl.Format
open Util FormatString FormatParser Firsts

variable {C : Classes} {arg_types : List C.Ty} {location : SourceLocation} {n : Nat} {l l' : Locals}
  {rs : List Reference} {ps : List (Piece Reference)} {t : Transformed} {final : FormatParser}

/-- Escapes come in pairs `{{t}}`, without brackets in between; `inside` tells whether one is
open. -/
def balancedFrom {ν : Type} : Bool → List (Piece ν) → Bool
  | inside, [] => !inside
  | false, .escapedOpen :: ps => balancedFrom true ps
  | false, .escapedClose :: _ => false
  | false, _ :: ps => balancedFrom false ps
  | true, .text c :: ps => bracket c.char = 0 && balancedFrom true ps
  | true, .escapedClose :: ps => balancedFrom false ps
  | true, _ :: _ => false

def Balanced {ν : Type} (ps : List (Piece ν)) : Prop := balancedFrom false ps = true

/-- The skip behind the first of a pair is over with the second. -/
theorem clear_of_balancedFrom {ν : Type} {inside : Bool} {ps : List (Piece ν)} (h : balancedFrom inside ps = true) :
    clearFrom (if inside then some 1 else none) ps = true := by
  induction ps generalizing inside with
  | nil => cases inside <;> rfl
  | cons piece ps ih =>
    cases inside with
    | false =>
      cases piece with
      | text c => exact ih h
      | escapedOpen =>
        have hrest : balancedFrom true ps = true := h
        exact ih hrest
      | escapedClose => cases h
      | field name spec => exact ih h
    | true =>
      cases piece with
      | text c =>
        obtain ⟨hbracket, hrest⟩ := (Bool.and_eq_true _ _).mp h
        show clearFrom (some (1 + bracket c.char)) ps = true
        rw [of_decide_eq_true hbracket]
        exact ih hrest
      | escapedOpen => cases h
      | escapedClose =>
        have hrest : balancedFrom false ps = true := h
        exact ih hrest
      | field name spec => cases h

theorem Balanced.clear {ν : Type} {ps : List (Piece ν)} (h : Balanced ps) : Clear ps := clear_of_balancedFrom h

theorem clearFrom_map {ν μ : Type} (f : ν → μ) (mode : Option Int) (ps : List (Piece ν)) :
    clearFrom mode (ps.map (Piece.map f)) = clearFrom mode ps := by
  induction ps generalizing mode with
  | nil => cases mode <;> rfl
  | cons piece ps ih =>
    cases mode with
    | none => cases piece <;> exact ih _
    | some count =>
      cases piece with
      | escapedClose =>
        show (if count = 0 ∨ count = 1 then clearFrom none _ else clearFrom (some (count - 2)) _) = _
        rw [ih, ih]
        rfl
      | field name spec => rfl
      | _ => exact ih _

/-- What stands at the accessor fields. -/
def atPaths {α : Type} (rs : List Reference) (xs : List α) : List α :=
  (rs.zip xs).filterMap fun x => x.1.path?.map fun _ => x.2

theorem atPaths_fieldsFrom {α : Type} (direct accessor : Nat → α) (j : Nat) (rs : List Reference) :
    atPaths rs (fieldsFrom direct accessor j rs) = (List.range' j (paths rs).length).map accessor := by
  induction rs generalizing j with
  | nil => rfl
  | cons r rs ih =>
    rcases r.direct_or_path with ⟨index, rfl⟩ | ⟨x, hdirect, hr⟩
    · exact ih j
    · have hhead : atPaths (r :: rs) (accessor j :: fieldsFrom direct accessor (j + 1) rs) =
          accessor j :: atPaths rs (fieldsFrom direct accessor (j + 1) rs) :=
        List.filterMap_cons_some (by rw [hr]; rfl)
      rw [fieldsFrom_path hdirect, hhead, ih, paths_path hr]
      rfl

theorem mem_fieldsFrom {α : Type} {direct accessor : Nat → α} {j : Nat} {x : α}
    (h : x ∈ fieldsFrom direct accessor j rs) :
    (∃ index ∈ directs rs, x = direct index) ∨ ∃ k < (paths rs).length, x = accessor (j + k) := by
  induction rs generalizing j with
  | nil => cases h
  | cons r rs ih =>
    rcases r.direct_or_path with ⟨index, rfl⟩ | ⟨p, hdirect, hr⟩
    · rcases List.mem_cons.mp h with rfl | h
      · exact .inl ⟨index, List.mem_cons_self, rfl⟩
      · rcases ih h with ⟨i, hi, rfl⟩ | hk
        · exact .inl ⟨i, List.mem_cons_of_mem index hi, rfl⟩
        · exact .inr hk
    · rw [fieldsFrom_path hdirect] at h
      rw [directs_path hdirect, paths_path hr, List.length_cons]
      rcases List.mem_cons.mp h with rfl | h
      · exact .inr ⟨0, by omega, rfl⟩
      · rcases ih h with hi | ⟨k, hk, rfl⟩
        · exact .inl hi
        · exact .inr ⟨k + 1, by omega, by rw [Nat.add_assoc, Nat.add_comm 1 k]⟩

/-- What is related to what the fields get is known from what it is for each field. -/
theorem eq_fieldsFrom {α β : Type} {R : α → β → Prop} {direct accessor : Nat → α} {direct' accessor' : Nat → β} {j : Nat}
    {ys : List β} (hdirect : ∀ index ∈ directs rs, ∀ y, R (direct index) y → y = direct' index)
    (haccessor : ∀ k < (paths rs).length, ∀ y, R (accessor (j + k)) y → y = accessor' (j + k))
    (h : List.Forall₂ R (fieldsFrom direct accessor j rs) ys) : ys = fieldsFrom direct' accessor' j rs := by
  induction rs generalizing j ys with
  | nil => exact List.forall₂_nil_left_iff.mp h
  | cons r rs ih =>
    rcases r.direct_or_path with ⟨index, rfl⟩ | ⟨x, hnone, hr⟩
    · obtain ⟨y, ys, hy, hys, rfl⟩ := List.forall₂_cons_left_iff.mp h
      rw [hdirect index List.mem_cons_self y hy,
        ih (fun i hi => hdirect i (List.mem_cons_of_mem index hi)) haccessor hys]
      rfl
    · rw [directs_path hnone] at hdirect
      rw [paths_path hr, List.length_cons] at haccessor
      rw [fieldsFrom_path hnone] at h
      obtain ⟨y, ys, hy, hys, rfl⟩ := List.forall₂_cons_left_iff.mp h
      rw [haccessor 0 (by omega) y hy, fieldsFrom_path hnone, ih hdirect ?_ hys]
      · rfl
      · intro k hk y hy
        have hk' : j + 1 + k = j + (k + 1) := by omega
        rw [hk'] at hy ⊢
        exact haccessor (k + 1) (by omega) y hy

/-- The number of the direct arguments fits into an `int`. -/
theorem offset_eq {d : Nat} {offset : Int} (hd : d ≤ 2 ^ 31) (h : checkedInt (toInt d - 1) = some offset) :
    d < 2 ^ 31 ∧ offset = d - 1 := by
  by_cases hlt : d < 2 ^ 31
  · rw [toInt_sub_one hlt] at h
    exact ⟨hlt, (Option.some.inj h).symm⟩
  · obtain rfl : d = 2 ^ 31 := by omega
    cases h

/-- The number of an accessor, if it fits into an `int`. -/
theorem name_accessor {d j : Nat} {m : Name} (hfits : d + j < 2 ^ 31)
    (h : Slot.name ((d : Int) - 1) (.accessor (j + 1)) = some m) : m = .ofNat (d + j) := by
  have hvalue : checkedInt ((d : Int) - 1 + toInt (j + 1)) = some ((d + j : Nat) : Int) := by
    by_cases hlt : j + 1 < 2 ^ 31
    · rw [toInt_eq hlt]
      have hsum : (d : Int) - 1 + ((j + 1 : Nat) : Int) = ((d + j : Nat) : Int) := by omega
      rw [hsum]
      exact checkedInt_eq (by omega)
    · -- the last number of all, without direct arguments, is none
      obtain rfl : d = 0 := by omega
      obtain rfl : j = 2 ^ 31 - 1 := by omega
      cases h
  simp only [Slot.name] at h
  rw [hvalue, Option.map_some, Option.some.injEq] at h
  rw [← h, max_eq_left (by omega), toUInt64_natCast (by omega)]

/-! ## Values -/

/-- The values of the accessors. -/
theorem accessors_values {xs : List (Nat × List Step)} {as : List Accessor}
    (h : List.Forall₂ (Resolves C arg_types) xs as) (hlasting : ∀ x ∈ xs, ReachesLasting C arg_types x) {args : List C.Obj} (hargs : args.map C.typeOf = arg_types) :
    (as.map fun a => args[a.index]?.bind (a.get C)) = xs.map fun x => args[x.1]?.bind (evalPath C x.2) := by
  induction h with
  | nil => rfl
  | cons hresolves _ ih =>
    rw [List.map_cons, List.map_cons, hresolves (hlasting _ List.mem_cons_self) args hargs,
      ih fun x hx => hlasting x (List.mem_cons_of_mem _ hx)]

/-- The format string with its references spelled out. -/
def spelled (ps : List (Piece Reference)) : List (Piece Name) := ps.map (Piece.map Reference.name)

/-- The number of distinct direct arguments. -/
def directCount (ps : List (Piece Reference)) : Nat := (firsts (directs (names ps))).length

/-- The number of accessor fields. -/
def accessorCount (ps : List (Piece Reference)) : Nat := (paths (names ps)).length

variable (C arg_types) in
/-- Only the names are replaced, and by numbers of arguments that are passed; the accessor
fields are numbered behind the direct arguments, where the values of their paths are passed. -/
structure Resolved (ps : List (Piece Reference)) (t : Transformed) (renamed : List (Piece Name)) : Prop where
  fmt : t.fmt = FormatString.render renamed
  shape : shape renamed = shape ps
  numbers : ∀ m ∈ names renamed, ∃ k < directCount ps + accessorCount ps, m = .ofNat k
  accessors : atPaths (names ps) (names renamed) =
    (List.range (accessorCount ps)).map fun j => .ofNat (directCount ps + j)
  passed : ∀ args : List C.Obj, args.map C.typeOf = arg_types → ∀ j x, (paths (names ps))[j]? = some x →
    (t.passed C args)[directCount ps + j]? = some (args[x.1]?.bind (evalPath C x.2))

/-- What a transformation makes of the references, while the numbers fit into an `int`. -/
theorem Transforms.references (T : Transforms C arg_types (spelled ps) t) (hpositional : names ps ≠ [])
    (hfits : ∀ r ∈ names ps, r.Fits) (hfew : directCount ps + accessorCount ps ≤ 2 ^ 31) :
    names T.renamed = fieldsFrom (fun index => .ofNat ((firsts (directs (names ps))).idxOf index))
        (fun j => .ofNat (directCount ps + j)) 0 (names ps) ∧
      t.direct_list.length = directCount ps ∧ List.Forall₂ (Resolves C arg_types) (paths (names ps)) t.accessors := by
  have haccumulate := T.accumulated
  have hnames : names (spelled ps) = (names ps).map Reference.name := names_map _ ps
  rw [hnames] at haccumulate
  have hdirects : (firsts (directs (names ps))).length ≤ 2 ^ 31 := Nat.le_trans (Nat.le_add_right _ _) hfew
  obtain ⟨table, hpos, hslots, as, has, hresolves⟩ :=
    accumulate_references (Table.start arg_types.length) rfl hfits hdirects haccumulate
  have hpos' : T.l.has_positional = true := by
    rw [hpos]
    simp [hpositional]
  have hlength : (directIndices arg_types.length T.l).length = directCount ps :=
    (table.perm_directIndices hpos').length_eq
  have hchecked := T.checked
  rw [hlength] at hchecked
  obtain ⟨hlt, hoffset⟩ := offset_eq hdirects hchecked
  change names T.slots = fieldsFrom (fun index => .number ((firsts (directs (names ps))).idxOf index)) _ 0 _ at hslots
  have hnumbered := numbered_names T.numbers
  rw [hslots, hoffset] at hnumbered
  refine ⟨?_, by rw [T.direct_list, hlength], by rw [T.accessors, has]; exact hresolves⟩
  apply eq_fieldsFrom _ _ hnumbered
  · intro index hindex m hm
    have hle := List.idxOf_lt_length_of_mem (mem_firsts.mpr hindex)
    rw [← Option.some.inj hm]
    exact congrArg Name.ofNat (toUInt64_natCast (by omega))
  · intro k hk m hm
    rw [Nat.zero_add] at hm ⊢
    exact name_accessor (by unfold accessorCount at hfew; omega) hm

/-- **Accessor fields.** In an accepted format string with positional fields the accessor
fields get the values of their paths, and nothing but the names is replaced, if the numbers
in the names fit into an `unsigned` and the new ones into an `int`, and if what the paths
reach outlasts the accessor. -/
theorem resolved (hbalanced : Balanced ps) (hpositional : names ps ≠ []) (hfits : ∀ r ∈ names ps, r.Fits)
    (hfew : directCount ps + accessorCount ps ≤ 2 ^ 31)
    (hlasting : ∀ x ∈ paths (names ps), ReachesLasting C arg_types x)
    (hok : parse C arg_types (FormatString.render (spelled ps)) location = .ok (t, final)) :
    ∃ renamed, Resolved C arg_types ps t renamed := by
  have hclear : Clear (spelled ps) := (clearFrom_map _ _ ps).trans hbalanced.clear
  obtain ⟨⟨T⟩, -⟩ := parse_render hclear hok
  obtain ⟨hrenamed, hlength, hresolves⟩ := T.references hpositional hfits hfew
  refine ⟨T.renamed, T.fmt, T.shape_eq.trans (shape_map _ ps), ?_, ?_, ?_⟩
  · intro m hm
    rw [hrenamed] at hm
    rcases mem_fieldsFrom hm with ⟨index, hindex, rfl⟩ | ⟨k, hk, rfl⟩
    · have hlt : _ < directCount ps := List.idxOf_lt_length_of_mem (mem_firsts.mpr hindex)
      exact ⟨_, by omega, rfl⟩
    · exact ⟨_, by unfold accessorCount; omega, rfl⟩
  · rw [hrenamed, atPaths_fieldsFrom, ← List.range_eq_range']
    rfl
  · intro args hargs j x hx
    unfold Transformed.passed
    rw [List.getElem?_append_right (by rw [List.length_map]; omega), List.length_map, hlength,
      Nat.add_sub_cancel_left, accessors_values hresolves hlasting hargs, List.getElem?_map, hx]
    rfl

/-- The objects of `example/format.cpp`: numbers, vectors of numbers, and points with both. -/
inductive Thing where
  | number (n : Nat)
  | vector (xs : List Nat)
  | point (x : Nat) (zoinks : List Nat)

inductive ThingType where
  | number
  | vector
  | point
deriving DecidableEq

abbrev things : Classes where
  Ty := ThingType
  Obj := Thing
  typeOf
    | .number _ => .number
    | .vector _ => .vector
    | .point _ _ => .point
  subscriptResult t := if t = .vector then some .number else none
  tupleElements _ := none
  members t := if t = .point then [(some ['x'], .number), (some "zoinks".toList, .vector)] else []
  members_length t := by cases t <;> decide
  subscript
    | .vector xs, n => xs[n]?.map .number
    | _, _ => none
  get _ _ := none
  member
    | .point x _, 0 => some (.number x)
    | .point _ zoinks, 1 => some (.vector zoinks)
    | _, _ => none
  subscriptReturns _ := .part
  getReturns _ _ := .part
  memberReturns _ _ := .part
  typeOf_subscript := by
    rintro (n | xs | ⟨x, zoinks⟩) n o t h happly
    · cases h
    · cases h
      obtain ⟨y, -, rfl⟩ := Option.map_eq_some_iff.mp happly
      rfl
    · cases h
  typeOf_get h _ _ := by cases h
  typeOf_member := by
    rintro (n | xs | ⟨x, zoinks⟩) n o m h happly
    · cases h
    · cases h
    · match n, h, happly with
      | 0, h, happly =>
        cases h
        cases happly
        rfl
      | 1, h, happly =>
        cases h
        cases happly
        rfl

/-- `{1.zoinks.0}-{{t}}-{0:<{1.x}}`. -/
def zoinks : List (Piece Reference) :=
  [.field (.accessor 1 (.identifier ⟨"zoinks".toList, ⟨_, _, rfl, rfl, by decide⟩, by decide, List.all_eq_true.mp rfl⟩)
      [.number 0]) none,
    .text ⟨'-', by decide⟩, .escapedOpen, .text ⟨'t', by decide⟩, .escapedClose, .text ⟨'-', by decide⟩,
    .field (.direct 0) (some [.text ⟨'<', by decide⟩,
      .field (.accessor 1 (.identifier ⟨['x'], ⟨_, _, rfl, rfl, by decide⟩, by decide, List.all_eq_true.mp rfl⟩) [])])]

theorem resolved_zoinks :
    FormatString.render (spelled zoinks) = "{1.zoinks.0}-{{t}}-{0:<{1.x}}".toList ∧
    ∃ t final, parse things [.number, .point] (FormatString.render (spelled zoinks)) {} = .ok (t, final) ∧
      t.fmt = "{1}-{{t}}-{0:<{2}}".toList ∧ ∃ renamed, Resolved things [.number, .point] zoinks t renamed := by
  refine ⟨rfl, ?_⟩
  obtain ⟨t, final, hok, hfmt⟩ : ∃ t final, parse things [.number, .point] (FormatString.render (spelled zoinks)) {} =
      .ok (t, final) ∧ t.fmt = "{1}-{{t}}-{0:<{2}}".toList := ⟨_, _, rfl, rfl⟩
  have hlasting : ∀ x ∈ paths (names zoinks), ReachesLasting things [.number, .point] x := fun x _ _ _ obj _ =>
    lasts_of_part (fun _ => rfl) (fun _ _ => rfl) (fun _ _ => rfl) x.2 obj
  exact ⟨t, final, hok, hfmt, resolved rfl (List.cons_ne_nil _ _) (by decide) (by decide) hlasting hok⟩

/-! ## Limits -/

/-- Objects whose subscripts are the indices, returned by reference. -/
abbrev echo : Classes := { numbersOnly with
  subscriptResult := fun _ => some ()
  subscript := fun _ n => some n
  typeOf_subscript := fun _ _ => rfl }

/-- `{0.n}`. -/
def subscripted (n : Nat) : Reference := .accessor 0 (.number n) []

/-- The references as the fields of a format string. -/
def fields (rs : List Reference) : List (Piece Reference) := rs.map fun r => .field r none

theorem names_fields (rs : List Reference) : names (fields rs) = rs := by
  induction rs with
  | nil => rfl
  | cons r rs ih => exact congrArg (r :: ·) ih

theorem balanced_fields (rs : List Reference) : Balanced (fields rs) := by
  unfold Balanced
  induction rs with
  | nil => rfl
  | cons r rs ih => exact ih

theorem escapedOpen_not_mem_fields (rs : List Reference) : .escapedOpen ∉ spelled (fields rs) := by
  unfold spelled
  rw [escapedOpen_mem_map]
  intro hmem
  obtain ⟨r, -, heq⟩ := List.mem_map.mp hmem
  cases heq

/-- `{0}` with `m` fields `{0.0}` behind it. -/
def crowd (m : Nat) : List Reference := .direct 0 :: List.replicate m (subscripted 0)

theorem directs_crowd (m : Nat) : directs (crowd m) = [0] := by
  have hnone : (subscripted 0).direct? = none := rfl
  have hcons : directs (crowd m) = 0 :: (List.replicate m (subscripted 0)).filterMap Reference.direct? := rfl
  rw [hcons, List.filterMap_replicate_of_none hnone]

theorem length_paths_crowd (m : Nat) : (paths (crowd m)).length = m := by
  have hsome : (subscripted 0).path? = some (0, [.number 0]) := rfl
  have hcons : paths (crowd m) = (List.replicate m (subscripted 0)).filterMap Reference.path? := rfl
  rw [hcons, List.filterMap_replicate_of_some hsome, List.length_replicate]

/-- Every one of the fields gets the next accessor. -/
theorem accumulate_crowd (hempty : l.has_empty = false) (hpositional : l.has_positional = true) (m : Nat) :
    ∃ l', accumulate (lookUp echo [()]) l ((List.replicate m (subscripted 0)).map Reference.name) =
        some (l', fieldsFrom (fun _ => .number 0) (fun j => .accessor (j + 1)) l.accessors.length
          (List.replicate m (subscripted 0))) ∧
      l'.direct = l.direct ∧ l'.has_positional = true := by
  induction m generalizing l with
  | zero => exact ⟨l, rfl, rfl, hpositional⟩
  | succ m ih =>
    have hslot : lookUp echo [()] l (subscripted 0).name =
        some ({ l with has_positional := true, accessors := l.accessors ++ [⟨0, [.subscript 0]⟩] },
          .accessor (l.accessors.length + 1)) := by
      have hlength : (l.accessors ++ [Accessor.mk 0 [.subscript 0]]).length = l.accessors.length + 1 := by simp
      rw [subscripted, lookUp_accessor hempty, ← hlength]
      rfl
    obtain ⟨l', hrest, hdirect, hpositional'⟩ :=
      ih (l := { l with has_positional := true, accessors := l.accessors ++ [⟨0, [.subscript 0]⟩] }) hempty rfl
    refine ⟨l', ?_, hdirect, hpositional'⟩
    rw [List.replicate_succ, List.map_cons, accumulate_cons_eq_some]
    refine ⟨_, _, _, hslot, hrest, ?_⟩
    rw [fieldsFrom_path rfl, List.length_append, List.length_singleton]

theorem forall₂_fieldsFrom {α β : Type} {R : α → β → Prop} {direct accessor : Nat → α} {direct' accessor' : Nat → β}
    (hdirect : ∀ index, R (direct index) (direct' index)) (haccessor : ∀ j, R (accessor j) (accessor' j)) (j : Nat)
    (rs : List Reference) : List.Forall₂ R (fieldsFrom direct accessor j rs) (fieldsFrom direct' accessor' j rs) := by
  induction rs generalizing j with
  | nil => exact .nil
  | cons r rs ih =>
    rcases r.direct_or_path with ⟨index, rfl⟩ | ⟨x, hnone, -⟩
    · exact .cons (hdirect index) (ih j)
    · rw [fieldsFrom_path hnone, fieldsFrom_path hnone]
      exact .cons (haccessor j) (ih (j + 1))

theorem toInt_range (k : Nat) : -2 ^ 31 ≤ toInt k ∧ toInt k < 2 ^ 31 := by
  unfold toInt
  split <;> omega

/-- With one direct argument every number of accessors is accepted; the numbers that do not
fit into an `int` are clamped. -/
theorem parse_crowd (m : Nat) :
    ∃ t final renamed, parse echo [()] (FormatString.render (spelled (fields (crowd m)))) {} = .ok (t, final) ∧
      scan t.fmt = some renamed ∧
      atPaths (crowd m) (names renamed) =
        (List.range m).map fun j => .ofNat (toUInt64 (max (toInt (j + 1)) 0)).toNat := by
  have hfirst : lookUp echo [()] (.start 1) (Reference.direct 0).name =
      some ({ direct := [0], used := 1, has_positional := true }, .number 0) := rfl
  obtain ⟨l', hrest, hdirect, hpositional⟩ :=
    accumulate_crowd (l := { direct := [0], used := 1, has_positional := true }) rfl rfl m
  have haccumulate : accumulate (lookUp echo [()]) (.start 1) (names (spelled (fields (crowd m)))) =
      some (l', fieldsFrom (fun _ => .number 0) (fun j => .accessor (j + 1)) 0 (crowd m)) := by
    unfold spelled
    rw [names_map, names_fields]
    exact accumulate_cons_eq_some.mpr ⟨_, _, _, hfirst, hrest, rfl⟩
  have hchecked : checkedInt (toInt (directIndices 1 l').length - 1) = some 0 := by
    unfold directIndices
    rw [if_pos hpositional, hdirect]
    rfl
  have hnames : List.Forall₂ (fun slot m => Slot.name 0 slot = some m)
      (fieldsFrom (fun _ => .number 0) (fun j => .accessor (j + 1)) 0 (crowd m))
      (fieldsFrom (fun _ => .ofNat 0) (fun j => .ofNat (toUInt64 (max (toInt (j + 1)) 0)).toNat) 0 (crowd m)) := by
    apply forall₂_fieldsFrom
    · intro _
      rfl
    · intro j
      simp only [Slot.name, Int.zero_add, checkedInt_eq (toInt_range (j + 1))]
      rfl
  obtain ⟨t, T, -, hrenamed⟩ := exists_transforms haccumulate hchecked hnames
  obtain ⟨final, hparse⟩ : ∃ final, parse echo [()] _ {} = .ok (t, final) :=
    parse_of_transforms (escapedOpen_not_mem_fields _) T
  refine ⟨t, final, T.renamed, hparse, T.scan, ?_⟩
  rw [hrenamed, atPaths_fieldsFrom, length_paths_crowd, List.range_eq_range']

/-- `int` has no number for the last of the fields, which gets the one of the direct argument. -/
theorem not_resolved_crowd : ∃ t final,
    parse echo [()] (FormatString.render (spelled (fields (crowd (2 ^ 31))))) {} = .ok (t, final) ∧
      ¬ ∃ renamed, Resolved echo [()] (fields (crowd (2 ^ 31))) t renamed := by
  have hcount : ∀ m, directCount (fields (crowd m)) = 1 ∧ accessorCount (fields (crowd m)) = m := by
    intro m
    unfold directCount accessorCount
    rw [names_fields, directs_crowd, length_paths_crowd]
    exact ⟨rfl, rfl⟩
  generalize hm : 2 ^ 31 = m
  obtain ⟨t, final, renamed, hok, hscan, hclamped⟩ := parse_crowd m
  refine ⟨t, final, hok, ?_⟩
  rintro ⟨renamed', hresolved⟩
  obtain rfl : renamed = renamed' := by
    rw [hresolved.fmt, scan_render] at hscan
    exact (Option.some.inj hscan).symm
  have haccessors := hresolved.accessors
  rw [names_fields, hclamped, (hcount m).1, (hcount m).2, List.map_inj_left] at haccessors
  have hlast := haccessors (m - 1) (List.mem_range.mpr (by omega))
  have hmax : max (toInt (m - 1 + 1)) 0 = 0 := by
    rw [← hm]
    rfl
  rw [hmax] at hlast
  have hnumber := congrArg Name.toNat? hlast
  rw [Name.toNat?_ofNat, Name.toNat?_ofNat, Option.some.injEq] at hnumber
  have hzero : (toUInt64 0).toNat = 0 := rfl
  omega

/-- In `{0.4294967296}` the number is cut to 32 bits by `stou`, and the accessor reaches
another value. -/
theorem not_resolved_cut : ∃ t final,
    parse echo [()] (FormatString.render (spelled (fields [subscripted (2 ^ 32)]))) {} = .ok (t, final) ∧
      ¬ ∃ renamed, Resolved echo [()] (fields [subscripted (2 ^ 32)]) t renamed := by
  refine ⟨_, _, rfl, ?_⟩
  rintro ⟨renamed, hresolved⟩
  have hvalue := hresolved.passed [0] rfl 0 _ rfl
  have heq : (0 : Nat) = 2 ^ 32 := Option.some.inj (Option.some.inj hvalue)
  omega

/-- Objects whose subscripts are new objects, like those of `std::vector<bool>`. -/
abbrev proxies : Classes := { echo with subscriptReturns := fun _ => .value }

/-- In `{0.1}` the accessor returns a reference to such a subscript, which is gone. -/
theorem not_resolved_value : ∃ t final,
    parse proxies [()] (FormatString.render (spelled (fields [subscripted 1]))) {} = .ok (t, final) ∧
      ¬ ∃ renamed, Resolved proxies [()] (fields [subscripted 1]) t renamed := by
  refine ⟨_, _, rfl, ?_⟩
  rintro ⟨renamed, hresolved⟩
  have hvalue : some none = some (some 1) := hresolved.passed [0] rfl 0 _ rfl
  cases hvalue

/-- `{0.4294967296}` does not reach its value, and no condition of the main result can be left out. -/
theorem not_resolved :
    (¬ ∀ (C : Classes) (arg_types : List C.Ty) (location : SourceLocation) (ps : List (Piece Reference))
      (t : Transformed) (final : FormatParser), Balanced ps → names ps ≠ [] →
      parse C arg_types (FormatString.render (spelled ps)) location = .ok (t, final) →
      ∃ renamed, Resolved C arg_types ps t renamed) ∧
    FormatString.render (spelled (fields [subscripted (2 ^ 32)])) = "{0.4294967296}".toList ∧
    (∃ t final, parse echo [()] (FormatString.render (spelled (fields [subscripted (2 ^ 32)]))) {} = .ok (t, final) ∧
      ¬ ∃ renamed, Resolved echo [()] (fields [subscripted (2 ^ 32)]) t renamed) ∧
    (∃ t final, parse proxies [()] (FormatString.render (spelled (fields [subscripted 1]))) {} = .ok (t, final) ∧
      ¬ ∃ renamed, Resolved proxies [()] (fields [subscripted 1]) t renamed) ∧
    ∃ t final, parse echo [()] (FormatString.render (spelled (fields (crowd (2 ^ 31))))) {} = .ok (t, final) ∧
      ¬ ∃ renamed, Resolved echo [()] (fields (crowd (2 ^ 31))) t renamed := by
  refine ⟨?_, rfl, not_resolved_cut, not_resolved_value, not_resolved_crowd⟩
  intro h
  obtain ⟨t, final, hok, hnot⟩ := not_resolved_cut
  refine hnot (h echo [()] {} _ t final (balanced_fields _) ?_ hok)
  rw [names_fields]
  exact List.cons_ne_nil _ _

end Erl.Format
