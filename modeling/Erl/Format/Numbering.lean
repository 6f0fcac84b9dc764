import Erl.Format.Rendering
import Erl.Lib.Firsts

/-!
# The numbers of the fields

A direct index gets its number in order of first appearance, and keeps it. The table of
`do_parse` holds these numbers, as long as they fit into an `int`.
-/

namespace Erl.Format
open Util FormatString FormatParser Firsts

/-! ## The table -/

/-- The indices `u` have appeared so far, in this order. -/
structure Table (n : Nat) (u : List Nat) (l : Locals) : Prop where
  nodup : u.Nodup
  bounded : ∀ x ∈ u, x < n
  few : u.length ≤ 2 ^ 31
  length : l.direct.length = n
  direct : ∀ x < n, l.direct[x]? = some (if x ∈ u then (u.idxOf x : Int) else -1)
  used : l.used = u.length

theorem Table.start (n : Nat) : Table n [] (.start n) where
  nodup := List.nodup_nil
  bounded := fun x hx => absurd hx List.not_mem_nil
  few := Nat.zero_le _
  length := List.length_replicate
  direct := fun x hx => by simp [Locals.start, hx]
  used := rfl

variable {n : Nat} {u : List Nat} {l l' : Locals}

theorem Table.of_direct (h : Table n u l) (hdirect : l'.direct = l.direct) (hused : l'.used = l.used) :
    Table n u l' where
  nodup := h.nodup
  bounded := h.bounded
  few := h.few
  length := by rw [hdirect, h.length]
  direct := by rw [hdirect]; exact h.direct
  used := hused.trans h.used

/-- The locals `byIndex` leaves alone. -/
structure OnlyDirect (l l' : Locals) : Prop where
  accessors : l'.accessors = l.accessors
  has_empty : l'.has_empty = l.has_empty
  has_positional : l'.has_positional = l.has_positional

/-- An index has its number looked up, or gets the next one. -/
theorem Table.byIndex (h : Table n u l) {x : Nat} (hx : x < n) (hfew : (add u x).length ≤ 2 ^ 31) :
    ∃ l', byIndex l x = .ok (l', .number ((add u x).idxOf x)) ∧ Table n (add u x) l' ∧ OnlyDirect l l' := by
  unfold Format.byIndex
  rw [h.direct x hx]
  by_cases hmem : x ∈ u
  · rw [if_pos hmem, add_of_mem hmem]
    simp only
    rw [if_neg (by omega)]
    exact ⟨l, rfl, h, rfl, rfl, rfl⟩
  · rw [if_neg hmem]
    simp only [if_true]
    rw [add_of_not_mem hmem, List.length_append, List.length_singleton] at hfew
    have hused : toInt l.used = u.length := by
      rw [h.used]
      exact toInt_eq (by omega)
    have hidx : (u ++ [x]).idxOf x = u.length := by
      rw [← add_of_not_mem hmem, idxOf_add, if_neg hmem]
    rw [hused, add_of_not_mem hmem, hidx]
    refine ⟨_, rfl, ⟨?_, ?_, ?_, ?_, ?_, ?_⟩, rfl, rfl, rfl⟩
    · rw [← add_of_not_mem hmem]
      exact nodup_add h.nodup
    · intro y hy
      rcases List.mem_append.mp hy with hy | hy
      · exact h.bounded y hy
      · rwa [List.mem_singleton.mp hy]
    · rw [List.length_append, List.length_singleton]
      exact hfew
    · show (l.direct.set x _).length = n
      rw [List.length_set, h.length]
    · intro y hy
      show (l.direct.set x _)[y]? = _
      by_cases hxy : x = y
      · subst hxy
        rw [List.getElem?_set_self (by rw [h.length]; exact hx), if_pos (by simp), hidx]
      · rw [List.getElem?_set_ne hxy, h.direct y hy]
        by_cases hyu : y ∈ u
        · rw [if_pos hyu, if_pos (List.mem_append_left _ hyu), List.idxOf_append_of_mem hyu]
        · rw [if_neg hyu, if_neg (by simp [hyu, Ne.symm hxy])]
    · show (l.used + 1) % 2 ^ 32 = _
      rw [h.used, List.length_append, List.length_singleton]
      omega

/-- The index behind the last `int` gets a number that is none. -/
theorem Table.byIndex_full (h : Table n u l) {x : Nat} (hx : x < n) (hfull : 2 ^ 31 < (add u x).length) :
    ∃ l', Format.byIndex l x = .ok (l', .number (-2 ^ 31)) := by
  have hmem : x ∉ u := by
    intro hmem
    rw [add_of_mem hmem] at hfull
    have := h.few
    omega
  rw [add_of_not_mem hmem, List.length_append, List.length_singleton] at hfull
  have hused : toInt l.used = -2 ^ 31 := by
    have hlen : u.length = 2 ^ 31 := by
      have := h.few
      omega
    rw [h.used, hlen]
    rfl
  unfold Format.byIndex
  rw [h.direct x hx, if_neg hmem]
  simp only [if_true]
  rw [hused]
  exact ⟨_, rfl⟩

theorem directIndices_of_none (h : l.has_positional = false) : directIndices n l = List.range n := by
  unfold FormatParser.directIndices
  rw [h, if_neg Bool.false_ne_true]

/-- The arguments that are passed, in order. -/
theorem directIndices_ascending (n : Nat) (l : Locals) : (directIndices n l).Pairwise (· < ·) := by
  unfold FormatParser.directIndices
  split
  · exact List.pairwise_lt_range.filter _
  · exact List.pairwise_lt_range

/-- The indices that have appeared, from the lowest to the highest. -/
theorem Table.directIndices (h : Table n u l) (hpositional : l.has_positional = true) :
    directIndices n l = (List.range n).filter (· ∈ u) := by
  unfold FormatParser.directIndices
  rw [if_pos hpositional]
  apply List.filter_congr
  intro x hx
  rw [h.direct x (List.mem_range.mp hx)]
  by_cases hmem : x ∈ u
  · rw [if_pos hmem, decide_eq_true hmem, decide_eq_true]
    simp only [ne_eq, Option.some.injEq]
    omega
  · rw [if_neg hmem]
    simp [hmem]

theorem Table.perm_directIndices (h : Table n u l) (hpositional : l.has_positional = true) :
    (FormatParser.directIndices n l).Perm u := by
  rw [h.directIndices hpositional]
  apply (List.perm_ext_iff_of_nodup (List.nodup_range.filter _) h.nodup).mpr
  intro x
  rw [List.mem_filter, List.mem_range, decide_eq_true_iff]
  exact ⟨fun hx => hx.2, fun hx => ⟨h.bounded x hx, hx⟩⟩

theorem accumulate_nameSlot (offset : Int) (slots : List Slot) (ms : List Name) :
    accumulate (nameSlot offset) () slots = some ((), ms) ↔
      List.Forall₂ (fun slot m => slot.name offset = some m) slots ms := by
  induction slots generalizing ms with
  | nil =>
    rw [List.forall₂_nil_left_iff]
    simp [accumulate, eq_comm]
  | cons slot slots ih =>
    rw [List.forall₂_cons_left_iff]
    simp only [accumulate, nameSlot, Option.bind_eq_bind]
    cases hslot : slot.name offset with
    | none => simp
    | some name =>
      simp only [Option.map_some, Option.bind_some, Option.some.injEq]
      constructor
      · intro h
        obtain ⟨⟨s, rest⟩, hrest, heq⟩ := Option.bind_eq_some_iff.mp h
        cases heq
        exact ⟨name, rest, rfl, (ih rest).mp hrest, rfl⟩
      · rintro ⟨m, rest, rfl, hrest, rfl⟩
        rw [(ih rest).mpr hrest]
        rfl

theorem exists_name {offset : Int} {slots : List Slot} {ms : List Name}
    (h : List.Forall₂ (fun slot m => slot.name offset = some m) slots ms) {slot : Slot} (hslot : slot ∈ slots) :
    ∃ m ∈ ms, slot.name offset = some m := by
  induction h with
  | nil => cases hslot
  | @cons s m slots ms hm _ ih =>
    rcases List.mem_cons.mp hslot with rfl | hslot
    · exact ⟨m, List.mem_cons_self, hm⟩
    · obtain ⟨m', hm', hname⟩ := ih hslot
      exact ⟨m', List.mem_cons_of_mem m hm', hname⟩

/-- The names of numbered pieces. -/
theorem numbered_names {offset : Int} {slots : List (Piece Slot)} {ps : List (Piece Name)}
    (h : numbered offset slots = some ps) :
    List.Forall₂ (fun slot m => slot.name offset = some m) (names slots) (names ps) := by
  obtain ⟨⟨s, ps'⟩, htraverse, rfl⟩ := Option.map_eq_some_iff.mp h
  rw [← accumulate_nameSlot, ← map_names_traverse, htraverse]
  rfl

theorem numbered_shape {offset : Int} {slots : List (Piece Slot)} {ps : List (Piece Name)}
    (h : numbered offset slots = some ps) : shape ps = shape slots := by
  obtain ⟨⟨s, ps'⟩, htraverse, rfl⟩ := Option.map_eq_some_iff.mp h
  exact traverse_shape htraverse

/-- Slots that all have names can be numbered. -/
theorem numbered_of_names {offset : Int} {slots : List (Piece Slot)} {ms : List Name}
    (h : List.Forall₂ (fun slot m => slot.name offset = some m) (names slots) ms) :
    ∃ ps, numbered offset slots = some ps ∧ names ps = ms := by
  have haccumulate := (accumulate_nameSlot offset _ _).mpr h
  rw [← map_names_traverse] at haccumulate
  obtain ⟨⟨s, ps⟩, htraverse, heq⟩ := Option.map_eq_some_iff.mp haccumulate
  refine ⟨ps, ?_, congrArg Prod.snd heq⟩
  unfold numbered
  rw [htraverse]
  rfl

variable {C : Classes} {arg_types : List C.Ty} {ps : List (Piece Name)} {t : Transformed}

/-- A transformation looks up the names of the format string in their order. -/
theorem Transforms.accumulated (h : Transforms C arg_types ps t) :
    accumulate (lookUp C arg_types) (.start arg_types.length) (names ps) = some (h.l, names h.slots) := by
  rw [← map_names_traverse, h.traversed]
  rfl

/-- Only names differ. -/
theorem Transforms.shape_eq (h : Transforms C arg_types ps t) : shape h.renamed = shape ps :=
  (numbered_shape h.numbers).trans (traverse_shape h.traversed)

/-- Names that can be looked up and numbered make a transformation. -/
theorem exists_transforms {slots : List Slot} {offset : Int} {ms : List Name}
    (haccumulate : accumulate (lookUp C arg_types) (.start arg_types.length) (names ps) = some (l, slots))
    (hchecked : checkedInt (toInt (directIndices arg_types.length l).length - 1) = some offset)
    (hnames : List.Forall₂ (fun slot m => slot.name offset = some m) slots ms) :
    ∃ (t : Transformed) (h : Transforms C arg_types ps t), h.l = l ∧ names h.renamed = ms := by
  rw [← map_names_traverse] at haccumulate
  obtain ⟨⟨l', pieces⟩, htraverse, heq⟩ := Option.map_eq_some_iff.mp haccumulate
  obtain ⟨rfl, rfl⟩ := Prod.mk.inj heq
  obtain ⟨renamed, hnumbered, hrenamed⟩ := numbered_of_names hnames
  exact ⟨⟨_, _, _⟩, ⟨l', pieces, renamed, offset, htraverse, hchecked, hnumbered, rfl, rfl, rfl⟩, rfl, hrenamed⟩

theorem Transforms.scan (h : Transforms C arg_types ps t) : FormatString.scan t.fmt = some h.renamed := by
  rw [h.fmt]
  exact scan_render h.renamed

theorem lookUp_ofNat (hempty : l.has_empty = false) (i : Nat) :
    lookUp C arg_types l (.ofNat i) = (byIndex { l with has_positional := true } (i % 2 ^ 32)).toOption := by
  have hchars : (Name.ofNat i).chars = Nat.toDigits 10 i := rfl
  unfold lookUp resolve
  rw [hchars, if_neg Nat.toDigits_ne_nil, hempty, if_neg Bool.false_ne_true]
  simp only
  rw [isInteger_toDigits, if_pos rfl, stou_toDigits]

end Erl.Format
