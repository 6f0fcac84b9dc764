import Erl.Reflect.RoundTrip

/-!
# The layout of a type on the wire

`Ty.items` lists the fields that the encoders of a type write, with pairs, aggregates and
enumerations taken apart. It decides which bytes are an image of some value of the type, so
types with the same items read each other's values.
-/

namespace Erl.Reflect
open Decoding

/-- A field, with the items that are repeated behind it. -/
inductive Item where
  | int (kind : IntKind)
  /-- A length and as many elements. -/
  | counted (element : List Item)
  | repeated (n : Nat) (element : List Item)
  /-- An index and the alternative at it. -/
  | tagged (alternatives : List (List Item))

mutual
def Ty.items : Ty → List Item
  | .integral t | .enumeration _ t => [.int t.kind]
  | .pair a b => a.items ++ b.items
  | .aggregate _ ts => Ty.itemsAll ts
  | .variant ts => [.tagged (Ty.itemsEach ts)]
  | .array t n => [.repeated n t.items]
  | .sequence _ t | .ordered _ t => [.counted t.items]

/-- The items of several types, one behind the other. -/
def Ty.itemsAll : List Ty → List Item
  | [] => []
  | t :: ts => t.items ++ Ty.itemsAll ts

def Ty.itemsEach : List Ty → List (List Item)
  | [] => []
  | t :: ts => t.items :: Ty.itemsEach ts
end

/-- The bytes that a list of items can be. -/
inductive Accepts : List Item → List UInt8 → Prop where
  | nil : Accepts [] []
  | int {k : IntKind} {i : Int} {rest : List Item} {w : List UInt8} (range : k.InRange i) :
      Accepts rest w → Accepts (.int k :: rest) (k.image i ++ w)
  | counted {element rest : List Item} {ws : List (List UInt8)} {w : List UInt8} (bound : ws.length < 2 ^ 32)
      (each : ∀ x ∈ ws, Accepts element x) :
      Accepts rest w → Accepts (.counted element :: rest) (uint32.kind.image ws.length ++ ws.flatten ++ w)
  | repeated {n : Nat} {element rest : List Item} {ws : List (List UInt8)} {w : List UInt8} (bound : n < 2 ^ 32)
      (length : ws.length = n) (each : ∀ x ∈ ws, Accepts element x) :
      Accepts rest w → Accepts (.repeated n element :: rest) (ws.flatten ++ w)
  | tagged {alternatives : List (List Item)} {element rest : List Item} {i : Nat} {x w : List UInt8}
      (bound : i < 2 ^ 64) (alternative : alternatives[i]? = some element) :
      Accepts element x → Accepts rest w →
      Accepts (.tagged alternatives :: rest) (sizeT.kind.image i ++ x ++ w)

section
variable {as bs element : List Item} {w w₁ w₂ : List UInt8}

theorem Accepts.append (first : Accepts as w₁) (second : Accepts bs w₂) : Accepts (as ++ bs) (w₁ ++ w₂) := by
  induction first with
  | nil => exact second
  | int range _ ih =>
    rw [List.append_assoc]
    exact .int range ih
  | counted bound each _ _ ih =>
    rw [List.append_assoc]
    exact .counted bound each ih
  | repeated bound length each _ _ ih =>
    rw [List.append_assoc]
    exact .repeated bound length each ih
  | tagged bound alternative element _ _ ih =>
    rw [List.append_assoc]
    exact .tagged bound alternative element ih

theorem accepts_append : Accepts (as ++ bs) w ↔ ∃ w₁ w₂, w = w₁ ++ w₂ ∧ Accepts as w₁ ∧ Accepts bs w₂ := by
  constructor
  · induction as generalizing w with
    | nil => exact fun accepts => ⟨[], w, rfl, .nil, accepts⟩
    | cons item as ih =>
      intro accepts
      cases accepts with
      | int range rest =>
        obtain ⟨w₁, w₂, rfl, first, second⟩ := ih rest
        exact ⟨_, w₂, (List.append_assoc ..).symm, .int range first, second⟩
      | counted bound each rest =>
        obtain ⟨w₁, w₂, rfl, first, second⟩ := ih rest
        exact ⟨_, w₂, (List.append_assoc ..).symm, .counted bound each first, second⟩
      | repeated bound length each rest =>
        obtain ⟨w₁, w₂, rfl, first, second⟩ := ih rest
        exact ⟨_, w₂, (List.append_assoc ..).symm, .repeated bound length each first, second⟩
      | tagged bound alternative element rest =>
        obtain ⟨w₁, w₂, rfl, first, second⟩ := ih rest
        exact ⟨_, w₂, (List.append_assoc ..).symm, .tagged bound alternative element first, second⟩
  · rintro ⟨w₁, w₂, rfl, first, second⟩
    exact first.append second

theorem accepts_nil : Accepts [] w ↔ w = [] := by
  constructor
  · intro accepts
    cases accepts
    rfl
  · rintro rfl
    exact .nil

theorem accepts_int {k : IntKind} : Accepts [.int k] w ↔ ∃ i, k.InRange i ∧ w = k.image i := by
  constructor
  · intro accepts
    cases accepts with
    | int range rest => exact ⟨_, range, by rw [accepts_nil.mp rest, List.append_nil]⟩
  · rintro ⟨i, range, rfl⟩
    rw [← List.append_nil (k.image i)]
    exact .int range .nil

theorem accepts_counted : Accepts [.counted element] w ↔ ∃ ws : List (List UInt8), ws.length < 2 ^ 32 ∧
    (∀ x ∈ ws, Accepts element x) ∧ w = uint32.kind.image ws.length ++ ws.flatten := by
  constructor
  · intro accepts
    cases accepts with
    | counted bound each rest => exact ⟨_, bound, each, by rw [accepts_nil.mp rest, List.append_nil]⟩
  · rintro ⟨ws, bound, each, rfl⟩
    rw [← List.append_nil (_ ++ ws.flatten)]
    exact .counted bound each .nil

theorem accepts_repeated {n : Nat} : Accepts [.repeated n element] w ↔ ∃ ws : List (List UInt8), n < 2 ^ 32 ∧
    ws.length = n ∧ (∀ x ∈ ws, Accepts element x) ∧ w = ws.flatten := by
  constructor
  · intro accepts
    cases accepts with
    | repeated bound length each rest => exact ⟨_, bound, length, each, by rw [accepts_nil.mp rest, List.append_nil]⟩
  · rintro ⟨ws, bound, length, each, rfl⟩
    rw [← List.append_nil ws.flatten]
    exact .repeated bound length each .nil

theorem accepts_tagged {alternatives : List (List Item)} : Accepts [.tagged alternatives] w ↔
    ∃ (i : Nat) (element : List Item) (x : List UInt8), i < 2 ^ 64 ∧ alternatives[i]? = some element ∧
      Accepts element x ∧ w = sizeT.kind.image i ++ x := by
  constructor
  · intro accepts
    cases accepts with
    | tagged bound alternative element rest =>
      exact ⟨_, _, _, bound, alternative, element, by rw [accepts_nil.mp rest, List.append_nil]⟩
  · rintro ⟨i, element, x, bound, alternative, accepts, rfl⟩
    rw [← List.append_nil (_ ++ x)]
    exact .tagged bound alternative accepts .nil

end

/-! ## The bytes of a type -/

theorem exists_int_iff {k : IntKind} {w : List UInt8} : (∃ i, k.InRange i ∧ w = k.image i) ↔
    ∃ v i, k.InRange i ∧ w = k.image i ∧ v = Val.int i := by
  constructor
  · rintro ⟨i, range, image⟩
    exact ⟨.int i, i, range, image, rfl⟩
  · rintro ⟨v, i, range, image, -⟩
    exact ⟨i, range, image⟩

section
variable (order : Containers)

/-- A container reads the same bytes whichever way it keeps its elements. -/
theorem accepts_counted_iff {t : Ty} {keep : List Val → Val} {w : List UInt8}
    (element : ∀ w, Accepts t.items w ↔ ∃ v, Wire order t w v) :
    Accepts [.counted t.items] w ↔ ∃ (v : Val) (vs : List Val) (w₂ : List UInt8), vs.length < 2 ^ 32 ∧
      w = uint32.kind.image vs.length ++ w₂ ∧ Each (Wire order t) w₂ vs ∧ v = keep vs := by
  rw [accepts_counted]
  simp only [element]
  constructor
  · rintro ⟨ws, bound, each, image⟩
    obtain ⟨vs, length, each⟩ := Each.exists_iff.mpr ⟨ws, rfl, each, rfl⟩
    exact ⟨_, vs, ws.flatten, by rw [length]; exact bound, by rw [length]; exact image, each, rfl⟩
  · rintro ⟨v, vs, w₂, bound, image, each, -⟩
    obtain ⟨ws, length, elements, rfl⟩ := Each.exists_iff.mp ⟨vs, rfl, each⟩
    exact ⟨ws, by rw [length]; exact bound, elements, by rw [length]; exact image⟩

mutual
/-- The items of a type accept exactly the images of its values. -/
theorem accepts_items (t : Ty) (w : List UInt8) : Accepts t.items w ↔ ∃ v, Wire order t w v := by
  cases t with
  | integral t => exact accepts_int.trans exists_int_iff
  | enumeration _ t => exact accepts_int.trans exists_int_iff
  | pair a b =>
    rw [Ty.items, accepts_append]
    constructor
    · rintro ⟨w₁, w₂, rfl, first, second⟩
      obtain ⟨x, first⟩ := (accepts_items a w₁).mp first
      obtain ⟨y, second⟩ := (accepts_items b w₂).mp second
      exact ⟨.pair x y, x, y, w₁, w₂, rfl, first, second, rfl⟩
    · rintro ⟨v, x, y, w₁, w₂, rfl, first, second, -⟩
      exact ⟨w₁, w₂, rfl, (accepts_items a w₁).mpr ⟨x, first⟩, (accepts_items b w₂).mpr ⟨y, second⟩⟩
  | aggregate _ ts =>
    rw [Ty.items, accepts_itemsAll ts w]
    constructor
    · rintro ⟨vs, members⟩
      exact ⟨.aggregate vs, vs, members, rfl⟩
    · rintro ⟨v, vs, members, -⟩
      exact ⟨vs, members⟩
  | variant ts =>
    rw [Ty.items, accepts_tagged]
    constructor
    · rintro ⟨i, element, x, bound, alternative, accepts, rfl⟩
      obtain ⟨v, wire⟩ := (accepts_itemsEach ts i x).mp ⟨element, alternative, accepts⟩
      exact ⟨_, i, v, x, bound, rfl, wire, rfl⟩
    · rintro ⟨_, i, v, x, bound, rfl, wire, -⟩
      obtain ⟨element, alternative, accepts⟩ := (accepts_itemsEach ts i x).mpr ⟨v, wire⟩
      exact ⟨i, element, x, bound, alternative, accepts, rfl⟩
  | array t n =>
    rw [Ty.items, accepts_repeated]
    simp only [accepts_items t]
    constructor
    · rintro ⟨ws, bound, length, each, image⟩
      obtain ⟨vs, length, each⟩ := Each.exists_iff.mpr ⟨ws, length, each, image⟩
      exact ⟨.list vs, vs, bound, length, each, rfl⟩
    · rintro ⟨v, vs, bound, length, each, -⟩
      obtain ⟨ws, length, each, image⟩ := Each.exists_iff.mp ⟨vs, length, each⟩
      exact ⟨ws, bound, length, each, image⟩
  | sequence _ t => exact accepts_counted_iff order (accepts_items t)
  | ordered _ t => exact accepts_counted_iff order (accepts_items t)

theorem accepts_itemsAll (ts : List Ty) (w : List UInt8) : Accepts (Ty.itemsAll ts) w ↔ ∃ vs, WireAll order ts w vs := by
  cases ts with
  | nil =>
    rw [Ty.itemsAll, accepts_nil]
    constructor
    · exact fun empty => ⟨[], empty, rfl⟩
    · exact fun ⟨_, empty, _⟩ => empty
  | cons t ts =>
    rw [Ty.itemsAll, accepts_append]
    constructor
    · rintro ⟨w₁, w₂, rfl, first, rest⟩
      obtain ⟨x, first⟩ := (accepts_items t w₁).mp first
      obtain ⟨xs, rest⟩ := (accepts_itemsAll ts w₂).mp rest
      exact ⟨x :: xs, x, xs, w₁, w₂, rfl, first, rest, rfl⟩
    · rintro ⟨vs, x, xs, w₁, w₂, rfl, first, rest, -⟩
      exact ⟨w₁, w₂, rfl, (accepts_items t w₁).mpr ⟨x, first⟩, (accepts_itemsAll ts w₂).mpr ⟨xs, rest⟩⟩

theorem accepts_itemsEach (ts : List Ty) (i : Nat) (w : List UInt8) :
    (∃ element, (Ty.itemsEach ts)[i]? = some element ∧ Accepts element w) ↔ ∃ v, WireAt order ts i w v := by
  cases ts with
  | nil =>
    constructor
    · rintro ⟨element, found, -⟩
      cases found
    · rintro ⟨v, wire⟩
      cases wire
  | cons t ts =>
    cases i with
    | zero =>
      rw [Ty.itemsEach, List.getElem?_cons_zero]
      constructor
      · rintro ⟨element, found, accepts⟩
        cases found
        exact (accepts_items t w).mp accepts
      · exact fun wire => ⟨t.items, rfl, (accepts_items t w).mpr wire⟩
    | succ i =>
      rw [Ty.itemsEach, List.getElem?_cons_succ]
      exact accepts_itemsEach ts i w
end

end

/-- **Main result.** A type with the same items consumes what is written for a value, wherever it
stands and whatever hosts write and read. -/
theorem consumes_of_items {order order' : Containers} (writer reader : Host) {t u : Ty} (same : t.items = u.items)
    {v : Val} (proper : t.proper = true) (typed : t.admits order v = true) (small : v.small = true)
    (before rest : List UInt8) :
    ∃ v', deserialize order' reader u ⟨before ++ encode writer t v ++ rest, before.length⟩ =
      .ok (v', ⟨before ++ encode writer t v ++ rest, before.length + (encode writer t v).length⟩) := by
  have written := (accepts_items order t _).mpr ⟨v, wire_serialize writer t v proper typed small⟩
  rw [same] at written
  obtain ⟨v', wire⟩ := (accepts_items order' u _).mp written
  exact ⟨v', (denotes_deserialize order' reader u).decodes wire before rest⟩

end Erl.Reflect
