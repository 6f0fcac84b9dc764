import Erl.Reflect.Layout

/-!
# `Reflect<T>::hash_append`

What a type feeds to the hasher: its name and those of the types in it, in order, with
nothing between them. Types with the same names have the same layout if each name stands for
the same `Frame` on both sides; the two may come from different sets of definitions.
-/

namespace Erl.Reflect
open Decoding

mutual
/-- `display_string_of`. -/
def Ty.name : Ty → String
  | .integral t => t.name
  | .enumeration name _ | .aggregate name _ | .sequence name _ | .ordered name _ => name
  | .pair a b => "pair<" ++ a.name ++ ", " ++ b.name ++ ">"
  | .variant ts => "variant<" ++ Ty.nameAll ts ++ ">"
  | .array t n => t.name ++ "[" ++ toString n ++ "]"

def Ty.nameAll : List Ty → String
  | [] => ""
  | [t] => t.name
  | t :: ts => t.name ++ ", " ++ Ty.nameAll ts
end

mutual
/-- The calls that `hash_append` makes of the hasher. -/
def Ty.hashAppend : Ty → List String
  | .integral t => [t.name]
  | .enumeration name t => [name, t.name]
  | .pair a b => (Ty.pair a b).name :: (a.hashAppend ++ b.hashAppend)
  | .aggregate name ts => name :: Ty.hashAppendAll ts
  | .variant ts => (Ty.variant ts).name :: Ty.hashAppendAll ts
  | .array t n => (Ty.array t n).name :: t.hashAppend
  | .sequence name t | .ordered name t => name :: t.hashAppend

def Ty.hashAppendAll : List Ty → List String
  | [] => []
  | t :: ts => t.hashAppend ++ Ty.hashAppendAll ts
end

/-- The bytes that reach the hasher. -/
def Ty.stream (t : Ty) : List UInt8 := t.hashAppend.flatMap fun name => name.toUTF8.data.toList

/-- A turn of `FNV1a::operator()`; a `char` is signed. -/
def fnv1a (state : UInt64) (current : UInt8) : UInt64 :=
  (state ^^^ current.toInt8.toInt64.toUInt64) * 0x100000001b3

/-- `hash_type`. -/
def hashType (t : Ty) : UInt64 :=
  t.hashAppend.foldl (fun state name => name.toUTF8.data.toList.foldl fnv1a state) 0xcbf29ce484222325

/-- The hash of a type depends on its stream only. -/
theorem hashType_eq (t : Ty) : hashType t = t.stream.foldl fnv1a 0xcbf29ce484222325 := by
  rw [hashType, Ty.stream, List.foldl_flatMap]

mutual
/-- The type and the types in it, in the order of `hash_append`. -/
def Ty.parts : Ty → List Ty
  | .integral t => [.integral t]
  | .enumeration name t => [.enumeration name t, .integral t]
  | .pair a b => .pair a b :: (a.parts ++ b.parts)
  | .aggregate name ts => .aggregate name ts :: Ty.partsAll ts
  | .variant ts => .variant ts :: Ty.partsAll ts
  | .array t n => .array t n :: t.parts
  | .sequence name t => .sequence name t :: t.parts
  | .ordered name t => .ordered name t :: t.parts

def Ty.partsAll : List Ty → List Ty
  | [] => []
  | t :: ts => t.parts ++ Ty.partsAll ts
end

mutual
theorem Ty.hashAppend_eq (t : Ty) : t.hashAppend = t.parts.map Ty.name := by
  cases t <;> simp [Ty.hashAppend, Ty.parts, Ty.name, Ty.hashAppend_eq, Ty.hashAppendAll_eq]

theorem Ty.hashAppendAll_eq (ts : List Ty) : Ty.hashAppendAll ts = (Ty.partsAll ts).map Ty.name := by
  cases ts <;> simp [Ty.hashAppendAll, Ty.partsAll, Ty.hashAppend_eq, Ty.hashAppendAll_eq]
end

/-- The types in a type whose names follow its own. -/
def Ty.children : Ty → List Ty
  | .integral _ => []
  | .enumeration _ t => [.integral t]
  | .pair a b => [a, b]
  | .aggregate _ ts | .variant ts => ts
  | .array t _ | .sequence _ t | .ordered _ t => [t]

/-- How a type is laid out around its children, and how many names these have. -/
inductive Frame where
  | int (kind : IntKind)
  /-- One child after the other. -/
  | plain
  | counted (names : Nat)
  | repeated (n names : Nat)
  | tagged (names : List Nat)
deriving DecidableEq

def Ty.frame : Ty → Frame
  | .integral t => .int t.kind
  | .enumeration .. | .pair .. | .aggregate .. => .plain
  | .sequence _ t | .ordered _ t => .counted t.hashAppend.length
  | .array t n => .repeated n t.hashAppend.length
  | .variant ts => .tagged (ts.map fun t => t.hashAppend.length)

/-- Names that occur on both sides stand for the same frame. -/
def SameFrames (ts us : List Ty) : Prop := ∀ t ∈ ts, ∀ u ∈ us, t.name = u.name → t.frame = u.frame

instance (ts us : List Ty) : Decidable (SameFrames ts us) := by
  unfold SameFrames
  infer_instance

/-- What is written for a `t` is read as a `u`, to the last byte. -/
def Consumed (order' : Containers) (writer reader : Host) (t u : Ty) (v : Val) : Prop :=
  ∃ v', deserialize order' reader u ⟨encode writer t v, 0⟩ = .ok (v', ⟨encode writer t v, (encode writer t v).length⟩)

/-- The values of `t` are written field for field as those of `u` are, and read as one of them. -/
structure SameWire (order order' : Containers) (t u : Ty) : Prop where
  fields : t.items = u.items
  consumed : ∀ (writer reader : Host) (v : Val), t.proper = true → t.admits order v = true → v.small = true →
    Consumed order' writer reader t u v

theorem Ty.parts_eq (t : Ty) : t.parts = t :: Ty.partsAll t.children := by
  cases t <;> simp [Ty.parts, Ty.partsAll, Ty.children]

/-- The layout in a frame, from those of the children. -/
def Frame.items : Frame → List (List Item) → List Item
  | .int k, _ => [.int k]
  | .plain, children => children.flatten
  | .counted _, children => [.counted children.flatten]
  | .repeated n _, children => [.repeated n children.flatten]
  | .tagged _, children => [.tagged children]

theorem Ty.flatten_itemsEach (ts : List Ty) : (Ty.itemsEach ts).flatten = Ty.itemsAll ts := by
  induction ts with
  | nil => rfl
  | cons t ts ih => rw [Ty.itemsEach, Ty.itemsAll, List.flatten_cons, ih]

theorem Ty.items_eq (t : Ty) : t.items = t.frame.items (Ty.itemsEach t.children) := by
  cases t <;> simp [Ty.items, Ty.frame, Frame.items, Ty.children, Ty.flatten_itemsEach, Ty.itemsEach]

/-- The numbers of names that a frame fixes. -/
def Frame.names : Frame → List Nat
  | .int _ | .plain => []
  | .counted n | .repeated _ n => [n]
  | .tagged ns => ns

theorem Ty.names_frame {t : Ty} (fixed : t.frame ≠ .plain) :
    t.frame.names = t.children.map fun t => t.parts.length := by
  cases t <;> simp_all [Ty.frame, Frame.names, Ty.children, Ty.hashAppend_eq]

theorem Ty.partsAll_append (ts us : List Ty) : Ty.partsAll (ts ++ us) = Ty.partsAll ts ++ Ty.partsAll us := by
  induction ts with
  | nil => rfl
  | cons t ts ih => rw [List.cons_append, Ty.partsAll, Ty.partsAll, ih, List.append_assoc]

theorem Ty.itemsAll_append (ts us : List Ty) : Ty.itemsAll (ts ++ us) = Ty.itemsAll ts ++ Ty.itemsAll us := by
  induction ts with
  | nil => rfl
  | cons t ts ih => rw [List.cons_append, Ty.itemsAll, Ty.itemsAll, ih, List.append_assoc]

theorem Ty.partsAll_single (t : Ty) : Ty.partsAll [t] = t.parts := List.append_nil t.parts

theorem Ty.itemsAll_single (t : Ty) : Ty.itemsAll [t] = t.items := List.append_nil t.items

theorem Ty.partsAll_cons (t : Ty) (ts : List Ty) : Ty.partsAll (t :: ts) = t :: Ty.partsAll (t.children ++ ts) := by
  rw [Ty.partsAll, Ty.parts_eq, Ty.partsAll_append, List.cons_append]

/-- A plain frame leaves no trace around its children. -/
theorem Ty.itemsAll_plain {t : Ty} (plain : t.frame = .plain) (ts : List Ty) :
    Ty.itemsAll (t :: ts) = Ty.itemsAll (t.children ++ ts) := by
  rw [Ty.itemsAll, Ty.items_eq, plain, Frame.items, Ty.flatten_itemsEach, Ty.itemsAll_append]

/-! ## Names determine the layout -/

/-- The same names in the same frames. -/
structure Alike (ts us : List Ty) : Prop where
  names : (Ty.partsAll ts).map Ty.name = (Ty.partsAll us).map Ty.name
  frames : SameFrames (Ty.partsAll ts) (Ty.partsAll us)

namespace Alike

variable {t u : Ty} {as bs ts us : List Ty}

theorem length_eq (alike : Alike ts us) : (Ty.partsAll ts).length = (Ty.partsAll us).length := by
  have := congrArg List.length alike.names
  rwa [List.length_map, List.length_map] at this

/-- Behind the first names stand the children. -/
theorem open_head (alike : Alike (t :: ts) (u :: us)) :
    t.frame = u.frame ∧ Alike (t.children ++ ts) (u.children ++ us) := by
  obtain ⟨names, frames⟩ := alike
  rw [Ty.partsAll_cons, Ty.partsAll_cons] at frames
  rw [Ty.partsAll_cons, Ty.partsAll_cons, List.map_cons, List.map_cons, List.cons.injEq] at names
  refine ⟨frames t List.mem_cons_self u List.mem_cons_self names.1, names.2, ?_⟩
  intro a ha b hb
  exact frames a (List.mem_cons_of_mem t ha) b (List.mem_cons_of_mem u hb)

theorem split (alike : Alike (as ++ ts) (bs ++ us)) (length : (Ty.partsAll as).length = (Ty.partsAll bs).length) :
    Alike as bs ∧ Alike ts us := by
  obtain ⟨names, frames⟩ := alike
  rw [Ty.partsAll_append, Ty.partsAll_append] at frames
  rw [Ty.partsAll_append, Ty.partsAll_append, List.map_append, List.map_append] at names
  obtain ⟨first, second⟩ := List.append_inj names (by rw [List.length_map, List.length_map, length])
  refine ⟨⟨first, ?_⟩, second, ?_⟩
  · intro a ha b hb
    exact frames a (List.mem_append_left _ ha) b (List.mem_append_left _ hb)
  · intro a ha b hb
    exact frames a (List.mem_append_right _ ha) b (List.mem_append_right _ hb)

end Alike

/-- Children with fixed numbers of names are told apart. -/
theorem itemsEach_eq {n : Nat} (below : ∀ ts us, (Ty.partsAll ts).length < n → Alike ts us → Ty.itemsAll ts = Ty.itemsAll us)
    {as bs ts us : List Ty} (bound : (Ty.partsAll as).length < n)
    (names : (as.map fun t => t.parts.length) = bs.map fun t => t.parts.length)
    (alike : Alike (as ++ ts) (bs ++ us)) : Ty.itemsEach as = Ty.itemsEach bs ∧ Alike ts us := by
  induction as generalizing bs with
  | nil =>
    obtain rfl := List.map_eq_nil_iff.mp names.symm
    exact ⟨rfl, alike⟩
  | cons a as ih =>
    obtain ⟨b, bs, rfl⟩ : ∃ b bs', bs = b :: bs' := by
      cases bs with
      | nil => cases names
      | cons b bs => exact ⟨b, bs, rfl⟩
    rw [List.map_cons, List.map_cons, List.cons.injEq] at names
    rw [Ty.partsAll, List.length_append] at bound
    have length : (Ty.partsAll [a]).length = (Ty.partsAll [b]).length := by
      rw [Ty.partsAll_single, Ty.partsAll_single]
      exact names.1
    have alike : Alike ([a] ++ (as ++ ts)) ([b] ++ (bs ++ us)) := alike
    obtain ⟨first, rest⟩ := alike.split length
    have same := below [a] [b] (by rw [Ty.partsAll_single]; omega) first
    rw [Ty.itemsAll_single, Ty.itemsAll_single] at same
    obtain ⟨each, rest⟩ := ih (by omega) names.2 rest
    exact ⟨by rw [Ty.itemsEach, Ty.itemsEach, same, each], rest⟩

/-- By induction on the number of names: a plain frame leaves its children to the names that
follow, any other one tells where they end. -/
theorem Alike.items_eq {ts us : List Ty} (alike : Alike ts us) : Ty.itemsAll ts = Ty.itemsAll us := by
  generalize size : (Ty.partsAll ts).length = n
  induction n using Nat.strong_induction_on generalizing ts us with
  | _ n ih =>
    have below : ∀ ts us, (Ty.partsAll ts).length < n → Alike ts us → Ty.itemsAll ts = Ty.itemsAll us :=
      fun ts us smaller alike => ih _ smaller alike rfl
    have lengths := alike.length_eq
    cases ts with
    | nil =>
      cases us with
      | nil => rfl
      | cons u us =>
        rw [Ty.partsAll_cons] at lengths
        cases lengths
    | cons t ts =>
      cases us with
      | nil =>
        rw [Ty.partsAll_cons] at lengths
        cases lengths
      | cons u us =>
        obtain ⟨frame, rest⟩ := alike.open_head
        rw [Ty.partsAll_cons, List.length_cons] at size
        by_cases plain : t.frame = .plain
        · rw [Ty.itemsAll_plain plain, Ty.itemsAll_plain (frame ▸ plain)]
          exact below _ _ (by omega) rest
        · rw [Ty.partsAll_append, List.length_append] at size
          have names : (t.children.map fun t => t.parts.length) = u.children.map fun t => t.parts.length := by
            rw [← Ty.names_frame plain, ← Ty.names_frame (frame ▸ plain), frame]
          obtain ⟨each, rest⟩ := itemsEach_eq below (by omega) names rest
          rw [Ty.itemsAll, Ty.itemsAll, Ty.items_eq t, Ty.items_eq u, frame, each, below ts us (by omega) rest]

/-- **Main result.** Types that feed the hasher the same names, one after the other, have the same
wire format, if the names that occur in both stand for the same frames. -/
theorem sameWire_of_hashAppend {t u : Ty} (names : t.hashAppend = u.hashAppend) (frames : SameFrames t.parts u.parts)
    (order order' : Containers) : SameWire order order' t u := by
  have alike : Alike [t] [u] := by
    refine ⟨?_, ?_⟩
    · rw [Ty.partsAll_single, Ty.partsAll_single, ← Ty.hashAppend_eq, ← Ty.hashAppend_eq, names]
    · rwa [Ty.partsAll_single, Ty.partsAll_single]
  have fields := alike.items_eq
  rw [Ty.itemsAll_single, Ty.itemsAll_single] at fields
  refine ⟨fields, ?_⟩
  intro writer reader v proper typed small
  have consumed := @consumes_of_items order order' writer reader t u fields v proper typed small [] []
  simpa only [Consumed, List.nil_append, List.append_nil, List.length_nil, Nat.zero_add] using consumed

def charType : Ty := .integral ⟨"char", .signed .w8⟩
def intType : Ty := .integral ⟨"int", .signed .w32⟩

def anyOrder : Containers := fun _ => .byKey (fun _ => 0) true

/-- The last members of `Outer` have moved to the end of `Inner`. -/
theorem sameWire_moved :
    SameWire anyOrder anyOrder
      (.aggregate "Outer" [.aggregate "Inner" [charType], intType, .sequence "vector<char>" charType])
      (.aggregate "Outer" [.aggregate "Inner" [charType, intType, .sequence "vector<char>" charType]]) :=
  sameWire_of_hashAppend (by decide) (by decide) anyOrder anyOrder

def pcHost : Host := ⟨.little, fun _ => 4⟩

/-- The streams are equal, but `u` does not consume what is written for this value of `t`. -/
def Misread (t u : Ty) (v : Val) : Prop :=
  t.stream = u.stream ∧ t.admits anyOrder v = true ∧ ¬ Consumed anyOrder pcHost pcHost t u v

theorem not_consumed {t u : Ty} {v : Val}
    (elsewhere : (deserialize anyOrder pcHost u ⟨encode pcHost t v, 0⟩).toOption.map (fun r => r.2.cursor) ≠
      some (encode pcHost t v).length) : ¬ Consumed anyOrder pcHost pcHost t u v := by
  rintro ⟨v', consumed⟩
  rw [consumed] at elsewhere
  exact elsewhere rfl

/-- A container as large as `std::uint32_t` cannot count is written with a smaller size. -/
theorem misread_large : Misread (.sequence "vector<char>" charType) (.sequence "vector<char>" charType)
    (.list (List.replicate 4294967296 (.int 0))) := by
  have typed : ∀ v ∈ List.replicate 4294967296 (Val.int 0), charType.admits anyOrder v = true := by
    intro v mem
    rw [(List.mem_replicate.mp mem).2]
    decide
  refine ⟨rfl, List.all_eq_true.mpr typed, ?_⟩
  rintro ⟨v', consumed⟩
  have wire := (denotes_deserialize anyOrder pcHost (.sequence "vector<char>" charType)).decodes_all_iff.mp consumed
  have one_byte : ∀ w v, Wire anyOrder charType w v → w.length = 1 := by
    rintro w v ⟨i, -, rfl, -⟩
    exact IntKind.length_image ..
  obtain ⟨vs, w₂, bound, image, each, -⟩ := wire
  have written : Each (Wire anyOrder charType) (written
      ((List.replicate 4294967296 (Val.int 0)).flatMap (serialize pcHost charType))) (List.replicate 4294967296 (.int 0)) := by
    apply each_flatMap
    intro v mem
    refine wire_serialize pcHost charType v rfl (typed v mem) ?_
    rw [(List.mem_replicate.mp mem).2]
    rfl
  have total := congrArg List.length image
  rw [encode, serialize, written_append, written_reserve, written_serializeInt, List.length_append, List.length_append,
    IntKind.length_image, IntKind.length_image, each.length_eq one_byte, written.length_eq one_byte,
    List.length_replicate] at total
  omega

/-- Names run together, members regrouped around a container, a name that stands for a class on one
side and for a container on the other, and a container too large. -/
theorem misread_four :
    Misread (.aggregate "A" [intType]) (.aggregate "Aint" []) (.aggregate [.int 5]) ∧
    Misread (.aggregate "A" [.sequence "vector<B>" (.aggregate "B" [charType]), intType])
      (.aggregate "A" [.sequence "vector<B>" (.aggregate "B" [charType, intType])]) (.aggregate [.list [], .int 7]) ∧
    Misread (.aggregate "C" [intType]) (.sequence "C" intType) (.aggregate [.int 1]) ∧
    Misread (.sequence "vector<char>" charType) (.sequence "vector<char>" charType)
      (.list (List.replicate 4294967296 (.int 0))) := by
  refine ⟨⟨by decide, by decide, not_consumed (by decide)⟩, ⟨by decide, by decide, not_consumed (by decide)⟩,
    ⟨by decide, by decide, not_consumed (by decide)⟩, misread_large⟩

end Erl.Reflect
