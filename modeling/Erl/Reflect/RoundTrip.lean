import Erl.Reflect.Wire

/-!
# Decoding undoes encoding

The encoders write an image of the value they are given, on every host. With the
language of the decoders this is the round trip, wherever the bytes stand in a message
and whichever hosts write and read it.
-/

namespace Erl.Reflect
open Decoding Ordered

@[simp] theorem written_append (cs ds : List Call) : written (cs ++ ds) = written cs ++ written ds :=
  List.flatMap_append

@[simp] theorem written_reserve (n : Nat) (cs : List Call) : written (reserveBytes n :: cs) = written cs := rfl

theorem written_flatMap {α : Type} (f : α → List Call) (as : List α) :
    written (as.flatMap f) = as.flatMap fun a => written (f a) := List.flatMap_assoc

theorem encodeAll_eq_flatMap (h : Host) (ts : List Ty) (vs : List Val) :
    encodeAll h ts vs = (ts.zip vs).flatMap fun p => encode h p.1 p.2 := by
  induction ts generalizing vs with
  | nil => cases vs <;> rfl
  | cons t ts ih =>
    cases vs with
    | nil => rfl
    | cons v vs => rw [encodeAll, serializeAll, written_append, List.zip_cons_cons, List.flatMap_cons, ← ih]; rfl

/-- Distinct alternatives are told apart by their types. -/
theorem selected_eq {ts : List Ty} (distinct : ts.Nodup) (i : Nat) : selected ts i = i := by
  unfold selected
  cases found : ts[i]? with
  | none => rfl
  | some t =>
    obtain ⟨bound, rfl⟩ := List.getElem?_eq_some_iff.mp found
    exact distinct.idxOf_getElem i bound

theorem Ty.admitsAt_lt {order : Containers} {ts : List Ty} {i : Nat} {v : Val} (h : Ty.admitsAt order ts i v = true) :
    i < ts.length := by
  induction ts generalizing i with
  | nil => simp [Ty.admitsAt] at h
  | cons t ts ih =>
    cases i with
    | zero => exact Nat.succ_pos _
    | succ i => exact Nat.succ_lt_succ (ih h)

section
variable {order : Containers} (h : Host)

/-- What is written for the elements of an array or a container. -/
theorem each_flatMap {t : Ty} {vs : List Val}
    (element : ∀ v ∈ vs, Wire order t (encode h t v) v) :
    Each (Wire order t) (written (vs.flatMap (serialize h t))) vs := by
  rw [written_flatMap]
  exact Each.flatMap element

/-- The length prefix of a container that is small enough. -/
theorem written_size {vs : List Val} (small : vs.length < 2 ^ 32) :
    written (serializeInt h uint32.kind (vs.length % 2 ^ 32 : Nat)) = uint32.kind.image vs.length := by
  rw [written_serializeInt, Nat.mod_eq_of_lt small]

mutual
/-- The encoders write an image of the value. -/
theorem wire_serialize (t : Ty) (v : Val) (proper : t.proper = true) (typed : t.admits order v = true)
    (small : v.small = true) : Wire order t (encode h t v) v := by
  cases t with
  | integral t =>
    cases v <;> simp only [Ty.admits, Bool.false_eq_true, decide_eq_true_eq] at typed
    rw [Wire, encode, serialize, written_serializeInt]
    exact ⟨_, typed, rfl, rfl⟩
  | enumeration name t =>
    cases v <;> simp only [Ty.admits, Bool.false_eq_true, decide_eq_true_eq] at typed
    rw [Wire, encode, serialize, written_serializeInt]
    exact ⟨_, typed, rfl, rfl⟩
  | pair a b =>
    cases v <;> simp only [Ty.admits, Bool.false_eq_true, Bool.and_eq_true] at typed
    simp only [Ty.proper, Bool.and_eq_true] at proper
    simp only [Val.small, Bool.and_eq_true] at small
    rw [Wire, encode, serialize, written_append]
    exact ⟨_, _, _, _, rfl, wire_serialize a _ proper.1 typed.1 small.1, wire_serialize b _ proper.2 typed.2 small.2,
      rfl⟩
  | aggregate name ts =>
    cases v <;> simp only [Ty.admits, Bool.false_eq_true] at typed
    rw [Wire, encode, serialize]
    exact ⟨_, wireAll_serializeAll ts _ proper typed small, rfl⟩
  | variant ts =>
    cases v <;> simp only [Ty.admits, Bool.false_eq_true] at typed
    rename_i i v
    simp only [Ty.proper, Bool.and_eq_true, decide_eq_true_eq] at proper
    have index := Ty.admitsAt_lt typed
    rw [Wire, encode, serialize, written_append, written_serializeInt]
    exact ⟨i, v, _, by omega, rfl, wireAt_serializeAt ts i v proper.2 typed small, by rw [selected_eq proper.1.1]⟩
  | array t n =>
    cases v <;> simp only [Ty.admits, Bool.false_eq_true, Bool.and_eq_true, decide_eq_true_eq, List.all_eq_true] at typed
    rename_i vs
    simp only [Val.small, Bool.and_eq_true, decide_eq_true_eq, Val.smallAll_iff] at small
    obtain ⟨rfl, typed⟩ := typed
    rw [Wire, encode, serialize, written_reserve]
    refine ⟨vs, small.1, rfl, each_flatMap h ?_, rfl⟩
    intro v hv
    exact wire_serialize t v proper (typed v hv) (small.2 v hv)
  | sequence name t =>
    cases v <;> simp only [Ty.admits, Bool.false_eq_true, List.all_eq_true] at typed
    rename_i vs
    simp only [Val.small, Bool.and_eq_true, decide_eq_true_eq, Val.smallAll_iff] at small
    rw [Wire, encode, serialize, written_append, written_size h small.1, written_reserve]
    refine ⟨vs, _, small.1, rfl, each_flatMap h ?_, rfl⟩
    intro v hv
    exact wire_serialize t v proper (typed v hv) (small.2 v hv)
  | ordered name t =>
    cases v <;> simp only [Ty.admits, Bool.false_eq_true, Bool.and_eq_true, decide_eq_true_eq, List.all_eq_true] at typed
    rename_i vs
    simp only [Val.small, Bool.and_eq_true, decide_eq_true_eq, Val.smallAll_iff] at small
    rw [Wire, encode, serialize, written_append, written_size h small.1, written_reserve]
    refine ⟨vs, _, small.1, rfl, each_flatMap h ?_, by rw [Comparator.ofRange_of_sorted typed.2]⟩
    intro v hv
    exact wire_serialize t v proper (typed.1 v hv) (small.2 v hv)

theorem wireAll_serializeAll (ts : List Ty) (vs : List Val) (proper : Ty.properAll ts = true)
    (typed : Ty.admitsAll order ts vs = true) (small : Val.smallAll vs = true) :
    WireAll order ts (encodeAll h ts vs) vs := by
  cases ts with
  | nil =>
    cases vs with
    | nil => exact ⟨rfl, rfl⟩
    | cons => simp [Ty.admitsAll] at typed
  | cons t ts =>
    cases vs with
    | nil => simp [Ty.admitsAll] at typed
    | cons v vs =>
      simp only [Ty.admitsAll, Bool.and_eq_true] at typed
      simp only [Ty.properAll, Bool.and_eq_true] at proper
      simp only [Val.smallAll, Bool.and_eq_true] at small
      rw [WireAll, encodeAll, serializeAll, written_append]
      exact ⟨v, vs, _, _, rfl, wire_serialize t v proper.1 typed.1 small.1,
        wireAll_serializeAll ts vs proper.2 typed.2 small.2, rfl⟩

theorem wireAt_serializeAt (ts : List Ty) (i : Nat) (v : Val) (proper : Ty.properAll ts = true)
    (typed : Ty.admitsAt order ts i v = true) (small : v.small = true) :
    WireAt order ts i (written (serializeAt h ts i v)) v := by
  cases ts with
  | nil => simp [Ty.admitsAt] at typed
  | cons t ts =>
    simp only [Ty.properAll, Bool.and_eq_true] at proper
    cases i with
    | zero => exact wire_serialize t v proper.1 typed small
    | succ i => exact wireAt_serializeAt ts i v proper.2 typed small
end

end

/-- **Round trip.** On any two hosts, decoding what was encoded for a value of the type
gives the value back and leaves the cursor at the first byte behind it, whatever stands
before and behind. -/
theorem deserialize_serialize (order : Containers) (writer reader : Host) (t : Ty) (v : Val)
    (proper : t.proper = true) (typed : t.admits order v = true) (small : v.small = true) (before rest : List UInt8) :
    deserialize order reader t ⟨before ++ encode writer t v ++ rest, before.length⟩ =
      .ok (v, ⟨before ++ encode writer t v ++ rest, before.length + (encode writer t v).length⟩) :=
  (denotes_deserialize order reader t).decodes (wire_serialize writer t v proper typed small) before rest

/-- A record of a variant and a set of integers, written on a big-endian host and read on
a little-endian one. -/
theorem deserialize_serialize_record :
    let order : Containers := fun _ => .byKey (fun | .int i => i | _ => 0) true
    let int : Ty := .integral ⟨"int", .signed .w32⟩
    let t : Ty := .aggregate "record" [.variant [int, .pair int (.integral ⟨"bool", .bool⟩)], .ordered "set<int>" int]
    let v : Val := .aggregate [.variant 1 (.pair (.int (-2)) (.int 1)), .list [.int 3, .int 500]]
    let bytes := encode ⟨.big, fun _ => 4⟩ t v
    bytes.length = 25 ∧ deserialize order ⟨.little, fun _ => 4⟩ t ⟨bytes ++ [7], 0⟩ = .ok (v, ⟨bytes ++ [7], 25⟩) := by
  intro order int t v bytes
  have size : bytes.length = 25 := by decide
  have decoded := deserialize_serialize order ⟨.big, fun _ => 4⟩ ⟨.little, fun _ => 4⟩ t v (by decide) (by decide)
    (by decide) [] [7]
  rw [List.nil_append, List.length_nil, Nat.zero_add, size] at decoded
  exact ⟨size, decoded⟩

end Erl.Reflect
