import Erl.Reflect.Decoded
import Erl.Rpc.Order

/-!
# Messages nobody wrote

`RPCProtocol::dispatch` takes any bytes (`_impl/rpc/protocol.hpp`). The check in
`MessageView::read` (`_impl/net/message/reader.hpp`) is commented out, a variant whose
index names no alternative is returned unconstructed (`erl/reflect`), and the only error
`dispatch` reports is an opcode behind the switch. Every other message that does not
start with an index and an image of the parameters of its method ends in undefined
behaviour.
-/

namespace Erl.Rpc
open Reflect Decoding Scheduling

section
variable {σ : Type} {order : Containers}

/-- `FunctionDispatcher::dispatch` with the arguments decoded in the order `π`. -/
def Method.dispatchIn (m : Method σ order) (h : Host) (π : Schedule m.params.length) (index : Nat) (data : List UInt8) :
    Serving σ Message :=
  match evalArguments order h m.params π data with
  | .error f => throw f
  | .ok args => fun s =>
    ((.ok (makeResponse h index (m.carried (m.body s args).1)), (m.body s args).2) : Except Failure Message × σ)

/-- The dispatcher's members, each with an order of its own. -/
def membersIn (h : Host) (π : (m : Method σ order) → Schedule m.params.length) (methods : List (Method σ order)) :
    List (Handler σ) :=
  methods.mapIdx fun i m => m.dispatchIn h (π m) i

theorem Method.dispatchIn_leftToRight (m : Method σ order) (h : Host) (index : Nat) :
    m.dispatchIn h (.leftToRight _) index = m.dispatch h index := by
  funext data s
  simp only [Method.dispatch, Method.eval_eq, Method.dispatchIn]
  cases evalArguments order h m.params (.leftToRight _) data <;> rfl

/-- From left to right, the members are those of `members`. -/
theorem membersIn_leftToRight (h : Host) (methods : List (Method σ order)) :
    membersIn h (fun _ => .leftToRight _) methods = members h methods := by
  simp only [membersIn, members, Method.dispatchIn_leftToRight]

/-- What `dispatch` may come to: it has read inside the message and has either called a
method with decoded arguments of its parameter types and encoded the result, or thrown an
exception and left the service alone. -/
inductive Handled (h : Host) (π : (m : Method σ order) → Schedule m.params.length) (methods : List (Method σ order))
    (message : List UInt8) (s : σ) : Except Failure Message × σ → Prop
  | called (index : Nat) (m : Method σ order) (args : List Val) (view : MessageView)
      (hindex : deserializeIndex h ⟨message, 0⟩ = .ok ((index : Int), ⟨message, uint32.kind.size⟩))
      (hindexInside : uint32.kind.size ≤ message.length) (hfound : methods[index]? = some m)
      (hread : deserializeArgs order h m.params (π m) ⟨payload message, 0⟩ = .ok (args, view))
      (hinside : view.cursor ≤ (payload message).length) (htyped : Ty.admitsAll order m.params args = true) :
      Handled h π methods message s (.ok (makeResponse h index (m.carried (m.body s args).1)), (m.body s args).2)
  | reported (what : String) (hindexInside : uint32.kind.size ≤ message.length) :
      Handled h π methods message s (.error (.outOfRange what), s)

/-- The message starts with an opcode. Either the opcode has a handler, and the bytes
behind it start with an image of values of the parameter types, in the order they are
decoded in, or it stands behind the labels of the switch. -/
def WellFormed (π : (m : Method σ order) → Schedule m.params.length) (methods : List (Method σ order))
    (message : List UInt8) : Prop :=
  ∃ (index : Nat) (rest : List UInt8), index < 2 ^ 32 ∧ message = uint32.kind.image index ++ rest ∧
    ((∃ m w tail args, methods[index]? = some m ∧ rest = w ++ tail ∧
      WireAll order ((π m).arrange m.params) w args) ∨
    switchSize methods.length ≤ index)

end

/-! ## One message -/

section
variable {σ : Type} {order : Containers} {h : Host} {π : (m : Method σ order) → Schedule m.params.length}
  {methods : List (Method σ order)} {message : List UInt8} {s : σ}

/-- The opcode is read, or the message is too short for it. -/
theorem index_cases (h : Host) (message : List UInt8) :
    (∃ f, decode (deserializeIndex h) ⟨message, 0⟩ = .error (.fault f)) ∨
      ∃ (index : Nat) (rest : List UInt8), index < 2 ^ 32 ∧ message = uint32.kind.image index ++ rest := by
  cases hread : deserializeIndex h ⟨message, 0⟩ with
  | error f =>
    left
    refine ⟨f, ?_⟩
    rw [decode, hread]
    rfl
  | ok x =>
    right
    obtain ⟨i, view⟩ := x
    obtain ⟨w, rest, hsplit, ⟨range, rfl⟩, -⟩ :=
      (denotes_deserializeInt h uint32.kind).exists_split (Nat.zero_le _) hread
    obtain ⟨index, hbound, rfl⟩ := inRange_unsigned_iff.mp range
    exact ⟨index, rest, hbound, hsplit⟩

theorem fault_of_evalArguments {ts : List Ty} {τ : Schedule ts.length} {data : List UInt8} {e : Failure}
    (hfail : evalArguments order h ts τ data = .error e) : ∃ f, e = .fault f := by
  unfold evalArguments decode at hfail
  cases hread : deserializeArgs order h ts τ ⟨data, 0⟩ with
  | error f =>
    rw [hread] at hfail
    cases hfail
    exact ⟨f, rfl⟩
  | ok x =>
    rw [hread] at hfail
    cases hfail

theorem getElem?_membersIn {index : Nat} {m : Method σ order} (hfound : methods[index]? = some m) :
    (membersIn h π methods)[index]? = some (m.dispatchIn h (π m) index) := by
  rw [membersIn, List.getElem?_mapIdx, hfound]
  rfl

theorem length_membersIn : (membersIn h π methods).length = methods.length := List.length_mapIdx

/-- The arguments can be decoded exactly if the payload starts with an image of some. -/
theorem evalArguments_isOk_iff {ts : List Ty} {τ : Schedule ts.length} {data : List UInt8} :
    (∃ args, evalArguments order h ts τ data = .ok args) ↔
      ∃ w tail args, data = w ++ tail ∧ WireAll order (τ.arrange ts) w args := by
  unfold evalArguments
  simp only [decode_fst_iff (denotes_deserializeArgs ts τ)]
  constructor
  · rintro ⟨args, w, tail, hdata, -, image⟩
    exact ⟨w, tail, τ.arrange args, hdata, image⟩
  · rintro ⟨w, tail, args, hdata, image⟩
    have hlength : args.length = ts.length := by rw [length_of_wireAll image, τ.length_arrange rfl]
    exact ⟨τ.restore args, w, tail, hdata, τ.length_restore hlength, by rwa [τ.arrange_restore hlength]⟩

/-- Decoded arguments are of the parameter types. -/
theorem admitsAll_of_deserializeArgs {ts : List Ty} {τ : Schedule ts.length} (proper : Ty.properAll ts = true)
    {data : List UInt8} {args : List Val} {view : MessageView}
    (hread : deserializeArgs order h ts τ ⟨data, 0⟩ = .ok (args, view)) : Ty.admitsAll order ts args = true := by
  obtain ⟨w, rest, -, ⟨hlength, image⟩, -⟩ := (denotes_deserializeArgs ts τ).exists_split (Nat.zero_le _) hread
  have hproper : Ty.properAll (τ.arrange ts) = true := by
    rw [Ty.properAll_iff] at proper ⊢
    intro t ht
    exact proper t ((τ.arrange_perm rfl).mem_iff.mp ht)
  have htyped := WireAll.admits _ w _ hproper image
  have hzip : (ts.zip args).length = ts.length := by rw [List.length_zip, hlength, Nat.min_self]
  rw [Ty.admitsAll_iff (by rw [τ.length_arrange rfl, τ.length_arrange hlength]), τ.arrange_zip rfl hlength] at htyped
  rw [Ty.admitsAll_iff hlength]
  intro p hp
  exact htyped p ((τ.arrange_perm hzip).mem_iff.mpr hp)

theorem handled_of_wellFormed (small : methods.length ≤ 256) (hwell : WellFormed π methods message) :
    Handled h π methods message s ((dispatch h (membersIn h π methods) message).run s) := by
  obtain ⟨index, rest, hbound, rfl, hcase⟩ := hwell
  have hinside : uint32.kind.size ≤ (uint32.kind.image index ++ rest).length := by
    rw [List.length_append, IntKind.length_image]
    exact Nat.le_add_right _ _
  rw [dispatch_eq hbound]
  rcases hcase with ⟨m, w, tail, values, hfound, hrest, image⟩ | habove
  · rw [dispatcher_of_handler (by rwa [length_membersIn]) (getElem?_membersIn hfound)]
    obtain ⟨args, hargs⟩ := evalArguments_isOk_iff.mpr ⟨w, tail, values, hrest, image⟩
    have hpayload : payload (uint32.kind.image index ++ rest) = rest := List.drop_left' (IntKind.length_image ..)
    cases hread : decode (deserializeArgs order h m.params (π m)) ⟨rest, 0⟩ with
    | error f =>
      rw [evalArguments, hread] at hargs
      cases hargs
    | ok x =>
      obtain ⟨read, view⟩ := x
      rw [evalArguments, hread] at hargs
      cases hargs
      have hok := eq_ok_of_decode hread
      have hrun : (m.dispatchIn h (π m) index rest).run s =
          (.ok (makeResponse h index (m.carried (m.body s read).1)), (m.body s read).2) := by
        rw [Method.dispatchIn, evalArguments, hread]
        rfl
      rw [hrun]
      refine .called index m read view ?_ hinside hfound (by rw [hpayload]; exact hok) ?_
        (admitsAll_of_deserializeArgs m.proper.1 hok)
      · have hindex : decode (deserializeIndex h) ⟨uint32.kind.image index ++ rest, 0⟩ = .ok (index, _) :=
          decode_index hbound
        rw [IntKind.length_image] at hindex
        exact eq_ok_of_decode hindex
      · rw [hpayload]
        obtain ⟨hbuffer, -, hcursor⟩ := (denotes_deserializeArgs m.params (π m)).cursor_le (Nat.zero_le _) hok
        rwa [hbuffer] at hcursor
  · rw [dispatcher_of_behind (by rwa [length_membersIn])]
    exact .reported _ hinside

/-- A message that is not well formed makes a decoder break the rules of the language or
reaches `std::unreachable()`. -/
theorem dispatch_of_not_wellFormed (small : methods.length ≤ 256) (hmal : ¬ WellFormed π methods message) :
    ∃ e, (dispatch h (membersIn h π methods) message).run s = (.error e, s) ∧ ((∃ f, e = .fault f) ∨ e = .unreachable) := by
  rcases index_cases h message with ⟨f, hshort⟩ | ⟨index, rest, hbound, rfl⟩
  · refine ⟨.fault f, ?_, .inl ⟨f, rfl⟩⟩
    rw [dispatch, hshort]
    rfl
  · rw [dispatch_eq hbound]
    rcases Nat.lt_or_ge index methods.length with hlt | hge
    · have hfound := List.getElem?_eq_getElem hlt
      rw [dispatcher_of_handler (by rwa [length_membersIn]) (getElem?_membersIn hfound), Method.dispatchIn]
      cases hargs : evalArguments order h methods[index].params (π methods[index]) rest with
      | error e => exact ⟨e, rfl, .inl (fault_of_evalArguments hargs)⟩
      | ok args =>
        obtain ⟨w, tail, values, hrest, image⟩ := evalArguments_isOk_iff.mp ⟨args, hargs⟩
        exact absurd ⟨index, rest, hbound, rfl, .inl ⟨_, w, tail, values, hfound, hrest, image⟩⟩ hmal
    · rcases Nat.lt_or_ge index (switchSize methods.length) with hgap | habove
      · rw [dispatcher_of_gap (by rwa [length_membersIn]) (by rwa [length_membersIn])]
        exact ⟨.unreachable, rfl, .inr rfl⟩
      · exact absurd ⟨index, rest, hbound, rfl, .inr habove⟩ hmal

/-- **Malformed messages.** Whatever bytes arrive, for every service, every state and all
orders in which the arguments are decoded: `dispatch` calls a method with decoded
arguments or reports an error, reading inside the message only, exactly if the message is
well formed. -/
theorem handled_iff (h : Host) (π : (m : Method σ order) → Schedule m.params.length) (methods : List (Method σ order))
    (message : List UInt8) (s : σ) (small : methods.length ≤ 256) :
    Handled h π methods message s ((dispatch h (membersIn h π methods) message).run s) ↔ WellFormed π methods message := by
  constructor
  · intro hhandled
    by_contra hmal
    obtain ⟨e, hrun, hfault⟩ := dispatch_of_not_wellFormed (h := h) (s := s) small hmal
    rw [hrun] at hhandled
    cases hhandled with
    | reported what hinside => rcases hfault with ⟨f, hfault⟩ | hfault <;> cases hfault
  · exact handled_of_wellFormed small

end

/-- `void store(std::variant<int, bool> value)`. -/
def store (order : Containers) : Method (List Val) order where
  params := [.variant [.integral ⟨"int", .signed .w32⟩, .integral ⟨"bool", .bool⟩]]
  result := none
  body s args := (none, s ++ args)
  proper := ⟨by decide, nofun⟩
  returns _ _ _ := rfl

/-- A message longer than it has to be, and an opcode behind the switch. -/
theorem handled_store :
    let order : Containers := fun _ => .byKey (fun _ => 0) true
    let host : Host := ⟨.little, fun _ => 8⟩
    let π (m : Method (List Val) order) : Schedule m.params.length := .rightToLeft _
    let run (message : List UInt8) := (dispatch host (membersIn host π [store order]) message).run []
    let long : List UInt8 := [0, 0, 0, 0, 1, 0, 0, 0, 0, 0, 0, 0, 1, 99]
    Handled host π [store order] long [] (run long) ∧ Handled host π [store order] [4, 0, 0, 0] [] (run [4, 0, 0, 0]) := by
  intro order host π run long
  constructor
  · refine (handled_iff host π [store order] long [] (by decide)).mpr ?_
    refine ⟨0, [1, 0, 0, 0, 0, 0, 0, 0, 1, 99], by decide, rfl, .inl ⟨store order, [1, 0, 0, 0, 0, 0, 0, 0, 1], [99],
      [.variant 1 (.int 1)], rfl, rfl, ?_⟩⟩
    have harrange : (π (store order)).arrange (store order).params = (store order).params := rfl
    have image : WireAll order (store order).params _ [.variant 1 (.int 1)] :=
      wireAll_serializeAll host _ _ (store order).proper.1 rfl rfl
    have hbytes : encodeAll host (store order).params [.variant 1 (.int 1)] = [1, 0, 0, 0, 0, 0, 0, 0, 1] := by decide
    rw [harrange, ← hbytes]
    exact image
  · exact (handled_iff host π [store order] [4, 0, 0, 0] [] (by decide)).mpr ⟨4, [], by decide, rfl, .inr (by decide)⟩

/-- A message without its last byte, and one with an index that names no alternative. -/
theorem not_handled_store :
    let order : Containers := fun _ => .byKey (fun _ => 0) true
    let host : Host := ⟨.little, fun _ => 8⟩
    let π (m : Method (List Val) order) : Schedule m.params.length := .leftToRight _
    let run (message : List UInt8) := (dispatch host (membersIn host π [store order]) message).run []
    let short : List UInt8 := [0, 0, 0, 0, 0, 0, 0, 0, 0, 0, 0, 0, 1, 0, 0]
    let astray : List UInt8 := [0, 0, 0, 0, 2, 0, 0, 0, 0, 0, 0, 0, 1, 0, 0, 0]
    run short = (.error (.fault .overRead), []) ∧ ¬ Handled host π [store order] short [] (run short) ∧
      run astray = (.error (.fault .noAlternative), []) ∧ ¬ Handled host π [store order] astray [] (run astray) := by
  intro order host π run short astray
  have hshort : run short = (.error (.fault .overRead), []) := rfl
  have hastray : run astray = (.error (.fault .noAlternative), []) := rfl
  refine ⟨hshort, ?_, hastray, ?_⟩
  · rw [hshort]
    intro hhandled
    cases hhandled
  · rw [hastray]
    intro hhandled
    cases hhandled

end Erl.Rpc
