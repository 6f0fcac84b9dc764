import Erl.Rpc.Dispatch

/-!
# Remote methods

`FunctionDispatcher` decodes the arguments at the declared parameter types, calls the
method and encodes its result (`_impl/rpc/proxy.hpp`). On the request of a call with
small enough arguments this is the call itself, and the client reads its result from the
response.
-/

namespace Erl.Rpc
open Reflect Decoding Message

/-- The value of a method that returns `result`; `none` is `void`. -/
def admitsResult (order : Containers) : Option Ty → Option Val → Bool
  | none, none => true
  | some t, some v => t.admits order v
  | _, _ => false

/-- A method of a service with state `σ`: it returns normally, with a value of its type. -/
structure Method (σ : Type) (order : Containers) where
  params : List Ty
  result : Option Ty
  body : σ → List Val → Option Val × σ
  proper : Ty.properAll params = true ∧ ∀ t ∈ result, t.proper = true
  returns : ∀ s args, Ty.admitsAll order params args = true → admitsResult order result (body s args).1 = true

section
variable {σ : Type} {order : Containers}

/-- What a response carries. -/
def Method.carried (m : Method σ order) (value : Option Val) : Option (Ty × Val) :=
  match m.result, value with
  | some t, some v => some (t, v)
  | _, _ => none

/-- `FunctionDispatcher::eval`. -/
def Method.eval (m : Method σ order) (h : Host) (data : List UInt8) : Serving σ (Option Val) :=
  match decode (deserializeAll order h m.params) ⟨data, 0⟩ with
  | .error f => throw f
  | .ok (args, _) => fun s => ((.ok (m.body s args).1, (m.body s args).2) : Except Failure (Option Val) × σ)

/-- `FunctionDispatcher::dispatch`. -/
def Method.dispatch (m : Method σ order) (h : Host) (index : Nat) (data : List UInt8) : Serving σ Message := do
  let value ← m.eval h data
  pure (makeResponse h index (m.carried value))

/-- `FunctionDispatcher::dispatch` with a message of type `T`. -/
def Method.respond (m : Method σ order) (T : MessageType) (h : Host) (index : Nat) (data : List UInt8) :
    Serving σ Message := do
  let value ← m.eval h data
  ExceptT.mk (pure (build T (responseCalls h index (m.carried value))))

/-- The dispatcher's members: method `i` answers with index `i`. -/
def members (h : Host) (methods : List (Method σ order)) : List (Handler σ) :=
  methods.mapIdx fun i m => m.dispatch h i

/-- The same with messages of type `T`. -/
def answering (T : MessageType) (h : Host) (methods : List (Method σ order)) : List (Handler σ) :=
  methods.mapIdx fun i m => m.respond T h i

theorem decode_ok {α : Type} {r : Reader α} {view : MessageView} {x : α × MessageView} (h : r view = .ok x) :
    decode r view = .ok x := by
  rw [decode, h]
  rfl

/-- Whatever its arguments are encoded as, a method is called with what they decode to. -/
theorem Method.dispatch_eq (m : Method σ order) (h : Host) (index : Nat) {data : List UInt8} {args : List Val}
    {view : MessageView} (decoded : deserializeAll order h m.params ⟨data, 0⟩ = .ok (args, view)) (s : σ) :
    (m.dispatch h index data).run s =
      (.ok (makeResponse h index (m.carried (m.body s args).1)), (m.body s args).2) := by
  simp only [Method.dispatch, Method.eval, decode_ok decoded]
  rfl

/-- A request starts with its index. -/
theorem request_eq (h : Host) (index : Nat) (ts : List Ty) (args : List Val) :
    request h index ts args = uint32.kind.image (index % 2 ^ 32 : Nat) ++ encodeAll h ts args := by
  rw [request, requestCalls, written_append, serializeIndex, written_serializeInt]
  rfl

theorem request_ne_nil (h : Host) (index : Nat) (ts : List Ty) (args : List Val) : request h index ts args ≠ [] := by
  intro empty
  have size := congrArg List.length empty
  rw [request_eq, List.length_append, IntKind.length_image] at size
  exact absurd size (by simp [uint32, IntKind.size, Width.bytes])

variable {methods : List (Method σ order)} {m : Method σ order} {index : Nat}

/-- Whatever stands behind the index of a message goes to the handler the index names. -/
theorem dispatch_of_handler {members : List (Handler σ)} {member : Handler σ} (server : Host)
    (small : members.length ≤ 256) (found : members[index]? = some member) (payload : List UInt8) :
    dispatch server members (uint32.kind.image (index % 2 ^ 32 : Nat) ++ payload) = member payload := by
  have bound : index < members.length := (List.getElem?_eq_some_iff.mp found).1
  have fits : index < 2 ^ 32 := by omega
  rw [Nat.mod_eq_of_lt fits, dispatch_eq fits]
  exact dispatcher_of_handler small found

/-- Dispatching a request is answering with the method the index names. -/
theorem dispatch_request (T : MessageType) (client server : Host) (small : methods.length ≤ 256)
    (found : methods[index]? = some m) (ts : List Ty) (args : List Val) :
    dispatch server (answering T server methods) (request client index ts args) =
      m.respond T server index (encodeAll client ts args) := by
  have member : (answering T server methods)[index]? = some (m.respond T server index) := by
    rw [answering, List.getElem?_mapIdx, found]
    rfl
  rw [request_eq]
  exact dispatch_of_handler server (by rwa [answering, List.length_mapIdx]) member _

theorem makeResponse_of_calls (h : Host) (index : Nat) (value : Option (Ty × Val)) :
    makeResponse h index value = written (responseCalls h index value) := by
  cases value <;> rfl

/-- A method whose response fits into a message answers with it. -/
theorem Method.respond_eq (m : Method σ order) (T : MessageType) (h : Host) (index : Nat) {data : List UInt8}
    {args : List Val} {view : MessageView} (decoded : deserializeAll order h m.params ⟨data, 0⟩ = .ok (args, view)) {s : σ}
    (fillable : Fillable 0 (responseCalls h index (m.carried (m.body s args).1))) :
    (m.respond T h index data).run s =
      (.ok (makeResponse h index (m.carried (m.body s args).1)), (m.body s args).2) := by
  have built := build_eq T fillable
  rw [← makeResponse_of_calls] at built
  simp only [Method.respond, Method.eval, decode_ok decoded]
  show ((build T _ : Except Failure Message), _) = _
  rw [built]

/-- The index alone fits into every message. -/
theorem Method.respond_of_void (m : Method σ order) (void : m.result = none) (T : MessageType) (h : Host) (index : Nat) :
    m.respond T h index = m.dispatch h index := by
  have carried (value : Option Val) : m.carried value = none := by simp only [Method.carried, void]
  have fillable : Fillable 0 (responseCalls h index none) := by
    apply Fillable.of_sum
    rw [responseCalls, serializeIndex, sum_serializeInt]
    decide
  funext data
  simp only [Method.respond, Method.dispatch, carried, build_eq T fillable, ← makeResponse_of_calls]
  rfl

/-- **One call.** The server answers the request of a call as if the method had been
called directly. -/
theorem dispatch_call (T : MessageType) (client server : Host) (small : methods.length ≤ 256)
    (found : methods[index]? = some m) {args : List Val} (typed : Ty.admitsAll order m.params args = true)
    (fits : Val.smallAll args = true) {s : σ}
    (fillable : Fillable 0 (responseCalls server index (m.carried (m.body s args).1))) :
    (dispatch server (answering T server methods) (request client index m.params args)).run s =
      (.ok (makeResponse server index (m.carried (m.body s args).1)), (m.body s args).2) := by
  rw [dispatch_request T client server small found]
  have image := wireAll_serializeAll client m.params args m.proper.1 typed fits
  exact m.respond_eq T server index ((denotes_deserializeAll order server m.params).decodes_all_iff.mpr image) fillable

theorem makeResponse_eq (h : Host) (index : Nat) (value : Option (Ty × Val)) :
    makeResponse h index value =
      uint32.kind.image (index % 2 ^ 32 : Nat) ++ (value.map fun r => encode h r.1 r.2).getD [] := by
  cases value with
  | none => rw [makeResponse, serializeIndex, written_serializeInt, Option.map_none, Option.getD_none, List.append_nil]
  | some r =>
    rw [makeResponse, written_append, serializeIndex, written_serializeInt]
    rfl

/-- The client reads the result of the method from the response. -/
theorem readResponse_makeResponse (client server : Host) (m : Method σ order) (index : Nat) {value : Option Val}
    (typed : admitsResult order m.result value = true) (fits : ∀ v ∈ value, v.small = true) :
    readResponse order client m.result index (makeResponse server index (m.carried value)) = .ok value := by
  have bound : index % 2 ^ 32 < 2 ^ 32 := Nat.mod_lt _ (by decide)
  cases result : m.result with
  | none =>
    cases value with
    | none =>
      have carried : m.carried none = none := by simp only [Method.carried, result]
      rw [carried, makeResponse_eq, readResponse, decode_index bound]
      simp [Bind.bind, Except.bind, Pure.pure, Except.pure]
    | some v => simp [result, admitsResult] at typed
  | some t =>
    cases value with
    | none => simp [result, admitsResult] at typed
    | some v =>
      have carried : m.carried (some v) = some (t, v) := by simp only [Method.carried, result]
      rw [result] at typed
      have image := wire_serialize server t v (m.proper.2 t (result ▸ rfl)) typed (fits v rfl)
      have decoded := (denotes_deserialize order client t).decodes image
        (uint32.kind.image (index % 2 ^ 32 : Nat)) []
      rw [List.append_nil] at decoded
      rw [carried, makeResponse_eq, readResponse, decode_index bound]
      simp only [Bind.bind, Except.bind, Pure.pure, Except.pure, ne_eq, not_true_eq_false, if_false, Option.map_some,
        Option.getD_some, decode_ok decoded]

end

end Erl.Rpc
