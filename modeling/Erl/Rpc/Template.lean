import Erl.Rpc.Order

/-!
# Member function templates called in process

`FunctionTemplateProxy` sends the address of an instance of its `call`, which decodes the
arguments and calls the template on the service; `FunctionTemplateDispatcher` calls the
address (`_impl/rpc/proxy.hpp`). Three instances of the template play a part: the one for
the types of the arguments as passed gives the client its result type, the one for the
same types without references and `const` is called, and the one without template
arguments gives the server its result type. Nothing ties the three together.

Arguments are decoded from left to right.
-/

namespace Erl.Rpc
open Reflect Decoding Scheduling

/-- What stands around the type in a deduced `Args`. -/
inductive Qualifier where
  | none
  | const
  | lvalue
  | constLvalue
deriving DecidableEq, Repr

/-- `Args`, deduced for a parameter `Args&&`. -/
structure ArgType where
  type : Ty
  qualifier : Qualifier
deriving DecidableEq

/-- A member function template whose template arguments are a trailing pack. The policy
takes it only if it can be instantiated without any. -/
structure Template (σ : Type) (order : Containers) where
  /-- `substitute(Meta, ...)`. -/
  substitute : List ArgType → Option (Method σ order)
  /-- The template arguments a direct call deduces. -/
  deduce : List ArgType → Option (List ArgType)
  base : Method σ order
  substitute_nil : substitute [] = some base

/-- Where the program has its instances `FunctionTemplateProxy::call<R, S, Args...>`, and
which one is at an address. -/
structure Image where
  address : Option Ty → List Ty → UInt64
  wrapperAt : UInt64 → Option Ty × List Ty

/-- The instance is part of the program. -/
def Image.Links (image : Image) (R : Option Ty) (ts : List Ty) : Prop := image.wrapperAt (image.address R ts) = (R, ts)

/-- The ways out of a call other than `return`. -/
inductive CallFailure where
  | protocol (f : Failure)
  /-- A function is called through a pointer to a function of another type, which is
  undefined behaviour. -/
  | otherType
deriving DecidableEq, Repr

section
variable {σ : Type} {order : Containers} (T : Template σ order) (cv : Conversions order)

/-- `parameters_of(base).size()`. -/
def Template.skip : Nat := T.base.params.length

/-- `R` of `FunctionTemplateProxy::operator()`; `none` if the call does not compile. -/
def Template.resultType (types : List ArgType) : Option (Option Ty) :=
  (T.substitute (types.drop T.skip)).map Method.result

/-- `return` of a value of type `t` from a function that returns `r`. -/
def convertResult : Option Ty → Option Ty → Option Val → Option (Option Val)
  | none, none, none => some none
  | some t, some r, some v => (implicit cv t r).map fun f => some (f v)
  | _, _, _ => none

/-- What `FunctionTemplateProxy::call<R, S, Args...>` returns, and the service behind it,
if it has decoded `received`. -/
def Template.callTarget (R : Option Ty) (ts : List Ty) (received : List Val) (s : σ) : Option (Option Val × σ) := do
  let target ← T.substitute ((ts.map fun t => ⟨t, .none⟩).drop T.skip)
  let args ← convertAll cv ts target.params received
  let (value, s') := target.body s args
  let result ← convertResult cv target.result R value
  pure (result, s')

/-- `FunctionTemplateProxy::call<R, S, Args...>`. -/
def Template.call (h : Host) (R : Option Ty) (ts : List Ty) (data : List UInt8) (s : σ) :
    Option (Except CallFailure (Option Val) × σ) :=
  match evalArguments order h ts (.leftToRight _) data with
  | .error f => some (.error (.protocol f), s)
  | .ok received => (T.callTarget cv R ts received s).map fun (result, s') => (.ok result, s')

/-- The value of a response. -/
def responseValue (R : Option Ty) (value : Option Val) : Option (Ty × Val) :=
  R.bind fun t => value.map fun v => (t, v)

/-- `FunctionTemplateDispatcher::dispatch`. `fnc_type` returns what the template returns
without template arguments. -/
def Template.dispatch (h : Host) (image : Image) (index : Nat) (data : List UInt8) (s : σ) :
    Option (Except CallFailure Message × σ) :=
  match decode (deserialize order h fnPointer) ⟨data, 0⟩ with
  | .ok (.int wrapper, args) =>
    let (R, ts) := image.wrapperAt (UInt64.ofNat wrapper.toNat)
    if R ≠ T.base.result then some (.error .otherType, s)
    else (T.call cv h R ts (args.buffer.drop args.cursor) s).map fun (result, s') =>
      (result.map fun value => makeResponse h index (responseValue T.base.result value), s')
  | .ok _ => none
  | .error f => some (.error (.protocol f), s)

/-- `FunctionTemplateProxy::operator()` through a `BlockingCall`: what the client returns. -/
def Template.remoteCall (client server : Host) (image : Image) (index : Nat) (types : List ArgType) (args : List Val)
    (s : σ) : Option (Except CallFailure (Option Val)) := do
  let R ← T.resultType types
  let ts := types.map ArgType.type
  let message := request client index (fnPointer :: ts) (.int (image.address R ts).toNat :: args)
  let (reply, _) ← T.dispatch cv server image index (payload message) s
  match reply with
  | .error f => some (.error f)
  | .ok response => some ((readResponse order client R index response).mapError .protocol)

/-- `service.f(args...)`. -/
def Template.directCall (types : List ArgType) (args : List Val) (s : σ) : Option (Option Val × σ) := do
  let deduced ← T.deduce types
  let instance_ ← T.substitute deduced
  let converted ← convertAll cv (types.map ArgType.type) instance_.params args
  pure (instance_.body s converted)

end

/-! ## What arrives -/

/-- The bytes of the arguments start with an image of `received`. -/
def Received (order : Containers) (client : Host) (ts : List Ty) (args received : List Val) : Prop :=
  ∃ w rest, encodeAll client ts args = w ++ rest ∧ WireAll order ts w received

/-- The bytes of the result start with an image of `value`; a `void` result has none. -/
def ResultArrives (order : Containers) (server : Host) : Option Ty → Option Val → Option Val → Prop
  | none, none, value => value = none
  | some r, some x, value => ∃ y w rest, value = some y ∧ encode server r x = w ++ rest ∧ Wire order r w y
  | _, _, _ => False

section
variable {σ : Type} {order : Containers} (T : Template σ order) (cv : Conversions order) (client server : Host)

/-- The result type for the arguments as passed is the one without template arguments, and
the instance for the arguments without references and `const` makes `value` of what the
bytes of the arguments denote. -/
def Template.InstancesAgree (types : List ArgType) (args : List Val) (s : σ) (value : Option Val) : Prop :=
  T.resultType types = some T.base.result ∧
  ∃ received result s', Received order client (types.map ArgType.type) args received ∧
    T.callTarget cv T.base.result (types.map ArgType.type) received s = some (result, s') ∧
    ResultArrives order server T.base.result result value

/-- The remote call returns what the direct call returns. -/
def Template.ReturnsDirect (image : Image) (index : Nat) (types : List ArgType) (args : List Val) (s : σ) : Prop :=
  ∀ value s', T.directCall cv types args s = some (value, s') →
    T.remoteCall cv client server image index types args s = some (.ok value)

end

section
variable {σ : Type} {order : Containers} {T : Template σ order} {cv : Conversions order} {client server : Host}

theorem evalArguments_leftToRight_iff (server : Host) {ts : List Ty} {data : List UInt8} {received : List Val} :
    evalArguments order server ts (.leftToRight _) data = .ok received ↔
      ∃ w rest, data = w ++ rest ∧ WireAll order ts w received := by
  unfold evalArguments
  rw [decode_fst_iff (denotes_deserializeArgs ts _), Schedule.arrange_leftToRight rfl]
  constructor
  · rintro ⟨w, rest, hdata, hlen, image⟩
    rw [Schedule.arrange_leftToRight hlen] at image
    exact ⟨w, rest, hdata, image⟩
  · rintro ⟨w, rest, hdata, image⟩
    have hlen := length_of_wireAll image
    exact ⟨w, rest, hdata, hlen, by rwa [Schedule.arrange_leftToRight hlen]⟩

/-- The server's side of a call, up to the wrapper. -/
theorem Template.dispatch_request {image : Image} (index : Nat) {R : Option Ty} {ts : List Ty} (hlink : image.Links R ts)
    (args : List Val) (s : σ) :
    T.dispatch cv server image index
        (payload (request client index (fnPointer :: ts) (.int (image.address R ts).toNat :: args))) s =
      if R ≠ T.base.result then some (.error .otherType, s)
      else (T.call cv server R ts (encodeAll client ts args) s).map fun (result, s') =>
        (result.map fun value => makeResponse server index (responseValue T.base.result value), s') := by
  unfold Template.dispatch
  rw [payload_request, encodeAll_cons, decode_fnPointer (inRange_word _)]
  have hat : image.wrapperAt (UInt64.ofNat (Int.toNat (image.address R ts).toNat)) = (R, ts) := by
    rw [Int.toNat_natCast, UInt64.ofNat_toNat]
    exact hlink
  simp only [hat, List.drop_left]

theorem isSome_of_convertResult {t r : Option Ty} {v u : Option Val} (h : convertResult cv t r v = some u) :
    u.isSome = r.isSome := by
  cases t <;> cases r <;> cases v <;> simp only [convertResult, reduceCtorEq, Option.some.injEq] at h
  · rw [← h]
    rfl
  · obtain ⟨f, -, rfl⟩ := Option.map_eq_some_iff.mp h
    rfl

/-- What the target makes of the arguments. -/
theorem Template.callTarget_eq_some {R : Option Ty} {ts : List Ty} {received : List Val} {s s' : σ}
    {result : Option Val} (h : T.callTarget cv R ts received s = some (result, s')) :
    ∃ target args, T.substitute ((ts.map fun t => ⟨t, .none⟩).drop T.skip) = some target ∧
      convertAll cv ts target.params received = some args ∧
      convertResult cv target.result R (target.body s args).1 = some result := by
  unfold Template.callTarget at h
  simp only [Option.bind_eq_bind, Option.bind_eq_some_iff, Option.pure_def, Option.some.injEq, Prod.mk.injEq] at h
  obtain ⟨target, htarget, args, hargs, result', hresult, rfl, -⟩ := h
  exact ⟨target, args, htarget, hargs, hresult⟩

theorem Template.isSome_of_callTarget {R : Option Ty} {ts : List Ty} {received : List Val} {s s' : σ}
    {result : Option Val} (h : T.callTarget cv R ts received s = some (result, s')) : result.isSome = R.isSome := by
  obtain ⟨target, args, -, -, hresult⟩ := T.callTarget_eq_some h
  exact isSome_of_convertResult hresult

/-- Reading a response is reading an image of its value. -/
theorem readResponse_iff (order : Containers) (client server : Host) (index : Nat) {R : Option Ty} {result : Option Val} (h : result.isSome = R.isSome)
    (value : Option Val) :
    readResponse order client R index (makeResponse server index (responseValue R result)) = .ok value ↔
      ResultArrives order server R result value := by
  have bound : index % 2 ^ 32 < 2 ^ 32 := Nat.mod_lt _ (by decide)
  cases R with
  | none =>
    cases result with
    | some x => cases h
    | none =>
      rw [makeResponse_eq, readResponse, decode_index bound]
      simp [ResultArrives, bind, Except.bind, pure, Except.pure, eq_comm]
  | some r =>
    cases result with
    | none => cases h
    | some x =>
      have hread := decode_behind_iff (denotes_deserialize order client r)
        (uint32.kind.image (index % 2 ^ 32 : Nat)) (encode server r x)
      rw [makeResponse_eq, readResponse, decode_index bound]
      simp only [bind, Except.bind, pure, Except.pure, ne_eq, not_true_eq_false, if_false, Option.map_some,
        Option.getD_some, responseValue, Option.bind_some, ResultArrives]
      constructor
      · intro hvalue
        split at hvalue
        · cases hvalue
        · rename_i y hdecode
          cases hvalue
          obtain ⟨w, rest, hbytes, image⟩ := (hread y.1).mp (by rw [hdecode]; rfl)
          exact ⟨y.1, w, rest, rfl, hbytes, image⟩
      · rintro ⟨y, w, rest, rfl, hbytes, image⟩
        have hdecode := (hread y).mpr ⟨w, rest, hbytes, image⟩
        split
        · rename_i hfail
          rw [hfail] at hdecode
          cases hdecode
        · rename_i x hok
          rw [hok] at hdecode
          cases hdecode
          rfl

theorem mapError_eq_ok_iff {α : Type} {x : Except Failure α} {a : α} :
    x.mapError CallFailure.protocol = .ok a ↔ x = .ok a := by
  cases x <;> simp [Except.mapError]

/-- A remote call returns a value exactly if the instances agree on it. -/
theorem Template.remoteCall_iff {image : Image} (index : Nat) {types : List ArgType}
    (hlink : ∀ R, T.resultType types = some R → image.Links R (types.map ArgType.type)) (args : List Val) (s : σ)
    (value : Option Val) :
    T.remoteCall cv client server image index types args s = some (.ok value) ↔
      T.InstancesAgree cv client server types args s value := by
  unfold Template.remoteCall Template.InstancesAgree
  cases hR : T.resultType types with
  | none => simp
  | some R =>
    simp only [Option.bind_eq_bind, Option.bind_some, T.dispatch_request index (hlink R hR), Option.some.injEq]
    by_cases hbase : R = T.base.result
    · subst hbase
      simp only [ne_eq, not_true_eq_false, if_false, true_and]
      unfold Template.call
      cases heval : evalArguments order server (types.map ArgType.type) (.leftToRight _)
          (encodeAll client (types.map ArgType.type) args) with
      | error f =>
        constructor
        · intro h
          cases h
        · rintro ⟨received, result, s', hreceived, -⟩
          cases heval.symm.trans ((evalArguments_leftToRight_iff server).mpr hreceived)
      | ok received =>
        have honly : ∀ other, Received order client (types.map ArgType.type) args other → other = received := by
          intro other hother
          cases heval.symm.trans ((evalArguments_leftToRight_iff server).mpr hother)
          rfl
        cases hcall : T.callTarget cv T.base.result (types.map ArgType.type) received s with
        | none =>
          constructor
          · intro h
            simp [hcall] at h
          · rintro ⟨other, result, s', hother, hcall', -⟩
            rw [honly other hother, hcall] at hcall'
            cases hcall'
        | some r =>
          obtain ⟨result, s'⟩ := r
          have hread := readResponse_iff order client server index
            (T.isSome_of_callTarget hcall) value
          simp only [hcall, Option.map_some, Except.map, Option.bind_some, Option.some.injEq]
          rw [mapError_eq_ok_iff, hread]
          constructor
          · intro harrives
            exact ⟨received, result, s', (evalArguments_leftToRight_iff server).mp heval, hcall, harrives⟩
          · rintro ⟨other, result', s'', hother, hcall', harrives⟩
            rw [honly other hother, hcall] at hcall'
            cases hcall'
            exact harrives
    · simp [hbase]

/-- Small arguments are received as they are. -/
theorem received_iff {ts : List Ty} {args received : List Val} (proper : Ty.properAll ts = true)
    (typed : Ty.admitsAll order ts args = true) (small : Val.smallAll args = true) :
    Received order client ts args received ↔ received = args := by
  have hself : Received order client ts args args :=
    ⟨_, [], (List.append_nil _).symm, wireAll_serializeAll client ts args proper typed small⟩
  constructor
  · intro h
    have heval := (evalArguments_leftToRight_iff client).mpr hself
    cases heval.symm.trans ((evalArguments_leftToRight_iff client).mpr h)
    rfl
  · rintro rfl
    exact hself

theorem resultArrives_iff {R : Option Ty} {result value : Option Val} (proper : ∀ t ∈ R, t.proper = true)
    (typed : admitsResult order R result = true) (small : ∀ x ∈ result, x.small = true) :
    ResultArrives order server R result value ↔ value = result := by
  cases R with
  | none =>
    cases result with
    | none => exact Iff.rfl
    | some x => cases typed
  | some r =>
    cases result with
    | none => cases typed
    | some x =>
      have hself := wire_serialize server r x (proper r rfl) typed (small x rfl)
      have hdecode := fun y => decode_fst_iff (denotes_deserialize order server r) (encode server r x) y
      have hx := (hdecode x).mpr ⟨_, [], (List.append_nil _).symm, hself⟩
      constructor
      · rintro ⟨y, w, rest, rfl, hbytes, image⟩
        cases hx.symm.trans ((hdecode y).mpr ⟨w, rest, hbytes, image⟩)
        rfl
      · rintro rfl
        exact ⟨x, _, [], rfl, (List.append_nil _).symm, hself⟩

theorem admits_convertResult {t r : Option Ty} {v u : Option Val} (h : convertResult cv t r v = some u)
    (typed : admitsResult order t v = true) : admitsResult order r u = true := by
  cases t <;> cases r <;> cases v <;> simp only [convertResult, reduceCtorEq, Option.some.injEq] at h
  · rw [← h]
    rfl
  · obtain ⟨f, hf, rfl⟩ := Option.map_eq_some_iff.mp h
    exact implicit_typed cv hf typed

theorem Template.admits_callTarget {R : Option Ty} {ts : List Ty} {received : List Val} {s s' : σ}
    {result : Option Val} (h : T.callTarget cv R ts received s = some (result, s'))
    (typed : Ty.admitsAll order ts received = true) : admitsResult order R result = true := by
  obtain ⟨target, args, -, hargs, hresult⟩ := T.callTarget_eq_some h
  exact admits_convertResult hresult (target.returns s args (convertAll_typed cv hargs typed))

theorem Template.instancesAgree_iff {types : List ArgType} {args : List Val} {s : σ} {value : Option Val}
    (proper : Ty.properAll (types.map ArgType.type) = true)
    (typed : Ty.admitsAll order (types.map ArgType.type) args = true) (small : Val.smallAll args = true)
    (smallResult : ∀ result s', T.callTarget cv T.base.result (types.map ArgType.type) args s = some (result, s') →
      ∀ x ∈ result, x.small = true) :
    T.InstancesAgree cv client server types args s value ↔
      T.resultType types = some T.base.result ∧
      ∃ s', T.callTarget cv T.base.result (types.map ArgType.type) args s = some (value, s') := by
  refine and_congr_right fun _ => ?_
  have harrives : ∀ result s',
      T.callTarget cv T.base.result (types.map ArgType.type) args s = some (result, s') →
      (ResultArrives order server T.base.result result value ↔ value = result) := fun result s' hcall =>
    resultArrives_iff T.base.proper.2 (T.admits_callTarget hcall typed) (smallResult result s' hcall)
  constructor
  · rintro ⟨received, result, s', hreceived, hcall, h⟩
    obtain rfl := (received_iff proper typed small).mp hreceived
    obtain rfl := (harrives result s' hcall).mp h
    exact ⟨s', hcall⟩
  · rintro ⟨s', hcall⟩
    exact ⟨args, value, s', (received_iff proper typed small).mpr rfl, hcall, (harrives value s' hcall).mpr rfl⟩

/-- **Template calls.** A remote call returns what the direct call returns exactly if the
instances agree on that value. For small arguments and results this means: the result type
for the arguments as passed is the one without template arguments, and the instance for the
arguments without references and `const` returns, converted, the same value. -/
theorem Template.returnsDirect_iff {σ : Type} {order : Containers} (T : Template σ order) (cv : Conversions order)
    (client server : Host) (image : Image) (index : Nat) (types : List ArgType) (args : List Val) (s : σ)
    (hlink : ∀ R, T.resultType types = some R → image.Links R (types.map ArgType.type)) :
    (T.ReturnsDirect cv client server image index types args s ↔
      ∀ value s', T.directCall cv types args s = some (value, s') →
        T.InstancesAgree cv client server types args s value) ∧
    (Ty.properAll (types.map ArgType.type) = true → Ty.admitsAll order (types.map ArgType.type) args = true →
      Val.smallAll args = true →
      (∀ result s', T.callTarget cv T.base.result (types.map ArgType.type) args s = some (result, s') →
        ∀ x ∈ result, x.small = true) →
      (T.ReturnsDirect cv client server image index types args s ↔
        ∀ value s', T.directCall cv types args s = some (value, s') →
          T.resultType types = some T.base.result ∧
          ∃ s'', T.callTarget cv T.base.result (types.map ArgType.type) args s = some (value, s''))) := by
  have hreturns : T.ReturnsDirect cv client server image index types args s ↔
      ∀ value s', T.directCall cv types args s = some (value, s') →
        T.InstancesAgree cv client server types args s value :=
    forall_congr' fun value => forall_congr' fun _ => imp_congr_right fun _ =>
      T.remoteCall_iff index hlink args s value
  refine ⟨hreturns, fun proper typed small smallResult => ?_⟩
  rw [hreturns]
  exact forall_congr' fun value => forall_congr' fun _ => imp_congr_right fun _ =>
    T.instancesAgree_iff proper typed small smallResult

end

/-! ## Two templates -/

/-- `std::size_t count(auto... args)`: the result type is always the same. -/
def count (order : Containers) : Template Unit order where
  substitute
    | [] => some ⟨[], some uint64, fun s _ => (some (.int 0), s), ⟨rfl, by simp [uint64, Ty.proper]⟩, fun _ _ _ => rfl⟩
    | [⟨.integral t, _⟩] =>
      some ⟨[.integral t], some uint64, fun s _ => (some (.int 1), s), ⟨rfl, by simp [uint64, Ty.proper]⟩, fun _ _ _ => rfl⟩
    | _ => none
  deduce types := some types
  base := ⟨[], some uint64, fun s _ => (some (.int 0), s), ⟨rfl, by simp [uint64, Ty.proper]⟩, fun _ _ _ => rfl⟩
  substitute_nil := rfl

/-- `auto first(auto... args)`: the first argument, or the `int` 0 if there is none. -/
def first (order : Containers) : Template Unit order where
  substitute
    | [] => some ⟨[], some int, fun s _ => (some (.int 0), s), ⟨rfl, by simp [int, Ty.proper]⟩, fun _ _ _ => rfl⟩
    | [⟨.integral t, _⟩] =>
      some ⟨[.integral t], some (.integral t), fun s args => (args.head?, s), ⟨rfl, by simp [Ty.proper]⟩, by
        intro s args typed
        have hlen : args.length = 1 := Ty.length_of_admitsAll typed
        obtain ⟨v, rfl⟩ := List.length_eq_one_iff.mp hlen
        simpa [Ty.admitsAll, admitsResult] using typed⟩
    | _ => none
  deduce types := some types
  base := ⟨[], some int, fun s _ => (some (.int 0), s), ⟨rfl, by simp [int, Ty.proper]⟩, fun _ _ _ => rfl⟩
  substitute_nil := rfl

/-- The one instance of a program, at 4096. -/
def oneInstance (R : Option Ty) (ts : List Ty) : Image := ⟨fun _ _ => 4096, fun _ => (R, ts)⟩

/-- `count(7)` returns 1, remotely as well. -/
theorem returnsDirect_count :
    let order : Containers := fun _ => .byKey (fun _ => 0) true
    let host : Host := ⟨.little, fun _ => 8⟩
    (count order).ReturnsDirect (integralOnly order) host host (oneInstance (some uint64) [int]) 0 [⟨int, .none⟩] [.int 7]
      () := by
  intro order host
  have h := (count order).returnsDirect_iff (integralOnly order) host host (oneInstance (some uint64) [int]) 0
    [⟨int, .none⟩] [.int 7] () (by rintro R hR; cases hR; rfl)
  refine (h.2 rfl rfl rfl ?_).mpr ?_
  · rintro result s' hcall x hx
    cases hcall
    cases hx
    rfl
  · rintro value s' hdirect
    cases hdirect
    exact ⟨rfl, (), rfl⟩

/-- `first(std::uint64_t{7})`: the server calls a function that returns a 64-bit integer
through a pointer to a function that returns an `int`. -/
theorem first_of_other_type :
    let order : Containers := fun _ => .byKey (fun _ => 0) true
    let host : Host := ⟨.little, fun _ => 8⟩
    let image := oneInstance (some uint64) [uint64]
    (first order).directCall (integralOnly order) [⟨uint64, .none⟩] [.int 7] () = some (some (.int 7), ()) ∧
      (first order).remoteCall (integralOnly order) host host image 0 [⟨uint64, .none⟩] [.int 7] () =
        some (.error .otherType) ∧
      ¬ (first order).ReturnsDirect (integralOnly order) host host image 0 [⟨uint64, .none⟩] [.int 7] () := by
  intro order host image
  have hdirect : (first order).directCall (integralOnly order) [⟨uint64, .none⟩] [.int 7] () = some (some (.int 7), ()) :=
    rfl
  have hremote : (first order).remoteCall (integralOnly order) host host image 0 [⟨uint64, .none⟩] [.int 7] () =
      some (.error .otherType) := by
    have hR : (first order).resultType [⟨uint64, .none⟩] = some (some uint64) := rfl
    unfold Template.remoteCall
    rw [hR]
    simp only [Option.bind_eq_bind, Option.bind_some]
    have hlink : image.Links (some uint64) ([⟨uint64, .none⟩].map ArgType.type) := rfl
    rw [(first order).dispatch_request 0 hlink]
    rfl
  refine ⟨hdirect, hremote, fun h => ?_⟩
  cases hremote.symm.trans (h _ _ hdirect)

end Erl.Rpc
