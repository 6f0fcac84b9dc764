import Erl.Lib.Schedule
import Erl.Rpc.Arguments

/-!
# The order of argument initialisers

`f(deserialize<Ts>(reader)...)` initialises the parameters of `f` in an order the language
leaves open, while all initialisers move one cursor. `FunctionDispatcher::eval`,
`FunctionTemplateProxy::call` (`_impl/rpc/proxy.hpp`) and the formatter of a log message
(`_impl/log/format.hpp`) contain such calls. A `Schedule` is one of the orders.

The arguments that were sent are the ones received exactly if the payload, read in the
order of execution, starts with an image of the arguments in that order.
-/

namespace Erl.Rpc
open Reflect Decoding Scheduling

section
variable (order : Containers) (h : Host)

/-- `deserialize<Ts>(reader)...` as the arguments of one call, executed in the order `π`. -/
def deserializeArgs (ts : List Ty) (π : Schedule ts.length) : Reader (List Val) :=
  π.restore <$> deserializeAll order h (π.arrange ts)

/-- The arguments `FunctionDispatcher::eval` calls the method with. -/
def evalArguments (ts : List Ty) (π : Schedule ts.length) (data : List UInt8) : Except Failure (List Val) :=
  (decode (deserializeArgs order h ts π) ⟨data, 0⟩).map Prod.fst

/-- `R (*)(S&, std::span<char const>)`, as sent. -/
def fnPointer : Ty := .integral ⟨"R (*)(S&, std::span<char const>)", .unsigned .w64⟩

/-- The arguments `FunctionTemplateProxy::call` calls the template with. It is called by
`FunctionTemplateDispatcher::eval`, which has read the pointer to it, on what is left. -/
def templateArguments (ts : List Ty) (π : Schedule ts.length) (data : List UInt8) : Except Failure (List Val) := do
  let (_, args) ← decode (deserialize order h fnPointer) ⟨data, 0⟩
  (decode (deserializeArgs order h ts π) ⟨args.buffer.drop args.cursor, 0⟩).map Prod.fst

/-- What `std::format` receives. -/
inductive Passed where
  | value (v : Val)
  /-- A pointer into an array that is gone. -/
  | dangling

/-- `char[N]`. -/
def isCharArray : Ty → Bool
  | .array (.integral t) _ => t = ⟨"char", .signed .w8⟩
  | _ => false

/-- `unwrap`: of a `std::array<char, N>`, passed by value, it returns a pointer to the
elements. -/
def unwrap (t : Ty) (v : Val) : Passed := if isCharArray t then .dangling else .value v

/-- The arguments the formatter calls `std::format` with. -/
def formatArguments (ts : List Ty) (π : Schedule ts.length) (data : List UInt8) : Except Failure (List Passed) :=
  (evalArguments order h ts π data).map (List.zipWith unwrap ts)

end

/-! ## One schedule -/

section
variable {order : Containers} {client server : Host} {ts : List Ty} {args : List Val}

theorem length_of_wireAll {ts : List Ty} {w : List UInt8} {args : List Val} (image : WireAll order ts w args) :
    args.length = ts.length := by
  induction ts generalizing w args with
  | nil =>
    obtain ⟨-, rfl⟩ := image
    rfl
  | cons t ts ih =>
    obtain ⟨x, xs, w₁, w₂, -, -, rest, rfl⟩ := image
    rw [List.length_cons, List.length_cons, ih rest]

/-- The payload, read in the order of execution, starts with the arguments in that order. -/
def ReadsBack (order : Containers) (client : Host) (ts : List Ty) (args : List Val) (π : Schedule ts.length) : Prop :=
  ∃ w rest, encodeAll client ts args = w ++ rest ∧ WireAll order (π.arrange ts) w (π.arrange args)

theorem eq_ok_of_decode {α : Type} {r : Reader α} {view : MessageView} {x : α × MessageView}
    (h : decode r view = .ok x) : r view = .ok x := by
  unfold decode at h
  cases hr : r view with
  | error f =>
    rw [hr] at h
    cases h
  | ok y =>
    rw [hr] at h
    cases h
    rfl

/-- A decoder started between two strings of bytes returns `a` if the second starts with an
image of `a`. -/
theorem decode_behind_iff {α : Type} {r : Reader α} {R : List UInt8 → α → Prop} (hr : Denotes r R)
    (before tail : List UInt8) (a : α) :
    (decode r ⟨before ++ tail, before.length⟩).map Prod.fst = .ok a ↔ ∃ w rest, tail = w ++ rest ∧ R w a := by
  have hdenotes := hr before tail a
  constructor
  · intro h
    cases hd : decode r ⟨before ++ tail, before.length⟩ with
    | error f =>
      rw [hd] at h
      cases h
    | ok x =>
      obtain ⟨b, view⟩ := x
      rw [hd] at h
      cases h
      obtain ⟨w, rest, htail, image, -⟩ := (hdenotes view).mp (eq_ok_of_decode hd)
      exact ⟨w, rest, htail, image⟩
  · rintro ⟨w, rest, htail, image⟩
    have hread := (hdenotes _).mpr ⟨w, rest, htail, image, rfl⟩
    rw [decode_ok hread]
    rfl

theorem decode_fst_iff {α : Type} {r : Reader α} {R : List UInt8 → α → Prop} (hr : Denotes r R) (data : List UInt8)
    (a : α) : (decode r ⟨data, 0⟩).map Prod.fst = .ok a ↔ ∃ w rest, data = w ++ rest ∧ R w a :=
  decode_behind_iff hr [] data a

theorem denotes_deserializeArgs (ts : List Ty) (π : Schedule ts.length) :
    Denotes (deserializeArgs order server ts π) fun w args =>
      args.length = ts.length ∧ WireAll order (π.arrange ts) w (π.arrange args) := by
  refine ((denotes_deserializeAll order server (π.arrange ts)).map π.restore).congr ?_
  intro w args
  constructor
  · rintro ⟨read, image, rfl⟩
    have hread : read.length = ts.length := by rw [length_of_wireAll image, π.length_arrange rfl]
    refine ⟨π.length_restore hread, ?_⟩
    rwa [π.arrange_restore hread]
  · rintro ⟨hlen, image⟩
    exact ⟨π.arrange args, image, (π.restore_arrange hlen).symm⟩

theorem evalArguments_iff (π : Schedule ts.length) (typed : Ty.admitsAll order ts args = true) (data : List UInt8) :
    evalArguments order server ts π data = .ok args ↔
      ∃ w rest, data = w ++ rest ∧ WireAll order (π.arrange ts) w (π.arrange args) := by
  unfold evalArguments
  rw [decode_fst_iff (denotes_deserializeArgs ts π)]
  constructor
  · rintro ⟨w, rest, hdata, -, image⟩
    exact ⟨w, rest, hdata, image⟩
  · rintro ⟨w, rest, hdata, image⟩
    exact ⟨w, rest, hdata, Ty.length_of_admitsAll typed, image⟩

theorem evalArguments_request (server : Host) (π : Schedule ts.length) (index : Nat) (typed : Ty.admitsAll order ts args = true) :
    evalArguments order server ts π (payload (request client index ts args)) = .ok args ↔
      ReadsBack order client ts args π := by
  rw [payload_request, evalArguments_iff π typed]
  rfl

theorem encodeAll_cons (h : Host) (t : Ty) (v : Val) (ts : List Ty) (vs : List Val) :
    encodeAll h (t :: ts) (v :: vs) = encode h t v ++ encodeAll h ts vs := written_append ..

theorem inRange_word (x : UInt64) : IntKind.InRange (.unsigned .w64) x.toNat := by
  have := x.toNat_lt
  refine ⟨by omega, ?_⟩
  show (x.toNat : Int) < 2 ^ 64
  omega

/-- The pointer to the wrapper is read, and nothing more. -/
theorem decode_fnPointer {pointer : Int} (hp : IntKind.InRange (.unsigned .w64) pointer) (rest : List UInt8) :
    decode (deserialize order server fnPointer) ⟨encode client fnPointer (.int pointer) ++ rest, 0⟩ =
      .ok (.int pointer,
        ⟨encode client fnPointer (.int pointer) ++ rest, (encode client fnPointer (.int pointer)).length⟩) := by
  have image : Wire order fnPointer (encode client fnPointer (.int pointer)) (.int pointer) :=
    wire_serialize client fnPointer _ rfl (decide_eq_true hp) rfl
  have hread := (denotes_deserialize order server fnPointer).decodes image [] rest
  rw [List.nil_append, List.length_nil, Nat.zero_add] at hread
  exact decode_ok hread

/-- The wrapper reads the bytes behind the pointer to it. -/
theorem templateArguments_request (π : Schedule ts.length) (index : Nat) {pointer : Int}
    (hp : IntKind.InRange (.unsigned .w64) pointer) (typed : Ty.admitsAll order ts args = true) :
    templateArguments order server ts π (payload (request client index (fnPointer :: ts) (.int pointer :: args))) =
      .ok args ↔ ReadsBack order client ts args π := by
  unfold templateArguments
  rw [payload_request, encodeAll_cons, decode_fnPointer hp]
  simp only [bind, Except.bind, List.drop_left]
  exact evalArguments_iff π typed _

theorem length_of_evalArguments {π : Schedule ts.length} {data : List UInt8} {read : List Val}
    (h : evalArguments order server ts π data = .ok read) : read.length = ts.length := by
  obtain ⟨w, rest, -, hlen, -⟩ := (decode_fst_iff (denotes_deserializeArgs ts π) data read).mp h
  exact hlen

theorem zipWith_unwrap_iff {ts : List Ty} {read : List Val} (args : List Val) (h : read.length = ts.length) :
    List.zipWith unwrap ts read = args.map .value ↔ read = args ∧ ∀ t ∈ ts, isCharArray t = false := by
  induction ts generalizing read args with
  | nil =>
    obtain rfl := List.eq_nil_of_length_eq_zero h
    cases args <;> simp
  | cons t ts ih =>
    cases read with
    | nil => cases h
    | cons v read =>
      cases args with
      | nil => simp
      | cons a args =>
        have hunwrap : unwrap t v = .value a ↔ v = a ∧ isCharArray t = false := by
          unfold unwrap
          cases isCharArray t <;> simp
        rw [List.zipWith_cons_cons, List.map_cons, List.cons.injEq, hunwrap, ih args (Nat.succ.inj h), List.cons.injEq,
          List.forall_mem_cons]
        tauto

/-- The formatter gets pointers to arrays that are gone for arrays of characters. -/
theorem formatArguments_request (π : Schedule ts.length) (index : Nat) (typed : Ty.admitsAll order ts args = true) :
    formatArguments order server ts π (payload (request client index ts args)) = .ok (args.map .value) ↔
      ReadsBack order client ts args π ∧ ∀ t ∈ ts, isCharArray t = false := by
  rw [← evalArguments_request server π index typed]
  unfold formatArguments
  cases h : evalArguments order server ts π (payload (request client index ts args)) with
  | error f =>
    constructor
    · intro h
      cases h
    · rintro ⟨h, -⟩
      cases h
  | ok read =>
    have hread := zipWith_unwrap_iff args (length_of_evalArguments h)
    simpa [Except.map] using hread

/-- From left to right, `eval` is the one of the method. -/
theorem Method.eval_eq {σ : Type} (m : Method σ order) (h : Host) (data : List UInt8) :
    m.eval h data =
      match evalArguments order h m.params (.leftToRight _) data with
      | .error f => throw f
      | .ok args => fun s => ((.ok (m.body s args).1, (m.body s args).2) : Except Failure (Option Val) × σ) := by
  have hargs : deserializeArgs order h m.params (.leftToRight _) ⟨data, 0⟩ =
      (deserializeAll order h m.params ⟨data, 0⟩).map fun x => ((Schedule.leftToRight m.params.length).restore x.1, x.2) := by
    unfold deserializeArgs
    rw [Schedule.arrange_leftToRight rfl]
    show (deserializeAll order h m.params ⟨data, 0⟩ >>= fun x => pure (Schedule.restore _ x.1, x.2)) = _
    cases deserializeAll order h m.params ⟨data, 0⟩ <;> rfl
  unfold Method.eval evalArguments decode
  rw [hargs]
  cases hread : deserializeAll order h m.params ⟨data, 0⟩ with
  | error f => rfl
  | ok x =>
    obtain ⟨read, view⟩ := x
    obtain ⟨w, rest, -, image, -⟩ := (denotes_deserializeAll order h m.params [] data read view).mp hread
    have hrestore := Schedule.restore_leftToRight (length_of_wireAll image)
    simp only [Except.map, Except.mapError, hrestore]

theorem encodeAll_arrange_length (client : Host) (π : Schedule ts.length) (h : args.length = ts.length) :
    (encodeAll client (π.arrange ts) (π.arrange args)).length = (encodeAll client ts args).length := by
  have hzip : (ts.zip args).length = ts.length := by rw [List.length_zip, h, Nat.min_self]
  rw [encodeAll_eq_flatMap, encodeAll_eq_flatMap, π.arrange_zip rfl h]
  exact ((π.arrange_perm hzip).flatMap_right _).length_eq

theorem admitsAll_arrange (π : Schedule ts.length) (typed : Ty.admitsAll order ts args = true) :
    Ty.admitsAll order (π.arrange ts) (π.arrange args) = true := by
  have hlen := Ty.length_of_admitsAll typed
  have hzip : (ts.zip args).length = ts.length := by rw [List.length_zip, hlen, Nat.min_self]
  rw [Ty.admitsAll_iff (by rw [π.length_arrange rfl, π.length_arrange hlen]), π.arrange_zip rfl hlen]
  rw [Ty.admitsAll_iff hlen] at typed
  intro p hp
  exact typed p ((π.arrange_perm hzip).mem_iff.mp hp)

/-- Unless a type has ordered containers inside, reading back means that the arguments are
encoded to the same bytes in both orders. -/
theorem readsBack_iff (π : Schedule ts.length) (proper : Ty.properAll ts = true) (canonical : Ty.canonicalAll ts = true)
    (typed : Ty.admitsAll order ts args = true) :
    ReadsBack order client ts args π ↔
      Val.smallAll args = true ∧ encodeAll client (π.arrange ts) (π.arrange args) = encodeAll client ts args := by
  have hts := π.arrange_perm (l := ts) rfl
  have hargs := π.arrange_perm (Ty.length_of_admitsAll typed)
  have hlength := encodeAll_arrange_length client π (Ty.length_of_admitsAll typed)
  have hproper : Ty.properAll (π.arrange ts) = true :=
    Ty.properAll_iff.mpr fun t ht => Ty.properAll_iff.mp proper t (hts.mem_iff.mp ht)
  have hcanonical : Ty.canonicalAll (π.arrange ts) = true :=
    Ty.canonicalAll_iff.mpr fun t ht => Ty.canonicalAll_iff.mp canonical t (hts.mem_iff.mp ht)
  have hsmall : Val.smallAll (π.arrange args) = true ↔ Val.smallAll args = true := by
    rw [Val.smallAll_iff, Val.smallAll_iff]
    exact forall_congr' fun v => imp_congr_left hargs.mem_iff
  have himage := fun w => wireAll_iff_eq_encodeAll client (w := w) hproper hcanonical (admitsAll_arrange π typed)
  constructor
  · rintro ⟨w, rest, heq, image⟩
    obtain ⟨small, rfl⟩ := (himage w).mp image
    have hrest : rest = [] := by
      rw [heq, List.length_append] at hlength
      exact List.eq_nil_of_length_eq_zero (by omega)
    refine ⟨hsmall.mp small, ?_⟩
    rw [heq, hrest, List.append_nil]
  · rintro ⟨small, heq⟩
    exact ⟨_, [], by rw [List.append_nil, heq], (himage _).mpr ⟨hsmall.mpr small, rfl⟩⟩

/-- **Order of execution.** Under the schedule `π` the method, the template and (unless
there are character arrays) the formatter are called with the arguments that were sent
exactly if the payload, read in the order of execution, starts with the arguments in that
order. -/
theorem arguments_iff_readsBack (order : Containers) (client server : Host) (ts : List Ty) (args : List Val)
    (π : Schedule ts.length) (index : Nat) (pointer : Int) (proper : Ty.properAll ts = true)
    (typed : Ty.admitsAll order ts args = true) (hp : IntKind.InRange (.unsigned .w64) pointer) :
    (evalArguments order server ts π (payload (request client index ts args)) = .ok args ↔
      ReadsBack order client ts args π) ∧
    (templateArguments order server ts π (payload (request client index (fnPointer :: ts) (.int pointer :: args))) =
      .ok args ↔ ReadsBack order client ts args π) ∧
    (formatArguments order server ts π (payload (request client index ts args)) = .ok (args.map .value) ↔
      ReadsBack order client ts args π ∧ ∀ t ∈ ts, isCharArray t = false) ∧
    (Ty.canonicalAll ts = true → (ReadsBack order client ts args π ↔
      Val.smallAll args = true ∧ encodeAll client (π.arrange ts) (π.arrange args) = encodeAll client ts args)) :=
  ⟨evalArguments_request server π index typed, templateArguments_request π index hp typed,
    formatArguments_request π index typed, fun canonical => readsBack_iff π proper canonical typed⟩

end

/-- Two equal arguments do not mind. -/
theorem arguments_iff_readsBack_equal :
    let order : Containers := fun _ => .byKey (fun _ => 0) true
    let host : Host := ⟨.little, fun _ => 4⟩
    ReadsBack order host [int, int] [.int 7, .int 7] (.rightToLeft 2) := by
  intro order host
  have h := arguments_iff_readsBack order host host [int, int] [.int 7, .int 7] (.rightToLeft 2) 0 4096 rfl rfl
    (by decide)
  exact (h.2.2.2 rfl).mpr ⟨rfl, rfl⟩

/-- `f(1, 2)`, with the initialisers executed from right to left, is `f(2, 1)`. -/
theorem evalArguments_rightToLeft :
    let order : Containers := fun _ => .byKey (fun _ => 0) true
    let host : Host := ⟨.little, fun _ => 4⟩
    let message := request host 0 [int, int] [.int 1, .int 2]
    evalArguments order host [int, int] (.rightToLeft 2) (payload message) = .ok [.int 2, .int 1] ∧
      ¬ ∀ (ts : List Ty) (args : List Val) (π : Schedule ts.length), Ty.properAll ts = true →
        Ty.admitsAll order ts args = true →
        evalArguments order host ts π (payload (request host 0 ts args)) = .ok args := by
  intro order host message
  have hswapped : evalArguments order host [int, int] (.rightToLeft 2) (payload message) = .ok [.int 2, .int 1] := by
    rw [payload_request, evalArguments_iff _ rfl]
    exact ⟨_, [], (List.append_nil _).symm, wireAll_serializeAll host [int, int] [.int 1, .int 2] rfl rfl rfl⟩
  refine ⟨hswapped, ?_⟩
  intro h
  have hkept := h [int, int] [.int 1, .int 2] (.rightToLeft 2) rfl rfl
  cases hkept.symm.trans hswapped

end Erl.Rpc
