import Erl.Reflect.Canonical
import Erl.Rpc.Method

/-!
# The argument types of a call

`FunctionProxy` encodes the arguments at the types they have at the call site, while
`FunctionDispatcher` decodes them at the declared parameter types (`_impl/rpc/proxy.hpp`).
They agree when the bytes of the one happen to be an image at the other.
-/

namespace Erl.Rpc
open Reflect Decoding

/-! ## Implicit conversions -/

/-- The value of an integer converted to an integral type. -/
def convertInt : IntKind → Int → Int
  | .bool, i => if i = 0 then 0 else 1
  | k, i => k.ofNat (k.toNat i)

theorem inRange_convertInt (k : IntKind) (i : Int) : k.InRange (convertInt k i) := by
  cases k with
  | bool =>
    show (if i = 0 then 0 else 1) = 0 ∨ (if i = 0 then 0 else 1) = 1
    omega
  | signed w => exact IntKind.inRange_ofNat (IntKind.toNat_lt _ i) nofun
  | unsigned w => exact IntKind.inRange_ofNat (IntKind.toNat_lt _ i) nofun

/-- The implicit conversions of a program besides the integral ones: of unscoped
enumerations, by converting constructors and by conversion functions. -/
structure Conversions (order : Containers) where
  other : Ty → Ty → Option (Val → Val)
  typed : ∀ t p f, other t p = some f → ∀ v, t.admits order v = true → p.admits order (f v) = true

section
variable {order : Containers} (cv : Conversions order)

/-- The implicit conversion of a `t` to a `p`, if there is one. -/
def implicit (t p : Ty) : Option (Val → Val) :=
  if t = p then some id
  else match t, p with
    | .integral _, .integral p => some fun
      | .int i => .int (convertInt p.kind i)
      | v => v
    | t, p => cv.other t p

/-- The arguments a method gets if it is called directly, if the call is valid. -/
def convertAll : List Ty → List Ty → List Val → Option (List Val)
  | [], [], [] => some []
  | t :: ts, p :: ps, v :: vs => do
    let f ← implicit cv t p
    let ws ← convertAll ts ps vs
    pure (f v :: ws)
  | _, _, _ => none

theorem implicit_typed {t p : Ty} {f : Val → Val} (h : implicit cv t p = some f) {v : Val}
    (typed : t.admits order v = true) : p.admits order (f v) = true := by
  unfold implicit at h
  split at h
  · rename_i same
    cases h
    exact same ▸ typed
  · split at h
    · rename_i t p ne
      cases h
      cases v <;> simp only [Ty.admits, Bool.false_eq_true] at typed
      exact decide_eq_true (inRange_convertInt p.kind _)
    · exact cv.typed _ _ f h v typed

theorem convertAll_typed {ts ps : List Ty} {vs ws : List Val} (h : convertAll cv ts ps vs = some ws)
    (typed : Ty.admitsAll order ts vs = true) : Ty.admitsAll order ps ws = true := by
  induction ts generalizing ps vs ws with
  | nil =>
    cases ps <;> cases vs <;> simp only [convertAll, reduceCtorEq, Option.some.injEq] at h
    subst h
    rfl
  | cons t ts ih =>
    cases ps with
    | nil => cases vs <;> cases h
    | cons p ps =>
      cases vs with
      | nil => cases h
      | cons v vs =>
        simp only [Ty.admitsAll, Bool.and_eq_true] at typed
        simp only [convertAll, Option.bind_eq_bind, Option.bind_eq_some_iff, Option.pure_def, Option.some.injEq] at h
        obtain ⟨f, conversion, ws, rest, rfl⟩ := h
        rw [Ty.admitsAll, implicit_typed cv conversion typed.1, ih rest typed.2]
        rfl

theorem convertAll_self (ts : List Ty) {vs : List Val} (typed : Ty.admitsAll order ts vs = true) :
    convertAll cv ts ts vs = some vs := by
  induction ts generalizing vs with
  | nil =>
    cases vs with
    | nil => rfl
    | cons => simp [Ty.admitsAll] at typed
  | cons t ts ih =>
    cases vs with
    | nil => simp [Ty.admitsAll] at typed
    | cons v vs =>
      simp only [Ty.admitsAll, Bool.and_eq_true] at typed
      simp [convertAll, implicit, ih typed.2]

end

section
variable {order : Containers} (client server : Host)

/-- `FunctionProxy::operator()` on arguments of types `ts`, up to the request; `none` if
the call does not compile. The operator takes arguments of any types. -/
def functionProxy (index : Nat) (ts : List Ty) (vs : List Val) : Option Message :=
  some (request client index ts vs)

/-- What `dispatch` hands on of a message. -/
def payload (message : Message) : List UInt8 := message.drop uint32.kind.size

/-- What a call through the proxy should do: if it is a valid call of a method with
parameter types `ps`, `eval` should decode the converted arguments and use the payload
up; otherwise there should be no request. -/
def ArgumentsAgree (cv : Conversions order) (index : Nat) (ps ts : List Ty) (vs : List Val) : Prop :=
  match convertAll cv ts ps vs with
  | some ws => ∃ message, functionProxy client index ts vs = some message ∧
      deserializeAll order server ps ⟨payload message, 0⟩ = .ok (ws, ⟨payload message, (payload message).length⟩)
  | none => functionProxy client index ts vs = none

theorem payload_request (index : Nat) (ts : List Ty) (vs : List Val) :
    payload (request client index ts vs) = encodeAll client ts vs := by
  rw [payload, request_eq]
  exact List.drop_left' (IntKind.length_image ..)

/-- **Arguments.** A call through the proxy does what it should exactly if it is valid and
the bytes of the arguments at their own types are an image of the converted arguments at
the parameter types. Unless a parameter type has ordered containers inside, this means
that the converted arguments are small enough and are encoded to the same bytes. -/
theorem argumentsAgree_iff (cv : Conversions order) (index : Nat) (ps ts : List Ty) (vs : List Val)
    (proper : Ty.properAll ps = true) (typed : Ty.admitsAll order ts vs = true) :
    (ArgumentsAgree client server cv index ps ts vs ↔
      ∃ ws, convertAll cv ts ps vs = some ws ∧ WireAll order ps (encodeAll client ts vs) ws) ∧
    (Ty.canonicalAll ps = true → (ArgumentsAgree client server cv index ps ts vs ↔
      ∃ ws, convertAll cv ts ps vs = some ws ∧ Val.smallAll ws = true ∧
        encodeAll client ts vs = encodeAll client ps ws)) := by
  have images : ArgumentsAgree client server cv index ps ts vs ↔
      ∃ ws, convertAll cv ts ps vs = some ws ∧ WireAll order ps (encodeAll client ts vs) ws := by
    unfold ArgumentsAgree
    cases call : convertAll cv ts ps vs with
    | none =>
      constructor
      · intro h
        cases h
      · rintro ⟨ws, h, -⟩
        cases h
    | some ws =>
      have decoded := (denotes_deserializeAll order server ps).decodes_all_iff (w := encodeAll client ts vs) (a := ws)
      rw [← payload_request client index] at decoded ⊢
      constructor
      · rintro ⟨message, h, arguments⟩
        cases h
        exact ⟨ws, rfl, decoded.mp arguments⟩
      · rintro ⟨ws', h, image⟩
        cases h
        exact ⟨_, rfl, decoded.mpr image⟩
  refine ⟨images, ?_⟩
  intro canonical
  rw [images]
  constructor
  · rintro ⟨ws, call, image⟩
    exact ⟨ws, call, WireAll.eq_encodeAll client ps _ ws proper canonical image⟩
  · rintro ⟨ws, call, small, same⟩
    refine ⟨ws, call, ?_⟩
    rw [same]
    exact wireAll_serializeAll client ps ws proper (convertAll_typed cv call typed) small

/-- Arguments of exactly the parameter types always agree. -/
theorem argumentsAgree_self (cv : Conversions order) (index : Nat) (ps : List Ty) (vs : List Val)
    (proper : Ty.properAll ps = true) (typed : Ty.admitsAll order ps vs = true) (small : Val.smallAll vs = true) :
    ArgumentsAgree client server cv index ps ps vs := by
  unfold ArgumentsAgree
  rw [convertAll_self cv ps typed]
  refine ⟨_, rfl, ?_⟩
  rw [payload_request]
  exact (denotes_deserializeAll order server ps).decodes_all_iff.mpr (wireAll_serializeAll client ps vs proper typed small)

end

def int : Ty := .integral ⟨"int", .signed .w32⟩

def uint64 : Ty := .integral ⟨"unsigned long", .unsigned .w64⟩

/-- A program without user-defined conversions. -/
def integralOnly (order : Containers) : Conversions order where
  other _ _ := none
  typed _ _ _ h := by cases h

/-- An `int` for a 32-bit unsigned parameter arrives. -/
theorem argumentsAgree_unsigned :
    let order : Containers := fun _ => .byKey (fun _ => 0) true
    let host : Host := ⟨.little, fun _ => 8⟩
    ArgumentsAgree host host (integralOnly order) 0 [.integral uint32] [int] [.int (-1)] := by
  intro order host
  exact ((argumentsAgree_iff host host (integralOnly order) 0 [.integral uint32] [int] [.int (-1)] rfl rfl).2 rfl).mpr
    ⟨[.int 4294967295], rfl, rfl, rfl⟩

/-- `spawn(0, 1234)`, as in the example: the parameters are two 64-bit integers, the
arguments two `int`s, and the decoder reads past the end of the message. -/
theorem spawn_overReads :
    let order : Containers := fun _ => .byKey (fun _ => 0) true
    let host : Host := ⟨.little, fun _ => 8⟩
    let message := request host 0 [int, int] [.int 0, .int 1234]
    convertAll (integralOnly order) [int, int] [uint64, uint64] [.int 0, .int 1234] = some [.int 0, .int 1234] ∧
      deserializeAll order host [uint64, uint64] ⟨payload message, 0⟩ = .error .overRead ∧
      ¬ ArgumentsAgree host host (integralOnly order) 0 [uint64, uint64] [int, int] [.int 0, .int 1234] := by
  intro order host message
  have fault : deserializeAll order host [uint64, uint64] ⟨payload message, 0⟩ = .error .overRead := rfl
  refine ⟨rfl, fault, ?_⟩
  rintro ⟨sent, h, arguments⟩
  cases h
  cases fault.symm.trans arguments

end Erl.Rpc
