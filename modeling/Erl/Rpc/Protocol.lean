import Erl.Message.Building

/-!
# `RPCProtocol`: messages and dispatch

Requests and responses are an index followed by encoded values (`_impl/rpc/protocol.hpp`).
They are built in a `HybridBuffer`, which takes fewer than `2 ^ 31` bytes.
`dispatch` reads the index and switches over stamped case labels; the number of labels is
the number of handlers rounded up to 4, 16, 64 or 256 (`_impl/rpc/dispatch.hpp`,
`_impl/util/stamp.hpp`).
-/

namespace Erl.Rpc
open Reflect Decoding Message

/-- The ways out of the protocol's functions other than `return`. -/
inductive Failure where
  | fault (f : Fault)
  /-- `throw std::out_of_range(what)`. -/
  | outOfRange (what : String)
  /-- `std::unreachable()`. -/
  | unreachable
  /-- `assert(index == expected_index)`. -/
  | assertion
  /-- Memory that is not the message's own is accessed while it is built. -/
  | memory (f : Blocks.Fault)
  /-- A byte of the message was never written. -/
  | indeterminate
deriving DecidableEq, Repr

/-- The bytes of a message. -/
abbrev Message := List UInt8

/-- Server-side code with access to the service; the service keeps its state when the
code fails. -/
abbrev Serving (σ α : Type) := ExceptT Failure (StateM σ) α

def decode {α : Type} (r : Reader α) (view : MessageView) : Except Failure (α × MessageView) :=
  (r view).mapError .fault

/-- `erl::serialize(index, message)`, for a `size_t` or `int` passed as `index_type`. -/
def serializeIndex (h : Host) (index : Nat) : List Call := serializeInt h uint32.kind (index % 2 ^ 32 : Nat)

/-- `erl::deserialize<index_type>(reader)`. -/
def deserializeIndex (h : Host) : Reader Int := deserializeInt h uint32.kind

/-- What `RPCProtocol::request(index, args...)` calls on its `message`; `ts` are the types of `args`. -/
def requestCalls (h : Host) (index : Nat) (ts : List Ty) (args : List Val) : List Call :=
  serializeIndex h index ++ serializeAll h ts args

/-- What `RPCProtocol::make_response(index, value...)` calls on its `message`; without a
value for `void`. -/
def responseCalls (h : Host) (index : Nat) : Option (Ty × Val) → List Call
  | none => serializeIndex h index
  | some (t, v) => serializeIndex h index ++ serialize h t v

/-- `auto message = message_type{};`, the calls on it, and its bytes. -/
def build (T : MessageType) (calls : List Call) : Except Failure Message := do
  let bytes ← (T.build calls).mapError .memory
  match bytes.mapM id with
  | some message => pure message
  | none => throw .indeterminate

/-- A message consists of the bytes written to it. -/
theorem build_eq (T : MessageType) {calls : List Call} (fillable : Fillable 0 calls) :
    build T calls = .ok (written calls) := by
  have all (bytes : List UInt8) : (bytes.map some).mapM id = some bytes := by
    rw [List.mapM_map]
    exact List.mapM_pure.trans (congrArg some (List.map_id bytes))
  rw [build, T.build_eq fillable]
  show (match ((written calls).map some).mapM id with
    | some message => pure message
    | none => throw .indeterminate : Except Failure Message) = _
  rw [all]
  rfl

/-- The bytes that `RPCProtocol::request` writes. -/
def request (h : Host) (index : Nat) (ts : List Ty) (args : List Val) : Message := written (requestCalls h index ts args)

/-- The bytes that `RPCProtocol::make_response` writes. -/
def makeResponse (h : Host) (index : Nat) : Option (Ty × Val) → Message
  | none => written (serializeIndex h index)
  | some (t, v) => written (serializeIndex h index ++ serialize h t v)

/-- `RPCProtocol::read_response<T>`; `none` is `void`. -/
def readResponse (order : Containers) (h : Host) (result : Option Ty) (expected_index : Nat) (message : Message) :
    Except Failure (Option Val) := do
  let (index, reader) ← decode (deserializeIndex h) ⟨message, 0⟩
  if index ≠ (expected_index % 2 ^ 32 : Nat) then throw .assertion
  match result with
  | none => pure none
  | some t =>
    let (value, _) ← decode (deserialize order h t) reader
    pure (some value)

/-- `$stamp4(offset, $generate_case)`: the case labels. -/
def stamp4 (offset : Nat) : List Nat := [offset, offset + 1, offset + 2, offset + 3]

def stamp16 (offset : Nat) : List Nat :=
  stamp4 offset ++ stamp4 (offset + 4) ++ stamp4 (offset + 8) ++ stamp4 (offset + 12)

def stamp64 (offset : Nat) : List Nat :=
  stamp16 offset ++ stamp16 (offset + 16) ++ stamp16 (offset + 32) ++ stamp16 (offset + 48)

def stamp256 (offset : Nat) : List Nat :=
  stamp64 offset ++ stamp64 (offset + 64) ++ stamp64 (offset + 128) ++ stamp64 (offset + 192)

/-- The labels of `DispatchStrategy<strategy_idx>` for `n` handlers. -/
def caseLabels (n : Nat) : List Nat :=
  if n ≤ 4 then stamp4 0 else if n ≤ 16 then stamp16 0 else if n ≤ 64 then stamp64 0 else stamp256 0

section
variable {σ : Type}

/-- `Member::dispatch(service, args)`. -/
abbrev Handler (σ : Type) := List UInt8 → Serving σ Message

/-- `$generate_case(index)`. -/
def generateCase (members : List (Handler σ)) (index : Nat) (args : List UInt8) : Serving σ Message :=
  match members[index]? with
  | some member => member args
  | none => throw .unreachable

/-- `Dispatcher<Members...>::operator()`. -/
def dispatcher (members : List (Handler σ)) (index : Nat) (args : List UInt8) : Serving σ Message :=
  if index ∈ caseLabels members.length then generateCase members index args
  else throw (.outOfRange "Invalid opcode")

/-- `RPCProtocol::dispatch`. -/
def dispatch (h : Host) (members : List (Handler σ)) (message : List UInt8) : Serving σ Message :=
  match decode (deserializeIndex h) ⟨message, 0⟩ with
  | .error f => throw f
  | .ok (index, reader) => dispatcher members index.toNat (reader.buffer.drop reader.cursor)

end

end Erl.Rpc
