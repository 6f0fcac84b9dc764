import Erl.Lib.Bytes
import Erl.Lib.Decoder
import Erl.Reflect.Types

/-!
# `Reflect<T>::serialize` and `Reflect<T>::deserialize`

The encoders write to a `Serializer`: what they ask of it is a list of `write` and
`reserve` calls. The decoders read from a `MessageView`. Both run on a host with its own
byte order and its own `sizeof`.
-/

namespace Erl.Reflect
open Decoding

inductive Endian where
  | little
  | big
deriving DecidableEq, Repr

/-- What the encoders and decoders depend on: `std::endian::native` and `sizeof`. -/
structure Host where
  endian : Endian
  sizeOf : Ty → Nat

/-- The bits of an integer, as a number. -/
def IntKind.toNat (k : IntKind) (i : Int) : Nat := (BitVec.ofInt (8 * k.size) i).toNat

/-- The integer with the given bits. -/
def IntKind.ofNat : IntKind → Nat → Int
  | .signed w, x => (BitVec.ofNat (8 * w.bytes) x).toInt
  | _, x => x

/-- `std::byteswap`. -/
def IntKind.byteswap (k : IntKind) (i : Int) : Int :=
  k.ofNat (Bytes.number (Bytes.little k.size (k.toNat i)).reverse)

/-- Bytes in the host's order from bytes in little-endian order, and back. -/
def Host.native (h : Host) (bs : List UInt8) : List UInt8 :=
  match h.endian with
  | .little => bs
  | .big => bs.reverse

/-- The calls a `Serializer` receives. -/
inductive Call where
  | write (data : List UInt8)
  | reserve (num_bytes : Nat)

/-- The bytes written by a list of calls. -/
def written (calls : List Call) : List UInt8 :=
  calls.flatMap fun
    | .write data => data
    | .reserve _ => []

/-- `reserve(unsigned)`, called with a `size_t`. -/
def reserveBytes (n : Nat) : Call := .reserve (n % 2 ^ 64 % 2 ^ 32)

/-- `Reflect<integral>::serialize`. -/
def serializeInt (h : Host) (k : IntKind) (arg : Int) : List Call :=
  let arg := if h.endian = .big then k.byteswap arg else arg
  [.write (h.native (Bytes.little k.size (k.toNat arg)))]

mutual
/-- `erl::serialize`, on a value of the type. -/
def serialize (h : Host) : Ty → Val → List Call
  | .integral t, .int i => serializeInt h t.kind i
  | .enumeration _ t, .int i => serializeInt h t.kind i
  | .pair a b, .pair x y => serialize h a x ++ serialize h b y
  | .aggregate _ ts, .aggregate vs => serializeAll h ts vs
  | .variant ts, .variant i v => serializeInt h sizeT.kind i ++ serializeAt h ts i v
  | .array t n, .list vs => reserveBytes (h.sizeOf t * n) :: vs.flatMap (serialize h t)
  | .sequence _ t, .list vs | .ordered _ t, .list vs =>
    -- `arg.size()` goes into a `std::uint32_t`
    let size : Nat := vs.length % 2 ^ 32
    serializeInt h uint32.kind size ++ reserveBytes (h.sizeOf t * size) :: vs.flatMap (serialize h t)
  | _, _ => []

/-- The members of an aggregate, or the arguments of a call, in order. -/
def serializeAll (h : Host) : List Ty → List Val → List Call
  | t :: ts, v :: vs => serialize h t v ++ serializeAll h ts vs
  | _, _ => []

/-- The alternative `std::visit` finds. -/
def serializeAt (h : Host) : List Ty → Nat → Val → List Call
  | [], _, _ => []
  | t :: _, 0, v => serialize h t v
  | _ :: ts, i + 1, v => serializeAt h ts i v
end

/-- The bytes a value is encoded as. -/
def encode (h : Host) (t : Ty) (v : Val) : List UInt8 := written (serialize h t v)

/-- The bytes of several values, one behind the other. -/
def encodeAll (h : Host) (ts : List Ty) (vs : List Val) : List UInt8 := written (serializeAll h ts vs)

/-- Behaviour of the decoders outside the language's rules. -/
inductive Fault where
  /-- `MessageView::read` past the end of the buffer. -/
  | overRead
  /-- No alternative has the index read; `storage.variant` is never constructed. -/
  | noAlternative
  /-- A `bool` object with a byte other than 0 and 1. -/
  | invalidBool
  /-- A loop whose 32-bit counter never reaches its bound. -/
  | endless
deriving DecidableEq, Repr

abbrev MessageView := Cursor UInt8

abbrev Reader := Decoder UInt8 Fault

def fail {α : Type} (f : Fault) : Reader α := fun _ => .error f

/-- The value of an object whose bytes were copied from `raw`. -/
def IntKind.load (k : IntKind) (h : Host) (raw : List UInt8) : Reader Int :=
  let bits := Bytes.number (h.native raw)
  if k = .bool ∧ 2 ≤ bits then fail .invalidBool else pure (k.ofNat bits)

/-- `Reflect<integral>::deserialize`. -/
def deserializeInt (h : Host) (k : IntKind) : Reader Int := do
  let raw ← read .overRead k.size
  let value ← k.load h raw
  pure (if h.endian = .big then k.byteswap value else value)

section
variable (order : Containers) (h : Host)

/-- The converting constructor of the variant, applied to a value of the type at `i`,
selects the alternative of that very type. -/
def selected (alternatives : List Ty) (i : Nat) : Nat :=
  match alternatives[i]? with
  | some t => alternatives.idxOf t
  | none => i

mutual
/-- `erl::deserialize<T>`. -/
def deserialize : Ty → Reader Val
  | .integral t => Val.int <$> deserializeInt h t.kind
  | .enumeration _ t => Val.int <$> deserializeInt h t.kind
  | .pair a b => do
    let x ← deserialize a
    let y ← deserialize b
    pure (.pair x y)
  | .aggregate _ ts => Val.aggregate <$> deserializeAll ts
  | .variant ts => do
    let i ← deserializeInt h sizeT.kind
    let v ← deserializeAt ts i.toNat
    pure (.variant (selected ts i.toNat) v)
  | .array t n => if n < 2 ^ 32 then Val.list <$> times (deserialize t) n else fail .endless
  | .sequence _ t => do
    let size ← deserializeInt h uint32.kind
    let elements ← times (deserialize t) size.toNat
    pure (.list elements)
  | .ordered name t => do
    let size ← deserializeInt h uint32.kind
    let elements ← times (deserialize t) size.toNat
    pure (.list ((order name).ofRange elements))

/-- Braced member or argument initialisers, evaluated left to right. -/
def deserializeAll : List Ty → Reader (List Val)
  | [] => pure []
  | t :: ts => do
    let v ← deserialize t
    let vs ← deserializeAll ts
    pure (v :: vs)

/-- The fold over the alternatives, of which the one at the index is decoded. -/
def deserializeAt : List Ty → Nat → Reader Val
  | [], _ => fail .noAlternative
  | t :: _, 0 => deserialize t
  | _ :: ts, i + 1 => deserializeAt ts i
end

end

end Erl.Reflect
