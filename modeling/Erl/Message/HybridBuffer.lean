import Erl.Lib.Heap

/-!
# `HybridBuffer`

A byte buffer that starts in an inline array and moves to a heap block once that is
exhausted (`_impl/net/message/buffer.hpp`). One signed 32-bit cursor holds the size, as
`size` in inline mode and as `-size - 1` in heap mode; the inline array and the heap
pointer share their storage. Arithmetic is two's complement.
-/

namespace Erl.Message
open Blocks

/-- Conversion to `std::int32_t`. -/
def toInt32 (i : Int) : Int := (i + 2147483648) % 4294967296 - 2147483648

/-- Conversion to `unsigned` and `std::uint32_t`. -/
def toUint32 (i : Int) : Nat := (i % 4294967296).toNat

/-- Conversion to `std::size_t`. -/
def toSizeT (i : Int) : Nat := (i % 18446744073709551616).toNat

/-- `union Storage`, by its active member. -/
inductive Storage where
  | buffer (bytes : Bytes)
  | heap (ptr : Pointer) (capacity : Nat)

structure HybridBuffer where
  storage : Storage
  cursor : Int

/-- `storage.buffer`, read as an array. -/
def Storage.asBuffer (inlineCapacity : Nat) : Storage → Bytes
  | .buffer bytes => bytes
  | .heap _ _ => List.replicate inlineCapacity none

/-- `storage.heap`. -/
def Storage.asHeap : Storage → Except Fault (Pointer × Nat)
  | .heap ptr capacity => .ok (ptr, capacity)
  | .buffer _ => .error .wildPointer

namespace HybridBuffer

variable (inlineCapacity : Nat) (A : Allocator)

def isHeap (b : HybridBuffer) : Bool := b.cursor < 0

/-- `-cursor - 1`; the smallest integer, whose negation C++ leaves undefined, is taken to be
its own. -/
def flip (cursor : Int) : Int := toInt32 (toInt32 (-cursor) - 1)

def size (b : HybridBuffer) : Nat := toSizeT (if b.isHeap then flip b.cursor else b.cursor)

/-- `memcpy` of the first `n` bytes out of the inline array. -/
def loadInline (storage : Storage) (n : Nat) : Except Fault Bytes :=
  if n ≤ inlineCapacity then .ok ((storage.asBuffer inlineCapacity).take n) else .error .outOfBounds

/-- `memcpy` into the inline array. -/
def storeInline (storage : Storage) (offset : Nat) (bytes : Bytes) : Except Fault Storage :=
  if offset + bytes.length ≤ inlineCapacity then
    .ok (.buffer (overwrite (storage.asBuffer inlineCapacity) offset bytes))
  else .error .outOfBounds

/-- `Storage()`. -/
def zeroed : Storage := .buffer (List.replicate inlineCapacity (some 0))

/-- `HybridBuffer()`. -/
def construct : HybridBuffer := ⟨zeroed inlineCapacity, 0⟩

/-- `HybridBuffer(HybridBuffer const& other)`. -/
def copyConstruct (other : HybridBuffer) (h : Heap) : Except Fault (Heap × HybridBuffer) :=
  if other.isHeap then do
    let (ptr, capacity) ← other.storage.asHeap
    let (new_ptr, h) := malloc A capacity h
    let bytes ← load ptr other.size h
    let h ← store (some new_ptr) 0 bytes h
    pure (h, ⟨.heap (some new_ptr) capacity, other.cursor⟩)
  else do
    let bytes ← loadInline inlineCapacity other.storage other.size
    let storage ← storeInline inlineCapacity (zeroed inlineCapacity) 0 bytes
    pure (h, ⟨storage, other.cursor⟩)

/-- `HybridBuffer(HybridBuffer&& other)`: the new buffer and what is left of `other`. -/
def moveConstruct (other : HybridBuffer) : Except Fault (HybridBuffer × HybridBuffer) :=
  if other.isHeap then do
    let (ptr, capacity) ← other.storage.asHeap
    pure (⟨.heap ptr capacity, other.cursor⟩, ⟨.heap none 0, 0⟩)
  else do
    let bytes ← loadInline inlineCapacity other.storage other.size
    let storage ← storeInline inlineCapacity (zeroed inlineCapacity) 0 bytes
    pure (⟨storage, other.cursor⟩, ⟨other.storage, 0⟩)

/-- `~HybridBuffer()`. -/
def destroy (b : HybridBuffer) (h : Heap) : Except Fault Heap :=
  if b.isHeap then do
    let (ptr, _) ← b.storage.asHeap
    free ptr h
  else pure h

def allocateHeap (b : HybridBuffer) (initial_capacity : Nat) (h : Heap) : Except Fault (Heap × HybridBuffer) := do
  let (new_ptr, h) := malloc A initial_capacity h
  let bytes ← loadInline inlineCapacity b.storage b.size
  let h ← store (some new_ptr) 0 bytes h
  pure (h, ⟨.heap (some new_ptr) initial_capacity, if b.cursor ≥ 0 then flip b.cursor else b.cursor⟩)

def resizeHeap (b : HybridBuffer) (new_capacity : Nat) (h : Heap) : Except Fault (Heap × HybridBuffer) := do
  let (ptr, _) ← b.storage.asHeap
  let (new_ptr, h) ← realloc A ptr new_capacity h
  pure (h, { b with storage := .heap (some new_ptr) new_capacity })

/-- The end of `write`, in heap mode. -/
def appendHeap (b : HybridBuffer) (input : Bytes) (h : Heap) : Except Fault (Heap × HybridBuffer) := do
  let (ptr, _) ← b.storage.asHeap
  let h ← store ptr b.size input h
  pure (h, { b with cursor := toInt32 (b.cursor - input.length) })

/-- `write(input_data, length)`, with `length` the converted size of the data. -/
def write (b : HybridBuffer) (data : List UInt8) (h : Heap) : Except Fault (Heap × HybridBuffer) :=
  let length := toUint32 data.length
  let input : Bytes := (data.take length).map some
  let new_size := toSizeT (b.size + length : Nat)
  if b.isHeap then do
    let (_, capacity) ← b.storage.asHeap
    let (h, b) ← if new_size > capacity then resizeHeap A b (toUint32 new_size) h else pure (h, b)
    appendHeap b input h
  else if new_size ≤ inlineCapacity then do
    let storage ← storeInline inlineCapacity b.storage b.cursor.toNat input
    pure (h, ⟨storage, toInt32 (b.cursor + length)⟩)
  else do
    let capacity := max (toUint32 (b.cursor + length)) (toUint32 (toUint32 inlineCapacity * 2 : Nat))
    let (h, b) ← allocateHeap inlineCapacity A b capacity h
    appendHeap b input h

def reserve (b : HybridBuffer) (num_bytes : Nat) (h : Heap) : Except Fault (Heap × HybridBuffer) :=
  let new_size := toSizeT (b.size + toUint32 num_bytes : Nat)
  if b.isHeap then resizeHeap A b (toUint32 new_size) h
  else if new_size > inlineCapacity then allocateHeap inlineCapacity A b (toUint32 new_size) h
  else pure (h, b)

/-- `finalize()`. -/
def finalize (b : HybridBuffer) (h : Heap) : Except Fault Bytes :=
  if b.isHeap then do
    let (ptr, _) ← b.storage.asHeap
    load ptr b.size h
  else loadInline inlineCapacity b.storage b.size

/-- The block a buffer frees. -/
def owned (b : HybridBuffer) : Pointer :=
  if b.isHeap then
    match b.storage with
    | .heap ptr _ => ptr
    | .buffer _ => none
  else none

end HybridBuffer

end Erl.Message
