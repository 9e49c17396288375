import Jadren.Runtime.Memory

/-!
# Buffers

The operations of the runtime on one owning buffer: `create`, `reserve`, `resize`,
`insert_move_from`, `remove_move_into`, `pop_move_into`, `pop`, `remove_move`,
`remove_drop`, and the views `buffer_slice` and `slice_subslice`.

A call works on a `World`: whether the runtime is initialized, the header it was given (or
the null pointer), and memory.  It faults where the code would leave an object or where
plain arithmetic would overflow 64 bits.
-/

namespace Jadren.Runtime

open Program

/-- Result code for owning buffers and slices. -/
inductive BufferStatus
  | ok
  | disabled
  | runtimeNotInitialized
  | invalidSize
  | invalidAlignment
  | sizeOverflow
  | outOfMemory
  | nullPointer
  | outOfBounds
  | invalidBuffer
  deriving DecidableEq, Repr

/-- Result code of the allocator. -/
inductive AllocatorStatus
  | ok
  | runtimeNotInitialized
  | invalidSize
  | invalidAlignment
  | sizeOverflow
  | outOfMemory
  | nullPointer
  deriving DecidableEq, Repr

def mapAllocatorStatus : AllocatorStatus → BufferStatus
  | .ok => .ok
  | .runtimeNotInitialized => .runtimeNotInitialized
  | .invalidSize => .invalidSize
  | .invalidAlignment => .invalidAlignment
  | .sizeOverflow => .sizeOverflow
  | .outOfMemory => .outOfMemory
  | .nullPointer => .nullPointer

/-! ## Arithmetic of 64 bits -/

/-- `u64::MAX`. -/
def u64Max : ℕ := 2 ^ 64 - 1

def checkedAdd (a b : ℕ) : Option ℕ := if a + b ≤ u64Max then some (a + b) else none

def checkedSub (a b : ℕ) : Option ℕ := if b ≤ a then some (a - b) else none

def checkedMul (a b : ℕ) : Option ℕ := if a * b ≤ u64Max then some (a * b) else none

/-- `usize::try_from`. -/
def tryFrom (a : ℕ) : Option ℕ := if a ≤ u64Max then some a else none

def isPowerOfTwo (a : ℕ) : Prop := 2 ^ a.log2 = a

instance (a : ℕ) : Decidable (isPowerOfTwo a) := inferInstanceAs (Decidable (_ = _))

/-! ## Layouts -/

def validatedSize (size : ℕ) : Except AllocatorStatus ℕ :=
  if size = 0 then .error .invalidSize
  else (tryFrom size).elim (.error .sizeOverflow) .ok

/-- `Layout::from_size_align`, the alignment of which is a power of two. -/
def fromSizeAlign (size align : ℕ) : Option Layout :=
  if size ≤ 2 ^ 63 - align then some ⟨size, align⟩ else none

def allocatorLayoutInitialized (size alignment : ℕ) : Except AllocatorStatus Layout := do
  let size ← validatedSize size
  let alignment ← (tryFrom alignment).elim (.error .invalidAlignment) .ok
  if isPowerOfTwo alignment then
    (fromSizeAlign size alignment).elim (.error .sizeOverflow) .ok
  else .error .invalidAlignment

def validateElementLayout (elementSize alignment : ℕ) : Except BufferStatus Layout := do
  if elementSize = 0 then .error .invalidSize
  else
    let layout ← (allocatorLayoutInitialized elementSize alignment).mapError mapAllocatorStatus
    if layout.align ∣ elementSize then .ok layout else .error .invalidAlignment

def bufferLayout (elementSize alignment capacity : ℕ) : Except BufferStatus Layout := do
  let elementLayout ← validateElementLayout elementSize alignment
  let bytes ← (checkedMul elementSize capacity).elim (.error .sizeOverflow) .ok
  if bytes = 0 then .error .invalidSize
  else
    let layout ← (allocatorLayoutInitialized bytes alignment).mapError mapAllocatorStatus
    if layout.align = elementLayout.align then .ok layout else .error .invalidAlignment

/-! ## Headers -/

/-- The header of an owning buffer. -/
structure Buffer where
  pointer : Pointer
  length : ℕ
  capacity : ℕ
  deriving DecidableEq, Repr

/-- A view of consecutive elements. -/
structure Slice where
  pointer : Pointer
  length : ℕ
  deriving DecidableEq, Repr

def Buffer.empty : Buffer := ⟨.null, 0, 0⟩

def Slice.empty : Slice := ⟨.null, 0⟩

def validateBuffer (buffer : Buffer) : Except BufferStatus Unit :=
  if buffer.capacity < buffer.length then .error .invalidBuffer
  else if buffer.capacity = 0 then
    if buffer.pointer.isNull then .ok () else .error .invalidBuffer
  else if buffer.pointer.isNull then .error .invalidBuffer
  else .ok ()

/-! ### Headers in memory -/

/-- The number that bytes stand for, the least significant one first. -/
def valueOfBytes : List Byte → ℕ
  | [] => 0
  | byte :: bytes => byte.toNat + 256 * valueOfBytes bytes

/-- The `count` least significant bytes of a number. -/
def bytesOfValue : ℕ → ℕ → List Byte
  | 0, _ => []
  | count + 1, value => UInt8.ofNat value :: bytesOfValue count (value / 256)

/-- `size_of::<Buffer>()`. -/
def bufferSize : ℕ := 24

/-- `align_of::<Buffer>()`. -/
def bufferAlign : ℕ := 8

def Buffer.toBytes (buffer : Buffer) : List Byte :=
  bytesOfValue 8 buffer.pointer.addr ++ bytesOfValue 8 buffer.length ++
    bytesOfValue 8 buffer.capacity

def Buffer.ofBytes (bytes : List Byte) : Buffer where
  pointer := ⟨valueOfBytes (bytes.take 8), 0⟩
  length := valueOfBytes ((bytes.drop 8).take 8)
  capacity := valueOfBytes ((bytes.drop 16).take 8)

/-! ## Calls -/

/-- What a call works on. -/
structure World where
  initialized : Bool
  header : Option Buffer
  memory : Memory

/-- A call of the runtime. -/
abbrev Call := Program World BufferStatus

def requireInitialized : Call Unit := do
  let w ← get
  failIf (w.initialized = false) .runtimeNotInitialized

/-- The header, unless the pointer to it is null. -/
def liveHeader : Call Buffer := do
  let w ← get
  orFail w.header .nullPointer

def setHeader (buffer : Buffer) : Call Unit :=
  modify fun w => { w with header := some buffer }

section Access

variable {ε : Type}

def setMemory (m : Memory) : Program World ε Unit := modify fun w => { w with memory := m }

def ptrAdd (pointer : Pointer) (count : ℕ) : Program World ε Pointer := do
  let w ← get
  demand (w.memory.add pointer count)

def ptrRead (pointer : Pointer) (count : ℕ) : Program World ε (List Byte) := do
  let w ← get
  demand (w.memory.read pointer count)

def ptrWrite (pointer : Pointer) (bytes : List Byte) : Program World ε Unit := do
  let w ← get
  let m ← demand (w.memory.write pointer bytes)
  setMemory m

/-- `ptr::copy`: the ranges may overlap. -/
def ptrCopy (source destination : Pointer) (count : ℕ) : Program World ε Unit := do
  let bytes ← ptrRead source count
  ptrWrite destination bytes

/-- `ptr::write_bytes`. -/
def ptrWriteBytes (pointer : Pointer) (byte : Byte) (count : ℕ) : Program World ε Unit :=
  ptrWrite pointer (List.replicate count byte)

end Access

/-- A non-null pointer to a new object, or `none`. -/
def alloc (A : Allocator) (layout : Layout) : Call (Option Pointer) := do
  let w ← get
  match A.alloc w.memory layout with
  | none => pure none
  | some a => do
    setMemory (w.memory.insert a.address a.object)
    pure (some ⟨a.address, 0⟩)

/-- A non-null pointer to the grown object, or `none` and the object stays. -/
def realloc (A : Allocator) (pointer : Pointer) (layout : Layout) (newSize : ℕ) :
    Call (Option Pointer) := do
  let w ← get
  let _ ← demand (w.memory.allocated pointer layout)
  match A.realloc w.memory pointer.base layout newSize with
  | none => pure none
  | some a => do
    setMemory ((w.memory.erase pointer.base).insert a.address a.object)
    pure (some ⟨a.address, 0⟩)

/-! ## Operations -/

def bufferCreate (A : Allocator) (elementSize alignment capacity : ℕ) : Call Buffer := do
  requireInitialized
  if capacity = 0 then
    let _ ← ofExcept (validateElementLayout elementSize alignment)
    pure .empty
  else
    let layout ← ofExcept (bufferLayout elementSize alignment capacity)
    let pointer ← alloc A layout
    let pointer ← orFail pointer .outOfMemory
    pure ⟨pointer, 0, capacity⟩

def bufferReserve (A : Allocator) (elementSize alignment minimumCapacity : ℕ) : Call Unit := do
  requireInitialized
  let buffer ← liveHeader
  ofExcept (validateBuffer buffer)
  let _ ← ofExcept (validateElementLayout elementSize alignment)
  if minimumCapacity ≤ buffer.capacity then pure ()
  else
    let newLayout ← ofExcept (bufferLayout elementSize alignment minimumCapacity)
    let resized ← choose (buffer.capacity = 0) (alloc A newLayout) do
      let oldLayout ← ofExcept (bufferLayout elementSize alignment buffer.capacity)
      realloc A buffer.pointer oldLayout newLayout.size
    let pointer ← orFail resized .outOfMemory
    setHeader { buffer with pointer, capacity := minimumCapacity }

def bufferResize (newLength : ℕ) : Call Unit := do
  requireInitialized
  let buffer ← liveHeader
  ofExcept (validateBuffer buffer)
  failIf (buffer.capacity < newLength) .outOfBounds
  setHeader { buffer with length := newLength }

def bufferInsertMoveFrom (A : Allocator) (index : ℕ) (source : Pointer)
    (elementSize alignment : ℕ) : Call Unit := do
  requireInitialized
  let buffer ← liveHeader
  failIf source.isNull .nullPointer
  let _ ← ofExcept (validateElementLayout elementSize alignment)
  let alignment ← orFail (tryFrom alignment) .invalidAlignment
  failIf (¬ alignment ∣ source.addr) .invalidAlignment
  ofExcept (validateBuffer buffer)
  failIf (buffer.length < index) .outOfBounds
  failIf (buffer.length = u64Max) .sizeOverflow
  let moveCount ← demand (checkedSub buffer.length index)
  let moveBytes ← orFail (checkedMul moveCount elementSize) .sizeOverflow
  let newLength ← demand (checkedAdd buffer.length 1)
  bufferReserve A elementSize alignment newLength
  -- `reserve` may have moved the elements
  let buffer ← liveHeader
  let destinationOffset ← orFail (checkedMul index elementSize) .sizeOverflow
  let destination ← ptrAdd buffer.pointer destinationOffset
  onlyIf (moveBytes ≠ 0) do
    let next ← ptrAdd destination elementSize
    ptrCopy destination next moveBytes
  ptrCopy source destination elementSize
  ptrWriteBytes source 0 elementSize
  let newLength ← demand (checkedAdd buffer.length 1)
  setHeader { buffer with length := newLength }

def bufferRemoveMoveInto (index : ℕ) (output : Pointer) (elementSize alignment : ℕ) :
    Call Unit := do
  requireInitialized
  let buffer ← liveHeader
  failIf output.isNull .nullPointer
  let _ ← ofExcept (validateElementLayout elementSize alignment)
  let alignment ← orFail (tryFrom alignment) .invalidAlignment
  failIf (¬ alignment ∣ output.addr) .invalidAlignment
  ofExcept (validateBuffer buffer)
  failIf (u64Max / elementSize < buffer.capacity) .sizeOverflow
  failIf (buffer.length ≤ index) .outOfBounds
  let sourceOffset ← orFail (checkedMul index elementSize) .sizeOverflow
  let source ← ptrAdd buffer.pointer sourceOffset
  ptrCopy source output elementSize
  let trailingCount ← demand (checkedSub buffer.length (index + 1))
  onlyIf (trailingCount ≠ 0) do
    let moveBytes ← orFail (checkedMul trailingCount elementSize) .sizeOverflow
    let trailingSourceOffset ← orFail
      ((checkedAdd index 1).bind fun next => checkedMul next elementSize) .sizeOverflow
    let trailingSource ← ptrAdd buffer.pointer trailingSourceOffset
    ptrCopy trailingSource source moveBytes
  let last ← demand (checkedSub buffer.length 1)
  let tailOffset ← orFail (checkedMul last elementSize) .sizeOverflow
  let tail ← ptrAdd buffer.pointer tailOffset
  ptrWriteBytes tail 0 elementSize
  setHeader { buffer with length := last }

def bufferPopMoveInto (output : Pointer) (elementSize alignment : ℕ) : Call Unit := do
  requireInitialized
  let buffer ← liveHeader
  failIf (buffer.length = 0) .outOfBounds
  let last ← demand (checkedSub buffer.length 1)
  bufferRemoveMoveInto last output elementSize alignment

def bufferRemoveDrop (index elementSize alignment : ℕ) : Call Unit := do
  requireInitialized
  let buffer ← liveHeader
  let _ ← ofExcept (validateElementLayout elementSize alignment)
  ofExcept (validateBuffer buffer)
  failIf (buffer.length ≤ index) .outOfBounds
  let trailingCount ← demand (checkedSub buffer.length (index + 1))
  onlyIf (trailingCount ≠ 0) do
    let moveBytes ← orFail (checkedMul trailingCount elementSize) .sizeOverflow
    let sourceOffset ← orFail
      ((checkedAdd index 1).bind fun next => checkedMul next elementSize) .sizeOverflow
    let destinationOffset ← orFail (checkedMul index elementSize) .sizeOverflow
    let source ← ptrAdd buffer.pointer sourceOffset
    let destination ← ptrAdd buffer.pointer destinationOffset
    ptrCopy source destination moveBytes
  let last ← demand (checkedSub buffer.length 1)
  let tailOffset ← orFail (checkedMul last elementSize) .sizeOverflow
  let tail ← ptrAdd buffer.pointer tailOffset
  ptrWriteBytes tail 0 elementSize
  setHeader { buffer with length := last }

/-- The checks `buffer_pop` and `buffer_remove_move` begin with. -/
def nestedHeader (elementSize alignment nestedElementSize nestedAlignment : ℕ) :
    Call Buffer := do
  requireInitialized
  let buffer ← liveHeader
  failIf (elementSize ≠ bufferSize) .invalidSize
  failIf (alignment ≠ bufferAlign) .invalidAlignment
  let _ ← ofExcept (validateElementLayout nestedElementSize nestedAlignment)
  ofExcept (validateBuffer buffer)
  pure buffer

def bufferPop (elementSize alignment nestedElementSize nestedAlignment : ℕ) : Call Buffer := do
  let buffer ← nestedHeader elementSize alignment nestedElementSize nestedAlignment
  failIf (buffer.length = 0) .outOfBounds
  let index ← demand (checkedSub buffer.length 1)
  let nested ← ptrAdd buffer.pointer (index * bufferSize)
  let value ← ptrRead nested bufferSize
  ptrWrite nested Buffer.empty.toBytes
  setHeader { buffer with length := index }
  pure (Buffer.ofBytes value)

/-- The loop of `buffer_remove_move`: move the next descriptor here and empty its slot. -/
def moveDescriptor (base : Pointer) (currentIndex : ℕ) : Call Unit := do
  let current ← ptrAdd base (currentIndex * bufferSize)
  let next ← ptrAdd base ((currentIndex + 1) * bufferSize)
  let moved ← ptrRead next bufferSize
  ptrWrite current (Buffer.ofBytes moved).toBytes
  ptrWrite next Buffer.empty.toBytes

def bufferRemoveMove (index elementSize alignment nestedElementSize nestedAlignment : ℕ) :
    Call Buffer := do
  let buffer ← nestedHeader elementSize alignment nestedElementSize nestedAlignment
  failIf (buffer.length ≤ index) .outOfBounds
  let slot ← ptrAdd buffer.pointer (index * bufferSize)
  let removed ← ptrRead slot bufferSize
  let last ← demand (checkedSub buffer.length 1)
  forEach (moveDescriptor buffer.pointer) (List.range' index (last - index))
  setHeader { buffer with length := last }
  pure (Buffer.ofBytes removed)

/-- The part of `buffer_slice` after the null check. -/
def sliceOf (buffer : Buffer) (elementSize alignment start count : ℕ) : Call Slice := do
  ofExcept (validateBuffer buffer)
  let _ ← ofExcept (validateElementLayout elementSize alignment)
  failIf (buffer.length < start ∨ buffer.length - start < count) .outOfBounds
  if count = 0 then pure .empty
  else
    let _ ← ofExcept (bufferLayout elementSize alignment buffer.capacity)
    let offset ← orFail (checkedMul elementSize start) .sizeOverflow
    let offset ← orFail (tryFrom offset) .sizeOverflow
    let pointer ← ptrAdd buffer.pointer offset
    failIf (¬ alignment ∣ pointer.addr) .invalidAlignment
    pure ⟨pointer, count⟩

def bufferSlice (elementSize alignment start count : ℕ) : Call Slice := do
  requireInitialized
  let buffer ← liveHeader
  sliceOf buffer elementSize alignment start count

/-- A part of a view; `none` is the null pointer. -/
def sliceSubslice (slice : Option Slice) (elementSize alignment start count : ℕ) :
    Call Slice := do
  requireInitialized
  let slice ← orFail slice .nullPointer
  sliceOf ⟨slice.pointer, slice.length, slice.length⟩ elementSize alignment start count

end Jadren.Runtime
