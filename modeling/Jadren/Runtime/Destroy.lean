import Jadren.Runtime.Buffer

/-!
# Destroying owned elements

The elements of a buffer may own allocations themselves: headers of buffers, to any depth,
headers of strings, and records with such headers at fixed offsets.  This module has the
operations that give elements up with what they own: destroying a buffer, shrinking or
clearing it, and removing one element.

The header is in memory here, at the pointer a call is given.  For each of the three kinds
of operation the functions of the source differ in their checks and in what destroys an
element; `destroyNestedWith`, `resizeMoveWith` and `removeDropWith` are what they share.
-/

namespace Jadren.Runtime

open Program

/-! ## Headers in memory -/

section Access

variable {ε : Type}

/-- `&mut *buffer`. -/
def loadBuffer (p : Pointer) : Program World ε Buffer := do
  let bytes ← ptrRead p bufferSize
  pure (.ofBytes bytes)

def storeBuffer (p : Pointer) (buffer : Buffer) : Program World ε Unit := ptrWrite p buffer.toBytes

/-- The object of a pointer is given back with the layout it was allocated with. -/
def dealloc (pointer : Pointer) (layout : Layout) : Program World ε Unit := do
  let w ← get
  let _ ← demand (w.memory.allocated pointer layout)
  setMemory (w.memory.erase pointer.base)

end Access

/-- Give the block of a header back. -/
def releaseBlock (buffer : Buffer) (elementSize alignment : ℕ) : Call Unit :=
  onlyIf (buffer.capacity ≠ 0) do
    let layout ← ofExcept (bufferLayout elementSize alignment buffer.capacity)
    dealloc buffer.pointer layout

def requireNotNull (p : Pointer) : Call Unit := failIf p.isNull .nullPointer

/-- `buffer_reserve` on a header in memory. -/
def reserveAt (A : Allocator) (p : Pointer) (elementSize alignment minimumCapacity : ℕ) :
    Call Unit := do
  let buffer ← loadBuffer p
  setHeader buffer
  bufferReserve A elementSize alignment minimumCapacity
  let buffer ← liveHeader
  storeBuffer p buffer

/-- The program for the slots `first`, ..., `last - 1` of a block.  An offset in a block does not
overflow, so that it does not matter which functions check that. -/
def forSlots (base : Pointer) (size first last : ℕ) (body : Pointer → Call Unit) : Call Unit :=
  forEach (fun index => do
    let slot ← ptrAdd base (index * size)
    body slot) (List.range' first (last - first))

/-! ## Strings -/

/-- Result code of string operations. -/
inductive StringStatus
  | ok
  | disabled
  | runtimeNotInitialized
  | invalidSize
  | invalidAlignment
  | sizeOverflow
  | outOfMemory
  | nullPointer
  | invalidUtf8
  | invalidString
  deriving DecidableEq, Repr

def mapStringAllocatorStatus : AllocatorStatus → StringStatus
  | .ok => .ok
  | .runtimeNotInitialized => .runtimeNotInitialized
  | .invalidSize => .invalidSize
  | .invalidAlignment => .invalidAlignment
  | .sizeOverflow => .sizeOverflow
  | .outOfMemory => .outOfMemory
  | .nullPointer => .nullPointer

/-- The status of a buffer operation that a string in it has stopped. -/
def bufferStatusOfString : StringStatus → BufferStatus
  | .runtimeNotInitialized => .runtimeNotInitialized
  | .nullPointer => .nullPointer
  | .invalidSize => .invalidSize
  | .invalidAlignment => .invalidAlignment
  | .sizeOverflow => .sizeOverflow
  | .outOfMemory => .outOfMemory
  | _ => .invalidBuffer

/-- A string has a header of the same shape as a buffer of bytes. -/
abbrev Utf8String := Buffer

def stringLayout (capacity : ℕ) : Except StringStatus Layout :=
  if capacity = 0 then .error .invalidSize
  else (allocatorLayoutInitialized capacity 1).mapError mapStringAllocatorStatus

def validateStringHeader (string : Utf8String) : Except StringStatus Unit :=
  if string.capacity < string.length then .error .invalidString
  else if string.capacity = 0 then
    if string.pointer.isNull ∧ string.length = 0 then .ok () else .error .invalidString
  else if string.pointer.isNull ∨ (tryFrom string.capacity).isNone ∨
      (tryFrom string.length).isNone then .error .invalidString
  else .ok ()

def stringDestroy (p : Pointer) : Program World StringStatus Unit := do
  let w ← get
  failIf (w.initialized = false) .runtimeNotInitialized
  failIf p.isNull .nullPointer
  let string ← loadBuffer p
  ofExcept (validateStringHeader string)
  onlyIf (string.capacity ≠ 0) do
    let layout ← ofExcept (stringLayout string.capacity)
    dealloc string.pointer layout
  storeBuffer p .empty

/-- Destroy the string of an element. -/
def destroyString (p : Pointer) : Call Unit := mapError bufferStatusOfString (stringDestroy p)

/-! ## Destroying buffers -/

def bufferDestroy (p : Pointer) (elementSize alignment : ℕ) : Call Unit := do
  requireInitialized
  requireNotNull p
  let buffer ← loadBuffer p
  ofExcept (validateBuffer buffer)
  let _ ← ofExcept (validateElementLayout elementSize alignment)
  releaseBlock buffer elementSize alignment
  storeBuffer p .empty

/-- The checks of the layout of a header. -/
def descriptorLayout (elementSize alignment : ℕ) : Except BufferStatus Unit :=
  if elementSize ≠ bufferSize then .error .invalidSize
  else if alignment ≠ bufferAlign then .error .invalidAlignment
  else .ok ()

def bufferDestroyOwnedString (p : Pointer) (elementSize alignment : ℕ) : Call Unit := do
  requireInitialized
  ofExcept (descriptorLayout elementSize alignment)
  requireNotNull p
  let buffer ← loadBuffer p
  ofExcept (validateBuffer buffer)
  forSlots buffer.pointer bufferSize 0 buffer.length destroyString
  bufferDestroy p elementSize alignment

def bufferDestroyNestedBuffer (p : Pointer) (elementSize alignment nestedElementSize
    nestedAlignment : ℕ) : Call Unit := do
  requireInitialized
  requireNotNull p
  ofExcept (descriptorLayout elementSize alignment)
  let _ ← ofExcept (validateElementLayout nestedElementSize nestedAlignment)
  let buffer ← loadBuffer p
  ofExcept (validateBuffer buffer)
  forSlots buffer.pointer bufferSize 0 buffer.length fun nested =>
    bufferDestroy nested nestedElementSize nestedAlignment
  releaseBlock buffer elementSize alignment
  storeBuffer p .empty

/-- What the destructors of nested buffers share: `depth` headers lie below this one, and
the innermost buffers are destroyed with `destroyLeaf`. -/
def destroyNestedWith (leafChecks : Except BufferStatus Unit) (destroyLeaf : Pointer → Call Unit) :
    ℕ → ℕ → ℕ → Pointer → Call Unit
  | 0, _, _, p => do
    requireInitialized
    requireNotNull p
    fail .invalidSize
  | depth + 1, elementSize, alignment, p => do
    requireInitialized
    requireNotNull p
    ofExcept (descriptorLayout elementSize alignment)
    ofExcept leafChecks
    let buffer ← loadBuffer p
    ofExcept (validateBuffer buffer)
    forSlots buffer.pointer bufferSize 0 buffer.length fun nested =>
      choose (depth = 0) (destroyLeaf nested)
        (destroyNestedWith leafChecks destroyLeaf depth bufferSize bufferAlign nested)
    releaseBlock buffer elementSize alignment
    storeBuffer p .empty

/-- The check of the layout of scalars. -/
def leafLayout (leafElementSize leafAlignment : ℕ) : Except BufferStatus Unit := do
  let _ ← validateElementLayout leafElementSize leafAlignment
  .ok ()

def bufferDestroyNestedBufferRecursive (p : Pointer) (elementSize alignment depth leafElementSize
    leafAlignment : ℕ) : Call Unit :=
  destroyNestedWith (leafLayout leafElementSize leafAlignment)
    (fun nested => bufferDestroy nested leafElementSize leafAlignment) depth elementSize alignment p

def bufferDestroyNestedOwnedString (p : Pointer) (elementSize alignment depth stringElementSize
    stringAlignment : ℕ) : Call Unit :=
  destroyNestedWith (descriptorLayout stringElementSize stringAlignment)
    (fun nested => bufferDestroyOwnedString nested stringElementSize stringAlignment)
    depth elementSize alignment p

/-! ## Records -/

/-- Where a record has a header, and when. -/
structure CarrierDropField where
  payloadVariant : ℕ
  payloadOffset : ℕ
  depth : ℕ
  leafElementSize : ℕ
  leafAlignment : ℕ
  deriving DecidableEq, Repr

def maxEnumCarrierBranches : ℕ := 1024

def recordFieldUnconditional : ℕ := u64Max

/-- The depth that marks a string. -/
def recordFieldOwnedString : ℕ := 2 ^ 32 - 1

def enumFieldNestedTagMarker : ℕ := 1 <<< 63

def enumFieldNoInnerTag : ℕ := 2 ^ 32 - 1

def enumFieldMultiTagMarker : ℕ := 3 <<< 62

def recordFieldNamedEnumTagMarker : ℕ := 1 <<< 62

def recordFieldNamedEnumTagDistanceMask : ℕ := (1 <<< 30) - 1

def enumFieldPathMarkerBase : ℕ := 0xe0 <<< 56

def enumFieldPathMaxTags : ℕ := 7

/-- The top byte of a variant that lists tags. -/
def isTagPath (variant : ℕ) : Prop := (variant >>> 56) &&& 0xf0 = enumFieldPathMarkerBase >>> 56

instance (variant : ℕ) : Decidable (isTagPath variant) := inferInstanceAs (Decidable (_ = _))

def validateField (elementSize : ℕ) (earlier : List CarrierDropField) (field : CarrierDropField) :
    Except BufferStatus Unit := do
  if field.depth = 0 then .error .invalidSize
  else
    let _ ← validateElementLayout field.leafElementSize field.leafAlignment
    if field.depth = recordFieldOwnedString ∧
        (field.leafElementSize ≠ bufferSize ∨ field.leafAlignment ≠ bufferAlign) then
      .error .invalidSize
    else if field.payloadVariant ≠ recordFieldUnconditional ∧ ¬ isTagPath field.payloadVariant ∧
        field.payloadVariant &&& enumFieldMultiTagMarker = enumFieldMultiTagMarker ∧
        field.payloadOffset < 24 then
      .error .invalidAlignment
    else
      let payloadEnd ← (checkedAdd field.payloadOffset bufferSize).elim
          (.error .invalidAlignment) .ok
      if field.payloadOffset % bufferAlign ≠ 0 ∨ elementSize < payloadEnd then
        .error .invalidAlignment
      else if earlier.any fun previous => previous.payloadVariant = field.payloadVariant ∧
          previous.payloadOffset = field.payloadOffset then
        .error .invalidBuffer
      else .ok ()

/-- The fields after the `earlier` ones. -/
def validateFieldsAfter (elementSize : ℕ) (earlier : List CarrierDropField) :
    List CarrierDropField → Except BufferStatus Unit
  | [] => .ok ()
  | field :: fields => do
    validateField elementSize earlier field
    validateFieldsAfter elementSize (earlier ++ [field]) fields

/-- A table of fields; `none` is the null pointer. -/
abbrev FieldTable := Option (List CarrierDropField)

def validateEnumCarrierFields (table : FieldTable) (elementSize : ℕ) : Except BufferStatus Unit :=
  match table with
  | none => .error .invalidSize
  | some fields =>
    if fields.length = 0 ∨ maxEnumCarrierBranches < fields.length then .error .invalidSize
    else validateFieldsAfter elementSize [] fields

/-- The four bytes at an offset of a record, as a number. -/
def Memory.tagAt (m : Memory) (record : Pointer) (offset : ℕ) : Option ℕ :=
  (m.read (record.plus offset) 4).map valueOfBytes

/-- What is computed from the tags of one record. -/
abbrev TagReader := Program (ℕ → Option ℕ) BufferStatus

def readTag (offset : ℕ) : TagReader ℕ := do
  let tagAt ← get
  demand (tagAt offset)

/-- The tags of a path, the outermost first, are those that the variant lists. -/
def tagPathMatches (field : CarrierDropField) (tagCount : ℕ) : List ℕ → TagReader Bool
  | [] => pure true
  | index :: rest => do
    let expected := (field.payloadVariant >>> (8 * (tagCount - index - 1))) &&& 0xff
    let actual ← readTag (field.payloadOffset - 8 * (tagCount - index))
    if actual ≠ expected then pure false else tagPathMatches field tagCount rest

/-- Whether a record has the field now. -/
def recordFieldIsActive (field : CarrierDropField) : TagReader Bool := do
  let variant := field.payloadVariant
  if variant = recordFieldUnconditional then pure true
  else if variant &&& recordFieldNamedEnumTagMarker ≠ 0 ∧
      variant &&& enumFieldMultiTagMarker ≠ enumFieldMultiTagMarker then
    let distanceWords := (variant >>> 32) &&& recordFieldNamedEnumTagDistanceMask
    failIf (distanceWords = 0) .invalidAlignment
    let distance ← orFail (checkedMul distanceWords 8) .invalidAlignment
    failIf (field.payloadOffset < distance) .invalidAlignment
    let tag ← readTag (field.payloadOffset - distance)
    pure (tag = variant &&& (2 ^ 32 - 1))
  else if isTagPath variant then
    let tagCount := (variant >>> 56) &&& 0x0f
    failIf (tagCount < 2 ∨ enumFieldPathMaxTags < tagCount ∨ field.payloadOffset < tagCount * 8)
      .invalidAlignment
    tagPathMatches field tagCount (List.range tagCount)
  else if variant &&& enumFieldNestedTagMarker ≠ 0 then
    failIf (field.payloadOffset < 8) .invalidAlignment
    let outerVariant := (variant >>> 32) &&& 0x7fffffff
    let outerTag ← readTag 0
    if outerTag ≠ outerVariant then pure false
    else
      let innerVariant := variant &&& (2 ^ 32 - 1)
      if innerVariant = enumFieldNoInnerTag then pure true
      else
        let innerTag ← readTag (field.payloadOffset - 8)
        pure (innerTag = innerVariant)
  else
    failIf (field.payloadOffset < 8) .invalidAlignment
    let tag ← readTag (field.payloadOffset - 8)
    pure (tag = variant)

/-- `record_field_is_active` for the record at a pointer. -/
def activeAt (record : Pointer) (field : CarrierDropField) : Call Bool := do
  let w ← get
  let result ← demand (recordFieldIsActive field (w.memory.tagAt record))
  ofExcept result.1

def destroyRecordField (record : Pointer) (field : CarrierDropField) : Call Unit := do
  let payload ← ptrAdd record field.payloadOffset
  choose (field.depth = recordFieldOwnedString) (destroyString payload) <|
    choose (field.depth = 1)
      (bufferDestroy payload field.leafElementSize field.leafAlignment)
      (bufferDestroyNestedBufferRecursive payload bufferSize bufferAlign (field.depth - 1)
        field.leafElementSize field.leafAlignment)

/-- The loop over the fields of one record. -/
def destroyFields (record : Pointer) (table : FieldTable) : Call Unit :=
  forEach (fun field => do
    let active ← activeAt record field
    onlyIf (active = true) (destroyRecordField record field)) (table.getD [])

/-- The checks of the layout and the fields of a record. -/
def recordLayout (elementSize alignment : ℕ) (table : FieldTable) : Except BufferStatus Unit := do
  let _ ← validateElementLayout elementSize alignment
  validateEnumCarrierFields table elementSize

def carrierDestroyRecordFields (record : Pointer) (elementSize : ℕ) (table : FieldTable) :
    Call Unit := do
  requireInitialized
  requireNotNull record
  ofExcept (recordLayout elementSize bufferAlign table)
  destroyFields record table
  ptrWriteBytes record 0 elementSize

def bufferDestroyRecordFields (p : Pointer) (elementSize alignment : ℕ) (table : FieldTable) :
    Call Unit := do
  requireInitialized
  requireNotNull p
  ofExcept (recordLayout elementSize alignment table)
  let buffer ← loadBuffer p
  ofExcept (validateBuffer buffer)
  forSlots buffer.pointer elementSize 0 buffer.length fun record => destroyFields record table
  releaseBlock buffer elementSize alignment
  storeBuffer p .empty

def bufferDestroyNestedRecordFields (p : Pointer) (elementSize alignment depth recordElementSize
    recordAlignment : ℕ) (table : FieldTable) : Call Unit :=
  destroyNestedWith (recordLayout recordElementSize recordAlignment table)
    (fun nested => bufferDestroyRecordFields nested recordElementSize recordAlignment table)
    depth elementSize alignment p

/-! ## Changing the length -/

/-- What the resizing operations share.  New slots are zeroed; slots that go are destroyed,
the first one first, before the length is changed. -/
def resizeMoveWith (A : Allocator) (checks : Except BufferStatus Unit) (p : Pointer)
    (newLength elementSize alignment : ℕ) (destroyElement : Pointer → Call Unit) : Call Unit := do
  requireInitialized
  requireNotNull p
  ofExcept checks
  let buffer ← loadBuffer p
  ofExcept (validateBuffer buffer)
  let oldLength := buffer.length
  onlyIf (oldLength < newLength) do
    reserveAt A p elementSize alignment newLength
    let buffer ← loadBuffer p
    let byteOffset ← orFail (checkedMul oldLength elementSize) .sizeOverflow
    let byteLength ← orFail (checkedMul (newLength - oldLength) elementSize) .sizeOverflow
    let slots ← ptrAdd buffer.pointer byteOffset
    ptrWriteBytes slots 0 byteLength
  onlyIf (newLength < oldLength)
    (forSlots buffer.pointer elementSize newLength oldLength destroyElement)
  let buffer ← loadBuffer p
  storeBuffer p { buffer with length := newLength }

/-- Destroy an element that is a header with `depth - 1` headers below it. -/
def destroyChain (leafChecks : Except BufferStatus Unit) (destroyLeaf : Pointer → Call Unit)
    (depth : ℕ) (nested : Pointer) : Call Unit :=
  choose (depth = 1) (destroyLeaf nested)
    (destroyNestedWith leafChecks destroyLeaf (depth - 1) bufferSize bufferAlign nested)

def requireDepth (depth : ℕ) : Except BufferStatus Unit :=
  if depth = 0 then .error .invalidSize else .ok ()

def bufferResizeMove (A : Allocator) (p : Pointer) (newLength elementSize alignment depth
    leafElementSize leafAlignment : ℕ) : Call Unit :=
  resizeMoveWith A (do
      descriptorLayout elementSize alignment
      requireDepth depth
      leafLayout leafElementSize leafAlignment) p newLength elementSize alignment
    (destroyChain (leafLayout leafElementSize leafAlignment)
      (fun nested => bufferDestroy nested leafElementSize leafAlignment) depth)

def bufferResizeMoveOwnedString (A : Allocator) (p : Pointer) (newLength elementSize
    alignment : ℕ) : Call Unit :=
  resizeMoveWith A (descriptorLayout elementSize alignment) p newLength elementSize alignment
    destroyString

def bufferResizeMoveNestedOwnedString (A : Allocator) (p : Pointer) (newLength elementSize
    alignment depth stringElementSize stringAlignment : ℕ) : Call Unit :=
  resizeMoveWith A (do
      requireDepth depth
      descriptorLayout elementSize alignment
      descriptorLayout stringElementSize stringAlignment) p newLength elementSize alignment
    (destroyChain (descriptorLayout stringElementSize stringAlignment)
      (fun nested => bufferDestroyOwnedString nested stringElementSize stringAlignment) depth)

def bufferResizeMoveRecordFields (A : Allocator) (p : Pointer) (newLength elementSize
    alignment : ℕ) (table : FieldTable) : Call Unit :=
  resizeMoveWith A (recordLayout elementSize alignment table) p newLength elementSize alignment
    fun record => carrierDestroyRecordFields record elementSize table

def bufferResizeMoveNestedRecordFields (A : Allocator) (p : Pointer) (newLength elementSize
    alignment depth recordElementSize recordAlignment : ℕ) (table : FieldTable) : Call Unit :=
  resizeMoveWith A (do
      requireDepth depth
      descriptorLayout elementSize alignment
      recordLayout recordElementSize recordAlignment table) p newLength elementSize alignment
    (destroyChain (recordLayout recordElementSize recordAlignment table)
      (fun nested => bufferDestroyRecordFields nested recordElementSize recordAlignment table)
      depth)

def bufferClearMove (A : Allocator) (p : Pointer) (elementSize alignment depth leafElementSize
    leafAlignment : ℕ) : Call Unit :=
  bufferResizeMove A p 0 elementSize alignment depth leafElementSize leafAlignment

def bufferClearMoveOwnedString (A : Allocator) (p : Pointer) (elementSize alignment : ℕ) :
    Call Unit :=
  bufferResizeMoveOwnedString A p 0 elementSize alignment

def bufferClearMoveNestedOwnedString (A : Allocator) (p : Pointer) (elementSize alignment depth
    stringElementSize stringAlignment : ℕ) : Call Unit :=
  bufferResizeMoveNestedOwnedString A p 0 elementSize alignment depth stringElementSize
    stringAlignment

/-! ## Removing one element -/

/-- What the removing operations share: the element is destroyed, then the gap is closed. -/
def removeDropWith (checks : Except BufferStatus Unit) (p : Pointer) (index elementSize : ℕ)
    (destroyElement : Pointer → Call Unit) (closeGap : Buffer → Call Unit) : Call Unit := do
  requireInitialized
  requireNotNull p
  ofExcept checks
  let buffer ← loadBuffer p
  ofExcept (validateBuffer buffer)
  failIf (buffer.length ≤ index) .outOfBounds
  let offset ← orFail (checkedMul index elementSize) .sizeOverflow
  let selected ← ptrAdd buffer.pointer offset
  destroyElement selected
  closeGap buffer
  storeBuffer p { buffer with length := buffer.length - 1 }

/-- Later headers are moved one by one; their old slots are emptied. -/
def closeDescriptorGap (index : ℕ) (buffer : Buffer) : Call Unit :=
  forEach (moveDescriptor buffer.pointer) (List.range' index (buffer.length - 1 - index))

/-- Later records are moved together; the last slot is zeroed. -/
def closeRecordGap (index elementSize : ℕ) (buffer : Buffer) : Call Unit := do
  let trailingCount ← demand (checkedSub buffer.length (index + 1))
  onlyIf (trailingCount ≠ 0) do
    let moveBytes ← orFail (checkedMul trailingCount elementSize) .sizeOverflow
    let sourceOffset ← orFail
      ((checkedAdd index 1).bind fun next => checkedMul next elementSize) .sizeOverflow
    let destinationOffset ← orFail (checkedMul index elementSize) .sizeOverflow
    let source ← ptrAdd buffer.pointer sourceOffset
    let destination ← ptrAdd buffer.pointer destinationOffset
    ptrCopy source destination moveBytes
  let last ← demand (checkedSub buffer.length 1)
  let tailOffset ← orFail (checkedMul last elementSize) .sizeOverflow
  let tail ← ptrAdd buffer.pointer tailOffset
  ptrWriteBytes tail 0 elementSize

def bufferRemoveDropNestedBuffer (p : Pointer) (index elementSize alignment depth leafElementSize
    leafAlignment : ℕ) : Call Unit :=
  removeDropWith (do
      requireDepth depth
      descriptorLayout elementSize alignment
      leafLayout leafElementSize leafAlignment) p index bufferSize
    (destroyChain (leafLayout leafElementSize leafAlignment)
      (fun nested => bufferDestroy nested leafElementSize leafAlignment) depth)
    (closeDescriptorGap index)

def bufferRemoveDropOwnedString (p : Pointer) (index elementSize alignment : ℕ) : Call Unit :=
  removeDropWith (descriptorLayout elementSize alignment) p index bufferSize destroyString
    (closeDescriptorGap index)

def bufferRemoveDropNestedOwnedString (p : Pointer) (index elementSize alignment depth
    stringElementSize stringAlignment : ℕ) : Call Unit :=
  removeDropWith (do
      requireDepth depth
      descriptorLayout elementSize alignment
      descriptorLayout stringElementSize stringAlignment) p index bufferSize
    (destroyChain (descriptorLayout stringElementSize stringAlignment)
      (fun nested => bufferDestroyOwnedString nested stringElementSize stringAlignment) depth)
    (closeDescriptorGap index)

def bufferRemoveDropRecordFields (p : Pointer) (index elementSize alignment : ℕ)
    (table : FieldTable) : Call Unit :=
  removeDropWith (recordLayout elementSize alignment table) p index elementSize
    (fun record => destroyFields record table) (closeRecordGap index elementSize)

def bufferRemoveDropNestedRecordFields (p : Pointer) (index elementSize alignment depth
    recordElementSize recordAlignment : ℕ) (table : FieldTable) : Call Unit :=
  removeDropWith (do
      requireDepth depth
      descriptorLayout elementSize alignment
      recordLayout recordElementSize recordAlignment table) p index bufferSize
    (destroyChain (recordLayout recordElementSize recordAlignment table)
      (fun nested => bufferDestroyRecordFields nested recordElementSize recordAlignment table)
      depth)
    (closeDescriptorGap index)

end Jadren.Runtime
