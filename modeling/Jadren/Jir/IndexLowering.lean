import Jadren.Jir.Execution
import Jadren.Types.Store

/-!
# Lowering an index projection

`lowerIndexProjection` emits the instructions for one `[index]` of a place: a bounds
check and the address of the element.  An inline array compares the index with its
length written as a constant of the index's own type.  A buffer or a slice is loaded
first; the index is brought to the width of a pointer and compared with the length
in the descriptor.
-/

namespace Jadren.Jir

open Jadren.Types (IntegerWidth Signedness TypeKind TypeStore)

/-! ## The type table -/

def integerBits (width : IntegerWidth) (pointerBits : ℕ) : ℕ :=
  match width with
  | .bits8 => 8
  | .bits16 => 16
  | .bits32 => 32
  | .bits64 => 64
  | .pointer => pointerBits

theorem integerBits_pos (width : IntegerWidth) {pointerBits : ℕ} (h : 0 < pointerBits) :
    0 < integerBits width pointerBits := by
  cases width <;> simp [integerBits, h]

/-- A failure of the lowering, with the place in the source it is about. -/
structure LowerError where
  span : Option Span
  message : String
  deriving DecidableEq, Repr

/-- The JIR types of a module while it is lowered.  `lowered` remembers what a source
type became; the types of a place are there since its local was declared. -/
structure TypeTable where
  semantic : TypeStore
  types : List JirType
  lowered : Types.TypeId → Option TypeId
  pointerBits : ℕ

namespace TypeTable

variable (table : TypeTable)

/-- The identity of a type, a new one if it is not in the table yet. -/
def intern (ty : JirType) : TypeId × TypeTable :=
  match table.types.findIdx? (· == ty) with
  | some index => (index, table)
  | none => (table.types.length, { table with types := table.types ++ [ty] })

def pointer (pointee : TypeId) (addressSpace : AddressSpace) : TypeId × TypeTable :=
  table.intern (.pointer pointee addressSpace)

def lower (source : Types.TypeId) (span : Option Span) : Except LowerError TypeId :=
  match table.lowered source with
  | some ty => .ok ty
  | none => .error ⟨span, "semantic type #" ++ toString source.index ++ " does not exist"⟩

/-- What the table says about the types it holds. -/
structure WellFormed : Prop where
  lowered_lt : ∀ {source ty}, table.lowered source = some ty → ty < table.types.length
  lowered_integer : ∀ {source ty signedness width},
    table.semantic.kind source = some (.integer signedness width) →
    table.lowered source = some ty →
    table.types[ty]? = some (.integer (signedness == .signed) (integerBits width table.pointerBits))
  lowered_array : ∀ {source ty element length},
    table.semantic.kind source = some (.array element length) → table.lowered source = some ty →
    ∃ elementType, table.lowered element = some elementType ∧ elementType ≠ ty ∧
      table.types[ty]? = some (.array elementType length)
  /-- No type holds itself by value. -/
  notMem_fields : ∀ {ty : TypeId} {fields : List TypeId},
    (table.types[ty]? = some (.struct fields) ∨
    ∃ identity, table.types[ty]? = some (.nominalStruct identity fields)) → ty ∉ fields

/-- A lowered type is in the table, and does not hold itself. -/
theorem WellFormed.exists_kind {table : TypeTable} (wellFormed : table.WellFormed)
    {source : Types.TypeId} {ty : TypeId} (h : table.lowered source = some ty) :
    ∃ kind, table.types[ty]? = some kind ∧ ∀ fields : List TypeId,
      (kind = .struct fields ∨ ∃ identity, kind = .nominalStruct identity fields) →
        ty ∉ fields := by
  have hget := List.getElem?_eq_getElem (wellFormed.lowered_lt h)
  refine ⟨_, hget, fun fields hkind => wellFormed.notMem_fields ?_⟩
  simpa only [hget, Option.some.injEq] using hkind

theorem intern_types (ty : JirType) : table.types <+: (table.intern ty).2.types := by
  unfold intern
  split
  · exact List.prefix_rfl
  · exact List.prefix_append _ _

theorem getElem?_intern (ty : JirType) :
    (table.intern ty).2.types[(table.intern ty).1]? = some ty := by
  unfold intern
  split
  next index hfound =>
    obtain ⟨hlt, heq, -⟩ := List.findIdx?_eq_some_iff_getElem.mp hfound
    rw [List.getElem?_eq_getElem hlt, beq_iff_eq.mp heq]
  next => simp

@[simp] theorem intern_semantic (ty : JirType) :
    (table.intern ty).2.semantic = table.semantic := by
  unfold intern
  split <;> rfl

@[simp] theorem intern_lowered (ty : JirType) : (table.intern ty).2.lowered = table.lowered := by
  unfold intern
  split <;> rfl

@[simp] theorem intern_pointerBits (ty : JirType) :
    (table.intern ty).2.pointerBits = table.pointerBits := by
  unfold intern
  split <;> rfl

theorem lower_eq_ok {source : Types.TypeId} {span : Option Span} {ty : TypeId}
    (h : table.lower source span = .ok ty) : table.lowered source = some ty := by
  unfold lower at h
  split at h
  next lowered hlowered => rw [hlowered, Except.ok.inj h]
  next => cases h

end TypeTable

/-! ## The state of the lowering -/

/-- What is kept while the body of a function is lowered. -/
structure FunctionLowerer where
  typeTable : TypeTable
  nextValue : ℕ
  instructions : List Instruction
  errors : List LowerError

namespace FunctionLowerer

variable (l : FunctionLowerer)

def fail (error : LowerError) : FunctionLowerer := { l with errors := l.errors ++ [error] }

def withTypes (table : TypeTable) : FunctionLowerer := { l with typeTable := table }

/-- An instruction that computes a new value. -/
def emit (ty : TypeId) (kind : InstructionKind) (span : Option Span) : ValueId × FunctionLowerer :=
  (l.nextValue,
    { l with
      nextValue := l.nextValue + 1
      instructions := l.instructions ++ [⟨some ⟨l.nextValue, ty⟩, kind, span⟩] })

/-- An instruction without a result. -/
def emitCheck (kind : InstructionKind) (span : Option Span) : FunctionLowerer :=
  { l with instructions := l.instructions ++ [⟨none, kind, span⟩] }

end FunctionLowerer

/-- How far the projections of a place have been followed. -/
structure PlaceCursor where
  address : ValueId
  currentType : Types.TypeId
  addressSpace : AddressSpace
  /-- The type behind a capability, instead of the one the source type lowers to. -/
  specialized : Option TypeId
  /-- A descriptor that was passed by value. -/
  capabilityView : Option ValueId

/-- What the lowering looks up about the local of a place. -/
structure PlaceLocal where
  ownedByRegion : Bool
  indexedFirst : Bool
  jirType : Option TypeId

/-- The index of a projection: its source type, and where it stands. -/
structure IndexOperand where
  ty : Types.TypeId
  span : Span

/-! ## The index of a descriptor -/

section

variable (l : FunctionLowerer)

/-- The index as an unsigned number of the pointer's width. -/
def lowerIndexToSize (value : ValueId) (semanticType : Types.TypeId) (sizeType : TypeId)
    (span : Span) : Option ValueId × FunctionLowerer :=
  match l.typeTable.semantic.kind semanticType with
  | some (.integer signedness width) =>
      let bits := integerBits width l.typeTable.pointerBits
      if bits = l.typeTable.pointerBits ∧ signedness = .unsigned then (some value, l)
      else if l.typeTable.pointerBits < bits then
        (none, l.fail ⟨some span,
          "index wider than the target pointer size requires a checked narrowing pass"⟩)
      else
        let op := if bits < l.typeTable.pointerBits then CastOp.integerExtend else CastOp.bitcast
        let converted := l.emit sizeType (.cast op value sizeType) (some span)
        (some converted.1, converted.2)
  | _ => (none, l.fail ⟨some span, "buffer index is not an integer"⟩)

/-! ## The projection -/

/-- `[index]` of an inline array. -/
def lowerArrayIndex (cursor : PlaceCursor) (element : Types.TypeId) (length : ℕ)
    (operand : IndexOperand) (index : ValueId) (span : Option Span) :
    Option PlaceCursor × FunctionLowerer :=
  match l.typeTable.lower operand.ty span with
  | .error error => (none, l.fail error)
  | .ok indexType =>
      let lengthValue := l.emit indexType (.constant (.integer length)) span
      let checked := lengthValue.2.emitCheck (.boundsCheck index lengthValue.1) span
      match checked.typeTable.lower element span with
      | .error error => (none, checked.fail error)
      | .ok pointee =>
          let pointerType := checked.typeTable.pointer pointee cursor.addressSpace
          let projected := (checked.withTypes pointerType.2).emit pointerType.1
            (.offset cursor.address [index]) span
          (some { cursor with address := projected.1, currentType := element }, projected.2)

/-- The type of the descriptor a view is read from. -/
def viewType (cursor : PlaceCursor) (place : PlaceLocal) (span : Option Span) :
    Except (Option LowerError) TypeId :=
  match cursor.specialized with
  | some ty => .ok ty
  | none =>
      if place.indexedFirst ∧ place.ownedByRegion then
        match place.jirType with
        | some ty => .ok ty
        | none => .error none
      else
        match l.typeTable.lower cursor.currentType span with
        | .ok ty => .ok ty
        | .error error => .error (some error)

/-- The descriptor itself. -/
def viewValue (cursor : PlaceCursor) (aggregateType : TypeId) (span : Option Span) :
    ValueId × FunctionLowerer :=
  match cursor.capabilityView with
  | some view => (view, l)
  | none => l.emit aggregateType (.load cursor.address 1 false) span

/-- Whether a descriptor type is a pair that starts with a generic pointer. -/
def isGenericPair (types : List JirType) (aggregateType : TypeId) : Bool :=
  match types[aggregateType]? with
  | some (.struct [data, _]) =>
      match types[data]? with
      | some (.pointer _ .generic) => true
      | _ => false
  | _ => false

/-- Where the elements of a view are. -/
def viewAddressSpace (types : List JirType) (semantic : TypeStore) (cursor : PlaceCursor)
    (place : PlaceLocal) (aggregateType : TypeId) : AddressSpace :=
  if isGenericPair types aggregateType then .generic
  else if place.ownedByRegion then .region
  else
    match semantic.kind cursor.currentType with
    | some (.buffer _) => .heap
    | _ => .generic

/-- The pointer to the elements, at its type. -/
def viewData (aggregate : ValueId) (rawDataType dataType : TypeId) (span : Option Span) :
    ValueId × FunctionLowerer :=
  let rawData := l.emit rawDataType (.extractValue aggregate 0) span
  if rawDataType = dataType then rawData
  else rawData.2.emit dataType (.cast .pointerCast rawData.1 dataType) span

/-- The type of the first field of a descriptor. -/
def rawDataType (types : List JirType) (aggregateType : TypeId) :
    Except (Option String) TypeId :=
  match types[aggregateType]? with
  | some (.struct (first :: _)) => .ok first
  | some (.struct []) => .error none
  | _ => .error (some "Buffer/Slice aggregate has no data pointer field")

/-- The check and the address, once the descriptor has been taken apart. -/
def lowerViewElement (cursor : PlaceCursor) (element : Types.TypeId) (space : AddressSpace)
    (operand : IndexOperand) (index data length : ValueId) (dataType sizeType : TypeId)
    (span : Option Span) : Option PlaceCursor × FunctionLowerer :=
  match lowerIndexToSize l index operand.ty sizeType operand.span with
  | (none, l) => (none, l)
  | (some index, l) =>
      let checked := l.emitCheck (.boundsCheck index length) span
      let projected := checked.emit dataType (.offset data [index]) span
      (some { cursor with
          address := projected.1, currentType := element, addressSpace := space,
          specialized := none, capabilityView := none }, projected.2)

/-- `[index]` of a buffer or a slice. -/
def lowerViewIndex (cursor : PlaceCursor) (place : PlaceLocal) (element : Types.TypeId)
    (operand : IndexOperand) (index : ValueId) (span : Option Span) :
    Option PlaceCursor × FunctionLowerer :=
  match viewType l cursor place span with
  | .error none => (none, l)
  | .error (some error) => (none, l.fail error)
  | .ok aggregateType =>
      let aggregate := viewValue l cursor aggregateType span
      let l := aggregate.2
      let space := viewAddressSpace l.typeTable.types l.typeTable.semantic cursor place
          aggregateType
      match l.typeTable.lower element span with
      | .error error => (none, l.fail error)
      | .ok pointee =>
          let dataType := l.typeTable.pointer pointee space
          let sizeType := dataType.2.intern (.integer false l.typeTable.pointerBits)
          let l := l.withTypes sizeType.2
          match rawDataType l.typeTable.types aggregateType with
          | .error none => (none, l)
          | .error (some message) => (none, l.fail ⟨span, message⟩)
          | .ok rawDataType =>
              let data := viewData l aggregate.1 rawDataType dataType.1 span
              let length := data.2.emit sizeType.1 (.extractValue aggregate.1 1) span
              lowerViewElement length.2 cursor element space operand index data.1 length.1
                dataType.1 sizeType.1 span

/-- **One index projection of a place**, whose index is already a value. -/
def lowerIndexProjection (cursor : PlaceCursor) (place : PlaceLocal) (operand : IndexOperand)
    (index : ValueId) (span : Option Span) : Option PlaceCursor × FunctionLowerer :=
  match l.typeTable.semantic.kind cursor.currentType with
  | some (.array element length) => lowerArrayIndex l cursor element length operand index span
  | some (.buffer element) | some (.slice element) =>
      lowerViewIndex l cursor place element operand index span
  | _ =>
      (none, l.fail ⟨span, "projected JIR place indexing requires an array, Buffer, or Slice"⟩)

/-! ## What a lowered view consists of -/

variable {l} {cursor projected : PlaceCursor} {place : PlaceLocal} {element : Types.TypeId}
  {operand : IndexOperand} {index : ValueId} {span : Option Span} {after : FunctionLowerer}

@[simp] theorem viewValue_typeTable (aggregateType : TypeId) :
    (viewValue l cursor aggregateType span).2.typeTable = l.typeTable := by
  unfold viewValue
  split <;> rfl

@[simp] theorem viewData_typeTable (aggregate : ValueId) (rawType dataType : TypeId) :
    (viewData l aggregate rawType dataType span).2.typeTable = l.typeTable := by
  unfold viewData
  dsimp only
  split <;> rfl

theorem lowerIndexToSize_extends {semanticType : Types.TypeId} {sizeType : TypeId} {at' : Span}
    {sized : ValueId}
    (h : lowerIndexToSize l index semanticType sizeType at' = (some sized, after)) :
    after.typeTable = l.typeTable ∧ l.instructions <+: after.instructions := by
  unfold lowerIndexToSize at h
  split at h
  next =>
    dsimp only at h
    split at h
    next => exact (Prod.mk.inj h).2 ▸ ⟨rfl, List.prefix_rfl⟩
    next =>
      split at h
      next => cases h
      next => exact (Prod.mk.inj h).2 ▸ ⟨rfl, List.prefix_append _ _⟩
  next => cases h

theorem lowerViewElement_eq_some {space : AddressSpace} {data length : ValueId}
    {dataType sizeType : TypeId}
    (h : lowerViewElement l cursor element space operand index data length dataType sizeType span =
      (some projected, after)) :
    ∃ sized l', lowerIndexToSize l index operand.ty sizeType operand.span = (some sized, l') ∧
      projected.address = l'.nextValue ∧ projected.currentType = element ∧
      after.typeTable = l'.typeTable ∧
      after.instructions = l'.instructions ++
        [⟨none, .boundsCheck sized length, span⟩,
          ⟨some ⟨l'.nextValue, dataType⟩, .offset data [sized], span⟩] := by
  unfold lowerViewElement at h
  split at h
  next => cases h
  next sized l' hsized =>
    obtain ⟨hprojected, rfl⟩ := Prod.mk.inj h
    obtain rfl := Option.some.inj hprojected
    exact ⟨sized, l', hsized, rfl, rfl, rfl,
      by simp [FunctionLowerer.emit, FunctionLowerer.emitCheck]⟩

/-- A view that was lowered: its parts, in the order they are emitted. -/
theorem lowerViewIndex_eq_some
    (h : lowerViewIndex l cursor place element operand index span = (some projected, after)) :
    ∃ aggregateType pointee rawType space aggregate dataType sizeType data length,
      viewType l cursor place span = .ok aggregateType ∧
      l.typeTable.lowered element = some pointee ∧
      aggregate = viewValue l cursor aggregateType span ∧
      dataType = l.typeTable.pointer pointee space ∧
      sizeType = dataType.2.intern (.integer false l.typeTable.pointerBits) ∧
      data = viewData (aggregate.2.withTypes sizeType.2) aggregate.1 rawType dataType.1 span ∧
      length = data.2.emit sizeType.1 (.extractValue aggregate.1 1) span ∧
      lowerViewElement length.2 cursor element space operand index data.1 length.1
        dataType.1 sizeType.1 span = (some projected, after) := by
  unfold lowerViewIndex at h
  split at h
  next => cases h
  next => cases h
  next aggregateType htype =>
    simp only [viewValue_typeTable] at h
    split at h
    next => cases h
    next pointee hpointee =>
      split at h
      next => cases h
      next => cases h
      next rawType hraw =>
        exact ⟨aggregateType, pointee, rawType, _, _, _, _, _, _, htype,
          l.typeTable.lower_eq_ok hpointee, rfl, rfl, rfl, rfl, rfl, h⟩

end

end Jadren.Jir
