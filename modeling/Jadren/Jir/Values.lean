import Jadren.Jir.Verifier

/-!
# Run-time values and what an instruction asks for

Values are bit patterns, addresses and aggregates of them; an address is an
object together with a byte offset in it.  `Machine` collects what the target
decides: data layout, floating-point arithmetic, the contents of memory objects.
Memory is only assumed to give back what was stored at the same place and type,
and to contain no address that was not stored into it.

`InstructionKind.operation` reads an instruction as code generation does.  It
looks at the operands' values, never at their names: pure instructions compute a
result, the others ask for an access, a check, or leave the rest of the program
to act (`external`).
-/

namespace Jadren.Jir

open Option

/-! ## Values -/

/-- A memory object and a byte offset in it. -/
structure Address where
  object : ℕ
  offset : ℤ
  deriving DecidableEq, Repr

inductive RuntimeValue
  | bool (value : Bool)
  | integer (bits pattern : ℕ)
  | float (bits pattern : ℕ)
  /-- `none` is the null pointer. -/
  | pointer (address : Option Address)
  | function (id : FunctionId)
  | region (handle : ℕ)
  | aggregate (elements : List RuntimeValue)
  | variant (tag : ℕ) (fields : List RuntimeValue)
  | vector (lanes : List RuntimeValue)

namespace RuntimeValue

mutual

/-- The objects a value holds addresses of. -/
def objects : RuntimeValue → Finset ℕ
  | pointer (some address) => {address.object}
  | aggregate elements => objectsOf elements
  | variant _ fields => objectsOf fields
  | vector lanes => objectsOf lanes
  | bool _ | integer _ _ | float _ _ | pointer none | function _ | region _ => ∅

def objectsOf : List RuntimeValue → Finset ℕ
  | [] => ∅
  | value :: rest => objects value ∪ objectsOf rest

end

@[simp] theorem objects_bool (value : Bool) : (bool value).objects = ∅ := rfl

@[simp] theorem objects_integer (bits pattern : ℕ) : (integer bits pattern).objects = ∅ := rfl

@[simp] theorem objects_float (bits pattern : ℕ) : (float bits pattern).objects = ∅ := rfl

@[simp] theorem objects_function (id : FunctionId) : (function id).objects = ∅ := rfl

@[simp] theorem objects_null : (pointer none).objects = ∅ := rfl

@[simp] theorem objects_pointer (address : Address) :
    (pointer (some address)).objects = {address.object} := rfl

@[simp] theorem objects_aggregate (elements : List RuntimeValue) :
    (aggregate elements).objects = objectsOf elements := rfl

@[simp] theorem objects_variant (tag : ℕ) (fields : List RuntimeValue) :
    (variant tag fields).objects = objectsOf fields := rfl

@[simp] theorem objects_vector (lanes : List RuntimeValue) :
    (vector lanes).objects = objectsOf lanes := rfl

variable {values : List RuntimeValue}

theorem mem_objectsOf {o : ℕ} : o ∈ objectsOf values ↔ ∃ value ∈ values, o ∈ value.objects := by
  induction values with
  | nil => simp [objectsOf]
  | cons value rest ih => simp [objectsOf, ih]

theorem objects_subset_objectsOf {value : RuntimeValue} (h : value ∈ values) :
    value.objects ⊆ objectsOf values :=
  fun _ ho => mem_objectsOf.mpr ⟨value, h, ho⟩

end RuntimeValue

/-! ## Integers -/

/-- The value of a bit pattern in two's complement. -/
def signedValue (bits pattern : ℕ) : ℤ :=
  if pattern < 2 ^ (bits - 1) then pattern else (pattern : ℤ) - 2 ^ bits

/-- The bit pattern of a number at a width. -/
def encode (bits : ℕ) (value : ℤ) : ℕ := (value % 2 ^ bits).toNat

/-! ## What the target decides -/

/-- Data layout, memory objects and the operations left to the target. -/
structure Machine where
  Contents : Type
  fresh : Contents
  read : Contents → ℤ → TypeId → RuntimeValue
  write : Contents → ℤ → TypeId → RuntimeValue → Contents
  /-- The contents hold an address of an object. -/
  pointsTo : Contents → ℕ → Prop
  size : TypeId → ℕ
  fieldOffset : TypeId → ℕ → ℤ
  floatNegate : ℕ → ℕ → ℕ
  floatBinary : BinaryOp → ℕ → ℕ → ℕ → ℕ
  floatCompare : ComparePredicate → ℕ → ℕ → ℕ → Bool
  integerToFloat : Bool → ℕ → ℕ → ℕ → ℕ
  floatToInteger : Bool → ℕ → ℕ → ℕ → ℕ
  floatResize : ℕ → ℕ → ℕ → ℕ
  /-- The result of a shift by the width or more. -/
  overshift : BinaryOp → ℕ → ℕ → ℕ → ℕ
  /-- The result of reading a lane past the end. -/
  missingLane : RuntimeValue
  zero : TypeId → RuntimeValue
  builtin : BuiltinOp → ℕ
  literal : List ℕ → RuntimeValue
  /-- The objects that exist for the whole program. -/
  static : Finset ℕ
  read_write : ∀ contents offset ty value, read (write contents offset ty value) offset ty = value
  pointsTo_read : ∀ {contents offset ty o}, o ∈ (read contents offset ty).objects →
    pointsTo contents o
  pointsTo_write : ∀ {contents offset ty value o}, pointsTo (write contents offset ty value) o →
    pointsTo contents o ∨ o ∈ value.objects
  pointsTo_fresh : ∀ {o}, ¬ pointsTo fresh o
  missingLane_objects : missingLane.objects = ∅
  zero_objects : ∀ ty, (zero ty).objects = ∅
  literal_objects : ∀ utf8, (literal utf8).objects ⊆ static

variable (M : Machine) (module : Module)

/-! ## Scalar operations -/

def integerBinary (op : BinaryOp) (signed : Bool) (bits left right : ℕ) : Option ℕ :=
  match op with
  | .add => some (encode bits (left + right))
  | .subtract => some (encode bits ((left : ℤ) - right))
  | .multiply => some (encode bits (left * right))
  | .divide =>
      if right = 0 then none
      else if signed then
        -- the quotient of the smallest number by -1 does not fit
        if signedValue bits left = -2 ^ (bits - 1) ∧ signedValue bits right = -1 then none
        else some (encode bits ((signedValue bits left).tdiv (signedValue bits right)))
      else some (left / right)
  | .remainder =>
      if right = 0 then none
      else if signed then
        if signedValue bits left = -2 ^ (bits - 1) ∧ signedValue bits right = -1 then none
        else some (encode bits ((signedValue bits left).tmod (signedValue bits right)))
      else some (left % right)
  | .bitAnd => some (left &&& right)
  | .bitOr => some (left ||| right)
  | .bitXor => some (left ^^^ right)
  | .shiftLeft =>
      if right < bits then some (encode bits (left * 2 ^ right))
      else some (M.overshift op bits left right)
  | .shiftRight =>
      if right < bits then
        some (if signed then encode bits (signedValue bits left / 2 ^ right) else left / 2 ^ right)
      else some (M.overshift op bits left right)

def binaryValue (op : BinaryOp) (signed : Bool) :
    RuntimeValue → RuntimeValue → Option RuntimeValue
  | .integer bits left, .integer _ right =>
      (integerBinary M op signed bits left right).map (.integer bits)
  | .float bits left, .float _ right => some (.float bits (M.floatBinary op bits left right))
  | _, _ => none

def vectorBinaryValue (op : BinaryOp) (signed : Bool) (left right : List RuntimeValue) :
    Option (List RuntimeValue) :=
  (left.zip right).mapM fun lanes => binaryValue M op signed lanes.1 lanes.2

def unaryValue (op : UnaryOp) : RuntimeValue → Option RuntimeValue
  | .integer bits pattern =>
      match op with
      | .negate => some (.integer bits (encode bits (-pattern)))
      | .not | .bitNot => some (.integer bits (encode bits (-pattern - 1)))
  | .float bits pattern =>
      match op with
      | .negate => some (.float bits (M.floatNegate bits pattern))
      | _ => none
  | .bool value =>
      match op with
      | .not => some (.bool (!value))
      | _ => none
  | _ => none

def compareIntegers (predicate : ComparePredicate) (left right : ℤ) : Bool :=
  match predicate with
  | .equal => left == right
  | .notEqual => left != right
  | .less => left < right
  | .lessEqual => left ≤ right
  | .greater => right < left
  | .greaterEqual => right ≤ left

def compareValue (predicate : ComparePredicate) (signed : Bool) :
    RuntimeValue → RuntimeValue → Option RuntimeValue
  | .integer bits left, .integer _ right =>
      some (.bool (if signed then
        compareIntegers predicate (signedValue bits left) (signedValue bits right)
      else compareIntegers predicate left right))
  | .bool left, .bool right => some (.bool (compareIntegers predicate left.toNat right.toNat))
  | .float bits left, .float _ right => some (.bool (M.floatCompare predicate bits left right))
  | _, _ => none

/-- The bits of a scalar, for a reinterpretation. -/
def scalarPattern : RuntimeValue → Option ℕ
  | .bool value => some value.toNat
  | .integer _ pattern | .float _ pattern => some pattern
  | _ => none

def castValue (op : CastOp) (signed : Bool) (target : JirType) (value : RuntimeValue) :
    Option RuntimeValue :=
  match op, value, target with
  | .integerExtend, .integer bits pattern, .integer _ targetBits =>
      some (.integer targetBits
        (if signed then encode targetBits (signedValue bits pattern) else pattern))
  | .integerTruncate, .integer _ pattern, .integer _ targetBits =>
      some (.integer targetBits (pattern % 2 ^ targetBits))
  | .integerToFloat, .integer bits pattern, .float targetBits =>
      some (.float targetBits (M.integerToFloat signed bits pattern targetBits))
  | .floatToInteger, .float bits pattern, .integer targetSigned targetBits =>
      some (.integer targetBits (M.floatToInteger targetSigned bits pattern targetBits))
  | .floatExtend, .float bits pattern, .float targetBits
  | .floatTruncate, .float bits pattern, .float targetBits =>
      some (.float targetBits (M.floatResize bits pattern targetBits))
  | .bitcast, value, .integer _ targetBits => (scalarPattern value).map (.integer targetBits)
  | .bitcast, value, .float targetBits => (scalarPattern value).map (.float targetBits)
  | .bitcast, value, .bool => (scalarPattern value).map fun pattern => .bool (pattern != 0)
  | .pointerCast, .pointer address, .pointer _ _ => some (.pointer address)
  | _, _, _ => none

/-! ## Addresses -/

/-- The offset of an element path inside a value of a type. -/
def stepInto : TypeId → List ℤ → Option ℤ
  | _, [] => some 0
  | ty, index :: rest =>
      match module.typeKind ty with
      | some (.array element _) => (stepInto element rest).map (index * M.size element + ·)
      | some (.struct fields) | some (.nominalStruct _ fields) =>
          (fields[index.toNat]?).bind fun field =>
            (stepInto field rest).map (M.fieldOffset ty index.toNat + ·)
      | _ => none

/-- Pointer arithmetic over elements of a type, then into the element reached. -/
def elementOffset (pointee : TypeId) : List ℤ → Option ℤ
  | [] => some 0
  | index :: rest => (stepInto M module pointee rest).map (index * M.size pointee + ·)

/-- The distance an `Offset` moves a pointer, by the types of its base and result. -/
def offsetDistance (pointee resultPointee : TypeId) (indices : List (ℕ × ℕ)) : Option ℤ :=
  let signedIndices := indices.map fun index => signedValue index.1 index.2
  match module.typeKind pointee with
  | some (.struct fields) | some (.nominalStruct _ fields) =>
      match indices with
      | [(_, field)] =>
          if fields[field]? = some resultPointee then some (M.fieldOffset pointee field)
          else if pointee = resultPointee then elementOffset M module pointee signedIndices
          else none
      | _ =>
          if pointee = resultPointee then elementOffset M module pointee signedIndices else none
  | some (.array element _) =>
      if resultPointee = pointee then elementOffset M module pointee signedIndices
      else if element = resultPointee then elementOffset M module pointee (0 :: signedIndices)
      else none
  | some _ =>
      if pointee = resultPointee then elementOffset M module pointee signedIndices else none
  | none => none

/-- The pattern of an integer value, with its width. -/
def asInteger : RuntimeValue → Option (ℕ × ℕ)
  | .integer bits pattern => some (bits, pattern)
  | _ => none

/-- What a pointer type points to. -/
def Module.pointee (ty : TypeId) : Option TypeId :=
  match module.typeKind ty with
  | some (.pointer pointee _) => some pointee
  | _ => none

/-- The address an `Offset` computes, from the types of its base and result. -/
def offsetValue (baseType resultType : TypeId) (base : RuntimeValue)
    (indices : List RuntimeValue) : Option RuntimeValue :=
  match module.pointee baseType, module.pointee resultType, base, indices.mapM asInteger with
  | some pointee, some resultPointee, .pointer address, some indices =>
      (offsetDistance M module pointee resultPointee indices).map fun distance =>
        .pointer (address.map fun address => ⟨address.object, address.offset + distance⟩)
  | _, _, _, _ => none

/-! ## Bounds -/

/-- The comparison of a bounds check, on the operands' bit patterns. -/
def boundsPass : RuntimeValue → RuntimeValue → Option Bool
  | .integer _ index, .integer _ length => some (decide (index < length))
  | _, _ => none

/-- The comparison of a vector bounds check; the lane count is taken at the operands' width. -/
def vectorBoundsPass (lanes : ℕ) : RuntimeValue → RuntimeValue → Option Bool
  | .integer bits index, .integer _ length =>
      some (decide (lanes % 2 ^ bits ≤ length) && decide (index ≤ length - lanes % 2 ^ bits))
  | _, _ => none

/-! ## Operations -/

/-- What an instruction asks for once its operands are known. -/
inductive Operation
  | compute (value : RuntimeValue)
  | allocate
  | read (address : Address) (ty : TypeId)
  | write (address : Address) (ty : TypeId) (value : RuntimeValue)
  | check (passes : Bool)
  | skip
  | external

/-- A constant of a type. -/
def constantValue (ty : TypeId) : Constant → Option RuntimeValue
  | .bool value => some (.bool value)
  | .integer value =>
      match module.typeKind ty with
      | some (.integer _ bits) => some (.integer bits (encode bits value))
      | _ => none
  | .floatBits pattern =>
      match module.typeKind ty with
      | some (.float bits) => some (.float bits (pattern % 2 ^ bits))
      | _ => none
  | .zero => some (M.zero ty)
  | .null => some (.pointer none)

def Module.isSigned (ty : TypeId) : Bool :=
  match module.typeKind ty with
  | some (.integer signed _) => signed
  | _ => false

/-- Whether the elements of a vector type are signed. -/
def Module.isSignedVector (ty : TypeId) : Bool :=
  match module.typeKind ty with
  | some (.vector element _) => module.isSigned element
  | _ => false

namespace RuntimeValue

def asBool : RuntimeValue → Option Bool
  | bool value => some value
  | _ => none

def asAddress : RuntimeValue → Option Address
  | pointer address => address
  | _ => none

def asAggregate : RuntimeValue → Option (List RuntimeValue)
  | aggregate elements => some elements
  | _ => none

def asVector : RuntimeValue → Option (List RuntimeValue)
  | vector lanes => some lanes
  | _ => none

def asVariant : RuntimeValue → Option (ℕ × List RuntimeValue)
  | variant tag fields => some (tag, fields)
  | _ => none

end RuntimeValue

/-! An instruction with a fixed number of operands gets its values one by one. -/

section Arity

variable {α : Type}

def onOne (values : List RuntimeValue) (result : RuntimeValue → Option α) : Option α :=
  match values with
  | [first] => result first
  | _ => none

def onTwo (values : List RuntimeValue) (result : RuntimeValue → RuntimeValue → Option α) :
    Option α :=
  match values with
  | [first, second] => result first second
  | _ => none

def onThree (values : List RuntimeValue)
    (result : RuntimeValue → RuntimeValue → RuntimeValue → Option α) : Option α :=
  match values with
  | [first, second, third] => result first second third
  | _ => none

variable {values : List RuntimeValue} {a : α}

theorem onOne_eq_some {result : RuntimeValue → Option α} :
    onOne values result = some a ↔ ∃ first, values = [first] ∧ result first = some a := by
  unfold onOne
  split
  · simp
  · rename_i hne
    simp only [reduceCtorEq, false_iff, not_exists, not_and]
    exact fun first hvalues => absurd hvalues (hne first)

theorem onTwo_eq_some {result : RuntimeValue → RuntimeValue → Option α} :
    onTwo values result = some a ↔
      ∃ first second, values = [first, second] ∧ result first second = some a := by
  unfold onTwo
  split
  · simp
  · rename_i hne
    simp only [reduceCtorEq, false_iff, not_exists, not_and]
    exact fun first second hvalues => absurd hvalues (hne first second)

theorem onThree_eq_some {result : RuntimeValue → RuntimeValue → RuntimeValue → Option α} :
    onThree values result = some a ↔
      ∃ first second third, values = [first, second, third] ∧
        result first second third = some a := by
  unfold onThree
  split
  · simp
  · rename_i hne
    simp only [reduceCtorEq, false_iff, not_exists, not_and]
    exact fun first second third hvalues => absurd hvalues (hne first second third)

end Arity

namespace InstructionKind

/-- The value a pure instruction with a result of type `ty` computes. -/
def computed (ty : TypeId) (types : List (Option TypeId)) (kind : InstructionKind)
    (values : List RuntimeValue) : Option RuntimeValue :=
  let firstSigned := (types.head?.join.map module.isSigned).getD false
  match kind with
  | constant value => constantValue M module ty value
  | builtin op => some (.integer 32 (M.builtin op))
  | stringLiteral utf8 => some (M.literal utf8)
  | functionAddress function => some (.function function)
  | aggregate _ => some (.aggregate values)
  | enumConstruct variant _ => some (.variant variant values)
  | extractValue _ index => onOne values fun whole => whole.asAggregate.bind (·[index]?)
  | extractElement _ _ =>
      onTwo values fun whole index =>
        whole.asAggregate.bind fun elements => (asInteger index).bind fun position =>
          elements[position.2]?
  | enumTag _ => onOne values fun value => value.asVariant.map fun variant => .integer 32 variant.1
  | enumExtract _ expected field =>
      onOne values fun value => value.asVariant.bind fun variant =>
        if variant.1 = expected then variant.2[field]? else none
  | unary op _ => onOne values (unaryValue M op)
  | binary op _ _ => onTwo values (binaryValue M op (module.isSigned ty))
  | compare predicate _ _ => onTwo values (compareValue M predicate firstSigned)
  | cast op _ target =>
      onOne values fun value =>
        (module.typeKind target).bind fun kind => castValue M op firstSigned kind value
  | select _ _ _ =>
      onThree values fun condition whenTrue whenFalse =>
        condition.asBool.map fun holds => if holds then whenTrue else whenFalse
  | offset _ _ =>
      match values with
      | base :: indices =>
          types.head?.join.bind fun baseType => offsetValue M module baseType ty base indices
      | [] => none
  | vectorSplat _ lanes => onOne values fun value => some (.vector (List.replicate lanes value))
  | vectorBinary op _ _ =>
      onTwo values fun left right => left.asVector.bind fun left => right.asVector.bind fun right =>
        (vectorBinaryValue M op (module.isSignedVector ty) left right).map .vector
  | vectorExtract _ _ =>
      onTwo values fun vector lane => vector.asVector.bind fun lanes =>
        (asInteger lane).map fun lane => lanes.getD lane.2 M.missingLane
  | vectorInsert _ _ _ =>
      onThree values fun vector lane value => vector.asVector.bind fun lanes =>
        (asInteger lane).map fun lane => .vector (lanes.set lane.2 value)
  | _ => none

/-- What an instruction asks for, given the type of its result and the types and
values of its operands. -/
def operation (ty : Option TypeId) (types : List (Option TypeId)) (kind : InstructionKind)
    (values : List RuntimeValue) : Option Operation :=
  match kind with
  | stackAlloc _ _ => some .allocate
  | load _ _ _ => onOne values fun pointer => pointer.asAddress.bind fun address =>
      ty.map (.read address)
  | store _ _ _ _ =>
      onTwo values fun pointer value => pointer.asAddress.bind fun address =>
        types[1]?.join.map fun valueType => .write address valueType value
  | boundsCheck _ _ => onTwo values fun index length => (boundsPass index length).map .check
  | vectorBoundsCheck _ _ lanes =>
      onTwo values fun index length => (vectorBoundsPass lanes index length).map .check
  | assumeNoAlias _ _ | drop _ => some .skip
  | regionAlloc _ _ _ | regionCreate | regionDestroy _ | ownership _ | call _ _
  | indirectCall _ _ => some .external
  | _ => ty.bind fun ty => (kind.computed M module ty types values).map .compute

/-- Whether the rest of the program acts. -/
def isExternal : InstructionKind → Bool
  | regionAlloc _ _ _ | regionCreate | regionDestroy _ | ownership _ | call _ _
  | indirectCall _ _ => true
  | _ => false

/-- Whether an instruction only marks something for the compiler. -/
def isMarker : InstructionKind → Bool
  | assumeNoAlias _ _ | drop _ => true
  | _ => false

variable {M module} {ty : Option TypeId} {types : List (Option TypeId)} {kind : InstructionKind}
  {values : List RuntimeValue} {operation : Operation}

/-- Each operation, with the instruction that asks for it. -/
inductive Asks (M : Machine) (module : Module) (ty : Option TypeId)
    (types : List (Option TypeId)) (values : List RuntimeValue) :
    InstructionKind → Operation → Prop
  | stackAlloc (allocated : TypeId) (count : Option ValueId) :
      Asks M module ty types values (.stackAlloc allocated count) .allocate
  | load {address : Address} {resultType : TypeId} (pointer : ValueId) (alignment : ℕ)
      (isVolatile : Bool) (hvalues : values = [.pointer (some address)])
      (hty : ty = some resultType) :
      Asks M module ty types values (.load pointer alignment isVolatile) (.read address resultType)
  | store {address : Address} {valueType : TypeId} {value : RuntimeValue}
      (pointer stored : ValueId) (alignment : ℕ) (isVolatile : Bool)
      (hvalues : values = [.pointer (some address), value])
      (htypes : types[1]? = some (some valueType)) :
      Asks M module ty types values (.store pointer stored alignment isVolatile)
        (.write address valueType value)
  | boundsCheck {left right : RuntimeValue} {passes : Bool} (index length : ValueId)
      (hvalues : values = [left, right]) (hpass : boundsPass left right = some passes) :
      Asks M module ty types values (.boundsCheck index length) (.check passes)
  | vectorBoundsCheck {left right : RuntimeValue} {passes : Bool} (index length : ValueId)
      (lanes : ℕ) (hvalues : values = [left, right])
      (hpass : vectorBoundsPass lanes left right = some passes) :
      Asks M module ty types values (.vectorBoundsCheck index length lanes) (.check passes)
  | marker {kind : InstructionKind} (hkind : kind.isMarker = true) :
      Asks M module ty types values kind .skip
  | external {kind : InstructionKind} (hkind : kind.isExternal = true) :
      Asks M module ty types values kind .external
  | compute {kind : InstructionKind} {resultType : TypeId} {value : RuntimeValue}
      (hty : ty = some resultType)
      (hcomputed : kind.computed M module resultType types values = some value) :
      Asks M module ty types values kind (.compute value)

variable {value : RuntimeValue} {address : Address}

theorem asAddress_eq_some : value.asAddress = some address ↔ value = .pointer (some address) := by
  cases value <;> simp [RuntimeValue.asAddress]

theorem asks_of_operation (h : kind.operation M module ty types values = some operation) :
    Asks M module ty types values kind operation := by
  cases kind with
  | stackAlloc allocated count => obtain rfl := some.inj h; exact .stackAlloc allocated count
  | load pointer alignment isVolatile =>
      obtain ⟨first, hvalues, hfirst⟩ := onOne_eq_some.mp h
      obtain ⟨address, haddress, hread⟩ := bind_eq_some_iff.mp hfirst
      obtain ⟨resultType, hty, rfl⟩ := map_eq_some_iff.mp hread
      exact .load pointer alignment isVolatile (asAddress_eq_some.mp haddress ▸ hvalues) hty
  | store pointer stored alignment isVolatile =>
      obtain ⟨first, value, hvalues, hfirst⟩ := onTwo_eq_some.mp h
      obtain ⟨address, haddress, hwrite⟩ := bind_eq_some_iff.mp hfirst
      obtain ⟨valueType, htypes, rfl⟩ := map_eq_some_iff.mp hwrite
      exact .store pointer stored alignment isVolatile (asAddress_eq_some.mp haddress ▸ hvalues)
        (join_eq_some_iff.mp htypes)
  | boundsCheck index length =>
      obtain ⟨left, right, hvalues, hcheck⟩ := onTwo_eq_some.mp h
      obtain ⟨passes, hpass, rfl⟩ := map_eq_some_iff.mp hcheck
      exact .boundsCheck index length hvalues hpass
  | vectorBoundsCheck index length lanes =>
      obtain ⟨left, right, hvalues, hcheck⟩ := onTwo_eq_some.mp h
      obtain ⟨passes, hpass, rfl⟩ := map_eq_some_iff.mp hcheck
      exact .vectorBoundsCheck index length lanes hvalues hpass
  | assumeNoAlias | drop => obtain rfl := some.inj h; exact .marker rfl
  | regionAlloc | regionCreate | regionDestroy | ownership | call | indirectCall =>
      obtain rfl := some.inj h; exact .external rfl
  | _ =>
      obtain ⟨resultType, hty, hvalue⟩ := bind_eq_some_iff.mp h
      obtain ⟨value, hcomputed, rfl⟩ := map_eq_some_iff.mp hvalue
      exact .compute hty hcomputed

theorem operation_compute (h : kind.operation M module ty types values = some (.compute value)) :
    ∃ resultType, ty = some resultType ∧
      kind.computed M module resultType types values = some value := by
  cases asks_of_operation h with
  | compute hty hcomputed => exact ⟨_, hty, hcomputed⟩

theorem operation_read {resultType : TypeId}
    (h : kind.operation M module ty types values = some (.read address resultType)) :
    ∃ pointer alignment isVolatile, kind = load pointer alignment isVolatile ∧
      values = [.pointer (some address)] ∧ ty = some resultType := by
  cases asks_of_operation h with
  | load pointer alignment isVolatile hvalues hty =>
      exact ⟨pointer, alignment, isVolatile, rfl, hvalues, hty⟩

theorem operation_write {valueType : TypeId}
    (h : kind.operation M module ty types values = some (.write address valueType value)) :
    ∃ pointer stored alignment isVolatile, kind = store pointer stored alignment isVolatile ∧
      values = [.pointer (some address), value] ∧ types[1]? = some (some valueType) := by
  cases asks_of_operation h with
  | store pointer stored alignment isVolatile hvalues htypes =>
      exact ⟨pointer, stored, alignment, isVolatile, rfl, hvalues, htypes⟩

theorem operation_mapOperands (rename : ValueId → ValueId) :
    (kind.mapOperands rename).operation M module ty types values =
      kind.operation M module ty types values := by
  cases kind <;> rfl

end InstructionKind

/-! ## Where the addresses in a result come from -/

section Objects

open RuntimeValue

variable {M module} {values : List RuntimeValue} {value : RuntimeValue}

variable {elements : List RuntimeValue}

theorem objects_getElem? {i : ℕ} (h : elements[i]? = some value) :
    value.objects ⊆ objectsOf elements :=
  objects_subset_objectsOf (List.mem_of_getElem? h)

theorem objects_asAggregate (h : value.asAggregate = some elements) :
    value.objects = objectsOf elements := by
  cases value <;> simp_all [asAggregate]

variable {lanes : List RuntimeValue}

theorem objects_asVector (h : value.asVector = some lanes) : value.objects = objectsOf lanes := by
  cases value <;> simp_all [asVector]

theorem objects_asVariant {variant : ℕ × List RuntimeValue} (h : value.asVariant = some variant) :
    value.objects = objectsOf variant.2 := by
  cases value <;> simp_all [asVariant]
  subst h
  rfl

variable {signed : Bool} {left right : RuntimeValue}

theorem objects_binaryValue {op : BinaryOp} (h : binaryValue M op signed left right = some value) :
    value.objects = ∅ := by
  unfold binaryValue at h
  split at h
  · obtain ⟨pattern, _, rfl⟩ := map_eq_some_iff.mp h
    simp
  · cases h
    simp
  · cases h

theorem objects_vectorBinaryValue {op : BinaryOp} {left right : List RuntimeValue}
    (h : vectorBinaryValue M op signed left right = some lanes) : objectsOf lanes = ∅ := by
  unfold vectorBinaryValue at h
  generalize left.zip right = pairs at h
  induction pairs generalizing lanes with
  | nil => cases h; rfl
  | cons pair rest ih =>
      rw [List.mapM_cons] at h
      obtain ⟨lane, hlane, hrest⟩ := bind_eq_some_iff.mp h
      obtain ⟨others, hothers, hlanes⟩ := bind_eq_some_iff.mp hrest
      cases hlanes
      simp [objectsOf, objects_binaryValue hlane, ih hothers]

theorem objects_castValue {op : CastOp} {target : JirType} {source : RuntimeValue}
    (h : castValue M op signed target source = some value) : value.objects ⊆ source.objects := by
  unfold castValue at h
  split at h
  all_goals first
    | contradiction
    | (cases h; simp)
    | (obtain ⟨pattern, _, rfl⟩ := map_eq_some_iff.mp h; simp)

theorem objects_offsetValue {baseType resultType : TypeId} {base : RuntimeValue}
    {indices : List RuntimeValue}
    (h : offsetValue M module baseType resultType base indices = some value) :
    value.objects ⊆ base.objects := by
  unfold offsetValue at h
  split at h
  · obtain ⟨distance, _, rfl⟩ := map_eq_some_iff.mp h
    rename_i address _ _ _ _ _
    cases address <;> simp
  · cases h

theorem objects_unaryValue {op : UnaryOp} {operand : RuntimeValue}
    (h : unaryValue M op operand = some value) : value.objects = ∅ := by
  cases operand <;> cases op <;> simp_all [unaryValue] <;> (subst h; simp)

theorem objects_compareValue {predicate : ComparePredicate}
    (h : compareValue M predicate signed left right = some value) : value.objects = ∅ := by
  unfold compareValue at h
  split at h
  all_goals first
    | contradiction
    | (cases h; simp)

theorem objects_constantValue {constant : Constant} {ty : TypeId}
    (h : constantValue M module ty constant = some value) : value.objects = ∅ := by
  unfold constantValue at h
  split at h
  · cases h; simp
  · split at h
    · cases h; simp
    · cases h
  · split at h
    · cases h; simp
    · cases h
  · cases h
    exact M.zero_objects ty
  · cases h; simp

theorem objectsOf_replicate_subset (lanes : ℕ) :
    objectsOf (List.replicate lanes value) ⊆ value.objects := by
  intro o ho
  obtain ⟨other, hother, ho⟩ := mem_objectsOf.mp ho
  rw [List.eq_of_mem_replicate hother] at ho
  exact ho

theorem objectsOf_set_subset (lane : ℕ) :
    objectsOf (lanes.set lane value) ⊆ objectsOf lanes ∪ value.objects := by
  intro o ho
  obtain ⟨other, hother, hin⟩ := mem_objectsOf.mp ho
  rcases List.mem_or_eq_of_mem_set hother with hold | hnew
  · exact Finset.mem_union_left _ (mem_objectsOf.mpr ⟨other, hold, hin⟩)
  · exact Finset.mem_union_right _ (hnew ▸ hin)

theorem objects_getD_subset (lane : ℕ) :
    (lanes.getD lane M.missingLane).objects ⊆ objectsOf lanes := by
  rw [List.getD_eq_getElem?_getD]
  cases hlane : lanes[lane]? with
  | none => simp [M.missingLane_objects]
  | some => exact objects_getElem? hlane

/-- The addresses in a computed value are the operands' or the program's own. -/
theorem objects_computed {kind : InstructionKind} {ty : TypeId} {types : List (Option TypeId)}
    (h : kind.computed M module ty types values = some value) :
    value.objects ⊆ objectsOf values ∪ M.static := by
  -- the first and the other operands of an instruction are among its operands
  have hone : ∀ {first : RuntimeValue}, values = [first] →
      first.objects ⊆ objectsOf values ∪ M.static := by
    rintro first rfl
    simp [objectsOf]
  have htwo : ∀ {first second : RuntimeValue}, values = [first, second] →
      first.objects ⊆ objectsOf values ∪ M.static := by
    rintro first second rfl o ho
    simp [objectsOf, ho]
  cases kind with
  | constant => rw [objects_constantValue h]; exact Finset.empty_subset _
  | builtin | functionAddress => cases h; simp
  | stringLiteral utf8 =>
      cases h
      exact (M.literal_objects utf8).trans Finset.subset_union_right
  | aggregate | enumConstruct => cases h; simp
  | extractValue =>
      obtain ⟨first, hvalues, hfirst⟩ := onOne_eq_some.mp h
      obtain ⟨elements, helements, hget⟩ := bind_eq_some_iff.mp hfirst
      exact (objects_getElem? hget).trans (objects_asAggregate helements ▸ hone hvalues)
  | extractElement =>
      obtain ⟨first, second, hvalues, hfirst⟩ := onTwo_eq_some.mp h
      obtain ⟨elements, helements, hindex⟩ := bind_eq_some_iff.mp hfirst
      obtain ⟨position, _, hget⟩ := bind_eq_some_iff.mp hindex
      exact (objects_getElem? hget).trans (objects_asAggregate helements ▸ htwo hvalues)
  | enumTag =>
      obtain ⟨first, hvalues, hfirst⟩ := onOne_eq_some.mp h
      obtain ⟨variant, _, rfl⟩ := map_eq_some_iff.mp hfirst
      simp
  | enumExtract =>
      obtain ⟨first, hvalues, hfirst⟩ := onOne_eq_some.mp h
      obtain ⟨variant, hvariant, hfield⟩ := bind_eq_some_iff.mp hfirst
      split at hfield
      · exact (objects_getElem? hfield).trans (objects_asVariant hvariant ▸ hone hvalues)
      · cases hfield
  | unary =>
      obtain ⟨first, _, hfirst⟩ := onOne_eq_some.mp h
      rw [objects_unaryValue hfirst]
      exact Finset.empty_subset _
  | binary =>
      obtain ⟨first, second, _, hfirst⟩ := onTwo_eq_some.mp h
      rw [objects_binaryValue hfirst]
      exact Finset.empty_subset _
  | compare =>
      obtain ⟨first, second, _, hfirst⟩ := onTwo_eq_some.mp h
      rw [objects_compareValue hfirst]
      exact Finset.empty_subset _
  | cast =>
      obtain ⟨first, hvalues, hfirst⟩ := onOne_eq_some.mp h
      obtain ⟨kind, _, hcast⟩ := bind_eq_some_iff.mp hfirst
      exact (objects_castValue hcast).trans (hone hvalues)
  | select =>
      obtain ⟨first, second, third, rfl, hfirst⟩ := onThree_eq_some.mp h
      obtain ⟨holds, _, rfl⟩ := map_eq_some_iff.mp hfirst
      intro o ho
      cases holds <;> simp_all [objectsOf]
  | offset =>
      cases values with
      | nil => cases h
      | cons =>
          obtain ⟨baseType, _, hoffset⟩ := bind_eq_some_iff.mp h
          refine (objects_offsetValue hoffset).trans ?_
          intro o ho
          simp [objectsOf, ho]
  | vectorSplat operand lanes =>
      obtain ⟨first, hvalues, hfirst⟩ := onOne_eq_some.mp h
      cases hfirst
      rw [objects_vector]
      exact (objectsOf_replicate_subset lanes).trans (hone hvalues)
  | vectorBinary =>
      obtain ⟨first, second, _, hfirst⟩ := onTwo_eq_some.mp h
      obtain ⟨_, _, hsecond⟩ := bind_eq_some_iff.mp hfirst
      obtain ⟨_, _, hmap⟩ := bind_eq_some_iff.mp hsecond
      obtain ⟨lanes, hlanes, rfl⟩ := map_eq_some_iff.mp hmap
      rw [objects_vector, objects_vectorBinaryValue hlanes]
      exact Finset.empty_subset _
  | vectorExtract =>
      obtain ⟨first, second, hvalues, hfirst⟩ := onTwo_eq_some.mp h
      obtain ⟨lanes, hlanes, hlane⟩ := bind_eq_some_iff.mp hfirst
      obtain ⟨position, _, rfl⟩ := map_eq_some_iff.mp hlane
      exact (objects_getD_subset position.2).trans (objects_asVector hlanes ▸ htwo hvalues)
  | vectorInsert =>
      obtain ⟨first, second, third, rfl, hfirst⟩ := onThree_eq_some.mp h
      obtain ⟨lanes, hlanes, hlane⟩ := bind_eq_some_iff.mp hfirst
      obtain ⟨position, _, rfl⟩ := map_eq_some_iff.mp hlane
      rw [objects_vector]
      refine (objectsOf_set_subset position.2).trans ?_
      rw [← objects_asVector hlanes]
      intro o ho
      rcases Finset.mem_union.mp ho with ho | ho <;> simp [objectsOf, ho]
  | _ => cases h

end Objects

end Jadren.Jir
