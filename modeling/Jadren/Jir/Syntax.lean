import Mathlib.Data.Int.Notation
import Mathlib.Data.List.Basic

/-!
# JIR: modules, functions, blocks, instructions

The typed SSA representation.  Identities are dense indices, so a type id is a
position in the module's type table and a block id a position in its function.

The instructions that hand a buffer, string or record to the runtime to be
destroyed, resized or compacted are one family, `OwnershipKind`: they differ in
the layout metadata they carry and share everything a pass looks at, their
operands.  All other instructions are `InstructionKind`.

`InstructionKind.operands` is the list of values an instruction reads, and
`InstructionKind.mapOperands` renames them.
-/

namespace Jadren.Jir

/-! ## Identities -/

/-- Module-local canonical type identity. -/
abbrev TypeId := ℕ

/-- Module-local function identity. -/
abbrev FunctionId := ℕ

/-- Function-local basic-block identity. -/
abbrev BlockId := ℕ

/-- Function-local SSA value identity. -/
abbrev ValueId := ℕ

/-- A source range. -/
structure Span where
  source : ℕ
  start : ℕ
  stop : ℕ
  deriving DecidableEq, Repr

/-! ## Types -/

/-- Storage classification of an address. -/
inductive AddressSpace
  | generic
  | stack
  | heap
  | region
  | global
  | workgroup
  | uniform
  | storage
  deriving DecidableEq, Repr

/-- One canonical JIR type. -/
inductive JirType
  | unit
  | regionHandle
  | bool
  | integer (signed : Bool) (bits : ℕ)
  | float (bits : ℕ)
  | pointer (pointee : TypeId) (addressSpace : AddressSpace)
  | function (parameters : List TypeId) (result : TypeId)
  | array (element : TypeId) (length : ℕ)
  | struct (fields : List TypeId)
  | nominalStruct (identity : ℕ) (fields : List TypeId)
  | enum (variants : List (List TypeId))
  | nominalEnum (identity : ℕ) (variants : List (List TypeId))
  | vector (element : TypeId) (lanes : ℕ)
  deriving DecidableEq, Repr

/-! ## Operations -/

inductive BuiltinOp
  | globalInvocationIdX
  | globalInvocationIdY
  | globalInvocationIdZ
  deriving DecidableEq, Repr

/-- Literal constant with bit-exact floating representation. -/
inductive Constant
  | bool (value : Bool)
  | integer (value : ℤ)
  | floatBits (bits : ℕ)
  | zero
  | null
  deriving DecidableEq, Repr

inductive UnaryOp
  | negate
  | not
  | bitNot
  deriving DecidableEq, Repr

inductive BinaryOp
  | add
  | subtract
  | multiply
  | divide
  | remainder
  | bitAnd
  | bitOr
  | bitXor
  | shiftLeft
  | shiftRight
  deriving DecidableEq, Repr

inductive ComparePredicate
  | equal
  | notEqual
  | less
  | lessEqual
  | greater
  | greaterEqual
  deriving DecidableEq, Repr

inductive CastOp
  | integerExtend
  | integerTruncate
  | integerToFloat
  | floatToInteger
  | floatExtend
  | floatTruncate
  | bitcast
  | pointerCast
  deriving DecidableEq, Repr

/-! ## Instructions -/

/-- Metadata for one owning payload branch in a named enum. -/
structure CarrierDropBranch where
  payloadVariant : ℕ
  depth : ℕ
  leafElement : TypeId
  deriving DecidableEq, Repr

/-- Metadata for one owning buffer field of an enum variant or a record. -/
structure DropField where
  payloadVariant : ℕ
  payloadOffset : ℕ
  depth : ℕ
  leafElement : TypeId
  deriving DecidableEq, Repr

/-- Metadata for a second owning payload of an inline carrier. -/
structure AlternatePayload where
  leafElement : Option TypeId
  payloadVariant : Option ℕ
  depth : Option ℕ
  deriving DecidableEq, Repr

/-- The runtime operations on owning buffers, strings, carriers and records. -/
inductive OwnershipKind
  | ownedStringDrop (value : ValueId)
  | bufferDrop (value : ValueId) (element : TypeId)
  | ownedStringBufferDrop (value : ValueId) (element : TypeId)
  | bufferResizeMoveOwnedString (descriptor newLength : ValueId) (element : TypeId)
      (statusResult : Bool)
  | bufferResizeMoveNestedOwnedString (descriptor newLength : ValueId)
      (element stringElement : TypeId) (depth : ℕ) (statusResult : Bool)
  | nestedBufferDrop (value : ValueId) (element nestedElement : TypeId)
  | recursiveBufferDrop (value : ValueId) (element leafElement : TypeId) (depth : ℕ)
  | recursiveOwnedStringBufferDrop (value : ValueId) (element stringElement : TypeId) (depth : ℕ)
  | recursiveRecordBufferFieldsDrop (value : ValueId) (element recordElement : TypeId)
      (fields : List DropField) (depth : ℕ)
  | bufferResizeMoveRecordFields (descriptor newLength : ValueId) (element recordElement : TypeId)
      (fields : List DropField) (depth : ℕ) (statusResult : Bool)
  | bufferRemoveDropOwnedString (descriptor index : ValueId) (element : TypeId)
      (statusResult : Bool)
  | bufferRemoveDropRecordFields (descriptor index : ValueId) (element : TypeId)
      (fields : List DropField) (statusResult : Bool)
  | bufferRemoveDropNestedRecordFields (descriptor index : ValueId)
      (element recordElement : TypeId) (fields : List DropField) (depth : ℕ) (statusResult : Bool)
  | bufferRemoveDropNestedBuffer (descriptor index : ValueId) (element leafElement : TypeId)
      (depth : ℕ) (statusResult : Bool)
  | bufferRemoveDropNestedOwnedString (descriptor index : ValueId) (element stringElement : TypeId)
      (depth : ℕ) (statusResult : Bool)
  | enumCarrierBufferDrop (value : ValueId) (element : TypeId) (payloadOffset : ℕ)
      (branches : List CarrierDropBranch)
  | enumOwningCarrierDrop (value : ValueId) (element : TypeId) (payloadOffset : ℕ)
      (branches : List CarrierDropBranch)
  | enumCarrierFieldsDrop (value : ValueId) (element : TypeId) (fields : List DropField)
  | enumOwningFieldsDrop (value : ValueId) (element : TypeId) (fields : List DropField)
  | recordBufferFieldsDrop (value : ValueId) (element : TypeId) (fields : List DropField)
  | recordOwningFieldsDrop (value : ValueId) (element : TypeId) (fields : List DropField)
  | carrierBufferDrop (value : ValueId) (element leafElement : TypeId)
      (payloadVariant payloadOffset depth : ℕ) (alternate : AlternatePayload)
  | owningCarrierDrop (value : ValueId) (element leafElement : TypeId)
      (payloadVariant payloadOffset depth : ℕ) (alternate : AlternatePayload)
  deriving DecidableEq, Repr

namespace OwnershipKind

/-- The values the runtime is given, renamed. -/
def mapOperands (rename : ValueId → ValueId) : OwnershipKind → OwnershipKind
  | ownedStringDrop value => ownedStringDrop (rename value)
  | bufferDrop value element => bufferDrop (rename value) element
  | ownedStringBufferDrop value element => ownedStringBufferDrop (rename value) element
  | bufferResizeMoveOwnedString descriptor newLength element status =>
      bufferResizeMoveOwnedString (rename descriptor) (rename newLength) element status
  | bufferResizeMoveNestedOwnedString descriptor newLength element string depth status =>
      bufferResizeMoveNestedOwnedString (rename descriptor) (rename newLength) element string depth
        status
  | nestedBufferDrop value element nested => nestedBufferDrop (rename value) element nested
  | recursiveBufferDrop value element leaf depth =>
      recursiveBufferDrop (rename value) element leaf depth
  | recursiveOwnedStringBufferDrop value element string depth =>
      recursiveOwnedStringBufferDrop (rename value) element string depth
  | recursiveRecordBufferFieldsDrop value element record fields depth =>
      recursiveRecordBufferFieldsDrop (rename value) element record fields depth
  | bufferResizeMoveRecordFields descriptor newLength element record fields depth status =>
      bufferResizeMoveRecordFields (rename descriptor) (rename newLength) element record fields
        depth status
  | bufferRemoveDropOwnedString descriptor index element status =>
      bufferRemoveDropOwnedString (rename descriptor) (rename index) element status
  | bufferRemoveDropRecordFields descriptor index element fields status =>
      bufferRemoveDropRecordFields (rename descriptor) (rename index) element fields status
  | bufferRemoveDropNestedRecordFields descriptor index element record fields depth status =>
      bufferRemoveDropNestedRecordFields (rename descriptor) (rename index) element record fields
        depth status
  | bufferRemoveDropNestedBuffer descriptor index element leaf depth status =>
      bufferRemoveDropNestedBuffer (rename descriptor) (rename index) element leaf depth status
  | bufferRemoveDropNestedOwnedString descriptor index element string depth status =>
      bufferRemoveDropNestedOwnedString (rename descriptor) (rename index) element string depth
        status
  | enumCarrierBufferDrop value element offset branches =>
      enumCarrierBufferDrop (rename value) element offset branches
  | enumOwningCarrierDrop value element offset branches =>
      enumOwningCarrierDrop (rename value) element offset branches
  | enumCarrierFieldsDrop value element fields =>
      enumCarrierFieldsDrop (rename value) element fields
  | enumOwningFieldsDrop value element fields => enumOwningFieldsDrop (rename value) element fields
  | recordBufferFieldsDrop value element fields =>
      recordBufferFieldsDrop (rename value) element fields
  | recordOwningFieldsDrop value element fields =>
      recordOwningFieldsDrop (rename value) element fields
  | carrierBufferDrop value element leaf variant offset depth alternate =>
      carrierBufferDrop (rename value) element leaf variant offset depth alternate
  | owningCarrierDrop value element leaf variant offset depth alternate =>
      owningCarrierDrop (rename value) element leaf variant offset depth alternate

/-- The values the runtime is given. -/
def operands : OwnershipKind → List ValueId
  | ownedStringDrop value | bufferDrop value _ | ownedStringBufferDrop value _
  | nestedBufferDrop value _ _ | recursiveBufferDrop value _ _ _
  | recursiveOwnedStringBufferDrop value _ _ _ | recursiveRecordBufferFieldsDrop value _ _ _ _
  | enumCarrierBufferDrop value _ _ _ | enumOwningCarrierDrop value _ _ _
  | enumCarrierFieldsDrop value _ _ | enumOwningFieldsDrop value _ _
  | recordBufferFieldsDrop value _ _ | recordOwningFieldsDrop value _ _
  | carrierBufferDrop value _ _ _ _ _ _ | owningCarrierDrop value _ _ _ _ _ _ => [value]
  | bufferResizeMoveOwnedString descriptor newLength _ _
  | bufferResizeMoveNestedOwnedString descriptor newLength _ _ _ _
  | bufferResizeMoveRecordFields descriptor newLength _ _ _ _ _ => [descriptor, newLength]
  | bufferRemoveDropOwnedString descriptor index _ _
  | bufferRemoveDropRecordFields descriptor index _ _ _
  | bufferRemoveDropNestedRecordFields descriptor index _ _ _ _ _
  | bufferRemoveDropNestedBuffer descriptor index _ _ _ _
  | bufferRemoveDropNestedOwnedString descriptor index _ _ _ _ => [descriptor, index]

@[simp] theorem operands_mapOperands (rename : ValueId → ValueId) (kind : OwnershipKind) :
    (kind.mapOperands rename).operands = kind.operands.map rename := by
  cases kind <;> rfl

end OwnershipKind

/-- The operation set before code generation. -/
inductive InstructionKind
  | constant (constant : Constant)
  | builtin (builtin : BuiltinOp)
  | stringLiteral (utf8 : List ℕ)
  | aggregate (elements : List ValueId)
  | extractValue (aggregate : ValueId) (index : ℕ)
  | extractElement (aggregate index : ValueId)
  | enumConstruct (variant : ℕ) (fields : List ValueId)
  | enumTag (value : ValueId)
  | enumExtract (value : ValueId) (variant field : ℕ)
  | unary (op : UnaryOp) (operand : ValueId)
  | binary (op : BinaryOp) (left right : ValueId)
  | compare (predicate : ComparePredicate) (left right : ValueId)
  | cast (op : CastOp) (value : ValueId) (target : TypeId)
  | select (condition whenTrue whenFalse : ValueId)
  | stackAlloc (ty : TypeId) (count : Option ValueId)
  | regionAlloc (region : ValueId) (ty : TypeId) (count : ValueId)
  | regionCreate
  | regionDestroy (region : ValueId)
  | drop (value : ValueId)
  | ownership (kind : OwnershipKind)
  | load (pointer : ValueId) (alignment : ℕ) (isVolatile : Bool)
  | store (pointer value : ValueId) (alignment : ℕ) (isVolatile : Bool)
  | offset (base : ValueId) (indices : List ValueId)
  | boundsCheck (index length : ValueId)
  | vectorBoundsCheck (index length : ValueId) (lanes : ℕ)
  | assumeNoAlias (left right : ValueId)
  | call (function : FunctionId) (arguments : List ValueId)
  | functionAddress (function : FunctionId)
  | indirectCall (callee : ValueId) (arguments : List ValueId)
  | vectorSplat (value : ValueId) (lanes : ℕ)
  | vectorBinary (op : BinaryOp) (left right : ValueId)
  | vectorExtract (vector lane : ValueId)
  | vectorInsert (vector lane value : ValueId)
  deriving DecidableEq, Repr

namespace InstructionKind

/-- The values an instruction reads, in order. -/
def operands : InstructionKind → List ValueId
  | constant _ | builtin _ | stringLiteral _ | regionCreate | functionAddress _ => []
  | aggregate elements => elements
  | extractValue whole _ => [whole]
  | extractElement whole index => [whole, index]
  | enumConstruct _ fields => fields
  | enumTag value | enumExtract value _ _ | unary _ value | cast _ value _ => [value]
  | binary _ left right | compare _ left right => [left, right]
  | select condition whenTrue whenFalse => [condition, whenTrue, whenFalse]
  | stackAlloc _ count => count.toList
  | regionAlloc region _ count => [region, count]
  | regionDestroy value | drop value => [value]
  | ownership kind => kind.operands
  | load pointer _ _ => [pointer]
  | store pointer value _ _ => [pointer, value]
  | offset base indices => base :: indices
  | boundsCheck index length | vectorBoundsCheck index length _ => [index, length]
  | assumeNoAlias left right => [left, right]
  | call _ arguments => arguments
  | indirectCall callee arguments => callee :: arguments
  | vectorSplat value _ => [value]
  | vectorBinary _ left right => [left, right]
  | vectorExtract vector lane => [vector, lane]
  | vectorInsert vector lane value => [vector, lane, value]

/-- An instruction whose operands are renamed. -/
def mapOperands (rename : ValueId → ValueId) : InstructionKind → InstructionKind
  | constant value => constant value
  | builtin op => builtin op
  | stringLiteral utf8 => stringLiteral utf8
  | aggregate elements => aggregate (elements.map rename)
  | extractValue whole index => extractValue (rename whole) index
  | extractElement whole index => extractElement (rename whole) (rename index)
  | enumConstruct variant fields => enumConstruct variant (fields.map rename)
  | enumTag value => enumTag (rename value)
  | enumExtract value variant field => enumExtract (rename value) variant field
  | unary op operand => unary op (rename operand)
  | binary op left right => binary op (rename left) (rename right)
  | compare predicate left right => compare predicate (rename left) (rename right)
  | cast op value target => cast op (rename value) target
  | select condition whenTrue whenFalse =>
      select (rename condition) (rename whenTrue) (rename whenFalse)
  | stackAlloc ty count => stackAlloc ty (count.map rename)
  | regionAlloc region ty count => regionAlloc (rename region) ty (rename count)
  | regionCreate => regionCreate
  | regionDestroy region => regionDestroy (rename region)
  | drop value => drop (rename value)
  | ownership kind => ownership (kind.mapOperands rename)
  | load pointer alignment isVolatile => load (rename pointer) alignment isVolatile
  | store pointer value alignment isVolatile =>
      store (rename pointer) (rename value) alignment isVolatile
  | offset base indices => offset (rename base) (indices.map rename)
  | boundsCheck index length => boundsCheck (rename index) (rename length)
  | vectorBoundsCheck index length lanes => vectorBoundsCheck (rename index) (rename length) lanes
  | assumeNoAlias left right => assumeNoAlias (rename left) (rename right)
  | call function arguments => call function (arguments.map rename)
  | functionAddress function => functionAddress function
  | indirectCall callee arguments => indirectCall (rename callee) (arguments.map rename)
  | vectorSplat value lanes => vectorSplat (rename value) lanes
  | vectorBinary op left right => vectorBinary op (rename left) (rename right)
  | vectorExtract vector lane => vectorExtract (rename vector) (rename lane)
  | vectorInsert vector lane value => vectorInsert (rename vector) (rename lane) (rename value)

@[simp] theorem operands_mapOperands (rename : ValueId → ValueId) (kind : InstructionKind) :
    (kind.mapOperands rename).operands = kind.operands.map rename := by
  cases kind with
  | stackAlloc ty count => cases count <;> rfl
  | ownership kind => exact OwnershipKind.operands_mapOperands rename kind
  | _ => simp [mapOperands, operands]

end InstructionKind

/-- SSA identity paired with its canonical type. -/
structure TypedValue where
  value : ValueId
  ty : TypeId
  deriving DecidableEq, Repr

/-- One typed SSA instruction; side-effect-only instructions have no result. -/
structure Instruction where
  result : Option TypedValue
  kind : InstructionKind
  span : Option Span
  deriving DecidableEq, Repr

/-! ## Blocks, functions, modules -/

/-- One constant switch edge. -/
structure SwitchCase where
  value : ℤ
  target : BlockId
  arguments : List ValueId
  deriving DecidableEq, Repr

inductive Terminator
  | ret (value : Option ValueId)
  | jump (target : BlockId) (arguments : List ValueId)
  | branch (condition : ValueId) (thenTarget : BlockId) (thenArguments : List ValueId)
      (elseTarget : BlockId) (elseArguments : List ValueId)
  | switch (discriminant : ValueId) (cases : List SwitchCase) (default : BlockId)
      (defaultArguments : List ValueId)
  | unreachable
  deriving DecidableEq, Repr

namespace Terminator

/-- The blocks control may continue in. -/
def successorIds : Terminator → List BlockId
  | ret _ | unreachable => []
  | jump target _ => [target]
  | branch _ thenTarget _ elseTarget _ => [thenTarget, elseTarget]
  | switch _ cases default _ => cases.map SwitchCase.target ++ [default]

def operands : Terminator → List ValueId
  | ret value => value.toList
  | jump _ arguments => arguments
  | branch condition _ thenArguments _ elseArguments =>
      condition :: (thenArguments ++ elseArguments)
  | switch discriminant cases _ defaultArguments =>
      discriminant :: (cases.flatMap SwitchCase.arguments ++ defaultArguments)
  | unreachable => []

def mapOperands (rename : ValueId → ValueId) : Terminator → Terminator
  | ret value => ret (value.map rename)
  | jump target arguments => jump target (arguments.map rename)
  | branch condition thenTarget thenArguments elseTarget elseArguments =>
      branch (rename condition) thenTarget (thenArguments.map rename) elseTarget
        (elseArguments.map rename)
  | switch discriminant cases default defaultArguments =>
      switch (rename discriminant)
        (cases.map fun case => { case with arguments := case.arguments.map rename }) default
        (defaultArguments.map rename)
  | unreachable => unreachable

end Terminator

/-- One basic block with SSA block parameters. -/
structure Block where
  id : BlockId
  parameters : List TypedValue
  instructions : List Instruction
  terminator : Terminator
  span : Option Span
  deriving DecidableEq, Repr

inductive Linkage
  | internal
  | exported
  | imported
  deriving DecidableEq, Repr

/-- One function definition or external declaration. -/
structure Function where
  id : FunctionId
  linkage : Linkage
  parameters : List TypedValue
  result : TypeId
  blocks : List Block
  span : Option Span
  deriving DecidableEq, Repr

/-- One JIR compilation unit. -/
structure Module where
  types : List JirType
  functions : List Function
  deriving DecidableEq, Repr

namespace Function

/-- The instruction at a position: the `i`-th of block `b`. -/
def instructionAt (f : Function) (b i : ℕ) : Option Instruction :=
  f.blocks[b]?.bind fun block => block.instructions[i]?

/-- All instructions, in block order. -/
def instructions (f : Function) : List Instruction := f.blocks.flatMap Block.instructions

/-- Control may go from one block straight to another. -/
def Edge (f : Function) (b t : ℕ) : Prop :=
  ∃ block, f.blocks[b]? = some block ∧ t ∈ block.terminator.successorIds

/-- What the instructions define: value and kind. -/
def definitions (f : Function) : List (ValueId × InstructionKind) :=
  f.instructions.filterMap fun instruction =>
    instruction.result.map fun result => (result.value, instruction.kind)

end Function

/-- The type a type id stands for. -/
def Module.typeKind (module : Module) (ty : TypeId) : Option JirType := module.types[ty]?

end Jadren.Jir
