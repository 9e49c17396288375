import Jadren.Jir.Syntax
import Jadren.Library.Dominance
import Jadren.Library.OrderedSet

/-!
# The JIR verifier

`verify` lists the invariants a module violates; a module is accepted when the
list is empty.  The checks of one function first collect its definitions, then
walk over the instructions and terminators and check every use: the value is
defined, has the expected type, and its definition dominates the use.

Every message is the source's.  The checks of the runtime operations on owning
values share their shape, so each of them is a list of the same few checks with
its own messages.
-/

namespace Jadren.Jir

/-- Structural or typed SSA invariant violated by one module. -/
structure VerificationError where
  function : Option FunctionId
  block : Option BlockId
  value : Option ValueId
  span : Option Span
  message : String
  deriving DecidableEq, Repr

/-! ## Definitions and uses -/

inductive DefinitionSite
  | functionParameter
  | blockParameter (block : ℕ)
  | instruction (block position : ℕ)
  deriving DecidableEq, Repr

structure Definition where
  ty : TypeId
  site : DefinitionSite
  deriving DecidableEq, Repr

/-- Definitions by value, the latest first. -/
abbrev Definitions := List (ValueId × Definition)

namespace Function

/-- The definitions an instruction list makes, from a position on. -/
def instructionDefinitions (block : ℕ) : ℕ → List Instruction → List (ValueId × Definition)
  | _, [] => []
  | position, instruction :: rest =>
      (instruction.result.toList.map fun result =>
        (result.value, ⟨result.ty, .instruction block position⟩)) ++
        instructionDefinitions block (position + 1) rest

def blockDefinitions (block : ℕ) (contents : Block) : List (ValueId × Definition) :=
  (contents.parameters.map fun parameter =>
    (parameter.value, ⟨parameter.ty, .blockParameter block⟩)) ++
    instructionDefinitions block 0 contents.instructions

def parameterDefinitions (f : Function) : List (ValueId × Definition) :=
  f.parameters.map fun parameter => (parameter.value, ⟨parameter.ty, .functionParameter⟩)

def blocksDefinitions : ℕ → List Block → List (ValueId × Definition)
  | _, [] => []
  | block, contents :: rest => blockDefinitions block contents ++ blocksDefinitions (block + 1) rest

/-- All definitions of a function, in the order they are met. -/
def definitionSites (f : Function) : List (ValueId × Definition) :=
  f.parameterDefinitions ++ blocksDefinitions 0 f.blocks

/-- The block an out-of-range edge is not counted for has no list here. -/
def predecessors (f : Function) (block : ℕ) : List ℕ :=
  f.blocks.zipIdx.flatMap fun entry =>
    (entry.1.terminator.successorIds.filter (· == block)).map fun _ => entry.2

/-- The dominators of a block, from those of its predecessors. -/
def refineDominators (predecessors : ℕ → List ℕ) (sets : List (Finset ℕ)) (block : ℕ) :
    Finset ℕ :=
  insert block
    (match predecessors block with
      | [] => ∅
      | first :: rest =>
          rest.foldl (fun current predecessor => current ∩ sets.getD predecessor ∅)
            (sets.getD first ∅))

def dominators (f : Function) : List (Finset ℕ) :=
  if f.blocks.length = 0 then []
  else Dominance.dominators (refineDominators f.predecessors) f.blocks.length

end Function

structure UseSite where
  block : ℕ
  position : ℕ
  span : Option Span
  deriving DecidableEq, Repr

/-- The largest position: where a terminator uses its operands. -/
def usizeMax : ℕ := 2 ^ 64 - 1

/-- What the checks of one instruction or terminator look at. -/
structure UseContext where
  module : Module
  function : Function
  block : BlockId
  site : UseSite
  definitions : Definitions
  dominators : List (Finset ℕ)

namespace UseContext

variable (context : UseContext)

def instructionError (instruction : Instruction) (message : String) : VerificationError :=
  ⟨some context.function.id, some context.block, instruction.result.map TypedValue.value,
    instruction.span, message⟩

def blockError (message : String) : VerificationError :=
  ⟨some context.function.id, some context.block, none, context.site.span, message⟩

def valueError (value : ValueId) (message : String) : VerificationError :=
  ⟨some context.function.id, some context.block, some value, context.site.span, message⟩

/-- The declared type of a value, when it is defined. -/
def typeOf (value : ValueId) : Option TypeId := (context.definitions.lookup value).map Definition.ty

/-- The kind of a value's declared type. -/
def kindOf (value : ValueId) : Option JirType := (context.typeOf value).bind context.module.typeKind

/-- Whether a definition dominates the use being checked. -/
def dominates : DefinitionSite → Bool
  | .functionParameter => true
  | .blockParameter block =>
      block == context.site.block || decide (block ∈ context.dominators.getD context.site.block ∅)
  | .instruction block position =>
      if block = context.site.block then decide (position < context.site.position)
      else decide (block ∈ context.dominators.getD context.site.block ∅)

/-- Reports a failed check of an instruction. -/
def demand (instruction : Instruction) (passes : Bool) (message : String) :
    List VerificationError :=
  if passes then [] else [context.instructionError instruction message]

def useValue (value : ValueId) (expected : Option TypeId) : List VerificationError :=
  match context.definitions.lookup value with
  | none => [context.valueError value s!"use of undefined SSA value %v{value}"]
  | some definition =>
      (match expected with
        | none => []
        | some ty =>
            if definition.ty = ty then []
            else [context.valueError value
              s!"SSA value %v{value} has type %t{definition.ty} but %t{ty} is required"]) ++
        if context.dominates definition.site then []
        else [context.valueError value s!"SSA value %v{value} does not dominate this use"]

def useTypedKind (value : ValueId) (predicate : JirType → Bool) (message : String) :
    List VerificationError :=
  context.useValue value none ++
    if (context.kindOf value).any predicate then [] else [context.valueError value message]

end UseContext

namespace JirType

def isInteger : JirType → Bool
  | integer _ _ => true
  | _ => false

def isNumeric : JirType → Bool
  | integer _ _ | float _ => true
  | _ => false

def isFloat : JirType → Bool
  | float _ => true
  | _ => false

def isPointer : JirType → Bool
  | pointer _ _ => true
  | _ => false

def isStruct : JirType → Bool
  | struct _ => true
  | _ => false

def isEnum : JirType → Bool
  | enum _ | nominalEnum _ _ => true
  | _ => false

/-- The field types of a struct. -/
def structFields : JirType → Option (List TypeId)
  | struct fields | nominalStruct _ fields => some fields
  | _ => none

def scalarBits : JirType → Option ℕ
  | bool => some 1
  | integer _ bits | float bits => some bits
  | _ => none

end JirType

namespace Module

variable (module : Module)

def isKind (predicate : JirType → Bool) (ty : TypeId) : Bool := (module.typeKind ty).any predicate

def aggregateElement (ty : TypeId) (index : ℕ) : Option TypeId :=
  match module.typeKind ty with
  | some (.array element length) => if index < length then some element else none
  | some (.struct fields) | some (.nominalStruct _ fields) => fields[index]?
  | _ => none

def enumVariant (ty : TypeId) (variant : ℕ) : Option (List TypeId) :=
  match module.typeKind ty with
  | some (.enum variants) | some (.nominalEnum _ variants) => variants[variant]?
  | _ => none

def castCompatible (op : CastOp) (source target : TypeId) : Bool :=
  match op, module.typeKind source, module.typeKind target with
  | .integerExtend, some (.integer _ sourceBits), some (.integer _ targetBits) =>
      decide (sourceBits < targetBits)
  | .integerTruncate, some (.integer _ sourceBits), some (.integer _ targetBits) =>
      decide (targetBits < sourceBits)
  | .integerToFloat, some (.integer _ _), some (.float _) => true
  | .floatToInteger, some (.float _), some (.integer _ _) => true
  | .floatExtend, some (.float sourceBits), some (.float targetBits) =>
      decide (sourceBits < targetBits)
  | .floatTruncate, some (.float sourceBits), some (.float targetBits) =>
      decide (targetBits < sourceBits)
  | .bitcast, some source, some target =>
      source.scalarBits.isSome && target.scalarBits == source.scalarBits
  | .pointerCast, some (.pointer _ _), some (.pointer _ _) => true
  | _, _, _ => false

def isDisjointHandleType (ty : TypeId) : Bool :=
  match (module.typeKind ty).bind JirType.structFields with
  | some (first :: rest) =>
      (rest.length == 1 || rest.length == 2) && module.isKind JirType.isPointer first &&
        rest.all (module.isKind JirType.isInteger)
  | _ => false

/-- Whether a type is missing from the module. -/
def lacks (ty : TypeId) : Bool := (module.typeKind ty).isNone

end Module

namespace UseContext

variable (context : UseContext)

def useInteger (value : ValueId) : List VerificationError :=
  context.useTypedKind value JirType.isInteger "SSA value is not an integer"

def useBool (value : ValueId) : List VerificationError :=
  context.useTypedKind value (· == .bool) "SSA value is not Bool"

def checkTypedValues (values : List ValueId) (expected : List TypeId) : List VerificationError :=
  (if values.length = expected.length then []
    else [context.blockError
      s!"value argument count {values.length} differs from expected {expected.length}"]) ++
    (values.zip expected).flatMap fun pair => context.useValue pair.1 (some pair.2)

def checkEdge (target : BlockId) (arguments : List ValueId) : List VerificationError :=
  match context.function.blocks[target]? with
  | none => [context.blockError s!"edge references missing block ^bb{target}"]
  | some block => context.checkTypedValues arguments (block.parameters.map TypedValue.ty)

def requireResult (instruction : Instruction) (check : TypeId → List VerificationError) :
    List VerificationError :=
  match instruction.result with
  | some result => check result.ty
  | none => [context.instructionError instruction "value-producing instruction has no result"]

def forbidResult (instruction : Instruction) : List VerificationError :=
  context.demand instruction instruction.result.isNone "side-effect-only instruction has a result"

def checkAlignment (instruction : Instruction) (alignment : ℕ) : List VerificationError :=
  context.demand instruction ((List.range 32).any fun bit => alignment == 2 ^ bit)
    "memory alignment is not a nonzero power of two"

/-! ## The runtime operations -/

/-- Reports a missing layout type. -/
def demandType (instruction : Instruction) (ty : TypeId) (message : String) :
    List VerificationError :=
  context.demand instruction (!context.module.lacks ty) message

/-- The result type the status contract of a buffer operation asks for. -/
def isStatusResult (statusResult : Bool) (ty : TypeId) : Bool :=
  context.module.typeKind ty == some (if statusResult then .integer true 32 else .bool)

/-- The checks of a table of owning fields: a depth, a place of its own, a leaf type. -/
def checkFields (instruction : Instruction) (depthMessage uniqueMessage leafMessage : String) :
    List (ℕ × ℕ) → List DropField → List VerificationError
  | _, [] => []
  | seen, field :: rest =>
      context.demand instruction (field.depth != 0) depthMessage ++
        context.demand instruction
          (decide ((field.payloadVariant, field.payloadOffset) ∉ seen)) uniqueMessage ++
        context.demandType instruction field.leafElement leafMessage ++
        checkFields instruction depthMessage uniqueMessage leafMessage
          ((field.payloadVariant, field.payloadOffset) :: seen) rest

def checkBranches (instruction : Instruction) :
    List ℕ → List CarrierDropBranch → List VerificationError
  | _, [] => []
  | seen, branch :: rest =>
      context.demand instruction (branch.depth != 0)
          "enum carrier drop branch depth must be nonzero" ++
        context.demand instruction (decide (branch.payloadVariant ∉ seen))
          "enum carrier drop branch variants must be unique" ++
        context.demandType instruction branch.leafElement
          "enum carrier drop branch leaf element type is missing" ++
        checkBranches instruction (branch.payloadVariant :: seen) rest

/-- The checks of an optional second payload; `name` starts each message. -/
def checkAlternate (instruction : Instruction) (name : String) (payloadVariant : ℕ)
    (alternate : AlternatePayload) : List VerificationError :=
  match alternate.leafElement, alternate.payloadVariant, alternate.depth with
  | none, none, none => []
  | some leaf, some variant, some depth =>
      context.demand instruction (depth != 0) s!"{name} alternate depth must be nonzero" ++
        context.demand instruction (variant != payloadVariant)
          s!"{name} alternate variant must differ" ++
        context.demandType instruction leaf s!"{name} alternate leaf element type is missing"
  | _, _, _ =>
      context.demand instruction false
        s!"{name} alternate payload fields must be all present or absent"

/-- The checks every destructor starts with. -/
def useDestroyed (instruction : Instruction) (value : ValueId) : List VerificationError :=
  context.forbidResult instruction ++ context.useValue value none

/-- The checks every resizing or removing operation starts with. -/
def useResized (instruction : Instruction) (descriptor argument : ValueId) (statusResult : Bool)
    (message : String) (others : List VerificationError) : List VerificationError :=
  context.requireResult instruction fun ty =>
    context.useValue descriptor none ++ context.useValue argument none ++
      context.demand instruction (context.isStatusResult statusResult ty) message ++ others

def checkEnumCarrierDrop (instruction : Instruction) (value : ValueId) (element : TypeId)
    (branches : List CarrierDropBranch) : List VerificationError :=
  context.useDestroyed instruction value ++
    context.demand instruction (decide (2 ≤ branches.length))
      "enum carrier drop requires at least two owning branches" ++
    context.demandType instruction element "enum carrier drop element type is missing" ++
    context.checkBranches instruction [] branches

def checkEnumFieldsDrop (instruction : Instruction) (value : ValueId) (element : TypeId)
    (fields : List DropField) : List VerificationError :=
  context.useDestroyed instruction value ++
    context.demand instruction (!fields.isEmpty)
      "enum carrier field drop requires at least one owning field" ++
    context.demandType instruction element "enum carrier field drop element type is missing" ++
    context.checkFields instruction "enum carrier field drop depth must be nonzero"
      "enum carrier field drop offsets must be unique per variant"
      "enum carrier field drop leaf element type is missing" [] fields

def checkRecordFieldsDrop (instruction : Instruction) (value : ValueId) (element : TypeId)
    (fields : List DropField) : List VerificationError :=
  context.useDestroyed instruction value ++
    context.demand instruction (!fields.isEmpty)
      "record field drop requires at least one owning field" ++
    context.demandType instruction element "record field drop element type is missing" ++
    context.checkFields instruction "record field drop depth must be nonzero"
      "record field drop offsets must be unique"
      "record field drop leaf element type is missing" [] fields

def checkCarrierDrop (instruction : Instruction) (name : String) (value : ValueId)
    (element leafElement : TypeId) (payloadVariant depth : ℕ) (alternate : AlternatePayload) :
    List VerificationError :=
  context.useDestroyed instruction value ++
    context.demand instruction (depth != 0) s!"{name} depth must be nonzero" ++
    context.demandType instruction element s!"{name} element type is missing" ++
    context.demandType instruction leafElement s!"{name} leaf element type is missing" ++
    context.checkAlternate instruction name payloadVariant alternate

def verifyOwnership (instruction : Instruction) : OwnershipKind → List VerificationError
  | .ownedStringDrop value => context.useDestroyed instruction value
  | .bufferDrop value element =>
      context.useDestroyed instruction value ++
        context.demandType instruction element "buffer_drop element type is missing"
  | .ownedStringBufferDrop value element =>
      context.useDestroyed instruction value ++
        context.demandType instruction element "owned_string_buffer_drop element type is missing"
  | .nestedBufferDrop value element nestedElement =>
      context.useDestroyed instruction value ++
        context.demandType instruction element "nested_buffer_drop element type is missing" ++
        context.demandType instruction nestedElement
          "nested_buffer_drop nested element type is missing"
  | .recursiveBufferDrop value element leafElement depth =>
      context.useDestroyed instruction value ++
        context.demand instruction (decide (2 ≤ depth))
          "recursive_buffer_drop depth must be at least two" ++
        context.demandType instruction element "recursive_buffer_drop element type is missing" ++
        context.demandType instruction leafElement
          "recursive_buffer_drop leaf element type is missing"
  | .recursiveOwnedStringBufferDrop value element stringElement depth =>
      context.useDestroyed instruction value ++
        context.demand instruction (depth != 0)
          "recursive owned string buffer drop depth must be nonzero" ++
        context.demandType instruction element
          "recursive owned string buffer drop element type is missing" ++
        context.demandType instruction stringElement
          "recursive owned string buffer drop string element type is missing"
  | .recursiveRecordBufferFieldsDrop value element recordElement fields depth =>
      context.useDestroyed instruction value ++
        context.demand instruction (depth != 0)
          "recursive record buffer drop depth must be nonzero" ++
        context.demandType instruction element
          "recursive record buffer drop element type is missing" ++
        context.demandType instruction recordElement
          "recursive record buffer drop record element type is missing" ++
        context.demand instruction (!fields.isEmpty)
          "recursive record buffer drop requires at least one owning field" ++
        context.checkFields instruction "recursive record buffer field drop depth must be nonzero"
          "recursive record buffer field drop offsets must be unique"
          "recursive record buffer field drop leaf element type is missing" [] fields
  | .bufferResizeMoveRecordFields descriptor newLength element recordElement fields _ status =>
      context.useResized instruction descriptor newLength status
        "buffer resize move record result type does not match status contract"
        (context.demandType instruction element
          "buffer resize move record element type is missing" ++
          context.demandType instruction recordElement
            "buffer resize move record leaf type is missing" ++
          context.demand instruction (!fields.isEmpty)
            "buffer resize move record requires at least one owning field" ++
          context.checkFields instruction "buffer resize move record field depth must be nonzero"
            "buffer resize move record field offsets must be unique"
            "buffer resize move record field leaf type is missing" [] fields)
  | .bufferResizeMoveOwnedString descriptor newLength element status =>
      context.useResized instruction descriptor newLength status
        "owned string resize move result type does not match status contract"
        (context.demandType instruction element "owned string resize move element type is missing")
  | .bufferResizeMoveNestedOwnedString descriptor newLength element stringElement depth status =>
      context.useResized instruction descriptor newLength status
        "nested owned string resize move result type does not match status contract"
        (context.demand instruction (depth != 0)
            "nested owned string resize move depth must be nonzero" ++
          context.demandType instruction element
            "nested owned string resize move element type is missing" ++
          context.demandType instruction stringElement
            "nested owned string resize move string element type is missing")
  | .bufferRemoveDropRecordFields descriptor index element fields status =>
      context.useResized instruction descriptor index status
        "buffer remove drop record result type does not match status contract"
        (context.demandType instruction element
          "buffer remove drop record element type is missing" ++
          context.demand instruction (!fields.isEmpty)
            "buffer remove drop record requires at least one owning field" ++
          context.checkFields instruction "buffer remove drop record field depth must be nonzero"
            "buffer remove drop record field offsets must be unique"
            "buffer remove drop record field leaf type is missing" [] fields)
  | .bufferRemoveDropOwnedString descriptor index element status =>
      context.useResized instruction descriptor index status
        "owned string remove drop result type does not match status contract"
        (context.demandType instruction element "owned string remove drop element type is missing")
  | .bufferRemoveDropNestedRecordFields descriptor index element recordElement fields
      depth status =>
      context.useResized instruction descriptor index status
        "buffer remove drop nested record result type does not match status contract"
        (context.demand instruction
            (!context.module.lacks element && !context.module.lacks recordElement)
            "buffer remove drop nested record element type is missing" ++
          context.demand instruction (depth != 0)
            "buffer remove drop nested record depth must be nonzero" ++
          context.demand instruction (!fields.isEmpty)
            "buffer remove drop nested record requires at least one owning field" ++
          context.checkFields instruction
            "buffer remove drop nested record field depth must be nonzero"
            "buffer remove drop nested record field offsets must be unique"
            "buffer remove drop nested record field leaf type is missing" [] fields)
  | .bufferRemoveDropNestedBuffer descriptor index element leafElement depth status =>
      context.useResized instruction descriptor index status
        "buffer remove drop nested buffer result type does not match status contract"
        (context.demand instruction
            (!context.module.lacks element && !context.module.lacks leafElement)
            "buffer remove drop nested buffer element type is missing" ++
          context.demand instruction (depth != 0)
            "buffer remove drop nested buffer depth must be nonzero")
  | .bufferRemoveDropNestedOwnedString descriptor index element stringElement depth status =>
      context.useResized instruction descriptor index status
        "buffer remove drop nested owned string result type does not match status contract"
        (context.demand instruction
            (!context.module.lacks element && !context.module.lacks stringElement)
            "buffer remove drop nested owned string element type is missing" ++
          context.demand instruction (depth != 0)
            "buffer remove drop nested owned string depth must be nonzero")
  | .enumCarrierBufferDrop value element _ branches
  | .enumOwningCarrierDrop value element _ branches =>
      context.checkEnumCarrierDrop instruction value element branches
  | .enumCarrierFieldsDrop value element fields | .enumOwningFieldsDrop value element fields =>
      context.checkEnumFieldsDrop instruction value element fields
  | .recordBufferFieldsDrop value element fields | .recordOwningFieldsDrop value element fields =>
      context.checkRecordFieldsDrop instruction value element fields
  | .carrierBufferDrop value element leafElement payloadVariant _ depth alternate =>
      context.checkCarrierDrop instruction "carrier_buffer_drop" value element leafElement
        payloadVariant depth alternate
  | .owningCarrierDrop value element leafElement payloadVariant _ depth alternate =>
      context.checkCarrierDrop instruction "owning_carrier_drop" value element leafElement
        payloadVariant depth alternate

/-! ## Instructions and terminators -/

/-- The operand types an operator is defined for. -/
def isBinaryOperand (op : BinaryOp) (ty : TypeId) : Bool :=
  match op with
  | .add | .subtract | .multiply | .divide | .remainder =>
      context.module.isKind JirType.isNumeric ty
  | .bitAnd | .bitOr | .bitXor | .shiftLeft | .shiftRight =>
      context.module.isKind JirType.isInteger ty

def isUnaryOperand (op : UnaryOp) (ty : TypeId) : Bool :=
  match op with
  | .negate => context.module.isKind JirType.isNumeric ty
  | .not => context.module.isKind (· == .bool) ty
  | .bitNot => context.module.isKind JirType.isInteger ty

/-- Whether a constant may have a type. -/
def isConstantOf (constant : Constant) (ty : TypeId) : Bool :=
  match constant with
  | .bool _ => context.module.isKind (· == .bool) ty
  | .integer _ => context.module.isKind JirType.isInteger ty
  | .floatBits _ => context.module.isKind JirType.isFloat ty
  | .null => context.module.isKind JirType.isPointer ty
  | .zero => context.module.isKind (fun kind => kind != .unit && kind != .regionHandle) ty

/-- The types of the elements an aggregate of a type is built from. -/
def aggregateElements (ty : TypeId) : Option (List TypeId) :=
  match context.module.typeKind ty with
  | some (.array element length) => some (List.replicate length element)
  | some (.struct fields) | some (.nominalStruct _ fields) => some fields
  | _ => none

/-- Whether a type is a pointer to a given type, in a given address space. -/
def isPointerTo (ty pointee : TypeId) (addressSpace : AddressSpace) : Bool :=
  context.module.typeKind ty == some (.pointer pointee addressSpace)

/-- What a pointer value points to. -/
def pointeeOf (value : ValueId) : Option TypeId :=
  match context.kindOf value with
  | some (.pointer pointee _) => some pointee
  | _ => none

/-- The checks both bounds checks share. -/
def checkBounds (instruction : Instruction) (index length : ValueId) (message : String) :
    List VerificationError :=
  context.forbidResult instruction ++ context.useValue index none ++
    context.useValue length (context.typeOf index) ++
    context.demand instruction
      ((context.kindOf index).any JirType.isInteger &&
        (context.kindOf length).any JirType.isInteger)
      message

/-- The checks of a call to something with a signature. -/
def checkSignature (instruction : Instruction) (arguments : List ValueId)
    (parameters : List TypeId) (result : TypeId) (message : String) : List VerificationError :=
  context.checkTypedValues arguments parameters ++
    if context.module.typeKind result = some .unit then context.forbidResult instruction
    else context.demand instruction
      (decide (instruction.result.map TypedValue.ty = some result)) message

def verifyCall (instruction : Instruction) (callee : FunctionId) (arguments : List ValueId) :
    List VerificationError :=
  match context.module.functions[callee]? with
  | none => [context.instructionError instruction "call references a missing function"]
  | some callee =>
      context.checkSignature instruction arguments (callee.parameters.map TypedValue.ty)
        callee.result "call result differs from callee result type"

def verifyIndirectCall (instruction : Instruction) (callee : ValueId) (arguments : List ValueId) :
    List VerificationError :=
  context.useValue callee none ++
    match context.typeOf callee with
    | none => []
    | some ty =>
        match context.module.typeKind ty with
        | some (.function parameters result) =>
            context.checkSignature instruction arguments parameters result
              "indirect_call result differs from function pointer result type"
        | _ => [context.instructionError instruction
            "indirect_call callee is not a function pointer"]

/-- Whether a type is the function pointer type of a function. -/
def isAddressOf (ty : TypeId) (target : Function) : Bool :=
  context.module.typeKind ty ==
    some (.function (target.parameters.map TypedValue.ty) target.result)

def verifyInstruction (instruction : Instruction) : List VerificationError :=
  match instruction.kind with
  | .constant constant =>
      context.requireResult instruction fun ty =>
        context.demand instruction (context.isConstantOf constant ty)
          "constant kind differs from its result type"
  | .builtin _ =>
      context.requireResult instruction fun ty =>
        context.demand instruction (context.module.isKind (· == .integer false 32) ty)
          "GPU builtin result must be u32"
  | .stringLiteral _ =>
      context.requireResult instruction fun ty =>
        context.demand instruction (context.module.isKind JirType.isStruct ty)
          "string literal result is not the String aggregate representation"
  | .aggregate elements =>
      context.requireResult instruction fun ty =>
        match context.aggregateElements ty with
        | none => [context.instructionError instruction
            "aggregate result is not an array or struct"]
        | some expected => context.checkTypedValues elements expected
  | .extractValue aggregate index =>
      context.requireResult instruction fun ty =>
        context.useValue aggregate none ++
          context.demand instruction
            (decide ((context.typeOf aggregate).bind
              (context.module.aggregateElement · index) = some ty))
            "extract_value index or result type differs from aggregate layout"
  | .extractElement aggregate index =>
      context.requireResult instruction fun ty =>
        context.useValue aggregate none ++ context.useInteger index ++
          context.demand instruction
            (match context.kindOf aggregate with
              | some (.array element _) => decide (element = ty)
              | _ => false)
            "extract_element source or result type differs from array layout"
  | .enumConstruct variant fields =>
      context.requireResult instruction fun ty =>
        match context.module.enumVariant ty variant with
        | none => [context.instructionError instruction
            "enum_construct variant does not exist in result type"]
        | some expected => context.checkTypedValues fields expected
  | .enumTag value =>
      context.requireResult instruction fun ty =>
        context.useValue value none ++
          context.demand instruction
            ((context.kindOf value).any JirType.isEnum &&
              context.module.isKind (· == .integer false 32) ty)
            "enum_tag requires an enum and returns u32"
  | .enumExtract value variant field =>
      context.requireResult instruction fun ty =>
        context.useValue value none ++
          context.demand instruction
            (decide (((context.typeOf value).bind (context.module.enumVariant · variant)).bind
              (fun fields => fields[field]?) = some ty))
            "enum_extract variant, field, or result type is invalid"
  | .unary op operand =>
      context.requireResult instruction fun ty =>
        context.useValue operand (some ty) ++
          context.demand instruction (context.isUnaryOperand op ty)
            "unary operator is incompatible with its result type"
  | .binary op left right =>
      context.requireResult instruction fun ty =>
        context.useValue left (some ty) ++ context.useValue right (some ty) ++
          context.demand instruction (context.isBinaryOperand op ty)
            "binary operator is incompatible with its result type"
  | .compare _ left right =>
      context.requireResult instruction fun ty =>
        context.useValue left none ++ context.useValue right (context.typeOf left) ++
          context.demand instruction (context.module.isKind (· == .bool) ty)
            "comparison result is not Bool"
  | .cast op value target =>
      context.requireResult instruction fun ty =>
        context.useValue value none ++
          context.demand instruction
            (decide (ty = target) && !context.module.lacks target &&
              (context.typeOf value).any (context.module.castCompatible op · target))
            "cast target differs from result type"
  | .select condition whenTrue whenFalse =>
      context.requireResult instruction fun ty =>
        context.useBool condition ++ context.useValue whenTrue (some ty) ++
          context.useValue whenFalse (some ty)
  | .stackAlloc ty count =>
      context.requireResult instruction fun result =>
        context.demand instruction (context.isPointerTo result ty .stack)
            "stack_alloc result is not a stack pointer to the allocated type" ++
          count.toList.flatMap context.useInteger
  | .regionAlloc region ty count =>
      context.requireResult instruction fun result =>
        context.useTypedKind region (· == .regionHandle)
            "region_alloc region is not region_handle" ++
          context.useInteger count ++
          context.demand instruction (context.isPointerTo result ty .region)
            "region_alloc result is not a region pointer to the element type"
  | .regionCreate =>
      context.requireResult instruction fun ty =>
        context.demand instruction (context.module.isKind (· == .regionHandle) ty)
          "region_create result is not region_handle"
  | .regionDestroy region =>
      context.forbidResult instruction ++
        context.useTypedKind region (· == .regionHandle)
          "region_destroy operand is not region_handle"
  | .drop value => context.useDestroyed instruction value
  | .ownership kind => context.verifyOwnership instruction kind
  | .load pointer alignment _ =>
      context.requireResult instruction fun ty =>
        context.useValue pointer none ++
          context.demand instruction (decide (context.pointeeOf pointer = some ty))
            "load pointer pointee differs from result type" ++
          context.checkAlignment instruction alignment
  | .store pointer value alignment _ =>
      context.forbidResult instruction ++ context.useValue pointer none ++
        context.useValue value none ++
        context.demand instruction
          (match context.pointeeOf pointer with
            | some pointee => decide (some pointee = context.typeOf value)
            | none => false)
          "store value differs from pointer pointee type" ++
        context.checkAlignment instruction alignment
  | .offset base indices =>
      context.requireResult instruction fun ty =>
        context.useValue base none ++ indices.flatMap context.useInteger ++
          match context.module.typeKind ty, context.kindOf base with
          | some (.pointer _ resultSpace), some (.pointer _ baseSpace) =>
              context.demand instruction (decide (baseSpace = resultSpace))
                "offset changes pointer address space"
          | some (.pointer _ _), _ => []
          | _, _ => [context.instructionError instruction "offset result is not a pointer"]
  | .boundsCheck index length =>
      context.checkBounds instruction index length
        "bounds_check operands are not equal integer types"
  | .vectorBoundsCheck index length lanes =>
      context.checkBounds instruction index length
          "vector_bounds_check operands are not equal integer types" ++
        context.demand instruction (lanes != 0) "vector_bounds_check requires at least one lane"
  | .assumeNoAlias left right =>
      context.forbidResult instruction ++ context.useValue left none ++
        context.useValue right none ++
        context.demand instruction (left != right) "assume_noalias operands must be distinct" ++
        context.demand instruction
          ((context.typeOf left).any context.module.isDisjointHandleType &&
            (context.typeOf right).any context.module.isDisjointHandleType)
          "assume_noalias operands must be Slice/Buffer handles"
  | .call function arguments => context.verifyCall instruction function arguments
  | .functionAddress function =>
      context.requireResult instruction fun ty =>
        match context.module.functions[function]? with
        | none => [context.instructionError instruction
            "function_address references a missing function"]
        | some target =>
            context.demand instruction (context.isAddressOf ty target)
              "function_address result does not match target signature"
  | .indirectCall callee arguments => context.verifyIndirectCall instruction callee arguments
  | .vectorSplat value lanes =>
      context.requireResult instruction fun ty =>
        match context.module.typeKind ty with
        | some (.vector element resultLanes) =>
            if resultLanes = lanes then context.useValue value (some element)
            else context.useValue value none ++
              [context.instructionError instruction "vector_splat result lanes are inconsistent"]
        | _ => context.useValue value none ++
            [context.instructionError instruction "vector_splat result lanes are inconsistent"]
  | .vectorBinary op left right =>
      context.requireResult instruction fun ty =>
        context.useValue left (some ty) ++ context.useValue right (some ty) ++
          context.demand instruction
            (match context.module.typeKind ty with
              | some (.vector element _) => context.isBinaryOperand op element
              | _ => false)
            "vector_binary operation is incompatible with its element type"
  | .vectorExtract vector lane =>
      context.requireResult instruction fun ty =>
        context.useValue vector none ++ context.useInteger lane ++
          context.demand instruction
            (match context.kindOf vector with
              | some (.vector element _) => decide (element = ty)
              | _ => false)
            "vector_extract result differs from lane type"
  | .vectorInsert vector lane value =>
      context.requireResult instruction fun ty =>
        context.useValue vector (some ty) ++ context.useInteger lane ++
          context.useValue value
            (match context.kindOf vector with
              | some (.vector element _) => some element
              | _ => none)

def checkCases : List ℤ → List SwitchCase → List VerificationError
  | _, [] => []
  | seen, case :: rest =>
      (if case.value ∈ seen then [context.blockError "switch contains duplicate case values"]
        else []) ++
        context.checkEdge case.target case.arguments ++ checkCases (case.value :: seen) rest

def verifyTerminator : Terminator → List VerificationError
  | .ret value =>
      if context.module.typeKind context.function.result = some .unit then
        if value.isSome then [context.blockError "Unit function returns a value"] else []
      else
        match value with
        | some value => context.useValue value (some context.function.result)
        | none => [context.blockError "non-Unit function returns no value"]
  | .jump target arguments => context.checkEdge target arguments
  | .branch condition thenTarget thenArguments elseTarget elseArguments =>
      context.useBool condition ++ context.checkEdge thenTarget thenArguments ++
        context.checkEdge elseTarget elseArguments
  | .switch discriminant cases default defaultArguments =>
      context.useInteger discriminant ++ context.checkCases [] cases ++
        context.checkEdge default defaultArguments
  | .unreachable => []

end UseContext

/-! ## Functions and modules -/

namespace Module

variable (module : Module)

def moduleError (message : String) : VerificationError := ⟨none, none, none, none, message⟩

def referencedTypes : JirType → List TypeId
  | .pointer pointee _ => [pointee]
  | .function parameters result => parameters ++ [result]
  | .array element _ | .vector element _ => [element]
  | .struct fields | .nominalStruct _ fields => fields
  | .enum variants | .nominalEnum _ variants => variants.flatten
  | .unit | .regionHandle | .bool | .integer _ _ | .float _ => []

def verifyType (index : ℕ) (ty : JirType) : List VerificationError :=
  (match (module.types.take index).idxOf? ty with
    | some previous => [moduleError s!"type %t{index} duplicates canonical type %t{previous}"]
    | none => []) ++
    ((referencedTypes ty).filter module.lacks).map (fun referenced =>
      moduleError s!"type %t{index} references missing type %t{referenced}") ++
    match ty with
    | .integer _ 0 | .float 0 => [moduleError s!"type %t{index} has zero bit width"]
    | .vector _ 0 => [moduleError s!"type %t{index} has zero vector lanes"]
    | _ => []

def verifyTypes : List VerificationError :=
  module.types.zipIdx.flatMap fun entry => module.verifyType entry.2 entry.1

/-- A type reference made by a declaration of a function. -/
def checkType (f : Function) (block : Option BlockId) (value : Option ValueId) (ty : TypeId) :
    List VerificationError :=
  if module.lacks ty then [⟨some f.id, block, value, f.span, s!"reference to missing type %t{ty}"⟩]
  else []

/-- The block and source range a definition is reported in. -/
def definitionPlace (f : Function) : DefinitionSite → Option BlockId × Option Span
  | .functionParameter => (none, none)
  | .blockParameter block => ((f.blocks[block]?).map Block.id, (f.blocks[block]?).bind Block.span)
  | .instruction block position =>
      ((f.blocks[block]?).map Block.id, (f.instructionAt block position).bind Instruction.span)

/-- Collects definitions one by one; a value met before is reported. -/
def checkDefinitions (f : Function) :
    Definitions → List (ValueId × Definition) → List VerificationError
  | _, [] => []
  | defined, (value, definition) :: rest =>
      let place := definitionPlace f definition.site
      module.checkType f place.1 (some value) definition.ty ++
        (if (defined.lookup value).isSome then
          [⟨some f.id, place.1, some value, place.2,
            s!"SSA value %v{value} has multiple definitions"⟩]
        else []) ++
        checkDefinitions f ((value, definition) :: defined) rest

/-- Checks where each block is stored and collects its definitions. -/
def checkBlocks (f : Function) : ℕ → Definitions → List Block → List VerificationError
  | _, _, [] => []
  | index, defined, block :: rest =>
      (if block.id = index then []
        else [⟨some f.id, some block.id, none, block.span,
          s!"block ^bb{block.id} is stored at index {index}"⟩]) ++
        module.checkDefinitions f defined (Function.blockDefinitions index block) ++
        checkBlocks f (index + 1) ((Function.blockDefinitions index block).reverse ++ defined) rest

/-- Values are dense: the defined ones are an initial segment. -/
def checkDense (f : Function) (values : List ValueId) : List VerificationError :=
  match values.zipIdx.find? (fun entry => entry.1 != entry.2) with
  | some (value, expected) =>
      [⟨some f.id, none, none, f.span,
        s!"SSA values are not dense: expected %v{expected}, found %v{value}"⟩]
  | none => []

def useContext (f : Function) (block : ℕ) (contents : Block) (position : ℕ)
    (span : Option Span) : UseContext where
  module := module
  function := f
  block := contents.id
  site := ⟨block, position, span⟩
  definitions := f.definitionSites.reverse
  dominators := f.dominators

def verifyBlock (f : Function) (block : ℕ) (contents : Block) : List VerificationError :=
  (contents.instructions.zipIdx.flatMap fun entry =>
    (module.useContext f block contents entry.2 entry.1.span).verifyInstruction entry.1) ++
    (module.useContext f block contents usizeMax contents.span).verifyTerminator contents.terminator

def verifyFunction (f : Function) : List VerificationError :=
  module.checkType f none none f.result ++
    (if f.linkage = .imported then
      if f.blocks.isEmpty then []
      else [⟨some f.id, none, none, f.span, "import function has a body"⟩]
    else
      if f.blocks.isEmpty then
        [⟨some f.id, none, none, f.span, "defined function has no entry block"⟩]
      else []) ++
    module.checkDefinitions f [] f.parameterDefinitions ++
    module.checkBlocks f 0 f.parameterDefinitions.reverse f.blocks ++
    checkDense f (OrderedSet.ofList (f.definitionSites.map Prod.fst)).elems ++
    if f.linkage = .imported then []
    else f.blocks.zipIdx.flatMap fun entry => module.verifyBlock f entry.2 entry.1

/-- **The verifier**: the invariants a module violates. -/
def verify : List VerificationError :=
  module.verifyTypes ++
    module.functions.zipIdx.flatMap fun entry =>
      (if entry.1.id = entry.2 then []
        else [moduleError s!"function @f{entry.1.id} is stored at index {entry.2}"]) ++
        module.verifyFunction entry.1

end Module

end Jadren.Jir
