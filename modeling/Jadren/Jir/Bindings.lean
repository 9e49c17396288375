import Jadren.Jir.Persistence
import Jadren.Jir.Execution

/-!
# What is bound where

A path through a function binds values: its parameters at the start, the result
of each instruction, and the parameters of a block when an edge passes arguments
to it.  `BindingPath` follows all paths and keeps, for each value bound so far,
the type of what it was bound to.  That type is computed from the types of the
operands (`Instruction.yields`); where an instruction makes a value of its own,
such as a constant or an address, it is the declared type if the instruction can
make a value of that type.

The entry block is entered once without an edge, and then nothing binds its
parameters.  Apart from them, whatever an accepted function reads is bound, and
has its declared type (`readsBound_iff`).
-/

namespace Jadren.Jir

open Dominance (Precedes Reachable)

/-! ## The types of computed values -/

/-- The types of the values bound so far. -/
abbrev Bindings : Type := ValueId → Option TypeId

/-- The type two values have in common. -/
def commonType (left right : Option TypeId) : Option TypeId := if left = right then left else none

/-- Whether a constant is a value of a type. -/
def Constant.fits : Constant → JirType → Bool
  | bool _, ty => ty == .bool
  | integer _, ty => ty.isInteger
  | floatBits _, ty => ty.isFloat
  | null, ty => ty.isPointer
  | zero, ty => ty != .unit && ty != .regionHandle

/-- The status an operation on a buffer answers with, if it answers. -/
def OwnershipKind.status : OwnershipKind → Option JirType
  | bufferResizeMoveOwnedString _ _ _ status | bufferResizeMoveNestedOwnedString _ _ _ _ _ status
  | bufferResizeMoveRecordFields _ _ _ _ _ _ status | bufferRemoveDropOwnedString _ _ _ status
  | bufferRemoveDropRecordFields _ _ _ _ status |
      bufferRemoveDropNestedRecordFields _ _ _ _ _ _ status
  | bufferRemoveDropNestedBuffer _ _ _ _ _ status
  | bufferRemoveDropNestedOwnedString _ _ _ _ _ status =>
      some (if status then .integer true 32 else .bool)
  | _ => none

namespace JirType

/-- The types of the parts of a value built from parts. -/
def parts : JirType → Option (List TypeId)
  | array element length => some (List.replicate length element)
  | struct fields | nominalStruct _ fields => some fields
  | _ => none

def variantFields (variant : ℕ) : JirType → Option (List TypeId)
  | enum variants | nominalEnum _ variants => variants[variant]?
  | _ => none

def arrayElement : JirType → Option TypeId
  | array element _ => some element
  | _ => none

def vectorElement : JirType → Option TypeId
  | vector element _ => some element
  | _ => none

def pointee : JirType → Option TypeId
  | pointer pointee _ => some pointee
  | _ => none

/-- Address arithmetic makes a pointer, in the address space of its base pointer. -/
def fitsOffset (base : Option JirType) : JirType → Bool
  | pointer _ addressSpace =>
      match base with
      | some (pointer _ baseSpace) => baseSpace == addressSpace
      | _ => true
  | _ => false

def functionResult : JirType → Option TypeId
  | function _ result => some result
  | _ => none

end JirType

section Yields

variable (module : Module) (bound : Bindings)

/-- The kind of type a value was bound with. -/
def Bindings.kind (v : ValueId) : Option JirType := (bound v).bind module.typeKind

/-- What a function returns to its caller; a `Unit` function returns nothing. -/
def Module.returned (result : TypeId) : Option TypeId :=
  if module.typeKind result = some .unit then none else some result

namespace Instruction

/-- The declared type of the result, where the instruction makes such values. -/
def declared (instruction : Instruction) (fits : JirType → Bool) : Option TypeId :=
  (instruction.result.map TypedValue.ty).filter (module.isKind fits)

/-- The type of the value an instruction computes. -/
def yields (instruction : Instruction) : Option TypeId :=
  match instruction.kind with
  | .constant constant => instruction.declared module constant.fits
  | .builtin _ | .enumTag _ => instruction.declared module (· == .integer false 32)
  | .stringLiteral _ => instruction.declared module JirType.isStruct
  | .aggregate elements =>
      instruction.declared module fun ty =>
        ty.parts.map (List.map some) == some (elements.map bound)
  | .extractValue aggregate index => (bound aggregate).bind (module.aggregateElement · index)
  | .extractElement aggregate _ => (bound.kind module aggregate).bind JirType.arrayElement
  | .enumConstruct variant fields =>
      instruction.declared module fun ty =>
        (ty.variantFields variant).map (List.map some) == some (fields.map bound)
  | .enumExtract value variant field =>
      ((bound value).bind (module.enumVariant · variant)).bind fun fields => fields[field]?
  | .unary _ operand => bound operand
  | .binary _ left right | .vectorBinary _ left right => commonType (bound left) (bound right)
  | .compare _ _ _ => instruction.declared module (· == .bool)
  | .cast op value target => (bound value).bind fun source =>
      if module.castCompatible op source target then some target else none
  | .select _ whenTrue whenFalse => commonType (bound whenTrue) (bound whenFalse)
  | .stackAlloc ty _ => instruction.declared module (· == .pointer ty .stack)
  | .regionAlloc _ ty _ => instruction.declared module (· == .pointer ty .region)
  | .regionCreate => instruction.declared module (· == .regionHandle)
  | .ownership kind => kind.status.bind fun status => instruction.declared module (· == status)
  | .load pointer _ _ => (bound.kind module pointer).bind JirType.pointee
  | .offset base _ => instruction.declared module (JirType.fitsOffset (bound.kind module base))
  | .call function _ =>
      (module.functions[function]?).bind fun callee => module.returned callee.result
  | .functionAddress function =>
      (module.functions[function]?).bind fun target => instruction.declared module
        (· == .function (target.parameters.map TypedValue.ty) target.result)
  | .indirectCall callee _ =>
      ((bound.kind module callee).bind JirType.functionResult).bind module.returned
  | .vectorSplat value lanes =>
      (bound value).bind fun element => instruction.declared module (· == .vector element lanes)
  | .vectorExtract vector _ => (bound.kind module vector).bind JirType.vectorElement
  | .vectorInsert vector _ _ => bound vector
  | .regionDestroy _ | .drop _ | .store _ _ _ _ | .boundsCheck _ _ | .vectorBoundsCheck _ _ _
  | .assumeNoAlias _ _ => none

/-- The bindings after an instruction. -/
def bind (instruction : Instruction) : Bindings :=
  match instruction.result with
  | some result => Function.update bound result.value (instruction.yields module bound)
  | none => bound

end Instruction

end Yields

variable {module : Module} {bound : Bindings} {instruction : Instruction}

/-- The type computed depends on the types of the operands only. -/
theorem Instruction.yields_congr {bound' : Bindings}
    (h : ∀ v ∈ instruction.kind.operands, bound v = bound' v) :
    instruction.yields module bound = instruction.yields module bound' := by
  have hmap : ∀ l : List ValueId, l ⊆ instruction.kind.operands → l.map bound = l.map bound' :=
    fun l hl => List.map_congr_left fun v hv => h v (hl hv)
  unfold Instruction.yields
  cases hkind : instruction.kind with
  | aggregate elements | enumConstruct variant elements =>
      simp only [hmap elements (by simp [hkind, InstructionKind.operands])]
  | _ => simp_all [InstructionKind.operands, Bindings.kind]

variable {result : TypedValue}

theorem Instruction.bind_result (hresult : instruction.result = some result) :
    instruction.bind module bound result.value = instruction.yields module bound := by
  simp [bind, hresult]

/-- An instruction leaves other bindings alone. -/
theorem Instruction.bind_of_ne {v : ValueId}
    (h : ∀ result, instruction.result = some result → v ≠ result.value) :
    instruction.bind module bound v = bound v := by
  unfold bind
  cases hresult : instruction.result with
  | none => rfl
  | some result => exact Function.update_of_ne (h result hresult) _ _

theorem Module.isKind_eq_true {predicate : JirType → Bool} {ty : TypeId} :
    module.isKind predicate ty = true ↔
      ∃ kind, module.typeKind ty = some kind ∧ predicate kind = true := by
  unfold isKind
  rw [Option.any_eq_true]

theorem Instruction.declared_eq (hresult : instruction.result = some result)
    {fits : JirType → Bool} (hfits : module.isKind fits result.ty = true) :
    instruction.declared module fits = instruction.result.map TypedValue.ty := by
  simp [declared, hresult, Option.filter, hfits]

theorem Instruction.declared_kind {kind : JirType} (hresult : instruction.result = some result)
    (h : (module.typeKind result.ty == some kind) = true) :
    instruction.declared module (· == kind) = instruction.result.map TypedValue.ty :=
  declared_eq hresult (Module.isKind_eq_true.mpr ⟨kind, eq_of_beq h, beq_self_eq_true kind⟩)

theorem Module.enumVariant_eq (ty : TypeId) (variant : ℕ) :
    module.enumVariant ty variant = (module.typeKind ty).bind (JirType.variantFields variant) := by
  unfold enumVariant
  cases module.typeKind ty with
  | none => rfl
  | some kind => cases kind <;> rfl

namespace UseContext

variable {context : UseContext} {instruction : Instruction}

theorem typeOf_of_useValue {v : ValueId} {ty : TypeId} (h : context.useValue v (some ty) = []) :
    context.typeOf v = some ty := by
  obtain ⟨definition, hlookup, hty, _⟩ := useValue_eq_nil.mp h
  simp [typeOf, hlookup, hty ty rfl]

theorem map_typeOf_of_checkTypedValues {values : List ValueId} {expected : List TypeId}
    (h : context.checkTypedValues values expected = []) :
    values.map context.typeOf = expected.map some := by
  obtain ⟨hlen, hall⟩ := checkTypedValues_eq_nil.mp h
  apply List.ext_getElem
  · simpa using hlen
  · intro i hi hi'
    simp only [List.length_map] at hi hi'
    rw [List.getElem_map, List.getElem_map]
    apply typeOf_of_useValue
    exact hall (values[i], expected[i]) (List.mem_iff_getElem.mpr ⟨i, by simp [hi, hi'], by simp⟩)

theorem aggregateElements_eq (ty : TypeId) :
    context.aggregateElements ty = (context.module.typeKind ty).bind JirType.parts := by
  unfold aggregateElements
  cases context.module.typeKind ty with
  | none => rfl
  | some kind => cases kind <;> rfl

theorem pointeeOf_eq (v : ValueId) :
    context.pointeeOf v = (context.kindOf v).bind JirType.pointee := by
  unfold pointeeOf
  cases context.kindOf v with
  | none => rfl
  | some kind => cases kind <;> rfl

/-- Values checked against the parts of a type make a value of the type. -/
theorem declared_of_checkTypedValues {parts : JirType → Option (List TypeId)}
    {values : List ValueId} {expected : List TypeId} (hresult : instruction.result = some result)
    (hexpected : (context.module.typeKind result.ty).bind parts = some expected)
    (h : context.checkTypedValues values expected = []) :
    instruction.declared context.module (fun ty =>
        (parts ty).map (List.map some) == some (values.map context.typeOf)) =
      instruction.result.map TypedValue.ty := by
  obtain ⟨kind, hkind, hparts⟩ := Option.bind_eq_some_iff.mp hexpected
  apply Instruction.declared_eq hresult
  rw [Module.isKind_eq_true]
  exact ⟨kind, hkind, by simp [hparts, map_typeOf_of_checkTypedValues h]⟩

theorem returned_of_checkSignature {arguments : List ValueId} {parameters : List TypeId}
    {result : TypeId} {message : String}
    (h : context.checkSignature instruction arguments parameters result message = []) :
    context.module.returned result = instruction.result.map TypedValue.ty := by
  unfold checkSignature at h
  unfold Module.returned
  split_ifs at h ⊢ with hunit
  · simp only [List.append_eq_nil_iff, forbidResult_eq_nil] at h
    rw [h.2]
    rfl
  · simp only [List.append_eq_nil_iff, demand_eq_nil, decide_eq_true_eq] at h
    exact h.2.symm

theorem result_of_useDestroyed {value : ValueId} (h : context.useDestroyed instruction value = []) :
    instruction.result = none := by
  simp only [useDestroyed, List.append_eq_nil_iff, forbidResult_eq_nil] at h
  exact h.1

theorem declared_of_useResized {descriptor argument : ValueId} {status : Bool} {message : String}
    {others : List VerificationError}
    (h : context.useResized instruction descriptor argument status message others = []) :
    instruction.declared context.module (· == if status then .integer true 32 else .bool) =
      instruction.result.map TypedValue.ty := by
  simp only [useResized, requireResult_eq_nil, List.append_eq_nil_iff, demand_eq_nil] at h
  obtain ⟨result, hresult, ⟨_, hstatus⟩, _⟩ := h
  exact Instruction.declared_kind hresult hstatus

/-- An operation on owning values has no result, or the status it answers with. -/
theorem yields_of_verifyOwnership {kind : OwnershipKind}
    (h : context.verifyOwnership instruction kind = []) :
    (kind.status.bind fun status => instruction.declared context.module (· == status)) =
      instruction.result.map TypedValue.ty := by
  cases kind with
  | bufferResizeMoveOwnedString | bufferResizeMoveNestedOwnedString | bufferResizeMoveRecordFields
  | bufferRemoveDropOwnedString | bufferRemoveDropRecordFields
  | bufferRemoveDropNestedRecordFields | bufferRemoveDropNestedBuffer
  | bufferRemoveDropNestedOwnedString => exact declared_of_useResized h
  | ownedStringDrop =>
      rw [result_of_useDestroyed h]
      rfl
  | _ =>
      simp only [verifyOwnership, checkEnumCarrierDrop, checkEnumFieldsDrop, checkRecordFieldsDrop,
        checkCarrierDrop, List.append_eq_nil_iff, and_assoc] at h
      rw [result_of_useDestroyed h.1]
      rfl

/-- An offset is a pointer, in the address space of its base. -/
theorem isKind_fitsOffset {ty : TypeId} {base : ValueId}
    (h : (match context.module.typeKind ty, context.kindOf base with
      | some (.pointer _ resultSpace), some (.pointer _ baseSpace) =>
          context.demand instruction (decide (baseSpace = resultSpace))
            "offset changes pointer address space"
      | some (.pointer _ _), _ => []
      | _, _ => [context.instructionError instruction "offset result is not a pointer"]) = []) :
    context.module.isKind (JirType.fitsOffset (context.kindOf base)) ty = true := by
  rw [Module.isKind_eq_true]
  split at h
  next hty hbase =>
    refine ⟨_, hty, ?_⟩
    rw [hbase]
    simpa [JirType.fitsOffset] using h
  next hty hother =>
    refine ⟨_, hty, ?_⟩
    show (match context.kindOf base with | some (.pointer _ baseSpace) => _ | _ => true) = true
    split
    next hbase => exact absurd hbase (hother _ _)
    next => rfl
  next => cases h

theorem returned_of_verifyIndirectCall {callee : ValueId} {arguments : List ValueId}
    (h : context.verifyIndirectCall instruction callee arguments = []) :
    ((context.kindOf callee).bind JirType.functionResult).bind context.module.returned =
      instruction.result.map TypedValue.ty := by
  simp only [verifyIndirectCall, List.append_eq_nil_iff] at h
  obtain ⟨huse, hcheck⟩ := h
  obtain ⟨definition, hlookup, _⟩ := useValue_eq_nil.mp huse
  have hty : context.typeOf callee = some definition.ty := by simp [typeOf, hlookup]
  unfold kindOf
  simp only [hty, Option.bind_some] at hcheck ⊢
  split at hcheck
  next hfunction =>
    rw [hfunction]
    exact returned_of_checkSignature hcheck
  next => cases hcheck

/-- **An accepted instruction computes a value of the type its result declares**,
when its operands have the types they are declared with. -/
theorem yields_of_verify
    (h : context.verifyInstruction instruction = []) :
    instruction.yields context.module context.typeOf = instruction.result.map TypedValue.ty := by
  unfold verifyInstruction at h
  unfold Instruction.yields
  cases hkind : instruction.kind with
  -- a value of the instruction's own: the check compares the declared type
  | constant constant =>
      simp only [hkind, requireResult_eq_nil, demand_eq_nil] at h ⊢
      obtain ⟨result, hresult, hfits⟩ := h
      apply Instruction.declared_eq hresult
      cases constant <;> exact hfits
  | builtin | stringLiteral | regionCreate =>
      simp only [hkind, requireResult_eq_nil, demand_eq_nil] at h ⊢
      obtain ⟨result, hresult, hfits⟩ := h
      exact Instruction.declared_eq hresult hfits
  | enumTag =>
      simp only [hkind, requireResult_eq_nil, demand_eq_nil, List.append_eq_nil_iff,
        Bool.and_eq_true] at h ⊢
      obtain ⟨result, hresult, _, _, hfits⟩ := h
      exact Instruction.declared_eq hresult hfits
  | compare =>
      simp only [hkind, requireResult_eq_nil, demand_eq_nil, List.append_eq_nil_iff] at h ⊢
      obtain ⟨result, hresult, _, hfits⟩ := h
      exact Instruction.declared_eq hresult hfits
  | aggregate =>
      simp only [hkind, requireResult_eq_nil, aggregateElements_eq] at h ⊢
      obtain ⟨result, hresult, hfits⟩ := h
      split at hfits
      next => cases hfits
      next hexpected => exact declared_of_checkTypedValues hresult hexpected hfits
  | enumConstruct =>
      simp only [hkind, requireResult_eq_nil, Module.enumVariant_eq] at h ⊢
      obtain ⟨result, hresult, hfits⟩ := h
      split at hfits
      next => cases hfits
      next hexpected => exact declared_of_checkTypedValues hresult hexpected hfits
  -- an address: the kind of the declared type is determined
  | stackAlloc =>
      simp only [hkind, requireResult_eq_nil, demand_eq_nil, List.append_eq_nil_iff] at h ⊢
      obtain ⟨result, hresult, hfits, _⟩ := h
      exact Instruction.declared_kind hresult hfits
  | regionAlloc =>
      simp only [hkind, requireResult_eq_nil, demand_eq_nil, List.append_eq_nil_iff] at h ⊢
      obtain ⟨result, hresult, _, hfits⟩ := h
      exact Instruction.declared_kind hresult hfits
  | offset =>
      simp only [hkind, requireResult_eq_nil, List.append_eq_nil_iff] at h ⊢
      obtain ⟨result, hresult, _, hty⟩ := h
      exact Instruction.declared_eq hresult (isKind_fitsOffset hty)
  | functionAddress =>
      simp only [hkind, requireResult_eq_nil] at h ⊢
      obtain ⟨result, hresult, hfits⟩ := h
      split at hfits
      next => cases hfits
      next htarget =>
        rw [htarget]
        exact Instruction.declared_kind hresult (demand_eq_nil.mp hfits)
  | vectorSplat =>
      simp only [hkind, requireResult_eq_nil] at h ⊢
      obtain ⟨result, hresult, hcheck⟩ := h
      split at hcheck
      next hvector =>
        split_ifs at hcheck with hlanes
        · rw [typeOf_of_useValue hcheck, ← hlanes]
          exact Instruction.declared_kind hresult (beq_iff_eq.mpr hvector)
        · simp at hcheck
      next => simp at hcheck
  -- an operand has the type of the result
  | unary =>
      simp only [hkind, requireResult_eq_nil, List.append_eq_nil_iff] at h ⊢
      obtain ⟨result, hresult, huse, _⟩ := h
      rw [typeOf_of_useValue huse, hresult]
      rfl
  | binary op left right | vectorBinary op left right =>
      simp only [hkind, requireResult_eq_nil, List.append_eq_nil_iff] at h ⊢
      obtain ⟨result, hresult, ⟨hleft, hright⟩, _⟩ := h
      rw [typeOf_of_useValue hleft, typeOf_of_useValue hright, hresult]
      simp [commonType]
  | select =>
      simp only [hkind, requireResult_eq_nil, List.append_eq_nil_iff] at h ⊢
      obtain ⟨result, hresult, ⟨_, hleft⟩, hright⟩ := h
      rw [typeOf_of_useValue hleft, typeOf_of_useValue hright, hresult]
      simp [commonType]
  | vectorInsert =>
      simp only [hkind, requireResult_eq_nil, List.append_eq_nil_iff] at h ⊢
      obtain ⟨result, hresult, ⟨hvector, _⟩, _⟩ := h
      rw [typeOf_of_useValue hvector, hresult]
      rfl
  -- a part of an operand, or what it points to, has it
  | extractValue | enumExtract =>
      simp only [hkind, requireResult_eq_nil, demand_eq_nil, List.append_eq_nil_iff,
        decide_eq_true_eq] at h ⊢
      obtain ⟨result, hresult, _, hty⟩ := h
      rw [hty, hresult]
      rfl
  | extractElement aggregate =>
      simp only [hkind, requireResult_eq_nil, demand_eq_nil, List.append_eq_nil_iff] at h ⊢
      obtain ⟨result, hresult, _, hty⟩ := h
      change (context.kindOf aggregate).bind _ = _
      split at hty
      next heq => simp [heq, JirType.arrayElement, hresult, of_decide_eq_true hty]
      next => cases hty
  | vectorExtract vector =>
      simp only [hkind, requireResult_eq_nil, demand_eq_nil, List.append_eq_nil_iff] at h ⊢
      obtain ⟨result, hresult, _, hty⟩ := h
      change (context.kindOf vector).bind _ = _
      split at hty
      next hvector => simp [hvector, JirType.vectorElement, hresult, of_decide_eq_true hty]
      next => cases hty
  | load pointer =>
      simp only [hkind, requireResult_eq_nil, demand_eq_nil, List.append_eq_nil_iff,
        decide_eq_true_eq, pointeeOf_eq] at h ⊢
      obtain ⟨result, hresult, ⟨_, hty⟩, _⟩ := h
      rw [hresult]
      exact hty
  | cast =>
      simp only [hkind, requireResult_eq_nil, demand_eq_nil, List.append_eq_nil_iff,
        Bool.and_eq_true, decide_eq_true_eq, Option.any_eq_true] at h ⊢
      obtain ⟨result, hresult, _, ⟨rfl, _⟩, source, hsource, hcast⟩ := h
      simp [hsource, hcast, hresult]
  -- what is called returns it
  | call =>
      simp only [hkind, verifyCall] at h ⊢
      split at h
      next => cases h
      next hcallee =>
        rw [hcallee]
        exact returned_of_checkSignature h
  | indirectCall =>
      simp only [hkind] at h ⊢
      exact returned_of_verifyIndirectCall h
  -- the other instructions have no result, or a status
  | ownership =>
      simp only [hkind] at h ⊢
      exact yields_of_verifyOwnership h
  | regionDestroy | drop =>
      simp only [hkind, useDestroyed, List.append_eq_nil_iff, forbidResult_eq_nil] at h ⊢
      rw [h.1]
      rfl
  | store | vectorBoundsCheck | assumeNoAlias =>
      simp only [hkind, checkBounds, List.append_eq_nil_iff, forbidResult_eq_nil] at h ⊢
      rw [h.1.1.1.1]
      rfl
  | boundsCheck =>
      simp only [hkind, checkBounds, List.append_eq_nil_iff, forbidResult_eq_nil] at h ⊢
      rw [h.1.1.1]
      rfl

end UseContext

/-! ## Paths -/

/-- The edges out of a block, with the arguments they pass. -/
def Terminator.edges : Terminator → List (BlockId × List ValueId)
  | ret _ | unreachable => []
  | jump target arguments => [(target, arguments)]
  | branch _ thenTarget thenArguments elseTarget elseArguments =>
      [(thenTarget, thenArguments), (elseTarget, elseArguments)]
  | switch _ cases default defaultArguments =>
      cases.map (fun case => (case.target, case.arguments)) ++ [(default, defaultArguments)]

namespace Bindings

/-- Binds block parameters to what an edge passes. -/
def enter (bound : Bindings) : List TypedValue → List (Option TypeId) → Bindings
  | parameter :: parameters, ty :: types =>
      enter (Function.update bound parameter.value ty) parameters types
  | _, _ => bound

end Bindings

namespace Function

/-- The bindings a function starts with: its parameters. -/
def entryBindings (f : Function) : Bindings := fun v =>
  (f.parameters.find? fun parameter => parameter.value == v).map TypedValue.ty

/-- The value is read by the instruction at a place or, at the end of a block, by
its terminator: an operand or an argument of an edge. -/
def ReadsAt (f : Function) (b i : ℕ) (v : ValueId) : Prop :=
  (∃ instruction, f.instructionAt b i = some instruction ∧ v ∈ instruction.kind.operands) ∨
    ∃ block, f.blocks[b]? = some block ∧ i = block.instructions.length ∧
      v ∈ block.terminator.operands

/-- A parameter of the entry block. -/
def EntryParameter (f : Function) (v : ValueId) : Prop :=
  ∃ entry, f.blocks[0]? = some entry ∧ v ∈ entry.parameters.map TypedValue.value

end Function

/-- The paths through a function: the place reached and the bindings there. -/
inductive BindingPath (module : Module) (f : Function) : ℕ → ℕ → Bindings → Prop
  | entry : BindingPath module f 0 0 f.entryBindings
  | step {b i : ℕ} {bound : Bindings} {instruction : Instruction}
      (path : BindingPath module f b i bound) (hat : f.instructionAt b i = some instruction) :
      BindingPath module f b (i + 1) (instruction.bind module bound)
  | edge {b t : ℕ} {bound : Bindings} {block target : Block} {arguments : List ValueId}
      (path : BindingPath module f b block.instructions.length bound)
      (hblock : f.blocks[b]? = some block) (hedge : (t, arguments) ∈ block.terminator.edges)
      (htarget : f.blocks[t]? = some target) :
      BindingPath module f t 0 (bound.enter target.parameters (arguments.map bound))

/-- On every path, what is read is bound, and to a value of its declared type. -/
def ReadsBound (module : Module) (f : Function) : Prop :=
  ∀ b i bound, BindingPath module f b i bound → ∀ v, f.ReadsAt b i v →
    ∃ ty, bound v = some ty ∧ f.typeOf v = some ty

end Jadren.Jir
