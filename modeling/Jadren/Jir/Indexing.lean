import Jadren.Jir.IndexArithmetic
import Jadren.Jir.IndexLowering

/-!
# Bounds checks of index projections

An index projection is right when its code panics exactly on the indices outside the
aggregate and otherwise computes the address of the element, modulo the address space
(`IndexSite.Correct`).

The code of an inline array compares the index with the length at the width of the
index's type, and an `Offset` reads the index as a signed number.  So a length that does
not fit, or an unsigned index in the upper half of its type, is not indexed right; the
other aggregates bring the index to the width of a pointer first
(`IndexSite.correct_iff`).
-/

namespace Jadren.Jir

open Jadren.Types (IntegerWidth Signedness TypeKind TypeStore)
open Instruction InstructionKind List FunctionLowerer

/-! ## Straight-line code -/

/-- How a list of instructions ends. -/
inductive Outcome (M : Machine)
  | stuck
  | panics
  | continues (s : State M)

section

variable (M : Machine) (module : Module) (f : Function)

/-- Executes instructions one after the other. -/
def runAll : List Instruction → State M → Outcome M
  | [], s => .continues s
  | instruction :: rest, s =>
      match instruction.request M module f s with
      | some (.check false, _) => .panics
      | _ =>
          match instruction.perform M module f s with
          | some outcome => runAll rest outcome.2
          | none => .stuck

variable {M module f}

variable {instruction : Instruction} {rest : List Instruction} {s : State M}
  {values : List RuntimeValue} {result : TypedValue}

theorem runAll_compute {value : RuntimeValue}
    (hrequest : instruction.request M module f s = some (.compute value, values))
    (hresult : instruction.result = some result) :
    runAll M module f (instruction :: rest) s =
      runAll M module f rest (s.define result.value value) := by
  simp [runAll, perform, hrequest, hresult]

theorem runAll_read {address : Address} {ty : TypeId}
    (hrequest : instruction.request M module f s = some (.read address ty, values))
    (hresult : instruction.result = some result) :
    runAll M module f (instruction :: rest) s =
      runAll M module f rest (s.define result.value (s.read address ty)) := by
  simp [runAll, perform, hrequest, hresult]

theorem runAll_check {passes : Bool}
    (hrequest : instruction.request M module f s = some (.check passes, values)) :
    runAll M module f (instruction :: rest) s =
      if passes then runAll M module f rest s else .panics := by
  cases passes <;> simp [runAll, perform, hrequest]

end

/-! ## What the emitted instructions ask for -/

section

variable {M : Machine} {module : Module} {f : Function} {s : State M}
  {result : Option TypedValue} {ty : TypeId} {span : Option Span}

variable {v : ValueId}

theorem request_constant {signed : Bool} {bits : ℕ} {value : ℤ}
    (hkind : module.typeKind ty = some (.integer signed bits)) :
    request M module f s ⟨some ⟨v, ty⟩, .constant (.integer value), span⟩ =
      some (.compute (.integer bits (encode bits value)), []) := by
  simp [request, State.values, operands, operation,
    computed, constantValue, hkind]

variable {index : ValueId} {pattern : ℕ}

theorem request_boundsCheck {length : ValueId} {bits bits' n : ℕ}
    (hindex : s.env index = some (.integer bits pattern))
    (hlength : s.env length = some (.integer bits' n)) :
    request M module f s ⟨result, .boundsCheck index length, span⟩ =
      some (.check (decide (pattern < n)), [.integer bits pattern, .integer bits' n]) := by
  simp [request, State.values, operands, operation,
    onTwo, boundsPass, hindex, hlength]

theorem request_load {pointer : ValueId} {alignment : ℕ} {isVolatile : Bool} {address : Address}
    (hpointer : s.env pointer = some (.pointer (some address))) :
    request M module f s ⟨some ⟨v, ty⟩, .load pointer alignment isVolatile, span⟩ =
      some (.read address ty, [.pointer (some address)]) := by
  simp [request, State.values, operands, operation,
    onOne, RuntimeValue.asAddress, hpointer]

theorem request_extractValue {whole : ValueId} {index : ℕ} {elements : List RuntimeValue}
    {value : RuntimeValue} (hwhole : s.env whole = some (.aggregate elements))
    (hvalue : elements[index]? = some value) :
    request M module f s ⟨some ⟨v, ty⟩, .extractValue whole index, span⟩ =
      some (.compute value, [.aggregate elements]) := by
  simp [request, State.values, operands, operation,
    computed, onOne, RuntimeValue.asAggregate, hwhole, hvalue]

variable {target : TypeId}

theorem request_pointerCast {pointer : ValueId} {pointee : TypeId} {space : AddressSpace}
    {address : Option Address} (hpointer : s.env pointer = some (.pointer address))
    (htarget : module.typeKind target = some (.pointer pointee space)) :
    request M module f s ⟨some ⟨v, ty⟩, .cast .pointerCast pointer target, span⟩ =
      some (.compute (.pointer address), [.pointer address]) := by
  simp [request, State.values, operands, operation,
    computed, onOne, castValue, hpointer, htarget]

variable {targetSigned : Bool}

theorem request_integerExtend {indexType : TypeId} {signed : Bool} {bits targetBits : ℕ}
    (hindex : s.env index = some (.integer bits pattern))
    (htype : f.typeOf index = some indexType)
    (hkind : module.typeKind indexType = some (.integer signed bits))
    (htarget : module.typeKind target = some (.integer targetSigned targetBits)) :
    request M module f s ⟨some ⟨v, ty⟩, .cast .integerExtend index target, span⟩ =
      some (.compute (.integer targetBits
        (if signed then encode targetBits (signedValue bits pattern) else pattern)),
        [.integer bits pattern]) := by
  simp [request, State.values, operands, operation,
    computed, onOne, castValue, hindex, htarget, Function.operandTypes, htype,
    Module.isSigned, hkind]

theorem request_bitcast {bits targetBits : ℕ}
    (hindex : s.env index = some (.integer bits pattern))
    (htarget : module.typeKind target = some (.integer targetSigned targetBits)) :
    request M module f s ⟨some ⟨v, ty⟩, .cast .bitcast index target, span⟩ =
      some (.compute (.integer targetBits pattern), [.integer bits pattern]) := by
  simp [request, State.values, operands, operation,
    computed, onOne, castValue, scalarPattern, hindex, htarget]

theorem request_offset {base : ValueId} {baseType pointee resultPointee : TypeId}
    {address : Address} {bits : ℕ} {distance : ℤ}
    (hbase : s.env base = some (.pointer (some address)))
    (hindex : s.env index = some (.integer bits pattern)) (htype : f.typeOf base = some baseType)
    (hpointee : module.pointee baseType = some pointee)
    (hresult : module.pointee ty = some resultPointee)
    (hdistance : offsetDistance M module pointee resultPointee [(bits, pattern)] = some distance) :
    request M module f s ⟨some ⟨v, ty⟩, .offset base [index], span⟩ =
      some (.compute (.pointer (some ⟨address.object, address.offset + distance⟩)),
        [.pointer (some address), .integer bits pattern]) := by
  simp [request, State.values, operands, operation,
    computed, hbase, hindex, Function.operandTypes, htype, offsetValue, hpointee,
    hresult, asInteger, hdistance]

end

/-! ## How far an offset moves -/

theorem pointee_of_typeKind {module : Module} {ty pointee : TypeId} {space : AddressSpace}
    (h : module.typeKind ty = some (.pointer pointee space)) :
    module.pointee ty = some pointee := by
  rw [Module.pointee, h]

section

variable {M : Machine} {module : Module} {bits pattern : ℕ}

theorem offsetDistance_element {ty element : TypeId} {length : ℕ} (hne : element ≠ ty)
    (hkind : module.typeKind ty = some (.array element length)) :
    offsetDistance M module ty element [(bits, pattern)] =
      some (signedValue bits pattern * M.size element) := by
  simp [offsetDistance, hkind, hne, elementOffset, stepInto]

theorem offsetDistance_self {ty : TypeId} {kind : JirType} (hkind : module.typeKind ty = some kind)
    (hfields : ∀ fields, (kind = .struct fields ∨
      ∃ identity, kind = .nominalStruct identity fields) →
      ty ∉ fields) :
    offsetDistance M module ty ty [(bits, pattern)] =
      some (signedValue bits pattern * M.size ty) := by
  have hne : ∀ fields, (kind = .struct fields ∨ ∃ identity, kind = .nominalStruct identity fields) →
      fields[pattern]? ≠ some ty := fun fields h hget => hfields fields h (mem_of_getElem? hget)
  cases kind with
  | struct fields => simp [offsetDistance, hkind, hne fields (.inl rfl), elementOffset, stepInto]
  | nominalStruct identity fields =>
      simp [offsetDistance, hkind, hne fields (.inr ⟨identity, rfl⟩), elementOffset, stepInto]
  | _ => simp [offsetDistance, hkind, elementOffset, stepInto]

end

/-! ## Running emitted code -/

/-- A function that declares the results of instructions at the types they are emitted with. -/
def Function.Declares (f : Function) (instructions : List Instruction) : Prop :=
  ∀ instruction ∈ instructions, ∀ result, instruction.result = some result →
    f.typeOf result.value = some result.ty

theorem getElem?_of_isPrefix {α : Type} {xs ys : List α} {i : ℕ} {a : α} (h : xs <+: ys)
    (ha : xs[i]? = some a) : ys[i]? = some a := by
  obtain ⟨rest, rfl⟩ := h
  rw [getElem?_append_left (List.getElem?_eq_some_iff.mp ha).1, ha]

section

variable {M : Machine} {module : Module} {f : Function}

theorem runAll_append (first second : List Instruction) (s : State M) :
    runAll M module f (first ++ second) s =
      match runAll M module f first s with
      | .continues s' => runAll M module f second s'
      | outcome => outcome := by
  induction first generalizing s with
  | nil => rfl
  | cons instruction rest ih =>
      simp only [cons_append, runAll]
      split
      · rfl
      · split
        · exact ih _
        · rfl

/-- The code emitted between two states of the lowering takes one state of the program to
another, in which older values are as they were. -/
structure Emits (M : Machine) (module : Module) (f : Function) (l l' : FunctionLowerer)
    (s s' : State M) : Prop where
  nextValue_le : l.nextValue ≤ l'.nextValue
  runs : ∃ code, l'.instructions = l.instructions ++ code ∧
    runAll M module f code s = .continues s'
  env_eq : ∀ v < l.nextValue, s'.env v = s.env v

namespace Emits

variable {l l' l'' : FunctionLowerer} {s s' s'' : State M}

theorem refl : Emits M module f l l s s :=
  ⟨le_rfl, ⟨[], (append_nil _).symm, rfl⟩, fun _ _ => rfl⟩

theorem trans (h : Emits M module f l l' s s') (h' : Emits M module f l' l'' s' s'') :
    Emits M module f l l'' s s'' := by
  obtain ⟨code, hcode, hrun⟩ := h.runs
  obtain ⟨code', hcode', hrun'⟩ := h'.runs
  refine ⟨h.nextValue_le.trans h'.nextValue_le, ⟨code ++ code', ?_, ?_⟩, fun v hv => ?_⟩
  · rw [hcode', hcode, append_assoc]
  · rw [runAll_append, hrun]
    exact hrun'
  · rw [h'.env_eq v (hv.trans_le h.nextValue_le), h.env_eq v hv]

theorem withTypes (h : Emits M module f l l' s s') (table : TypeTable) :
    Emits M module f l (l'.withTypes table) s s' := ⟨h.nextValue_le, h.runs, h.env_eq⟩

theorem compute {ty : TypeId} {kind : InstructionKind} {span : Option Span} {value : RuntimeValue}
    {values : List RuntimeValue}
    (hrequest : request M module f s ⟨some ⟨l.nextValue, ty⟩, kind, span⟩ =
      some (.compute value, values)) :
    Emits M module f l (l.emit ty kind span).2 s (s.define l.nextValue value) := by
  refine ⟨Nat.le_succ _, ⟨_, rfl, ?_⟩, fun v hv => ?_⟩
  · rw [runAll_compute hrequest rfl, runAll]
  · exact Function.update_of_ne hv.ne _ _

theorem read {ty : TypeId} {kind : InstructionKind} {span : Option Span} {address : Address}
    {values : List RuntimeValue}
    (hrequest : request M module f s ⟨some ⟨l.nextValue, ty⟩, kind, span⟩ =
      some (.read address ty, values)) :
    Emits M module f l (l.emit ty kind span).2 s (s.define l.nextValue (s.read address ty)) := by
  refine ⟨Nat.le_succ _, ⟨_, rfl, ?_⟩, fun v hv => ?_⟩
  · rw [runAll_read hrequest rfl, runAll]
  · exact Function.update_of_ne hv.ne _ _

end Emits

end

/-! ## An index projection in a program -/

/-- What a projection indexes: the elements of an array from its address, or those a
descriptor says there are. -/
inductive Indexed
  | array (length : ℕ) (base : Address)
  | view (length : ℕ) (data : Address)

namespace Indexed

def length : Indexed → ℕ
  | array length _ | view length _ => length

/-- The address of the first element. -/
def first : Indexed → Address
  | array _ base => base
  | view _ data => data

end Indexed

section

variable {M : Machine} (l : FunctionLowerer) (cursor : PlaceCursor) (place : PlaceLocal)
  (span : Option Span) (module : Module) (f : Function) (s : State M)

/-- A value the lowering has produced that holds a pointer. -/
def PointsAt (v : ValueId) (address : Address) : Prop :=
  v < l.nextValue ∧ s.env v = some (.pointer (some address))

/-- The descriptor of a view, where the lowering finds it. -/
def HasDescriptor (descriptor : RuntimeValue) : Prop :=
  match cursor.capabilityView with
  | some view => view < l.nextValue ∧ s.env view = some descriptor
  | none => ∃ address, PointsAt l s cursor.address address ∧
      ∀ ty, viewType l cursor place span = .ok ty → s.read address ty = descriptor

/-- What a place holds when its index is applied. -/
def Holds : Indexed → Prop
  | .array length base =>
      ∃ element arrayType addressType,
        l.typeTable.semantic.kind cursor.currentType = some (.array element length) ∧
        l.typeTable.lowered cursor.currentType = some arrayType ∧
        f.typeOf cursor.address = some addressType ∧ module.pointee addressType = some arrayType ∧
        PointsAt l s cursor.address base
  | .view length data =>
      ∃ element rest,
        (l.typeTable.semantic.kind cursor.currentType = some (.buffer element) ∨
          l.typeTable.semantic.kind cursor.currentType = some (.slice element)) ∧
        HasDescriptor l cursor place span s (.aggregate (.pointer (some data) ::
          .integer l.typeTable.pointerBits length :: rest))

end

/-- An index projection that was lowered, and the states in which its code is reached. -/
structure IndexSite (M : Machine) where
  lowerer : FunctionLowerer
  cursor : PlaceCursor
  place : PlaceLocal
  operand : IndexOperand
  index : ValueId
  span : Option Span
  projected : PlaceCursor
  after : FunctionLowerer
  lowers : lowerIndexProjection lowerer cursor place operand index span = (some projected, after)
  wellFormed : lowerer.typeTable.WellFormed
  pointerBits_pos : 0 < lowerer.typeTable.pointerBits
  signedness : Signedness
  width : IntegerWidth
  operand_kind : lowerer.typeTable.semantic.kind operand.ty = some (.integer signedness width)
  width_le : integerBits width lowerer.typeTable.pointerBits ≤ lowerer.typeTable.pointerBits
  module : Module
  function : Function
  types : after.typeTable.types <+: module.types
  declares : function.Declares after.instructions
  indexType : TypeId
  operand_lowered : lowerer.typeTable.lowered operand.ty = some indexType
  index_type : function.typeOf index = some indexType
  index_lt : index < lowerer.nextValue
  /-- The state, once the index has a value. -/
  state : ℕ → State M
  index_env : ∀ pattern, (state pattern).env index =
    some (.integer (integerBits width lowerer.typeTable.pointerBits) pattern)
  indexed : Indexed
  holds : ∀ pattern, Holds lowerer cursor place span module function (state pattern) indexed

namespace IndexSite

variable {M : Machine} (site : IndexSite M)

def pointerBits : ℕ := site.lowerer.typeTable.pointerBits

def bits : ℕ := integerBits site.width site.pointerBits

def signed : Bool := site.signedness == .signed

/-- The code emitted for the projection. -/
def code : List Instruction :=
  site.after.instructions.drop site.lowerer.instructions.length

/-- The distance between two elements. -/
def stride : ℕ := ((site.lowerer.typeTable.lowered site.projected.currentType).map M.size).getD 0

end IndexSite

/-! ## What the code does -/

/-- Code that panics unless a check passes, and then has computed an address. -/
def Computes (M : Machine) (module : Module) (f : Function) (code : List Instruction) (s : State M)
    (passes : Prop) (v : ValueId) (address : Address) : Prop :=
  (passes → ∃ s', runAll M module f code s = .continues s' ∧
    s'.env v = some (.pointer (some address))) ∧
  (¬ passes → runAll M module f code s = .panics)

section

variable {M : Machine} {module : Module} {f : Function} {l l' l'' : FunctionLowerer}
  {s s' : State M} {cursor projected : PlaceCursor} {place : PlaceLocal} {operand : IndexOperand}
  {index : ValueId} {span : Option Span} {after : FunctionLowerer}

/-- A check and the address that is computed when it passes. -/
theorem computes_checked {dataType : TypeId} {data length : ValueId} {bits bits' pattern n : ℕ}
    {target : Address} {values : List RuntimeValue} (hemits : Emits M module f l l' s s')
    (hindex : s'.env index = some (.integer bits pattern))
    (hlength : s'.env length = some (.integer bits' n))
    (hoffset : request M module f s'
      ⟨some ⟨l'.nextValue, dataType⟩, .offset data [index], span⟩ =
        some (.compute (.pointer (some target)), values))
    (hafter : after.instructions = l'.instructions ++
      [⟨none, .boundsCheck index length, span⟩,
        ⟨some ⟨l'.nextValue, dataType⟩, .offset data [index], span⟩]) :
    Computes M module f (after.instructions.drop l.instructions.length) s (pattern < n)
      l'.nextValue target := by
  obtain ⟨code, hcode, hrun⟩ := hemits.runs
  rw [hafter, hcode, append_assoc, drop_left]
  have hcheck : request M module f s' ⟨none, .boundsCheck index length, span⟩ =
      some (.check (decide (pattern < n)), [.integer bits pattern, .integer bits' n]) :=
    request_boundsCheck hindex hlength
  have hrest : runAll M module f
      (code ++ [⟨none, .boundsCheck index length, span⟩,
        ⟨some ⟨l'.nextValue, dataType⟩, .offset data [index], span⟩]) s =
      if pattern < n then .continues (s'.define l'.nextValue (.pointer (some target)))
      else .panics := by
    rw [runAll_append, hrun]
    show runAll M module f _ s' = _
    rw [runAll_check hcheck]
    simp only [decide_eq_true_eq]
    rw [runAll_compute hoffset rfl, runAll]
  rw [Computes, hrest]
  exact ⟨fun hpasses => ⟨_, if_pos hpasses, Function.update_self ..⟩, fun hfails => if_neg hfails⟩

/-- The index of a descriptor, at the width of a pointer. -/
theorem emits_lowerIndexToSize {signedness : Signedness} {width : IntegerWidth} {sizeType : TypeId}
    {operandSpan : Span} {sized : ValueId} {pattern : ℕ}
    (hlower : lowerIndexToSize l index operand.ty sizeType operandSpan = (some sized, after))
    (hoperand : l.typeTable.semantic.kind operand.ty = some (.integer signedness width))
    (htype : ∃ indexType, f.typeOf index = some indexType ∧ module.typeKind indexType =
      some (.integer (signedness == .signed) (integerBits width l.typeTable.pointerBits)))
    (hsize : module.typeKind sizeType = some (.integer false l.typeTable.pointerBits))
    (hindex : s.env index = some (.integer (integerBits width l.typeTable.pointerBits) pattern)) :
    ∃ s', Emits M module f l after s s' ∧
      s'.env sized = some (.integer l.typeTable.pointerBits
        (sizePattern (signedness == .signed) (integerBits width l.typeTable.pointerBits)
          l.typeTable.pointerBits pattern)) := by
  obtain ⟨indexType, htype, hkind⟩ := htype
  rw [lowerIndexToSize, hoperand] at hlower
  dsimp only at hlower
  generalize l.typeTable.pointerBits = pointerBits at *
  generalize integerBits width pointerBits = bits at *
  split at hlower
  next hsame =>
    -- the index has the type of a size: nothing is emitted
    obtain ⟨hsized, rfl⟩ := Prod.mk.inj hlower
    obtain rfl := Option.some.inj hsized
    obtain ⟨rfl, -⟩ := hsame
    refine ⟨s, Emits.refl, ?_⟩
    rw [hindex, sizePattern, if_neg (fun h => lt_irrefl _ h.1)]
  next hdiffers =>
    split at hlower
    next => cases hlower
    next hle =>
      obtain ⟨hsized, rfl⟩ := Prod.mk.inj hlower
      obtain rfl := Option.some.inj hsized
      -- narrower indexes are extended, the others are taken bit by bit
      rcases Nat.lt_or_ge bits pointerBits with hlt | hge
      · rw [if_pos hlt]
        refine ⟨_, Emits.compute (request_integerExtend hindex htype hkind hsize), ?_⟩
        simp [sizePattern, hlt, State.define, emit]
      · rw [if_neg (Nat.not_lt.mpr hge)]
        refine ⟨_, Emits.compute (request_bitcast hindex hsize), ?_⟩
        rw [sizePattern, if_neg (fun h => Nat.not_lt.mpr hge h.1)]
        exact Function.update_self ..

theorem emits_viewValue {aggregateType : TypeId} {descriptor : RuntimeValue}
    (htype : viewType l cursor place span = .ok aggregateType)
    (hdescriptor : HasDescriptor l cursor place span s descriptor) :
    ∃ s', Emits M module f l (viewValue l cursor aggregateType span).2 s s' ∧
      (viewValue l cursor aggregateType span).1 <
        (viewValue l cursor aggregateType span).2.nextValue ∧
      s'.env (viewValue l cursor aggregateType span).1 = some descriptor := by
  unfold HasDescriptor at hdescriptor
  unfold viewValue
  cases hview : cursor.capabilityView with
  | some =>
    rw [hview] at hdescriptor
    exact ⟨s, Emits.refl, hdescriptor⟩
  | none =>
    rw [hview] at hdescriptor
    obtain ⟨address, ⟨-, haddress⟩, hread⟩ := hdescriptor
    refine ⟨_, Emits.read (request_load haddress), Nat.lt_succ_self _, ?_⟩
    rw [hread aggregateType htype]
    exact Function.update_self ..

/-- A field of a descriptor. -/
theorem emits_extractValue {whole : ValueId} {i : ℕ} {ty : TypeId} {elements : List RuntimeValue}
    {value : RuntimeValue} (hwhole : s.env whole = some (.aggregate elements))
    (hvalue : elements[i]? = some value) :
    ∃ s', Emits M module f l (l.emit ty (.extractValue whole i) span).2 s s' ∧
      s'.env (l.emit ty (.extractValue whole i) span).1 = some value :=
  ⟨_, Emits.compute (request_extractValue hwhole hvalue), Function.update_self ..⟩

theorem emits_viewData {aggregate : ValueId} {rawType dataType pointee : TypeId}
    {space : AddressSpace} {address : Address} {rest : List RuntimeValue}
    (haggregate : s.env aggregate = some (.aggregate (.pointer (some address) :: rest)))
    (hdata : module.typeKind dataType = some (.pointer pointee space))
    (hdeclares : f.Declares (viewData l aggregate rawType dataType span).2.instructions) :
    f.typeOf (viewData l aggregate rawType dataType span).1 = some dataType ∧
      (viewData l aggregate rawType dataType span).1 <
        (viewData l aggregate rawType dataType span).2.nextValue ∧
      ∃ s', Emits M module f l (viewData l aggregate rawType dataType span).2 s s' ∧
        s'.env (viewData l aggregate rawType dataType span).1 = some (.pointer (some address)) := by
  have hraw : Emits M module f l (l.emit rawType (.extractValue aggregate 0) span).2 s
      (s.define l.nextValue (.pointer (some address))) :=
    Emits.compute (request_extractValue haggregate rfl)
  unfold viewData at hdeclares ⊢
  dsimp only at hdeclares ⊢
  split
  next hsame =>
    rw [if_pos hsame] at hdeclares
    refine ⟨?_, Nat.lt_succ_self _, _, hraw, Function.update_self ..⟩
    rw [← hsame]
    exact hdeclares _ (mem_append_right _ (mem_singleton_self _)) _ rfl
  next hdiffers =>
    rw [if_neg hdiffers] at hdeclares
    refine ⟨?_, Nat.lt_succ_self _, _,
      hraw.trans (Emits.compute (request_pointerCast (Function.update_self ..) hdata)),
      Function.update_self ..⟩
    exact hdeclares _ (mem_append_right _ (mem_singleton_self _)) _ rfl

end

namespace IndexSite

variable {M : Machine} (site : IndexSite M)

theorem typeKind_indexType (htypes : site.lowerer.typeTable.types <+: site.module.types) :
    site.module.typeKind site.indexType = some (.integer site.signed site.bits) :=
  getElem?_of_isPrefix htypes
    (site.wellFormed.lowered_integer site.operand_kind site.operand_lowered)

/-- Inline arrays: the index is compared as it is, with the length at its width. -/
theorem computes_array {length : ℕ} {base : Address} (hindexed : site.indexed = .array length base)
    (pattern : ℕ) :
    Computes M site.module site.function site.code (site.state pattern)
      (pattern < length % 2 ^ site.bits) site.projected.address
      ⟨base.object, base.offset + signedValue site.bits pattern * site.stride⟩ := by
  have hholds := site.holds pattern
  rw [hindexed] at hholds
  obtain ⟨element, arrayType, addressType, hkind, hlowered, haddressType, hpointee, haddressLt,
    haddress⟩ := hholds
  obtain ⟨elementType, helement, hne, harray⟩ := site.wellFormed.lowered_array hkind hlowered
  have hlowers := site.lowers
  simp only [lowerIndexProjection, hkind, lowerArrayIndex, TypeTable.lower, site.operand_lowered,
    emit, emitCheck, helement, FunctionLowerer.withTypes,
    Prod.mk.injEq, Option.some.injEq] at hlowers
  obtain ⟨hprojected, hafter⟩ := hlowers
  have htypes : (site.lowerer.typeTable.pointer elementType site.cursor.addressSpace).2.types <+:
      site.module.types := by
    have hsite := site.types
    rw [← hafter] at hsite
    exact hsite
  have hprefix := (site.lowerer.typeTable.intern_types _).trans htypes
  have hresult : site.module.pointee
      (site.lowerer.typeTable.pointer elementType site.cursor.addressSpace).1 = some elementType :=
    pointee_of_typeKind (getElem?_of_isPrefix htypes (site.lowerer.typeTable.getElem?_intern _))
  have hstride : site.stride = M.size elementType := by
    rw [stride, ← hprojected, helement]
    rfl
  have hlength : Emits M site.module site.function site.lowerer
      (site.lowerer.emit site.indexType (.constant (.integer length)) site.span).2
      (site.state pattern) _ :=
    Emits.compute (request_constant (site.typeKind_indexType hprefix))
  have hindex := (hlength.env_eq _ site.index_lt).trans (site.index_env pattern)
  have hbase := (hlength.env_eq _ haddressLt).trans haddress
  -- a constant for the length, the check, and the offset behind it
  have hcode : site.after.instructions =
      (site.lowerer.emit site.indexType (.constant (.integer length)) site.span).2.instructions ++
        [⟨none, .boundsCheck site.index site.lowerer.nextValue, site.span⟩,
          ⟨some ⟨site.lowerer.nextValue + 1,
            (site.lowerer.typeTable.pointer elementType site.cursor.addressSpace).1⟩,
            .offset site.cursor.address [site.index], site.span⟩] := by
    rw [← hafter]
    simp only [emit, append_assoc, cons_append, nil_append]
  have hcomputes := computes_checked hlength hindex (Function.update_self ..)
    (request_offset hbase hindex haddressType hpointee hresult
      (offsetDistance_element hne (getElem?_of_isPrefix hprefix harray))) hcode
  rw [hstride, ← hprojected]
  rw [encode_natCast] at hcomputes
  exact hcomputes

/-- Buffers and slices: the index is compared and used at the width of a pointer. -/
theorem computes_view {length : ℕ} {data : Address} (hindexed : site.indexed = .view length data)
    (pattern : ℕ) :
    Computes M site.module site.function site.code (site.state pattern)
      (sizePattern site.signed site.bits site.pointerBits pattern < length) site.projected.address
      ⟨data.object, data.offset + signedValue site.pointerBits
        (sizePattern site.signed site.bits site.pointerBits pattern) * site.stride⟩ := by
  have hholds := site.holds pattern
  rw [hindexed] at hholds
  obtain ⟨element, rest, hkind, hdescriptor⟩ := hholds
  have hlowers : lowerViewIndex site.lowerer site.cursor site.place element site.operand site.index
      site.span = (some site.projected, site.after) := by
    have hsite := site.lowers
    rcases hkind with hkind | hkind <;> rwa [lowerIndexProjection, hkind] at hsite
  obtain ⟨aggregateType, pointee, rawType, space, aggregate, dataType, sizeType, dataValue,
    lengthValue, htype, hpointee, haggregate, hdataType, hsizeType, hdataValue, hlengthValue,
    hlowers⟩ := lowerViewIndex_eq_some hlowers
  obtain ⟨sized, l', hsized, haddress, hcurrent, htable, hcode⟩ := lowerViewElement_eq_some hlowers
  obtain ⟨hsizedTable, hsizedPrefix⟩ := lowerIndexToSize_extends hsized
  have hlengthTable : lengthValue.2.typeTable = sizeType.2 := by
    rw [hlengthValue, hdataValue]
    exact viewData_typeTable ..
  -- the types that were interned on the way are those of the module
  have htypes : sizeType.2.types <+: site.module.types := by
    rw [← hlengthTable, ← hsizedTable, ← htable]
    exact site.types
  have hsize : site.module.typeKind sizeType.1 = some (.integer false site.pointerBits) := by
    rw [hsizeType] at htypes ⊢
    exact getElem?_of_isPrefix htypes (TypeTable.getElem?_intern _ _)
  have htypes' : dataType.2.types <+: site.module.types :=
    (hsizeType ▸ dataType.2.intern_types _).trans htypes
  have hdata : site.module.typeKind dataType.1 = some (.pointer pointee space) := by
    rw [hdataType] at htypes' ⊢
    exact getElem?_of_isPrefix htypes' (TypeTable.getElem?_intern _ _)
  have hprefix : site.lowerer.typeTable.types <+: site.module.types :=
    (show _ <+: dataType.2.types from hdataType ▸ site.lowerer.typeTable.intern_types _).trans
      htypes'
  have hlengthBits : lengthValue.2.typeTable.pointerBits = site.pointerBits := by
    rw [hlengthTable, hsizeType, hdataType]
    simp [TypeTable.pointer, pointerBits]
  have hlengthKind : lengthValue.2.typeTable.semantic.kind site.operand.ty =
      some (.integer site.signedness site.width) := by
    rw [hlengthTable, hsizeType, hdataType]
    simpa [TypeTable.pointer] using site.operand_kind
  have hdeclares : site.function.Declares dataValue.2.instructions := by
    intro instruction hinstruction
    apply site.declares
    rw [hcode]
    apply mem_append_left
    apply hsizedPrefix.subset
    rw [hlengthValue]
    exact mem_append_left _ hinstruction
  -- the descriptor, its two fields and the index are computed one after the other
  obtain ⟨s₁, hrun₁, hlt₁, henv₁⟩ : ∃ s',
      Emits M site.module site.function site.lowerer aggregate.2 (site.state pattern) s' ∧
      aggregate.1 < aggregate.2.nextValue ∧ s'.env aggregate.1 = some _ := by
    rw [haggregate]
    exact emits_viewValue htype hdescriptor
  rw [hdataValue] at hdeclares
  obtain ⟨hdataTypeOf, hlt₂, s₂, hrun₂, henv₂⟩ := emits_viewData henv₁ hdata hdeclares
  rw [← hdataValue] at hdataTypeOf hlt₂ hrun₂ henv₂
  obtain ⟨s₃, hrun₃, henv₃⟩ : ∃ s',
      Emits M site.module site.function dataValue.2 lengthValue.2 s₂ s' ∧
      s'.env lengthValue.1 = some (.integer site.pointerBits length) := by
    rw [hlengthValue]
    exact emits_extractValue ((hrun₂.env_eq _ hlt₁).trans henv₁) rfl
  have hrun₁₃ := ((hrun₁.withTypes sizeType.2).trans hrun₂).trans hrun₃
  have hindex₃ := (hrun₁₃.env_eq _ site.index_lt).trans (site.index_env pattern)
  obtain ⟨s₄, hrun₄, henv₄⟩ := emits_lowerIndexToSize hsized hlengthKind
    (by rw [hlengthBits]; exact ⟨_, site.index_type, site.typeKind_indexType hprefix⟩)
    (by rw [hlengthBits]; exact hsize) (by rw [hlengthBits]; exact hindex₃)
  have hlength₄ : s₄.env lengthValue.1 = some (.integer site.pointerBits length) := by
    rw [hrun₄.env_eq _ (by rw [hlengthValue]; exact Nat.lt_succ_self _)]
    exact henv₃
  have hdata₄ : s₄.env dataValue.1 = some (.pointer (some data)) :=
    ((hrun₃.trans hrun₄).env_eq _ hlt₂).trans henv₂
  obtain ⟨pointeeKind, hpointeeKind, hfields⟩ := site.wellFormed.exists_kind hpointee
  have hcomputes := computes_checked (hrun₁₃.trans hrun₄) henv₄ hlength₄
    (request_offset hdata₄ henv₄ hdataTypeOf (pointee_of_typeKind hdata) (pointee_of_typeKind hdata)
      (offsetDistance_self (getElem?_of_isPrefix hprefix hpointeeKind) hfields)) hcode
  have hstride : site.stride = M.size pointee := by
    rw [stride, hcurrent, hpointee]
    rfl
  rw [hlengthBits] at hcomputes
  rw [hstride, haddress]
  exact hcomputes

/-! ## Which projections are right -/

/-- The number an index stands for. -/
def value (pattern : ℕ) : ℤ := mathValue site.signed site.bits pattern

/-- Execution continues if the index is that of an element, at the address of the element,
and panics otherwise. -/
def RightAt (pattern : ℕ) : Prop :=
  (InRange (site.value pattern) site.indexed.length →
    ∃ s' address,
      runAll M site.module site.function site.code (site.state pattern) = .continues s' ∧
      s'.env site.projected.address = some (.pointer (some address)) ∧
      address.object = site.indexed.first.object ∧
      address.offset ≡ site.indexed.first.offset + site.value pattern * site.stride
        [ZMOD 2 ^ site.pointerBits]) ∧
  (¬ InRange (site.value pattern) site.indexed.length →
    runAll M site.module site.function site.code (site.state pattern) = .panics)

def Correct : Prop := ∀ pattern < 2 ^ site.bits, site.RightAt pattern

/-- The lengths the emitted code can index. -/
def Fits : Prop :=
  match site.indexed with
  | .array length _ => ArrayFits site.signed site.bits length site.stride site.pointerBits
  | .view length _ => ViewFits site.signed site.bits length site.pointerBits

/-- What the check and the address have to satisfy. -/
theorem rightAt_iff {pattern : ℕ} {passes : Prop} {distance : ℤ}
    (h : Computes M site.module site.function site.code (site.state pattern) passes
      site.projected.address ⟨site.indexed.first.object, site.indexed.first.offset + distance⟩) :
    site.RightAt pattern ↔
      (passes ↔ InRange (site.value pattern) site.indexed.length) ∧
        (InRange (site.value pattern) site.indexed.length →
          distance ≡ site.value pattern * site.stride [ZMOD 2 ^ site.pointerBits]) := by
  obtain ⟨hcontinues, hpanics⟩ := h
  constructor
  · intro ⟨hright, hwrong⟩
    have hpasses : passes ↔ InRange (site.value pattern) site.indexed.length := by
      constructor
      · intro hpass
        obtain ⟨s', hrun, -⟩ := hcontinues hpass
        by_contra hrange
        rw [hwrong hrange] at hrun
        cases hrun
      · intro hrange
        obtain ⟨s', address, hrun, -⟩ := hright hrange
        by_contra hpass
        rw [hpanics hpass] at hrun
        cases hrun
    refine ⟨hpasses, fun hrange => ?_⟩
    obtain ⟨s', hrun, henv⟩ := hcontinues (hpasses.mpr hrange)
    obtain ⟨s'', address, hrun', henv', -, hoffset⟩ := hright hrange
    obtain rfl : s' = s'' := Outcome.continues.inj (hrun.symm.trans hrun')
    obtain rfl : _ = address := by simpa [henv] using henv'
    exact Int.ModEq.add_left_cancel' _ hoffset
  · intro ⟨hpasses, hdistance⟩
    refine ⟨fun hrange => ?_, fun hrange => hpanics (mt hpasses.mp hrange)⟩
    obtain ⟨s', hrun, henv⟩ := hcontinues (hpasses.mpr hrange)
    exact ⟨s', _, hrun, henv, rfl, (hdistance hrange).add_left _⟩

theorem bits_pos : 0 < site.bits := integerBits_pos _ site.pointerBits_pos

theorem bits_le : site.bits ≤ site.pointerBits := site.width_le

/-- **Which index projections are right**, for all values of the index. -/
theorem correct_iff : site.Correct ↔ site.Fits := by
  unfold Correct Fits
  split
  next length base hindexed =>
    rw [← arrayIndexes_iff site.bits_pos]
    apply forall₂_congr
    intro pattern _
    have hcomputes := site.computes_array hindexed pattern
    rw [show base = site.indexed.first by rw [hindexed]; rfl] at hcomputes
    rw [site.rightAt_iff hcomputes, hindexed]
    rfl
  next length data hindexed =>
    rw [← viewIndexes_iff site.bits_pos site.bits_le]
    apply forall₂_congr
    intro pattern _
    have hcomputes := site.computes_view hindexed pattern
    rw [show data = site.indexed.first by rw [hindexed]; rfl] at hcomputes
    rw [site.rightAt_iff hcomputes, hindexed]
    -- the address is always right: the index keeps its value modulo the address space
    refine and_iff_left fun _ => ?_
    apply Int.ModEq.mul_right
    exact (signedValue_modEq _ _).trans (sizePattern_modEq site.bits_le)

end IndexSite

/-! ## A long array of bytes, indexed by a number of 32 bits -/

namespace LongIndexed

/-- `Int32`, `UInt8` and `[UInt8; 3000000000]`: `Int32` and `UIntSize` may be indexes. -/
def semantic : TypeStore :=
  { TypeStore.empty with
    kinds := [.integer .signed .bits32, .integer .unsigned .bits8, .array ⟨1⟩ 3000000000] }

def table : TypeTable where
  semantic := semantic
  types := [.integer true 32, .integer false 8, .array 1 3000000000, .pointer 2 .stack]
  lowered source := if source.index < 3 then some source.index else none
  pointerBits := 64

theorem wellFormed_table : table.WellFormed where
  lowered_lt {source ty} h := by
    obtain ⟨hlt, rfl⟩ : source.index < 3 ∧ source.index = ty := by simpa [table] using h
    exact hlt.trans (by decide)
  lowered_integer {source ty signedness width} hkind h := by
    obtain ⟨hlt, rfl⟩ : source.index < 3 ∧ source.index = ty := by simpa [table] using h
    obtain ⟨i⟩ := source
    match i, hlt with
    | 0, _ | 1, _ => cases hkind; rfl
    | 2, _ => cases hkind
  lowered_array {source ty element length} hkind h := by
    obtain ⟨hlt, rfl⟩ : source.index < 3 ∧ source.index = ty := by simpa [table] using h
    obtain ⟨i⟩ := source
    match i, hlt with
    | 0, _ | 1, _ => cases hkind
    | 2, _ => cases hkind; exact ⟨1, rfl, by decide, rfl⟩
  notMem_fields {ty fields} h := by
    match ty with
    | 0 | 1 | 2 | 3 | _ + 4 => simp [table] at h

/-- The index is value 0, the address of the array value 1. -/
def lowerer : FunctionLowerer := ⟨table, 2, [], []⟩

def cursor : PlaceCursor := ⟨1, ⟨2⟩, .stack, none, none⟩

def place : PlaceLocal := ⟨false, true, some 2⟩

def operand : IndexOperand := ⟨⟨0⟩, ⟨0, 0, 0⟩⟩

def lowered : Option PlaceCursor × FunctionLowerer :=
  lowerIndexProjection lowerer cursor place operand 0 none

def function : Function where
  id := 0
  linkage := .internal
  parameters := [⟨0, 0⟩, ⟨1, 3⟩]
  result := 4
  blocks := [⟨0, [], lowered.2.instructions, .ret (some 3), none⟩]
  span := none

def site : IndexSite cells where
  lowerer := lowerer
  cursor := cursor
  place := place
  operand := operand
  index := 0
  span := none
  projected := ⟨3, ⟨1⟩, .stack, none, none⟩
  after := lowered.2
  lowers := rfl
  wellFormed := wellFormed_table
  pointerBits_pos := by decide
  signedness := .signed
  width := .bits32
  operand_kind := rfl
  width_le := by decide
  module := ⟨lowered.2.typeTable.types, [function]⟩
  function := function
  types := prefix_rfl
  declares := by
    have hall : ∀ instruction ∈ lowered.2.instructions,
        instruction.result.all fun result => function.typeOf result.value = some result.ty := by
      decide
    intro instruction hinstruction result hresult
    simpa [hresult] using hall instruction hinstruction
  indexType := 0
  operand_lowered := rfl
  index_type := rfl
  index_lt := by decide
  state pattern := { blank with
    env := fun v =>
      if v = 0 then some (.integer 32 pattern)
      else if v = 1 then some (.pointer (some ⟨0, 0⟩)) else none }
  index_env _ := rfl
  indexed := .array 3000000000 ⟨0, 0⟩
  holds _ := ⟨⟨1⟩, 2, 3, rfl, rfl, rfl, rfl, by decide, rfl⟩

end LongIndexed

/-- The check lets index -2000000000 pass: without the sign it is below the length. -/
theorem not_correct_longIndexed : ¬ LongIndexed.site.Correct := by
  intro hcorrect
  obtain ⟨-, hwrong⟩ := hcorrect (2 ^ 32 - 2000000000) (by decide)
  obtain ⟨s', hrun, -⟩ :=
    (LongIndexed.site.computes_array rfl (2 ^ 32 - 2000000000)).1 (by decide)
  rw [hwrong (by decide)] at hrun
  cases hrun

end Jadren.Jir
