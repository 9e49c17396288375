import Jadren.Jir.Canonical
import Jadren.Jir.Execution

/-!
# Current values

A value is current when each stack load it is computed from, through `Offset`
and `ExtractValue`, would read the same value again.  It stays current as long
as nothing in scope is bound again and the slots its expression depends on keep
their contents.  Current values with one expression are equal, as far as the
types of the offsets in it are: an expression does not record them.
-/

namespace Jadren.Jir

open Dominance (Precedes Reachable)
open UseContext InstructionKind CanonicalValue Option

variable {M : Machine} {module : Module} {f : Function}

/-! ## What acceptance says about types -/

variable {b i : ℕ}

theorem pointeeOf_useContext {block : Block} {span : Option Span} (v : ValueId) :
    (module.useContext f b block i span).pointeeOf v = (f.typeOf v).bind module.pointee := by
  have htype : (module.useContext f b block i span).kindOf v =
      (f.typeOf v).bind module.typeKind := rfl
  unfold pointeeOf
  rw [htype]
  cases f.typeOf v <;> rfl

namespace Module.Accepts

variable (accepted : module.Accepts f)
include accepted

variable {b i : ℕ} {instruction : Instruction} {result : TypedValue}

variable (hdefines : f.Defines b i instruction result)
include hdefines

theorem typeOf_result :
    f.typeOf result.value = some result.ty :=
  accepted.typeOf_eq hdefines.definedAt

/-- A load has the type its pointer points to. -/
theorem load_type {pointer alignment : ℕ}
    {isVolatile : Bool} (hkind : instruction.kind = .load pointer alignment isVolatile) :
    (f.typeOf pointer).bind module.pointee = some result.ty := by
  obtain ⟨block, _, hcheck⟩ := accepted.verifyInstruction_eq_nil hdefines.at_position
  unfold verifyInstruction at hcheck
  simp only [hkind, requireResult_eq_nil, List.append_eq_nil_iff,
    demand_eq_nil, decide_eq_true_eq, pointeeOf_useContext] at hcheck
  obtain ⟨declared, hdeclared, ⟨_, hpointee⟩, _⟩ := hcheck
  obtain rfl : declared = result := some.inj (hdeclared.symm.trans hdefines.result_eq)
  exact hpointee

/-- An extracted element has the element's type. -/
theorem extract_type {aggregate index : ℕ}
    (hkind : instruction.kind = .extractValue aggregate index) :
    (f.typeOf aggregate).bind (module.aggregateElement · index) = some result.ty := by
  obtain ⟨block, _, hcheck⟩ := accepted.verifyInstruction_eq_nil hdefines.at_position
  unfold verifyInstruction at hcheck
  simp only [hkind, requireResult_eq_nil, List.append_eq_nil_iff,
    demand_eq_nil, decide_eq_true_eq] at hcheck
  obtain ⟨declared, hdeclared, _, helement⟩ := hcheck
  obtain rfl : declared = result := some.inj (hdeclared.symm.trans hdefines.result_eq)
  exact helement

theorem offset_type {base : ValueId}
    {indices : List ValueId} (hkind : instruction.kind = .offset base indices) :
    ∃ pointee space, module.typeKind result.ty = some (.pointer pointee space) := by
  obtain ⟨block, _, hcheck⟩ := accepted.verifyInstruction_eq_nil hdefines.at_position
  unfold verifyInstruction at hcheck
  simp only [hkind, requireResult_eq_nil, List.append_eq_nil_iff] at hcheck
  obtain ⟨declared, hdeclared, _, hpointer⟩ := hcheck
  obtain rfl : declared = result := some.inj (hdeclared.symm.trans hdefines.result_eq)
  have htype : (module.useContext f b block i instruction.span).module = module := rfl
  rw [htype] at hpointer
  split at hpointer
  · exact ⟨_, _, ‹_›⟩
  · exact ⟨_, _, ‹_›⟩
  · simp at hpointer

omit hdefines

/-- The operands of a bounds check are integers. -/
theorem bounds_type (hat : f.instructionAt b i = some instruction) {index length : ValueId}
    (hkind : instruction.kind = .boundsCheck index length ∨
      ∃ lanes, instruction.kind = .vectorBoundsCheck index length lanes) {v : ValueId}
    (hv : v = index ∨ v = length) :
    ((f.typeOf v).bind module.typeKind).any JirType.isInteger = true := by
  obtain ⟨block, _, hcheck⟩ := accepted.verifyInstruction_eq_nil hat
  have hbounds : ∃ message, (module.useContext f b block i instruction.span).checkBounds instruction
      index length message = [] := by
    unfold verifyInstruction at hcheck
    rcases hkind with hkind | ⟨lanes, hkind⟩
    · rw [hkind] at hcheck
      exact ⟨_, hcheck⟩
    · rw [hkind] at hcheck
      exact ⟨_, (List.append_eq_nil_iff.mp hcheck).1⟩
  obtain ⟨message, hbounds⟩ := hbounds
  simp only [checkBounds, List.append_eq_nil_iff, demand_eq_nil,
    Bool.and_eq_true] at hbounds
  rcases hv with rfl | rfl
  · exact hbounds.2.1
  · exact hbounds.2.2

end Module.Accepts

/-! ## The expression of a defined value -/

namespace Module.Accepts

variable (accepted : module.Accepts f) {b i : ℕ} {instruction : Instruction} {result : TypedValue}
include accepted

theorem canonical_load (hdefines : f.Defines b i instruction result)
    (hlive : f.Live result.value) {pointer alignment : ℕ}
    (hkind : instruction.kind = .load pointer alignment false)
    (hslot : f.isStackSlot pointer = true) : f.canonical result.value = .stackLoad pointer := by
  rw [accepted.canonical_eq hlive, Function.expand, accepted.definitionOf_eq hdefines, hkind]
  exact if_pos hslot

theorem canonical_extract (hdefines : f.Defines b i instruction result)
    (hlive : f.Live result.value) {aggregate index : ℕ}
    (hkind : instruction.kind = .extractValue aggregate index) :
    f.canonical result.value = .extract (f.canonical aggregate) index := by
  rw [accepted.canonical_eq hlive, Function.expand, accepted.definitionOf_eq hdefines, hkind]

theorem canonical_offset (hdefines : f.Defines b i instruction result)
    (hlive : f.Live result.value) {base : ValueId} {indices : List ValueId}
    (hkind : instruction.kind = .offset base indices) :
    f.canonical result.value = .offset (f.canonical base) (indices.map f.canonical) := by
  rw [accepted.canonical_eq hlive, Function.expand, accepted.definitionOf_eq hdefines, hkind]

end Module.Accepts

/-! ## Current values -/

/-- Each stack load a value is computed from would read the same again. -/
inductive Current (f : Function) (s : State M) : ValueId → Prop
  | leaf {v : ValueId} (h : f.canonical v = .value v) : Current f s v
  | load {b i : ℕ} {instruction : Instruction} {result : TypedValue} {pointer alignment : ℕ}
      {address : Address} (hdefines : f.Defines b i instruction result)
      (hkind : instruction.kind = .load pointer alignment false)
      (hslot : f.isStackSlot pointer = true)
      (hpointer : s.env pointer = some (.pointer (some address)))
      (hvalue : s.env result.value = some (s.read address result.ty)) : Current f s result.value
  | extract {b i : ℕ} {instruction : Instruction} {result : TypedValue} {aggregate index : ℕ}
      (hdefines : f.Defines b i instruction result)
      (hkind : instruction.kind = .extractValue aggregate index)
      (hfrom : Current f s aggregate) : Current f s result.value
  | offset {b i : ℕ} {instruction : Instruction} {result : TypedValue} {base : ValueId}
      {indices : List ValueId} (hdefines : f.Defines b i instruction result)
      (hkind : instruction.kind = .offset base indices) (hbase : Current f s base)
      (hindices : ∀ v ∈ indices, Current f s v) : Current f s result.value

/-- The slots an expression depends on have the same contents in another state. -/
def SameSlots (s s' : State M) (expression : CanonicalValue) : Prop :=
  ∀ slot address, expression.dependsOnStackLoad slot = true →
    s.env slot = some (.pointer (some address)) → s'.memory address.object = s.memory address.object

variable {s s' : State M} {v : ValueId}

/-- A value stays current as long as its slots keep their contents. -/
theorem Current.keep (accepted : module.Accepts f) {point : Dominance.Point}
    (hreach : Reachable f.Edge point.1) (henv : ∀ v, f.InScope v point → s'.env v = s.env v)
    (hcurrent : Current f s v) (hv : f.InScope v point) (hslots : SameSlots s s' (f.canonical v)) :
    Current f s' v := by
  have hoperand : ∀ {b i : ℕ} {instruction : Instruction} {result : TypedValue},
      f.Defines b i instruction result → f.InScope result.value point →
      ∀ u ∈ instruction.kind.operands, f.InScope u point := by
    intro b i instruction result hdefines hresult u hu
    exact (accepted.operand_inScope hdefines.at_position hu).trans
      (accepted.precedes_of_inScope hdefines.at_position hdefines.result_eq hresult)
  -- the induction is on the expression; its operands are in scope where it is
  induction hcurrent with
  | leaf h => exact .leaf h
  | @load b i instruction result pointer alignment address hdefines hkind hslot hpointer hvalue =>
      have hlive := accepted.live_of_inScope hv hreach
      rw [accepted.canonical_load hdefines hlive hkind hslot] at hslots
      have hscope := hoperand hdefines hv pointer (by simp [hkind, operands])
      have hmemory := hslots pointer address (by simp [dependsOnStackLoad]) hpointer
      refine .load hdefines hkind hslot ((henv pointer hscope).trans hpointer) ?_
      rw [henv _ hv, hvalue, State.read, State.read, hmemory]
  | extract hdefines hkind hfrom ih =>
      have hlive := accepted.live_of_inScope hv hreach
      rw [accepted.canonical_extract hdefines hlive hkind] at hslots
      exact .extract hdefines hkind
        (ih (hoperand hdefines hv _ (by simp [hkind, operands])) hslots)
  | offset hdefines hkind hbase hindices ihbase ihindices =>
      have hlive := accepted.live_of_inScope hv hreach
      rw [accepted.canonical_offset hdefines hlive hkind] at hslots
      refine .offset hdefines hkind (ihbase (hoperand hdefines hv _ ?_) ?_) fun u hu =>
        ihindices u hu (hoperand hdefines hv u ?_) ?_
      · simp [hkind, operands]
      · intro slot address hdepends hpointer
        refine hslots slot address ?_ hpointer
        simp [dependsOnStackLoad, hdepends]
      · simp [hkind, operands, hu]
      · intro slot address hdepends hpointer
        refine hslots slot address ?_ hpointer
        rw [dependsOnStackLoad, Bool.or_eq_true,
          anyDepends_eq_true]
        exact .inr ⟨f.canonical u, List.mem_map.mpr ⟨u, hu, rfl⟩, hdepends⟩

/-- A step may change the contents of an object. -/
def Observation.Touches (s : State M) (object : ℕ) : Observation M → Prop
  | .silent => False
  | .store address _ _ => address.object = object
  | .external _ _ response => response.memory object ≠ s.memory object

variable {instruction : Instruction} {observation : Observation M}

theorem Step.memory_eq (hstep : Step M module f instruction s observation s') {object : ℕ}
    (hobject : object ∈ s.allocated) (h : ¬ observation.Touches s object) :
    s'.memory object = s.memory object := by
  cases hstep with
  | compute => rfl
  | read => rfl
  | check => rfl
  | skip => rfl
  | allocate hrequest hresult hfresh =>
      refine Function.update_of_ne ?_ _ _
      rintro rfl
      exact hfresh hobject
  | write => exact Function.update_of_ne (Ne.symm h) _ _
  | external =>
      unfold State.conclude
      split <;> exact not_not.mp h

variable {trace : List (Event M)}

/-- Along the instructions of a block, what was in scope at one of them is not
bound again, so it stays current while its slots are not touched. -/
theorem Run.current_step (accepted : module.Accepts f) {start : State M} {j : ℕ}
    (run : Run M module f start trace b i s) (hclosed : s.Closed)
    (hat : f.instructionAt b i = some instruction)
    (hstep : Step M module f instruction s observation s') (hj : j ≤ i + 1)
    (hcurrent : Current f s v) (hv : f.InScope v (b, j))
    (hslots : ∀ slot address, (f.canonical v).dependsOnStackLoad slot = true →
      s.env slot = some (.pointer (some address)) → ¬ observation.Touches s address.object) :
    Current f s' v ∧ s'.env v = s.env v := by
  have henv : ∀ u, f.InScope u (b, j) → s'.env u = s.env u := by
    refine fun u hu => hstep.env_of_ne ?_
    rintro result hresult rfl
    have hindex := (accepted.precedes_of_inScope hat hresult hu).index_lt run.reachable rfl
    exact absurd hindex (by simp; omega)
  refine ⟨hcurrent.keep accepted (show Reachable f.Edge (b, j).1 from run.reachable) henv hv ?_,
    henv v hv⟩
  intro slot address hdepends hpointer
  refine hstep.memory_eq ?_ (hslots slot address hdepends hpointer)
  exact hclosed.env slot _ hpointer (by simp)

/-- Offsets with one expression have one type. -/
def Function.OffsetTypesAgree (f : Function) : Prop :=
  ∀ v w base base' indices indices', f.definitionOf v = some (.offset base indices) →
    f.definitionOf w = some (.offset base' indices') → f.canonical v = f.canonical w →
    f.typeOf v = f.typeOf w

theorem map_eq_map_of {α β γ : Type} {g : α → β} {h : α → γ} {l l' : List α}
    (hall : ∀ a ∈ l, ∀ a' ∈ l', g a = g a' → h a = h a') (hmap : l.map g = l'.map g) :
    l.map h = l'.map h := by
  induction l generalizing l' with
  | nil => cases l' <;> simp_all
  | cons a rest ih =>
      cases l' with
      | nil => simp at hmap
      | cons a' =>
          rw [List.map_cons, List.map_cons, List.cons.injEq] at hmap ⊢
          exact ⟨hall a (by simp) a' (by simp) hmap.1,
            ih (fun a ha a' ha' => hall a (by simp [ha]) a' (by simp [ha'])) hmap.2⟩

/-! ## Reading an expression back -/

namespace Current

variable {s : State M} {v : ValueId}

theorem of_value (accepted : module.Accepts f) (hlive : f.Live v) (hv : Current f s v)
    {w : ValueId} (h : f.canonical v = .value w) : v = w := by
  cases hv with
  | leaf hleaf => rw [hleaf] at h; cases h; rfl
  | load hdefines hkind hslot =>
      rw [accepted.canonical_load hdefines hlive hkind hslot] at h
      cases h
  | extract hdefines hkind =>
      rw [accepted.canonical_extract hdefines hlive hkind] at h
      cases h
  | offset hdefines hkind =>
      rw [accepted.canonical_offset hdefines hlive hkind] at h
      cases h

theorem of_stackLoad (accepted : module.Accepts f) (hlive : f.Live v) (hv : Current f s v)
    {slot : ValueId} (h : f.canonical v = .stackLoad slot) : ∃ ty address,
      (f.typeOf slot).bind module.pointee = some ty ∧ f.typeOf v = some ty ∧
        s.env slot = some (.pointer (some address)) ∧ s.env v = some (s.read address ty) := by
  cases hv with
  | leaf hleaf => rw [hleaf] at h; cases h
  | load hdefines hkind hslot hpointer hvalue =>
      rw [accepted.canonical_load hdefines hlive hkind hslot] at h
      cases h
      exact ⟨_, _, accepted.load_type hdefines hkind, accepted.typeOf_result hdefines, hpointer,
        hvalue⟩
  | extract hdefines hkind =>
      rw [accepted.canonical_extract hdefines hlive hkind] at h
      cases h
  | offset hdefines hkind =>
      rw [accepted.canonical_offset hdefines hlive hkind] at h
      cases h

variable {source : CanonicalValue}

theorem of_extract (accepted : module.Accepts f) (hlive : f.Live v) (hv : Current f s v)
    {index : ℕ} (h : f.canonical v = .extract source index) :
    ∃ b i instruction result aggregate, f.Defines b i instruction result ∧ result.value = v ∧
      instruction.kind = .extractValue aggregate index ∧ f.canonical aggregate = source ∧
        Current f s aggregate := by
  cases hv with
  | leaf hleaf => rw [hleaf] at h; cases h
  | load hdefines hkind hslot =>
      rw [accepted.canonical_load hdefines hlive hkind hslot] at h
      cases h
  | extract hdefines hkind hfrom =>
      rw [accepted.canonical_extract hdefines hlive hkind] at h
      cases h
      exact ⟨_, _, _, _, _, hdefines, rfl, hkind, rfl, hfrom⟩
  | offset hdefines hkind =>
      rw [accepted.canonical_offset hdefines hlive hkind] at h
      cases h

theorem of_offset (accepted : module.Accepts f) (hlive : f.Live v) (hv : Current f s v)
    {sources : List CanonicalValue} (h : f.canonical v = .offset source sources) :
    ∃ b i instruction result base indices, f.Defines b i instruction result ∧ result.value = v ∧
      instruction.kind = .offset base indices ∧ f.canonical base = source ∧
        indices.map f.canonical = sources ∧ Current f s base ∧ ∀ u ∈ indices, Current f s u := by
  cases hv with
  | leaf hleaf => rw [hleaf] at h; cases h
  | load hdefines hkind hslot =>
      rw [accepted.canonical_load hdefines hlive hkind hslot] at h
      cases h
  | extract hdefines hkind =>
      rw [accepted.canonical_extract hdefines hlive hkind] at h
      cases h
  | offset hdefines hkind hbase hindices =>
      rw [accepted.canonical_offset hdefines hlive hkind] at h
      cases h
      exact ⟨_, _, _, _, _, _, hdefines, rfl, hkind, rfl, rfl, hbase, hindices⟩

end Current

variable {env : ValueId → Option RuntimeValue} {instruction' : Instruction}
  {result result' : TypedValue}

/-- Results of an extraction agree when the sources do. -/
theorem Instruction.Satisfied.extract_congr {aggregate aggregate' : ValueId} {index : ℕ}
    (h : instruction.Satisfied M module f env result)
    (h' : instruction'.Satisfied M module f env result')
    (hkind : instruction.kind = .extractValue aggregate index)
    (hkind' : instruction'.kind = .extractValue aggregate' index)
    (henv : env aggregate = env aggregate') : env result.value = env result'.value := by
  obtain ⟨values, value, hvalues, hcomputed, hbound⟩ := h
  obtain ⟨values', value', hvalues', hcomputed', hbound'⟩ := h'
  rw [hkind] at hvalues hcomputed
  rw [hkind'] at hvalues' hcomputed'
  have heq : values.map some = values'.map some := by
    rw [← hvalues, ← hvalues']
    simp [operands, henv]
  obtain rfl : values = values' := List.map_injective_iff.mpr (Option.some_injective _) heq
  rw [hbound, hbound', ← hcomputed, ← hcomputed']
  rfl

variable {indices indices' : List ValueId}

/-- Offsets compute one address from equal operands of one type, at one result type. -/
theorem computed_offset_congr {base base' : ValueId} {ty : TypeId} {values : List RuntimeValue}
    (htype : f.typeOf base = f.typeOf base') :
    (InstructionKind.offset base indices).computed M module ty
        (f.operandTypes (.offset base indices)) values =
      (InstructionKind.offset base' indices').computed M module ty
        (f.operandTypes (.offset base' indices')) values := by
  cases values with
  | nil => rfl
  | cons =>
      simp only [computed, Function.operandTypes, operands,
        List.map_cons, List.head?_cons, htype]

theorem Instruction.Satisfied.offset_congr {base base' : ValueId}
    (h : instruction.Satisfied M module f env result)
    (h' : instruction'.Satisfied M module f env result')
    (hkind : instruction.kind = .offset base indices)
    (hkind' : instruction'.kind = .offset base' indices') (henv : env base = env base')
    (hindices : indices.map env = indices'.map env) (htype : f.typeOf base = f.typeOf base')
    (hresult : result.ty = result'.ty) : env result.value = env result'.value := by
  obtain ⟨values, value, hvalues, hcomputed, hbound⟩ := h
  obtain ⟨values', value', hvalues', hcomputed', hbound'⟩ := h'
  rw [hkind] at hvalues hcomputed
  rw [hkind'] at hvalues' hcomputed'
  have heq : values.map some = values'.map some := by
    rw [← hvalues, ← hvalues']
    simp [operands, henv, hindices]
  obtain rfl : values = values' := List.map_injective_iff.mpr (Option.some_injective _) heq
  rw [hbound, hbound', ← hcomputed, ← hcomputed', hresult]
  exact computed_offset_congr htype

/-- **Current values with one expression are equal.** -/
theorem Run.env_eq_of_canonical_eq (accepted : module.Accepts f) {start : State M}
    (run : Run M module f start trace b i s) {w : ValueId} (hv : Current f s v)
    (hw : Current f s w) (hvscope : f.InScope v (b, i + 1)) (hwscope : f.InScope w (b, i + 1))
    (h : f.canonical v = f.canonical w)
    (htypes : (f.canonical v).hasOffset = false ∨ f.OffsetTypesAgree) :
    s.env v = s.env w ∧ f.typeOf v = f.typeOf w := by
  have hoperand : ∀ {b' i' : ℕ} {instruction : Instruction} {result : TypedValue},
      f.Defines b' i' instruction result → f.InScope result.value (b, i + 1) →
      ∀ u ∈ instruction.kind.operands, f.InScope u (b, i + 1) := by
    intro b' i' instruction result hdefines hresult u hu
    exact (accepted.operand_inScope hdefines.at_position hu).trans
      (accepted.precedes_of_inScope hdefines.at_position hdefines.result_eq hresult)
  have hequation : ∀ {b' i' : ℕ} {instruction : Instruction} {result : TypedValue},
      f.Defines b' i' instruction result → f.InScope result.value (b, i + 1) →
      instruction.kind.isPure = true → instruction.Satisfied M module f s.env result :=
    fun hdefines hresult hpure => run.satisfied accepted hdefines.at_position hdefines.result_eq
      hpure (accepted.precedes_of_inScope hdefines.at_position hdefines.result_eq hresult)
  have hlive : ∀ {u}, f.InScope u (b, i + 1) → f.Live u :=
    fun hu => accepted.live_of_inScope hu run.reachable
  induction hv generalizing w with
  | leaf hleaf =>
      cases hw.of_value accepted (hlive hwscope) (h.symm.trans hleaf)
      exact ⟨rfl, rfl⟩
  | load hdefines hkind hslot hpointer hvalue =>
      -- the same slot, read at the type it points to
      rw [accepted.canonical_load hdefines (hlive hvscope) hkind hslot] at h
      obtain ⟨ty, address, hty, htype, hpointer', hvalue'⟩ :=
        hw.of_stackLoad accepted (hlive hwscope) h.symm
      cases hpointer.symm.trans hpointer'
      cases (accepted.load_type hdefines hkind).symm.trans hty
      exact ⟨hvalue.trans hvalue'.symm, (accepted.typeOf_result hdefines).trans htype.symm⟩
  | extract hdefines hkind hfrom ih =>
      rw [accepted.canonical_extract hdefines (hlive hvscope) hkind] at h htypes
      obtain ⟨b', i', instruction', result', aggregate', hdefines', rfl, hkind', hsource, hfrom'⟩ :=
        hw.of_extract accepted (hlive hwscope) h.symm
      obtain ⟨henv, hty⟩ := ih hfrom'
        (hoperand hdefines hvscope _ (by simp [hkind, operands]))
        (hoperand hdefines' hwscope _ (by simp [hkind', operands]))
        hsource.symm htypes
      constructor
      · exact (hequation hdefines hvscope (by rw [hkind]; rfl)).extract_congr
          (hequation hdefines' hwscope (by rw [hkind']; rfl)) hkind hkind' henv
      · rw [accepted.typeOf_result hdefines, accepted.typeOf_result hdefines',
          ← accepted.extract_type hdefines hkind, ← accepted.extract_type hdefines' hkind', hty]
  | offset hdefines hkind hbase hindices ihbase ihindices =>
      have hexpression := h
      rw [accepted.canonical_offset hdefines (hlive hvscope) hkind] at h htypes
      obtain ⟨b', i', instruction', result', base', indices', hdefines', rfl, hkind', hsource,
        hsources, hbase', hindices'⟩ := hw.of_offset accepted (hlive hwscope) h.symm
      have hagree : f.OffsetTypesAgree := htypes.resolve_left (by simp [hasOffset])
      have hresult := hagree _ _ _ _ _ _ (hkind ▸ accepted.definitionOf_eq hdefines)
        (hkind' ▸ accepted.definitionOf_eq hdefines') hexpression
      obtain ⟨henv, hty⟩ := ihbase hbase'
        (hoperand hdefines hvscope _ (by simp [hkind, operands]))
        (hoperand hdefines' hwscope _ (by simp [hkind', operands]))
        hsource.symm (.inr hagree)
      refine ⟨?_, hresult⟩
      rw [accepted.typeOf_result hdefines, accepted.typeOf_result hdefines'] at hresult
      refine (hequation hdefines hvscope (by rw [hkind]; rfl)).offset_congr
        (hequation hdefines' hwscope (by rw [hkind']; rfl)) hkind hkind' henv ?_ hty
        (some.inj hresult)
      refine map_eq_map_of (fun u hu u' hu' heq => ?_) hsources.symm
      exact (ihindices u hu (hindices' u' hu')
        (hoperand hdefines hvscope u (by simp [hkind, operands, hu]))
        (hoperand hdefines' hwscope u' (by simp [hkind', operands, hu']))
        heq (.inr hagree)).1

/-! ## Expressions with pointer arithmetic -/

namespace Module.Accepts

variable (accepted : module.Accepts f) {v : ValueId} (hlive : f.Live v)
include accepted hlive

theorem eq_of_canonical_value {w : ValueId} (h : f.canonical v = .value w) : v = w := by
  rw [accepted.canonical_eq hlive] at h
  unfold Function.expand at h
  split at h
  · split at h <;> cases h
    rfl
  · cases h
  · cases h
  · cases h
    rfl

theorem definitionOf_of_stackLoad {slot : ValueId} (h : f.canonical v = .stackLoad slot) :
    ∃ alignment, f.definitionOf v = some (.load slot alignment false) := by
  rw [accepted.canonical_eq hlive] at h
  unfold Function.expand at h
  split at h
  · split at h
    · cases h
      exact ⟨_, ‹_›⟩
    · cases h
  · cases h
  · cases h
  · cases h

variable {source : CanonicalValue}

theorem definitionOf_of_extract {index : ℕ} (h : f.canonical v = .extract source index) :
    ∃ aggregate,
      f.definitionOf v = some (.extractValue aggregate index) ∧ f.canonical aggregate = source := by
  rw [accepted.canonical_eq hlive] at h
  unfold Function.expand at h
  split at h
  · split at h <;> cases h
  · cases h
    exact ⟨_, ‹_›, rfl⟩
  · cases h
  · cases h

theorem definitionOf_of_offset {sources : List CanonicalValue}
    (h : f.canonical v = .offset source sources) : ∃ base indices,
      f.definitionOf v = some (.offset base indices) ∧ f.canonical base = source ∧
        indices.map f.canonical = sources := by
  rw [accepted.canonical_eq hlive] at h
  unfold Function.expand at h
  split at h
  · split at h <;> cases h
  · cases h
  · cases h
    exact ⟨_, _, ‹_›, rfl, rfl⟩
  · cases h

/-- Only pointers are computed with pointer arithmetic: nothing is extracted from a pointer. -/
theorem pointer_of_hasOffset (h : (f.canonical v).hasOffset = true) :
    ∃ ty pointee space, f.typeOf v = some ty ∧
      module.typeKind ty = some (.pointer pointee space) := by
  induction hc : f.canonical v using hasOffset.induct generalizing v with
  | case1 => simp [hc, hasOffset] at h
  | case2 => simp [hc, hasOffset] at h
  | case3 =>
      obtain ⟨_, _, hdefinition, _⟩ := accepted.definitionOf_of_offset hlive hc
      obtain ⟨b, i, instruction, result, hdefines, rfl, hkind⟩ :=
        Function.defines_of_definitionOf hdefinition
      obtain ⟨pointee, space, hpointer⟩ := accepted.offset_type hdefines hkind
      exact ⟨_, pointee, space, accepted.typeOf_result hdefines, hpointer⟩
  | case4 source index ih =>
      obtain ⟨aggregate, hdefinition, hsource⟩ := accepted.definitionOf_of_extract hlive hc
      obtain ⟨b, i, instruction, result, hdefines, rfl, hkind⟩ :=
        Function.defines_of_definitionOf hdefinition
      have hbefore : f.Before aggregate result.value :=
        ⟨b, i, instruction, result, hdefines, rfl, accepted.operand_inScope hdefines.at_position
          (by simp [hkind, operands])⟩
      rw [hc, hasOffset] at h
      obtain ⟨ty, pointee, space, hty, hpointer⟩ :=
        ih (accepted.live_of_before hbefore hlive) (hsource ▸ h) hsource
      have helement := accepted.extract_type hdefines hkind
      simp [hty, Module.aggregateElement, hpointer] at helement

end Module.Accepts

/-! ## What an event shows -/

/-- The objects a step stores to; `none` if they cannot be told. -/
def Action.stored : Action M → Option (List ℕ)
  | .instruction _ .silent => some []
  | .instruction _ (.store address _ _) => some [address.object]
  | _ => none

theorem Observation.mem_of_touches {instruction : Instruction} {observation : Observation M}
    {objects : List ℕ} {object : ℕ}
    (h : (Action.instruction instruction observation).stored = some objects)
    (htouches : observation.Touches s object) : object ∈ objects := by
  cases observation with
  | silent => cases htouches
  | store address ty value =>
      cases h
      exact List.mem_singleton.mpr (Eq.symm htouches)
  | external kind arguments response => cases h

/-- A slot, a value loaded from it, and what the slot holds. -/
def State.slotLoad (s : State M) (slot v : ValueId) (address : Address) (ty : TypeId) :
    Option RuntimeValue × Option RuntimeValue × RuntimeValue :=
  (s.env slot, s.env v, s.read address ty)

theorem Current.of_slotLoad {b i slot v alignment : ℕ} {address : Address} {ty : TypeId}
    {value : RuntimeValue}
    (hat : f.instructionAt b i = some (.defining v ty (.load slot alignment false)))
    (hslot : f.isStackSlot slot = true)
    (h : s.slotLoad slot v address ty = (some (.pointer (some address)), some value, value)) :
    Current f s v := by
  simp only [State.slotLoad, Prod.mk.injEq] at h
  exact .load ⟨hat, rfl⟩ rfl hslot h.1 (h.2.1.trans (congrArg some h.2.2.symm))

end Jadren.Jir
