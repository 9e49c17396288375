import Jadren.Jir.Alias
import Jadren.Jir.Execution
import Mathlib.Order.CompletePartialOrder

/-!
# Pointers reported apart stay apart

The objects a value has held in an activation (`Held`) are covered by every
provenance that is justified for it, on runs in which each load reads a value
that the remembered store put there.  Pairs reported `noAlias` then never hold a
common object.

The invariant of a run is `Tracked`.  What an instruction computes is covered (`covers_result`), so
the invariant is kept by every step and edge, and holds of whole runs (`Tracked.run`).
-/

namespace Jadren.Jir

open InstructionKind Option

variable {M : Machine} {module : Module} {f : Function}

/-- The objects whose addresses a value has held up to now. -/
def Held (trace : List (Event M)) (s : State M) (v : ValueId) : Set ℕ :=
  {o | ∃ state, (state = s ∨ ∃ event ∈ trace, event.before = state) ∧
    ∃ value, state.env v = some value ∧ o ∈ value.objects}

variable {trace : List (Event M)} {s : State M} {v : ValueId} {value : RuntimeValue}

theorem mem_held_self {o : ℕ} (hv : s.env v = some value) (ho : o ∈ value.objects) :
    o ∈ Held trace s v :=
  ⟨s, .inl rfl, value, hv, ho⟩

theorem mem_held_append {event : Event M} {o : ℕ} : o ∈ Held (trace ++ [event]) s v ↔
      o ∈ Held trace event.before v ∨ ∃ value, s.env v = some value ∧ o ∈ value.objects := by
  constructor
  · rintro ⟨state, hstate, value, hv, ho⟩
    rcases hstate with rfl | ⟨other, hother, rfl⟩
    · exact .inr ⟨value, hv, ho⟩
    · rcases List.mem_append.mp hother with hold | hlast
      · exact .inl ⟨_, .inr ⟨other, hold, rfl⟩, value, hv, ho⟩
      · obtain rfl : other = event := by simpa using hlast
        exact .inl ⟨_, .inl rfl, value, hv, ho⟩
  · rintro (⟨state, hstate, value, hv, ho⟩ | ⟨value, hv, ho⟩)
    · rcases hstate with rfl | ⟨other, hother, rfl⟩
      · exact ⟨_, .inr ⟨event, by simp, rfl⟩, value, hv, ho⟩
      · exact ⟨_, .inr ⟨other, by simp [hother], rfl⟩, value, hv, ho⟩
    · exact mem_held_self hv ho

theorem held_subset_append (trace : List (Event M)) (event : Event M) (s : State M) (v : ValueId) :
    Held trace event.before v ⊆ Held (trace ++ [event]) s v :=
  fun _ ho => mem_held_append.mpr (.inl ho)

/-- A value that is not rebound holds nothing new. -/
theorem held_append_of_env_eq {event : Event M} (hv : s.env v = event.before.env v) :
    Held (trace ++ [event]) s v = Held trace event.before v := by
  refine Set.Subset.antisymm (fun o ho => ?_) (held_subset_append _ _ _ v)
  rcases mem_held_append.mp ho with hold | ⟨value, hvalue, hin⟩
  · exact hold
  · exact mem_held_self (hv ▸ hvalue) hin

/-- The operands whose addresses an instruction passes on to its result. -/
def InstructionKind.copied : InstructionKind → List ValueId
  | .extractValue whole _ => [whole]
  | .offset base _ => [base]
  | .cast _ value _ => [value]
  | .select _ whenTrue whenFalse => [whenTrue, whenFalse]
  | _ => []

/-- A copying instruction only passes on addresses of what it copies. -/
theorem InstructionKind.objects_copied {kind : InstructionKind} {ty : TypeId}
    {types : List (Option TypeId)} {values : List RuntimeValue}
    (hvalues : s.values kind.operands = some values)
    (hcomputed : kind.computed M module ty types values = some value) (hcopied : kind.copied ≠ []) :
    ∃ v ∈ kind.copied, ∃ source, s.env v = some source ∧ value.objects ⊆ source.objects := by
  rw [State.values_eq_some_iff] at hvalues
  cases kind with
  | extractValue aggregate =>
      obtain ⟨whole, rfl, hwhole⟩ := onOne_eq_some.mp hcomputed
      obtain ⟨elements, helements, hget⟩ := Option.bind_eq_some_iff.mp hwhole
      exact ⟨aggregate, by simp [copied], whole, by simpa [operands] using hvalues,
        objects_asAggregate helements ▸ objects_getElem? hget⟩
  | offset base =>
      cases values with
      | nil => cases hcomputed
      | cons first =>
          obtain ⟨baseType, _, hoffset⟩ := Option.bind_eq_some_iff.mp hcomputed
          simp only [operands, List.map_cons, List.cons.injEq] at hvalues
          exact ⟨base, by simp [copied], first, hvalues.1, objects_offsetValue hoffset⟩
  | cast op source =>
      obtain ⟨first, rfl, hfirst⟩ := onOne_eq_some.mp hcomputed
      obtain ⟨kind, _, hcast⟩ := Option.bind_eq_some_iff.mp hfirst
      exact ⟨source, by simp [copied], first, by simpa [operands] using hvalues,
        objects_castValue hcast⟩
  | select condition whenTrue whenFalse =>
      obtain ⟨first, second, third, rfl, hfirst⟩ := onThree_eq_some.mp hcomputed
      obtain ⟨holds, _, rfl⟩ := Option.map_eq_some_iff.mp hfirst
      simp only [operands, List.map_cons, List.map_nil, List.cons.injEq, and_true] at hvalues
      cases holds
      · exact ⟨whenFalse, by simp [copied], third, hvalues.2.2, by simp⟩
      · exact ⟨whenTrue, by simp [copied], second, hvalues.2.1, by simp⟩
  | _ => simp [copied] at hcopied

variable {instruction : Instruction} {s' : State M} {observation : Observation M}

variable (hstep : Step M module f instruction s observation s')
include hstep

theorem Step.objects_copied
    (hcopied : instruction.kind.copied ≠ []) {result : TypedValue}
    (hresult : instruction.result = some result) (hvalue : s'.env result.value = some value) :
    ∃ v ∈ instruction.kind.copied, ∃ source, s.env v = some source ∧
      value.objects ⊆ source.objects := by
  have hother : ∀ {values : List RuntimeValue} {operation : Operation},
      instruction.request M module f s = some (operation, values) →
      ∃ computed, operation = .compute computed := by
    intro values operation hrequest
    obtain ⟨_, hoperation⟩ := request_eq_some.mp hrequest
    generalize instruction.kind = kind at hcopied hoperation
    cases asks_of_operation hoperation with
    | compute => exact ⟨_, rfl⟩
    | marker => cases kind <;> simp_all [InstructionKind.copied, isMarker]
    | external => cases kind <;> simp_all [InstructionKind.copied, isExternal]
    | stackAlloc | load | store | boundsCheck | vectorBoundsCheck =>
        simp [InstructionKind.copied] at hcopied
  cases hstep with
  | @compute values computed declared hrequest hdeclared =>
      obtain rfl : declared = result := some.inj (hdeclared.symm.trans hresult)
      rw [State.define_env, Function.update_self] at hvalue
      cases hvalue
      obtain ⟨hvalues, hoperation⟩ := request_eq_some.mp hrequest
      obtain ⟨ty, _, hcomputed⟩ := operation_compute hoperation
      exact InstructionKind.objects_copied hvalues hcomputed hcopied
  | allocate hrequest | read hrequest | write hrequest | check hrequest | skip hrequest
  | external hrequest => cases (hother hrequest).choose_spec

/-- A load reads through its pointer, at the type of its result. -/
theorem Step.of_load
    {pointer alignment : ℕ} {isVolatile : Bool}
    (hkind : instruction.kind = .load pointer alignment isVolatile) :
    ∃ result address, instruction.result = some result ∧
      s.env pointer = some (.pointer (some address)) ∧
      s' = s.define result.value (s.read address result.ty) := by
  have hload : ∀ {values : List RuntimeValue} {operation : Operation},
      instruction.request M module f s = some (operation, values) →
      ∃ address ty, operation = .read address ty ∧
        instruction.result.map TypedValue.ty = some ty ∧
        s.env pointer = some (.pointer (some address)) := by
    intro values operation hrequest
    obtain ⟨hvalues, hoperation⟩ := request_eq_some.mp hrequest
    rw [hkind] at hvalues hoperation
    obtain ⟨first, rfl, hfirst⟩ := onOne_eq_some.mp hoperation
    obtain ⟨address, haddress, hread⟩ := Option.bind_eq_some_iff.mp hfirst
    obtain ⟨ty, hty, rfl⟩ := Option.map_eq_some_iff.mp hread
    rw [asAddress_eq_some] at haddress
    rw [State.values_eq_some_iff] at hvalues
    exact ⟨address, ty, rfl, hty, by simpa [InstructionKind.operands, haddress] using hvalues⟩
  cases hstep with
  | @read values address ty result hrequest hresult =>
      obtain ⟨address', ty', hoperation, hty, hpointer⟩ := hload hrequest
      cases hoperation
      rw [hresult] at hty
      obtain rfl : result.ty = ty := by simpa using hty
      exact ⟨result, address, hresult, hpointer, rfl⟩
  | compute hrequest | allocate hrequest | write hrequest | check hrequest | skip hrequest
  | external hrequest => obtain ⟨_, _, h, _⟩ := hload hrequest; cases h

/-- A stack allocation binds a pointer to an object that did not exist. -/
theorem Step.of_stackAlloc {ty : TypeId}
    {count : Option ValueId} (hkind : instruction.kind = .stackAlloc ty count) :
    ∃ result object, instruction.result = some result ∧ object ∉ s.allocated ∧
      s' = s.allocate result.value object := by
  have hallocate : ∀ {values : List RuntimeValue} {operation : Operation},
      instruction.request M module f s = some (operation, values) → operation = .allocate := by
    intro values operation hrequest
    obtain ⟨_, hoperation⟩ := request_eq_some.mp hrequest
    rw [hkind] at hoperation
    exact (some.inj hoperation).symm
  cases hstep with
  | allocate hrequest hresult hfresh => exact ⟨_, _, hresult, hfresh, rfl⟩
  | compute hrequest => cases hallocate hrequest
  | read hrequest => cases hallocate hrequest
  | write hrequest => cases hallocate hrequest
  | check hrequest => cases hallocate hrequest
  | skip hrequest => cases hallocate hrequest
  | external hrequest => cases hallocate hrequest

theorem Step.allocated_subset :
    s.allocated ⊆ s'.allocated := by
  cases hstep with
  | allocate => exact Finset.subset_insert _ _
  | external hrequest hresponse =>
      unfold State.conclude
      split <;> exact hresponse.allocated
  | compute | read | write | check | skip => exact fun _ ho => ho

omit hstep

/-- A provenance covers a set of objects: those that existed at entry, or those
its root has held. -/
def Covers (start : State M) (held : ValueId → Set ℕ) (objects : Set ℕ) : Provenance → Prop
  | .parameter _ => objects ⊆ start.allocated
  | .contractParameter root => objects ⊆ held root ∧ objects ⊆ start.allocated
  | .unique root | .derivedUnique root | .contract root => objects ⊆ held root
  | .shared _ | .unknown => True

namespace Covers

variable {start : State M} {held held' : ValueId → Set ℕ} {objects objects' : Set ℕ}
  {p : Provenance}

theorem mono (h : Covers start held objects p) (hobjects : objects' ⊆ objects)
    (hheld : ∀ v, held v ⊆ held' v) : Covers start held' objects' p := by
  cases p with
  | parameter => exact hobjects.trans h
  | contractParameter root => exact ⟨hobjects.trans (h.1.trans (hheld root)), hobjects.trans h.2⟩
  | unique root | derivedUnique root | contract root => exact hobjects.trans (h.trans (hheld root))
  | shared => trivial
  | unknown => trivial

theorem union (h : Covers start held objects p) (h' : Covers start held objects' p) :
    Covers start held (objects ∪ objects') p := by
  cases p with
  | parameter | unique root | derivedUnique root | contract root => exact Set.union_subset h h'
  | contractParameter => exact ⟨Set.union_subset h.1 h'.1, Set.union_subset h.2 h'.2⟩
  | shared => trivial
  | unknown => trivial

theorem empty : Covers start held ∅ p := by
  cases p <;> simp [Covers]

theorem derived (h : Covers start held objects p) : Covers start held objects p.derived := by
  cases p <;> exact h

end Covers

/-- The root of a stack provenance is a stack slot. -/
theorem Justified.isSlot {p : Provenance} (h : Justified f v p) :
    ∀ root, p = .unique root ∨ p = .derivedUnique root → f.IsSlot root := by
  induction h with
  | parameter | contractParameter | contract | unknown | shared => simp
  | unique hslot => rintro root (h | h) <;> cases h; exact hslot
  | extractValue _ _ _ _ ih | load _ _ _ _ _ ih | cast _ _ _ _ ih => exact ih
  | @offset _ _ _ _ _ _ p _ _ _ _ ih =>
      rintro root hroot
      cases p <;> simp_all [Provenance.derived]
  | select _ _ _ _ _ ih => exact ih

/-- A load reads a value that the store remembered for its pointer put there. -/
def ReadsStored (f : Function) (earlier : List (Event M)) (event : Event M) : Prop :=
  ∀ instruction observation pointer alignment isVolatile result address stored,
    event.action = .instruction instruction observation →
    instruction.kind = .load pointer alignment isVolatile →
    instruction.result = some result →
    event.before.env pointer = some (.pointer (some address)) →
    lastStored (f.earlier event.block event.index) pointer = some stored →
    ∀ o ∈ (event.before.read address result.ty).objects, o ∈ Held earlier event.before stored

theorem ordered_eq_ordered {left right left' right' : ValueId}
    (h : ordered left right = ordered left' right') :
    (left = left' ∧ right = right') ∨ (left = right' ∧ right = left') := by
  unfold ordered at h
  split at h <;> split at h <;> rw [Prod.mk.injEq] at h
  · exact .inl h
  · exact .inr h
  · exact .inr h.symm
  · exact .inl h.symm

/-- The handles named by a contract marker have never overlapped. -/
def HandlesApart (f : Function) (trace : List (Event M)) (s : State M) : Prop :=
  ∀ left right, f.IsContract left right → ∀ o ∈ Held trace s left, o ∉ Held trace s right

/-- What holds of every state of a run. -/
structure Tracked (f : Function) (start : State M) (trace : List (Event M)) (s : State M) :
    Prop where
  covers : ∀ v p, Justified f v p → Covers start (Held trace s) (Held trace s v) p
  apart : ∀ v w, f.IsSlot v → f.IsSlot w → v ≠ w → ∀ o ∈ Held trace s v, o ∉ Held trace s w
  fresh : ∀ v, f.IsSlot v → ∀ o ∈ Held trace s v, o ∉ start.allocated
  within : ∀ v, ∀ o ∈ Held trace s v, o ∈ s.allocated
  grows : start.allocated ⊆ s.allocated

namespace Tracked

variable {start s s' : State M} {trace : List (Event M)}

variable {b i : ℕ} {instruction : Instruction} {result : TypedValue}

/-- The justification of a value defined by an instruction is about that instruction. -/
theorem instruction_unique (accepted : module.Accepts f) {b' i' : ℕ} {instruction' : Instruction}
    {result' : TypedValue} (hat : f.instructionAt b i = some instruction)
    (hresult : instruction.result = some result)
    (hat' : f.instructionAt b' i' = some instruction')
    (hresult' : instruction'.result = some result') (hvalue : result'.value = result.value) :
    b' = b ∧ i' = i ∧ instruction' = instruction := by
  have hdefined : f.DefinedAt result.value result.ty (.instruction b i) :=
    Function.definedAt_instruction.mpr ⟨instruction, hat, hresult⟩
  have hdefined' : f.DefinedAt result.value result'.ty (.instruction b' i') :=
    Function.definedAt_instruction.mpr ⟨instruction', hat', by rw [hresult', ← hvalue]⟩
  cases (accepted.unique hdefined' hdefined).2
  exact ⟨rfl, rfl, some.inj (hat'.symm.trans hat)⟩

theorem parameter_ne_result (accepted : module.Accepts f) {p : TypedValue}
    (hat : f.instructionAt b i = some instruction) (hresult : instruction.result = some result)
    (hp : p ∈ f.parameters) : p.value ≠ result.value := by
  intro heq
  have hentry : f.DefinedAt result.value p.ty .functionParameter :=
    Function.definedAt_functionParameter.mpr (heq ▸ hp)
  cases (accepted.unique hentry (Function.definedAt_instruction.mpr ⟨instruction, hat, hresult⟩)).2

variable {observation : Observation M} {v : ValueId}

/-- **What an instruction computes is covered** by every provenance of its result. -/
theorem covers_result (accepted : module.Accepts f) (tracked : Tracked f start trace s)
    (hat : f.instructionAt b i = some instruction)
    (hstep : Step M module f instruction s observation s')
    (hreads : ReadsStored f trace ⟨b, i, s, .instruction instruction observation⟩)
    (hresult : instruction.result = some result) {value : RuntimeValue}
    (hvalue : s'.env result.value = some value) {held' : ValueId → Set ℕ}
    (hheld : ∀ v, Held trace s v ⊆ held' v) (hself : (value.objects : Set ℕ) ⊆ held' result.value)
    (hv : v = result.value) {p : Provenance} (hp : Justified f v p) :
    Covers start held' value.objects p := by
  -- a copied operand covers the result as it covers itself
  have hcopy : ∀ {q : Provenance}, instruction.kind.copied ≠ [] →
      (∀ w ∈ instruction.kind.copied, Justified f w q) → Covers start held' value.objects q := by
    intro q hcopied hall
    obtain ⟨w, hw, source, hsource, hsub⟩ := hstep.objects_copied hcopied hresult hvalue
    refine (tracked.covers w q (hall w hw)).mono (fun o ho => ?_) hheld
    exact mem_held_self hsource (hsub ho)
  cases hp with
  | parameter hparameter => exact absurd hv (parameter_ne_result accepted hat hresult hparameter)
  | contractParameter hparameter =>
      exact absurd hv (parameter_ne_result accepted hat hresult hparameter)
  | contract => exact hv ▸ hself
  | unknown => trivial
  | shared => trivial
  | unique => exact hv ▸ hself
  | extractValue hat' hresult' hkind hfrom | cast hat' hresult' hkind hfrom =>
      obtain ⟨rfl, rfl, rfl⟩ := instruction_unique accepted hat hresult hat' hresult' hv
      exact hcopy (by simp [hkind, InstructionKind.copied])
        (by simpa [hkind, InstructionKind.copied] using hfrom)
  | offset hat' hresult' hkind hfrom =>
      obtain ⟨rfl, rfl, rfl⟩ := instruction_unique accepted hat hresult hat' hresult' hv
      refine Covers.derived (hcopy (by simp [hkind, InstructionKind.copied]) ?_)
      simpa [hkind, InstructionKind.copied] using hfrom
  | select hat' hresult' hkind htrue hfalse =>
      obtain ⟨rfl, rfl, rfl⟩ := instruction_unique accepted hat hresult hat' hresult' hv
      exact hcopy (by simp [hkind, InstructionKind.copied])
        (by simpa [hkind, InstructionKind.copied] using ⟨htrue, hfalse⟩)
  | @load _ _ _ _ pointer alignment stored isVolatile q hat' hresult' hkind hstored hfrom =>
      obtain ⟨rfl, rfl, rfl⟩ := instruction_unique accepted hat hresult hat' hresult' hv
      obtain ⟨declared, address, hdeclared, hpointer, rfl⟩ := hstep.of_load hkind
      obtain rfl : declared = result := some.inj (hdeclared.symm.trans hresult)
      rw [State.define_env, Function.update_self] at hvalue
      cases hvalue
      refine (tracked.covers stored p hfrom).mono (fun o ho => ?_) hheld
      exact hreads _ _ _ _ _ _ _ _ rfl hkind hresult hpointer hstored o ho

/-- A slot newly holds only an object that did not exist before. -/
theorem held_slot (accepted : module.Accepts f) (hat : f.instructionAt b i = some instruction)
    (hstep : Step M module f instruction s observation s') (hslot : f.IsSlot v) {o : ℕ}
    (ho : o ∈ Held (trace ++ [⟨b, i, s, .instruction instruction observation⟩]) s' v) :
    o ∈ Held trace s v ∨
      o ∉ s.allocated ∧ ∃ result, instruction.result = some result ∧ result.value = v := by
  by_cases hdefines : ∃ result, instruction.result = some result ∧ result.value = v
  · obtain ⟨result, hresult, rfl⟩ := hdefines
    rcases mem_held_append.mp ho with hold | ⟨value, hvalue, hin⟩
    · exact .inl hold
    · obtain ⟨b', i', instruction', result', ty, count, hat', hresult', heq, hkind⟩ := hslot
      obtain ⟨rfl, rfl, rfl⟩ := instruction_unique accepted hat hresult hat' hresult' heq
      obtain ⟨declared, object, hdeclared, hfresh, rfl⟩ := hstep.of_stackAlloc hkind
      obtain rfl : declared = result := some.inj (hdeclared.symm.trans hresult)
      simp only [State.allocate, Function.update_self, Option.some.injEq] at hvalue
      subst hvalue
      obtain rfl : o = object := by simpa using hin
      exact .inr ⟨hfresh, declared, hresult, rfl⟩
  · have henv : s'.env v = s.env v := hstep.env_of_ne fun result hresult heq =>
      hdefines ⟨result, hresult, heq⟩
    rw [held_append_of_env_eq henv] at ho
    exact .inl ho

/-- The step lemma. -/
theorem step (accepted : module.Accepts f) (tracked : Tracked f start trace s) (closed : s.Closed)
    {b i : ℕ} {instruction : Instruction} {observation : Observation M}
    (hat : f.instructionAt b i = some instruction)
    (hstep : Step M module f instruction s observation s')
    (hreads : ReadsStored f trace ⟨b, i, s, .instruction instruction observation⟩) :
    Tracked f start (trace ++ [⟨b, i, s, .instruction instruction observation⟩]) s' where
  covers v p hp := by
    have hgrow := held_subset_append trace ⟨b, i, s, .instruction instruction observation⟩ s'
    by_cases hdefines : ∃ result, instruction.result = some result ∧ result.value = v
    · obtain ⟨result, hresult, rfl⟩ := hdefines
      -- what the result held before is covered still, and the new value is
      have hold := (tracked.covers _ p hp).mono Set.Subset.rfl hgrow
      cases hvalue : s'.env result.value with
      | none =>
          refine hold.mono (fun o ho => ?_) fun _ => Set.Subset.rfl
          rcases mem_held_append.mp ho with ho | ⟨value, hbound, _⟩
          · exact ho
          · cases hvalue.symm.trans hbound
      | some value =>
          have hnew := tracked.covers_result accepted hat hstep hreads hresult hvalue hgrow
            (fun o ho => mem_held_self hvalue ho) rfl hp
          refine (hold.union hnew).mono (fun o ho => ?_) fun _ => Set.Subset.rfl
          rcases mem_held_append.mp ho with ho | ⟨other, hbound, hin⟩
          · exact .inl ho
          · obtain rfl : value = other := some.inj (hvalue.symm.trans hbound)
            exact .inr hin
    · have henv : s'.env v = s.env v := hstep.env_of_ne fun result hresult heq =>
        hdefines ⟨result, hresult, heq⟩
      rw [held_append_of_env_eq henv]
      exact (tracked.covers v p hp).mono Set.Subset.rfl hgrow
  apart v w hv hw hne o hov how := by
    -- a slot gets its object once, and that object is new then
    rcases held_slot accepted hat hstep hv hov with hov | ⟨hfresh, result, hresult, rfl⟩
    · rcases held_slot accepted hat hstep hw how with how | ⟨hfresh, _⟩
      · exact tracked.apart v w hv hw hne o hov how
      · exact hfresh (tracked.within v o hov)
    · rcases held_slot accepted hat hstep hw how with how | ⟨_, other, hother, rfl⟩
      · exact hfresh (tracked.within w o how)
      · obtain rfl : result = other := some.inj (hresult.symm.trans hother)
        exact hne rfl
  fresh v hv o ho hstart := by
    rcases held_slot accepted hat hstep hv ho with ho | ⟨hfresh, _⟩
    · exact tracked.fresh v hv o ho hstart
    · exact hfresh (tracked.grows hstart)
  within v o ho := by
    rcases mem_held_append.mp ho with ho | ⟨value, hvalue, hin⟩
    · exact hstep.allocated_subset (tracked.within v o ho)
    · exact (closed.step hstep).env v value hvalue hin
  grows := tracked.grows.trans hstep.allocated_subset

/-- Edges bind block parameters, about which the analysis says nothing. -/
theorem edge (accepted : module.Accepts f) (tracked : Tracked f start trace s) (closed : s.Closed)
    {event : Event M} (hbefore : event.before = s) {t : ℕ} {target : Block}
    {operands : List ValueId} {values : List RuntimeValue} (htarget : f.blocks[t]? = some target)
    (hvalues : s.values operands = some values) :
    Tracked f start (trace ++ [event]) (s.bind target.parameters values) := by
  subst hbefore
  -- only block parameters change, and no slot is one
  have hsame : ∀ v, v ∉ target.parameters.map TypedValue.value →
      Held (trace ++ [event]) (event.before.bind target.parameters values) v =
        Held trace event.before v :=
    fun v hv => held_append_of_env_eq (State.bind_env_of_notMem hv)
  have hdefined : ∀ v ∈ target.parameters.map TypedValue.value,
      ∃ ty, f.DefinedAt v ty (.blockParameter t) := by
    intro v hv
    obtain ⟨p, hp, rfl⟩ := List.mem_map.mp hv
    exact ⟨p.ty, Function.definedAt_blockParameter.mpr ⟨target, htarget, hp⟩⟩
  have hslot : ∀ v, f.IsSlot v → v ∉ target.parameters.map TypedValue.value := by
    rintro v ⟨b, i, instruction, result, ty, count, hat, hresult, rfl, _⟩ hv
    obtain ⟨ty', hblock⟩ := hdefined _ hv
    cases (accepted.unique hblock
      (Function.definedAt_instruction.mpr ⟨instruction, hat, hresult⟩)).2
  refine ⟨fun v p hp => ?_, fun v w hv hw hne o hov how => ?_, fun v hv o ho => ?_,
    fun v o ho => ?_, ?_⟩
  · by_cases hv : v ∈ target.parameters.map TypedValue.value
    · -- a block parameter is neither a parameter of the function nor a result
      obtain ⟨ty, hblock⟩ := hdefined v hv
      have hother : ∀ {b i : ℕ} {instruction : Instruction} {result : TypedValue},
          f.instructionAt b i = some instruction → instruction.result = some result →
          result.value ≠ v := by
        rintro b i instruction result hat hresult rfl
        cases (accepted.unique hblock
          (Function.definedAt_instruction.mpr ⟨instruction, hat, hresult⟩)).2
      have hentry : ∀ {p : TypedValue}, p ∈ f.parameters → p.value ≠ v := by
        rintro p hparameter rfl
        cases (accepted.unique hblock (Function.definedAt_functionParameter.mpr hparameter)).2
      cases hp with
      | parameter hparameter | contractParameter hparameter => exact absurd rfl (hentry hparameter)
      | contract => exact Set.Subset.rfl
      | unknown => trivial
      | shared => trivial
      | unique hslot' => exact absurd hv (hslot _ hslot')
      | extractValue hat hresult | load hat hresult | offset hat hresult | cast hat hresult
      | select hat hresult => exact absurd rfl (hother hat hresult)
    · rw [hsame v hv]
      exact (tracked.covers v p hp).mono Set.Subset.rfl fun w => held_subset_append trace _ _ w
  · rw [hsame v (hslot v hv)] at hov
    rw [hsame w (hslot w hw)] at how
    exact tracked.apart v w hv hw hne o hov how
  · rw [hsame v (hslot v hv)] at ho
    exact tracked.fresh v hv o ho
  · rw [State.bind_allocated]
    rcases mem_held_append.mp ho with ho | ⟨value, hvalue, hin⟩
    · exact tracked.within v o ho
    · have hclosed := (closed.bind hvalues target.parameters).env v value hvalue hin
      rwa [State.bind_allocated] at hclosed
  · rw [State.bind_allocated]
    exact tracked.grows

/-- At entry only the parameters hold anything. -/
theorem initial (accepted : module.Accepts f) (hstart : start.Initial f) :
    Tracked f start [] start := by
  -- before the first step values are those of the parameters
  have hparameter : ∀ v o, o ∈ Held [] start v → ∃ p ∈ f.parameters, p.value = v := by
    rintro v o ⟨state, hstate | ⟨event, hevent, _⟩, value, hv, _⟩
    · subst hstate
      obtain ⟨ty, hp⟩ := hstart.env v value hv
      exact ⟨_, hp, rfl⟩
    · cases hevent
  have hallocated : ∀ v o, o ∈ Held [] start v → o ∈ start.allocated := by
    rintro v o ⟨state, hstate | ⟨event, hevent, _⟩, value, hv, ho⟩
    · subst hstate
      exact hstart.exposed (hstart.arguments v value hv ho)
    · cases hevent
  have hresult : ∀ {b i : ℕ} {instruction : Instruction} {result : TypedValue},
      f.instructionAt b i = some instruction → instruction.result = some result →
      Held [] start result.value = ∅ := by
    intro b i instruction result hat hdeclared
    refine Set.eq_empty_iff_forall_notMem.mpr fun o ho => ?_
    obtain ⟨p, hp, heq⟩ := hparameter _ o ho
    exact parameter_ne_result accepted hat hdeclared hp heq
  have hslot : ∀ v, f.IsSlot v → Held [] start v = ∅ := by
    rintro v ⟨b, i, instruction, result, ty, count, hat, hdeclared, rfl, _⟩
    exact hresult hat hdeclared
  refine ⟨fun v p hp => ?_, fun v w hv _ _ o ho => ?_, fun v hv o ho => ?_, hallocated,
    Finset.Subset.refl _⟩
  · cases hp with
    | parameter => exact hallocated _
    | contractParameter => exact ⟨Set.Subset.rfl, hallocated _⟩
    | contract => exact Set.Subset.rfl
    | unknown => trivial
    | shared => trivial
    | unique => exact Set.Subset.rfl
    | extractValue hat hdeclared | load hat hdeclared | offset hat hdeclared
    | cast hat hdeclared | select hat hdeclared => rw [hresult hat hdeclared]; exact Covers.empty
  · rw [hslot v hv] at ho
    exact absurd ho (Set.notMem_empty o)
  · rw [hslot v hv] at ho
    exact absurd ho (Set.notMem_empty o)

/-- The run lemma. -/
theorem run (accepted : module.Accepts f) (hstart : start.Initial f) {b i : ℕ}
    (run : Run M module f start trace b i s)
    (hreads : Throughout (ReadsStored f) trace) : Tracked f start trace s := by
  induction run with
  | start => exact initial accepted hstart
  | step run hat hstep ih =>
      obtain ⟨hbefore, hlast⟩ := hreads.of_append
      exact (ih hbefore).step accepted (run.closed hstart.closed) hat hstep hlast
  | edge run hblock hgoto hvalues htarget ih =>
      obtain ⟨hbefore, _⟩ := hreads.of_append
      exact (ih hbefore).edge accepted (run.closed hstart.closed) rfl htarget hvalues

variable {root : ValueId} {left right : Set ℕ}

/-- Slots hold nothing that existed at entry. -/
theorem apart_of_entry (tracked : Tracked f start trace s) (hslot : f.IsSlot root)
    (hleft : left ⊆ start.allocated) (hright : right ⊆ Held trace s root) : Disjoint left right :=
  Set.disjoint_left.mpr fun o ho ho' => tracked.fresh root hslot o (hright ho') (hleft ho)

theorem apart_of_slots (tracked : Tracked f start trace s) {root' : ValueId}
    (hslot : f.IsSlot root) (hslot' : f.IsSlot root')
    (hne : (if root ≠ root' then AliasRelation.noAlias else .mayAlias) = .noAlias)
    (hleft : left ⊆ Held trace s root) (hright : right ⊆ Held trace s root') :
    Disjoint left right := by
  have hne : root ≠ root' := by
    by_contra heq
    simp [heq] at hne
  exact Set.disjoint_left.mpr fun o ho ho' =>
    tracked.apart root root' hslot hslot' hne o (hleft ho) (hright ho')

variable {contracts : List (ValueId × ValueId)}

/-- Handles of a contract hold different objects as long as the contract is kept. -/
theorem apart_of_contracts (handles : HandlesApart f trace s)
    (hcontracts : ∀ pair ∈ contracts, ∃ left right, pair = ordered left right ∧
      f.IsContract left right) {root' : ValueId}
    (hmem : (if root ≠ root' ∧ ordered root root' ∈ contracts then AliasRelation.noAlias
      else .mayAlias) = .noAlias) (hleft : left ⊆ Held trace s root)
    (hright : right ⊆ Held trace s root') : Disjoint left right := by
  have hpair : ordered root root' ∈ contracts := by
    by_contra hnot
    simp [hnot] at hmem
  obtain ⟨a, b, heq, hmarker⟩ := hcontracts _ hpair
  refine Set.disjoint_left.mpr fun o ho ho' => ?_
  rcases ordered_eq_ordered heq with ⟨rfl, rfl⟩ | ⟨rfl, rfl⟩
  · exact handles _ _ hmarker o (hleft ho) (hright ho')
  · exact handles _ _ hmarker o (hright ho') (hleft ho)

/-- Provenances that are reported apart cover different objects. -/
theorem apart_of_aliasRelation (tracked : Tracked f start trace s)
    (handles : HandlesApart f trace s)
    (hcontracts : ∀ pair ∈ contracts, ∃ left right, pair = ordered left right ∧
      f.IsContract left right) {w : ValueId} {p q : Provenance} (hp : Justified f v p)
    (hq : Justified f w q) (hapart : aliasRelation p q contracts = .noAlias) :
    Disjoint (Held trace s v) (Held trace s w) := by
  have hv := tracked.covers v p hp
  have hw := tracked.covers w q hq
  have hvslot := hp.isSlot
  have hwslot := hq.isSlot
  -- one of the roots is a slot, or both are handles of one contract
  cases p with
  | parameter =>
      cases q with
      | unique root' => exact tracked.apart_of_entry (hwslot root' (.inl rfl)) hv hw
      | derivedUnique root' => exact tracked.apart_of_entry (hwslot root' (.inr rfl)) hv hw
      | _ => cases hapart
  | contractParameter =>
      cases q with
      | unique root' => exact tracked.apart_of_entry (hwslot root' (.inl rfl)) hv.2 hw
      | derivedUnique root' => exact tracked.apart_of_entry (hwslot root' (.inr rfl)) hv.2 hw
      | contract => exact apart_of_contracts handles hcontracts hapart hv.1 hw
      | contractParameter => exact apart_of_contracts handles hcontracts hapart hv.1 hw.1
      | _ => cases hapart
  | unique root =>
      have hslot := hvslot root (.inl rfl)
      cases q with
      | parameter => exact (tracked.apart_of_entry hslot hw hv).symm
      | contractParameter => exact (tracked.apart_of_entry hslot hw.2 hv).symm
      | unique root' => exact tracked.apart_of_slots hslot (hwslot root' (.inl rfl)) hapart hv hw
      | derivedUnique root' =>
          exact tracked.apart_of_slots hslot (hwslot root' (.inr rfl)) hapart hv hw
      | _ => cases hapart
  | derivedUnique root =>
      have hslot := hvslot root (.inr rfl)
      cases q with
      | parameter => exact (tracked.apart_of_entry hslot hw hv).symm
      | contractParameter => exact (tracked.apart_of_entry hslot hw.2 hv).symm
      | unique root' => exact tracked.apart_of_slots hslot (hwslot root' (.inl rfl)) hapart hv hw
      | derivedUnique root' =>
          exact tracked.apart_of_slots hslot (hwslot root' (.inr rfl)) hapart hv hw
      | _ => cases hapart
  | contract =>
      cases q with
      | contract => exact apart_of_contracts handles hcontracts hapart hv hw
      | contractParameter => exact apart_of_contracts handles hcontracts hapart hv hw.1
      | _ => cases hapart
  | shared => cases hapart
  | unknown => cases hapart

end Tracked

/-! ## The analysis of a module -/

/-- Functions of an accepted module are told apart by their ids. -/
theorem Module.Accepts.eq_of_id (accepted : module.Accepts f) {g : Function}
    (hg : g ∈ module.functions) (hid : g.id = f.id) : g = f := by
  have hverified := accepted.verified
  simp only [Module.verify, List.append_eq_nil_iff, List.flatMap_eq_nil_iff] at hverified
  have hindex : ∀ {h : Function} {n : ℕ}, module.functions[n]? = some h → h.id = n := by
    intro h n hn
    have hcheck := (hverified.2 (h, n) (List.mem_zipIdx_iff_getElem?.mpr hn)).1
    by_contra hne
    rw [if_neg hne] at hcheck
    cases hcheck
  obtain ⟨n, hn⟩ := List.getElem?_of_mem hg
  obtain ⟨m, hm⟩ := List.getElem?_of_mem accepted.member
  have hnm : n = m := by rw [← hindex hn, ← hindex hm, hid]
  subst hnm
  exact some.inj (hn.symm.trans hm)

/-- A pair reported apart was found apart by the walk over its function. -/
theorem relationOf_of_relation (accepted : module.Accepts f) {left right : ValueId}
    (h : module.analyzeAliases.relation f.id left right = .noAlias) :
    ∃ v w, ordered v w = ordered left right ∧
      (ProvenanceState.ofFunction module f).relationOf v w = .noAlias := by
  unfold AliasAnalysis.relation at h
  split at h
  · cases h
  · cases hlookup : module.analyzeAliases.relations.lookup (f.id, ordered left right) with
    | none => simp [hlookup] at h
    | some =>
        rw [hlookup, Option.getD_some] at h
        subst h
        obtain ⟨before, after, hrelations, _⟩ := List.lookup_eq_some_iff.mp hlookup
        have hmem : ((f.id, ordered left right), AliasRelation.noAlias) ∈
            module.analyzeAliases.relations := by
          rw [hrelations]
          simp
        obtain ⟨g, hg, hpair⟩ := List.mem_flatMap.mp (List.mem_reverse.mp hmem)
        obtain ⟨⟨v, w⟩, _, hentry⟩ := List.mem_map.mp hpair
        simp only [Prod.mk.injEq] at hentry
        obtain ⟨⟨hid, hordered⟩, hrelation⟩ := hentry
        cases accepted.eq_of_id hg hid
        exact ⟨v, w, hordered, hrelation⟩

/-- Two pointers point into one object. -/
def State.Overlap (s : State M) (left right : ValueId) : Prop :=
  ∃ address address', s.env left = some (.pointer (some address)) ∧
    s.env right = some (.pointer (some address')) ∧ address.object = address'.object

/-- **Pointers reported `noAlias` never overlap** on a run on which each load
reads what the store remembered for its pointer put there, and the contracts
between handles are kept. -/
theorem not_overlap_of_noAlias {start s : State M} {trace : List (Event M)} {b i : ℕ}
    {left right : ValueId} (accepted : module.Accepts f) (hstart : start.Initial f)
    (hrun : Run M module f start trace b i s) (hreads : Throughout (ReadsStored f) trace)
    (handles : HandlesApart f trace s)
    (hapart : module.analyzeAliases.relation f.id left right = .noAlias) :
    ¬ s.Overlap left right := by
  rintro ⟨address, address', hleft, hright, hobject⟩
  have tracked := Tracked.run accepted hstart hrun hreads
  have explained := @ProvenanceState.explained_ofFunction module f
  have hjustified : ∀ v, Justified f v
      (((ProvenanceState.ofFunction module f).provenance v).getD .unknown) := by
    intro v
    cases hv : (ProvenanceState.ofFunction module f).provenance v with
    | none => exact .unknown v
    | some p => exact explained.provenance v p hv
  obtain ⟨v, w, hordered, hrelation⟩ := relationOf_of_relation accepted hapart
  have hdisjoint := tracked.apart_of_aliasRelation handles explained.contracts (hjustified v)
    (hjustified w) hrelation
  have hin : address.object ∈ Held trace s left := mem_held_self hleft (by simp)
  have hin' : address.object ∈ Held trace s right := mem_held_self hright (by simp [hobject])
  rcases ordered_eq_ordered hordered with ⟨rfl, rfl⟩ | ⟨rfl, rfl⟩
  · exact Set.disjoint_left.mp hdisjoint hin hin'
  · exact Set.disjoint_left.mp hdisjoint hin' hin

/-- A pointer to a slot is stored and loaded again: `u32 s; u32 t; u32* p = &s; l = p`. -/
def reloaded : Function :=
  .of [] 3
    [.of 0 []
      [.defining 0 1 (.stackAlloc 0 none), .defining 1 1 (.stackAlloc 0 none),
        .defining 2 2 (.stackAlloc 1 none), .effect (.store 2 0 8 false),
        .defining 3 1 (.load 2 8 false)]
      (.ret none)]

def reloadedModule : Module :=
  ⟨[.integer false 32, .pointer 0 .stack, .pointer 1 .stack, .unit], [reloaded]⟩

theorem not_overlap_reloaded :
    ∃ (s : State cells) (trace : List (Event cells)),
      Run cells reloadedModule reloaded blank trace 0 5 s ∧
        s.env 3 = some (.pointer (some ⟨1, 0⟩)) ∧ s.env 1 = some (.pointer (some ⟨2, 0⟩)) ∧
          ¬ s.Overlap 3 1 := by
  let stored (event : Event cells) := if event.index = 4 then
    some (event.before.env 0, event.before.env 2, event.before.read ⟨3, 0⟩ 1) else none
  obtain ⟨c, hrun, hobserved⟩ := Configuration.exists_run reloadedModule reloaded blank 5
    (fun c => (c.block, c.index, c.state.env 3, c.state.env 1,
      c.trace.map fun event => (event.block, event.index, stored event)))
    (a := (0, 5, some (.pointer (some ⟨1, 0⟩)), some (.pointer (some ⟨2, 0⟩)),
      [(0, 0, none), (0, 1, none), (0, 2, none), (0, 3, none),
        (0, 4, some (some (.pointer (some ⟨1, 0⟩)), some (.pointer (some ⟨3, 0⟩)),
          .pointer (some ⟨1, 0⟩)))])) rfl
  simp only [Prod.mk.injEq] at hobserved
  obtain ⟨hblock, hindex, hleft, hright, htrace⟩ := hobserved
  refine ⟨c.state, c.trace, hblock ▸ hindex ▸ hrun, hleft, hright, ?_⟩
  refine not_overlap_of_noAlias ⟨rfl, by simp [reloadedModule]⟩ (initial_blank _) hrun ?_ ?_ rfl
  · -- the only load is the last instruction
    intro earlier event later hsplit instruction observation pointer alignment isVolatile result
      address value haction hkind hresult hpointer hlast o ho
    have hmem : event ∈ c.trace := hsplit ▸ by simp
    obtain ⟨hat, _⟩ := hrun.step_of_mem hmem haction
    have hseen := List.mem_map_of_mem
        (f := fun event => (event.block, event.index, stored event)) hmem
    rw [htrace] at hseen
    simp only [List.mem_cons, Prod.mk.injEq, List.not_mem_nil, or_false] at hseen
    rcases hseen with ⟨hb, hi, -⟩ | ⟨hb, hi, -⟩ | ⟨hb, hi, -⟩ | ⟨hb, hi, -⟩ | ⟨hb, hi, hstored⟩
    all_goals
      rw [hb, hi] at hat
      cases hat
      cases hkind
    rw [hb, hi] at hlast
    cases hlast
    cases hresult
    simp only [stored, hi, if_true, Option.some.injEq, Prod.mk.injEq] at hstored
    obtain ⟨hslot, hfrom, hread⟩ := hstored
    cases hfrom.symm.trans hpointer
    exact mem_held_self hslot (hread ▸ ho)
  · rintro left right ⟨instruction, hmem, hkind⟩
    simp only [reloaded, instructions_of, List.mem_cons, List.not_mem_nil, or_false] at hmem
    rcases hmem with rfl | rfl | rfl | rfl | rfl <;> cases hkind

/-- A second pointer to a slot that holds addresses is stored through after the
first: `u32 s; u32 t; u32* p = &s; u32** q = &p; *q = &t; l = p`. -/
def storedTwice : Function :=
  .of [] 3
    [.of 0 []
      [.defining 0 0 (.constant (.integer 0)), .defining 1 1 (.stackAlloc 0 none),
        .defining 2 1 (.stackAlloc 0 none), .defining 3 2 (.stackAlloc 1 none),
        .defining 4 2 (.offset 3 [0]), .effect (.store 3 1 8 false), .effect (.store 4 2 8 false),
        .defining 5 1 (.load 3 8 false)]
      (.ret none)]

def storedTwiceModule : Module :=
  ⟨[.integer false 32, .pointer 0 .stack, .pointer 1 .stack, .unit], [storedTwice]⟩

theorem accepts_storedTwice : storedTwiceModule.Accepts storedTwice :=
  ⟨rfl, by simp [storedTwiceModule]⟩

/-- The value loaded is the address that the second pointer stored, of the slot
it is reported apart from. -/
theorem overlap_storedTwice :
    ¬ ∀ (M : Machine) (module : Module) (f : Function) (start s : State M) (trace : List (Event M))
      (b i : ℕ) (left right : ValueId), module.Accepts f → start.Initial f →
      Run M module f start trace b i s →
      module.analyzeAliases.relation f.id left right = .noAlias → ¬ s.Overlap left right := by
  intro h
  obtain ⟨c, hrun, hobserved⟩ := Configuration.exists_run storedTwiceModule storedTwice blank 8
    (fun c => (c.state.env 2, c.state.env 5))
    (a := (some (.pointer (some ⟨2, 0⟩)), some (.pointer (some ⟨2, 0⟩)))) rfl
  simp only [Prod.mk.injEq] at hobserved
  exact h cells storedTwiceModule storedTwice blank c.state c.trace c.block c.index 2 5
    accepts_storedTwice (initial_blank _) hrun rfl ⟨_, _, hobserved.1, hobserved.2, rfl⟩

end Jadren.Jir
