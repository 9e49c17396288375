import Jadren.Jir.Bindings

/-!
# What an accepted function reads is bound

Every operand of an accepted instruction or terminator is in scope: its
definition lies before the use on every path.  Along a path, definitions that
were passed are bound, each to a value of its declared type
(`BindingPath.bound_of_precedes`).  The one exception are the parameters of the
entry block: the start of the path passes them, and no edge was taken.

`exists_unbound` is the other direction.  The entry block can always have been
entered for the last time without an edge, so a path to any reachable block
exists on which its parameters are not bound.
-/

namespace Jadren.Jir

open Dominance (Precedes Reachable)
open List Instruction

variable {module : Module} {f : Function}

/-! ## Edges -/

variable {terminator : Terminator} {t : BlockId}

theorem Terminator.mem_successorIds :
    t ∈ terminator.successorIds ↔ ∃ arguments, (t, arguments) ∈ terminator.edges := by
  cases terminator with
  | switch discriminant cases default defaultArguments =>
      simp only [successorIds, edges, mem_append, mem_map, mem_singleton,
        Prod.mk.injEq]
      constructor
      · rintro (⟨case, hcase, rfl⟩ | rfl)
        · exact ⟨case.arguments, Or.inl ⟨case, hcase, rfl, rfl⟩⟩
        · exact ⟨defaultArguments, Or.inr ⟨rfl, rfl⟩⟩
      · rintro ⟨arguments, ⟨case, hcase, rfl, -⟩ | ⟨rfl, -⟩⟩
        · exact Or.inl ⟨case, hcase, rfl⟩
        · exact Or.inr rfl
  | _ => simp [successorIds, edges, exists_or]

variable {arguments : List ValueId}

/-- What an edge passes is read by the terminator. -/
theorem Terminator.arguments_subset (h : (t, arguments) ∈ terminator.edges) :
    arguments ⊆ terminator.operands := by
  intro v hv
  cases terminator with
  | ret value | unreachable => cases h
  | jump =>
      simp only [edges, mem_singleton, Prod.mk.injEq] at h
      obtain ⟨rfl, rfl⟩ := h
      exact hv
  | branch =>
      simp only [edges, mem_cons, not_mem_nil, or_false, Prod.mk.injEq] at h
      obtain ⟨rfl, rfl⟩ | ⟨rfl, rfl⟩ := h
      · simp [operands, hv]
      · simp [operands, hv]
  | switch =>
      simp only [edges, mem_append, mem_map, mem_singleton, Prod.mk.injEq] at h
      simp only [operands, mem_cons, mem_append, mem_flatMap]
      obtain ⟨case, hcase, rfl, rfl⟩ | ⟨rfl, rfl⟩ := h
      · exact Or.inr (Or.inl ⟨case, hcase, hv⟩)
      · exact Or.inr (Or.inr hv)

namespace UseContext

variable {context : UseContext}

theorem checkEdge_of_checkCases {seen : List ℤ} {cases : List SwitchCase}
    (h : context.checkCases seen cases = []) {case : SwitchCase} (hcase : case ∈ cases) :
    context.checkEdge case.target case.arguments = [] := by
  induction cases generalizing seen with
  | nil => cases hcase
  | cons first rest ih =>
      simp only [checkCases, append_eq_nil_iff] at h
      obtain rfl | hrest := mem_cons.mp hcase
      · exact h.1.2
      · exact ih h.2 hrest

theorem checkEdge_of_verifyTerminator {terminator : Terminator}
    (h : context.verifyTerminator terminator = []) {t : BlockId} {arguments : List ValueId}
    (hedge : (t, arguments) ∈ terminator.edges) : context.checkEdge t arguments = [] := by
  cases terminator with
  | ret value | unreachable => cases hedge
  | jump =>
      simp only [Terminator.edges, mem_singleton, Prod.mk.injEq] at hedge
      obtain ⟨rfl, rfl⟩ := hedge
      exact h
  | branch =>
      simp only [verifyTerminator, append_eq_nil_iff] at h
      simp only [Terminator.edges, mem_cons, not_mem_nil, or_false, Prod.mk.injEq] at hedge
      obtain ⟨rfl, rfl⟩ | ⟨rfl, rfl⟩ := hedge
      · exact h.1.2
      · exact h.2
  | switch =>
      simp only [verifyTerminator, append_eq_nil_iff] at h
      simp only [Terminator.edges, mem_append, mem_map, mem_singleton,
        Prod.mk.injEq] at hedge
      obtain ⟨case, hcase, rfl, rfl⟩ | ⟨rfl, rfl⟩ := hedge
      · exact checkEdge_of_checkCases h.1.2 hcase
      · exact h.2

end UseContext

/-! ## Binding block parameters -/

namespace Bindings

variable {bound : Bindings} {parameters : List TypedValue} {types : List (Option TypeId)}
  {v : ValueId}

theorem enter_of_notMem (hv : v ∉ parameters.map TypedValue.value) :
    bound.enter parameters types v = bound v := by
  induction parameters generalizing bound types with
  | nil => cases types <;> rfl
  | cons parameter rest ih =>
      rw [map_cons, mem_cons, not_or] at hv
      cases types with
      | nil => rfl
      | cons =>
          rw [enter, ih hv.2]
          exact Function.update_of_ne hv.1 _ _

/-- A parameter is bound to what the edge passes for it. -/
theorem enter_of_mem {ty : TypeId} (hv : v ∈ parameters.map TypedValue.value)
    (htypes : types = parameters.map fun parameter => some parameter.ty)
    (hty : ∀ parameter ∈ parameters, parameter.value = v → parameter.ty = ty) :
    bound.enter parameters types v = some ty := by
  subst htypes
  induction parameters generalizing bound with
  | nil => cases hv
  | cons parameter rest ih =>
      rw [map_cons, enter]
      by_cases hrest : v ∈ rest.map TypedValue.value
      · exact ih hrest fun other hother => hty other (mem_cons_of_mem _ hother)
      · rw [enter_of_notMem hrest]
        have hsame : v = parameter.value := by
          rw [map_cons, mem_cons] at hv
          exact hv.resolve_right hrest
        rw [hsame, Function.update_self, hty parameter (by simp) hsame.symm]

end Bindings

/-! ## Paths through an accepted function -/

/-- A site that a path binds whenever it passes it. -/
def DefinitionSite.Bound (site : DefinitionSite) : Prop := site ≠ .blockParameter 0

variable {v : ValueId} {ty : TypeId}

theorem Function.typeOf_eq_some (accepted : module.Accepts f) :
    f.typeOf v = some ty ↔ ∃ site, f.DefinedAt v ty site := by
  simp only [typeOf, Option.map_eq_some_iff]
  constructor
  · rintro ⟨⟨ty', site⟩, hlookup, rfl⟩
    exact ⟨site, accepted.lookup_definitions.mp hlookup⟩
  · rintro ⟨site, hdefined⟩
    exact ⟨⟨ty, site⟩, accepted.lookup_definitions.mpr hdefined, rfl⟩

theorem Function.entryBindings_of_mem (accepted : module.Accepts f) (h : ⟨v, ty⟩ ∈ f.parameters) :
    f.entryBindings v = some ty := by
  have hsome : (f.parameters.find? fun parameter => parameter.value == v).isSome = true :=
    find?_isSome.mpr ⟨⟨v, ty⟩, h, by simp⟩
  obtain ⟨found, hfound⟩ := Option.isSome_iff_exists.mp hsome
  have hvalue : found.value = v := by simpa using find?_some hfound
  have hdefined : f.DefinedAt v found.ty .functionParameter :=
    Function.definedAt_functionParameter.mpr (hvalue ▸ mem_of_find?_eq_some hfound)
  have hty := (accepted.unique hdefined (Function.definedAt_functionParameter.mpr h)).1
  simp [entryBindings, hfound, hty]

theorem Function.entryBindings_of_notMem (h : v ∉ f.parameters.map TypedValue.value) :
    f.entryBindings v = none := by
  unfold entryBindings
  rw [Option.map_eq_none_iff, find?_eq_none]
  intro parameter hparameter hv
  exact h (mem_map.mpr ⟨parameter, hparameter, by simpa using hv⟩)

namespace BindingPath

variable {b i : ℕ} {bound : Bindings}

theorem reachable (path : BindingPath module f b i bound) : Reachable f.Edge b := by
  induction path with
  | entry => exact ⟨[], .entry⟩
  | step path hat ih => exact ih
  | edge path hblock hedge htarget ih =>
      exact ih.step ⟨_, hblock, Terminator.mem_successorIds.mpr ⟨_, hedge⟩⟩

end BindingPath

/-- Nothing that control can reach reads a parameter of the entry block. -/
def Function.IgnoresEntryParameters (f : Function) : Prop :=
  ∀ b i v, Reachable f.Edge b → f.ReadsAt b i v → ¬ f.EntryParameter v

variable {b i : ℕ}

theorem Module.Accepts.inScope_of_readsAt (accepted : module.Accepts f) (h : f.ReadsAt b i v) :
    f.InScope v (b, i + 1) := by
  obtain ⟨instruction, hat, hv⟩ | ⟨block, hblock, rfl, hv⟩ := h
  · exact accepted.operand_inScope hat hv
  · exact accepted.terminator_inScope hblock hv

/-- The bindings hold every definition that was passed, with its type. -/
def BindsPassed (f : Function) (b i : ℕ) (bound : Bindings) : Prop :=
  ∀ v ty site, f.DefinedAt v ty site → f.sitePrecedes site (b, i + 1) → site.Bound →
    bound v = some ty

theorem BindsPassed.of_readsAt (accepted : module.Accepts f) (hignores : f.IgnoresEntryParameters)
    {bound : Bindings} (h : BindsPassed f b i bound) (hreach : Reachable f.Edge b)
    (hreads : f.ReadsAt b i v) : ∃ ty, bound v = some ty ∧ f.typeOf v = some ty := by
  obtain ⟨ty, site, hdefined, hprecedes⟩ := accepted.inScope_of_readsAt hreads
  refine ⟨ty, h v ty site hdefined hprecedes ?_, (f.typeOf_eq_some accepted).mpr ⟨site, hdefined⟩⟩
  rintro rfl
  obtain ⟨entry, hentry, hparameter⟩ := Function.definedAt_blockParameter.mp hdefined
  exact hignores b i v hreach hreads ⟨entry, hentry, mem_map.mpr ⟨_, hparameter, rfl⟩⟩

theorem bindsPassed_entry (accepted : module.Accepts f) : BindsPassed f 0 0 f.entryBindings := by
  intro v ty site hdefined hprecedes hbound
  cases site with
  | functionParameter =>
      exact f.entryBindings_of_mem accepted (Function.definedAt_functionParameter.mp hdefined)
  | blockParameter =>
      obtain hvisited | ⟨hsame, -⟩ := hprecedes [] .entry
      · cases hvisited
      · exact absurd (congrArg DefinitionSite.blockParameter hsame) hbound
  | instruction =>
      obtain hvisited | ⟨-, hindex⟩ := hprecedes [] .entry
      · cases hvisited
      · exact absurd hindex (by simp)

/-- An instruction binds its result, with the declared type. -/
theorem BindsPassed.step (accepted : module.Accepts f) (hignores : f.IgnoresEntryParameters)
    {b i : ℕ} {bound : Bindings} (h : BindsPassed f b i bound) (hreach : Reachable f.Edge b)
    {instruction : Instruction} (hat : f.instructionAt b i = some instruction) :
    BindsPassed f b (i + 1) (instruction.bind module bound) := by
  -- the operands are bound with their declared types, so the result gets its own
  have hyields : instruction.yields module bound = instruction.result.map TypedValue.ty := by
    obtain ⟨block, -, hcheck⟩ := accepted.verifyInstruction_eq_nil hat
    rw [← UseContext.yields_of_verify hcheck]
    apply yields_congr
    intro v hv
    obtain ⟨ty, hbound, hty⟩ := h.of_readsAt accepted hignores hreach (Or.inl ⟨_, hat, hv⟩)
    exact hbound.trans hty.symm
  intro v ty site hdefined hprecedes hbound
  by_cases hsite : site = .instruction b i
  · subst hsite
    obtain ⟨instruction', hat', hresult'⟩ := Function.definedAt_instruction.mp hdefined
    obtain rfl : instruction = instruction' := Option.some.inj (hat.symm.trans hat')
    rw [bind_result hresult', hyields, hresult']
    rfl
  · have hbefore : f.sitePrecedes site (b, i + 1) := by
      cases site with
      | functionParameter => trivial
      | blockParameter => exact Precedes.of_succ hprecedes (by simp)
      | instruction =>
          apply Precedes.of_succ hprecedes
          rintro heq
          obtain ⟨rfl, hindex⟩ := Prod.mk.inj heq
          exact hsite (by rw [Nat.succ.inj hindex])
    rw [bind_of_ne, h v ty site hdefined hbefore hbound]
    rintro result hresult rfl
    have hat' := Function.definedAt_instruction.mpr ⟨instruction, hat, hresult⟩
    exact hsite (accepted.unique hdefined hat').2

/-- An edge binds the parameters of its target, with the declared types. -/
theorem BindsPassed.edge (accepted : module.Accepts f) (hignores : f.IgnoresEntryParameters)
    {b t : ℕ} {bound : Bindings} {block target : Block} {arguments : List ValueId}
    (h : BindsPassed f b block.instructions.length bound) (hreach : Reachable f.Edge b)
    (hblock : f.blocks[b]? = some block) (hedge : (t, arguments) ∈ block.terminator.edges)
    (htarget : f.blocks[t]? = some target) :
    BindsPassed f t 0 (bound.enter target.parameters (arguments.map bound)) := by
  have hcheck := UseContext.checkEdge_of_verifyTerminator
    (accepted.verifyTerminator_eq_nil hblock) hedge
  -- the verifier compares the arguments with the parameters
  have htypes : arguments.map bound = target.parameters.map fun p => some p.ty := by
    have hdeclared : arguments.map f.typeOf = (target.parameters.map TypedValue.ty).map some := by
      apply @UseContext.map_typeOf_of_checkTypedValues
        (module.useContext f b block usizeMax block.span)
      simpa [UseContext.checkEdge, Module.useContext, htarget] using hcheck
    rw [map_map] at hdeclared
    rw [← Function.comp_def, ← hdeclared]
    apply map_congr_left
    intro v hv
    obtain ⟨ty, hbound, hty⟩ := h.of_readsAt accepted hignores hreach
      (Or.inr ⟨block, hblock, rfl, Terminator.arguments_subset hedge hv⟩)
    exact hbound.trans hty.symm
  intro v ty site hdefined hprecedes hbound
  -- a definition before the target is one of its parameters, or was passed before
  by_cases hsite : site = .blockParameter t
  · subst hsite
    obtain ⟨target', htarget', hparameter⟩ := Function.definedAt_blockParameter.mp hdefined
    obtain rfl : target = target' := Option.some.inj (htarget.symm.trans htarget')
    apply Bindings.enter_of_mem (mem_map.mpr ⟨_, hparameter, rfl⟩) htypes
    rintro other hother rfl
    exact (accepted.unique (Function.definedAt_blockParameter.mpr ⟨target, htarget, hother⟩)
      hdefined).1
  · have hbefore : f.sitePrecedes site (b, block.instructions.length + 1) := by
      have hedge' : f.Edge b t := ⟨block, hblock, Terminator.mem_successorIds.mpr ⟨_, hedge⟩⟩
      cases site with
      | functionParameter => trivial
      | blockParameter t' =>
          have hentry : Precedes f.Edge (t', 0) (t, 0) := by
            apply Precedes.of_succ hprecedes
            rintro heq
            exact hsite (by rw [(Prod.mk.inj heq).1])
          exact hentry.of_edge hedge' fun _ => Nat.succ_pos _
      | instruction t' j =>
          have hentry : Precedes f.Edge (t', j + 1) (t, 0) := Precedes.of_succ hprecedes (by simp)
          apply hentry.of_edge hedge'
          rintro rfl
          obtain ⟨instruction, hat, -⟩ := Function.definedAt_instruction.mp hdefined
          obtain ⟨block', hblock', hindex⟩ := Function.instructionAt_eq_some.mp hat
          obtain rfl : block = block' := Option.some.inj (hblock.symm.trans hblock')
          exact Nat.succ_lt_succ (List.getElem?_eq_some_iff.mp hindex).1
    rw [Bindings.enter_of_notMem, h v ty site hdefined hbefore hbound]
    intro hmem
    obtain ⟨parameter, hparameter, rfl⟩ := mem_map.mp hmem
    exact hsite (accepted.unique hdefined
      (Function.definedAt_blockParameter.mpr ⟨target, htarget, hparameter⟩)).2

theorem BindingPath.bindsPassed (accepted : module.Accepts f)
    (hignores : f.IgnoresEntryParameters) {bound : Bindings}
    (path : BindingPath module f b i bound) : BindsPassed f b i bound := by
  induction path with
  | entry => exact bindsPassed_entry accepted
  | step path hat ih => exact ih.step accepted hignores path.reachable hat
  | edge path hblock hedge htarget ih =>
      exact ih.edge accepted hignores path.reachable hblock hedge htarget

/-! ## Paths on which the entry block's parameters are unbound -/

/-- An entry parameter is bound by edges into the entry block only. -/
theorem Module.Accepts.entryParameter_site (accepted : module.Accepts f) (hv : f.EntryParameter v)
    {site : DefinitionSite} (hdefined : f.DefinedAt v ty site) : site = .blockParameter 0 := by
  obtain ⟨entry, hentry, hmem⟩ := hv
  obtain ⟨parameter, hparameter, rfl⟩ := mem_map.mp hmem
  exact (accepted.unique hdefined
    (Function.definedAt_blockParameter.mpr ⟨entry, hentry, hparameter⟩)).2

namespace BindingPath

variable {b i : ℕ} {bound : Bindings}

/-- Control reaches each place of a block it enters. -/
theorem exists_inside (accepted : module.Accepts f) {v : ValueId} (hv : f.EntryParameter v)
    (path : BindingPath module f b 0 bound) (hunbound : bound v = none) {block : Block}
    (hblock : f.blocks[b]? = some block) (hi : i ≤ block.instructions.length) :
    ∃ bound', BindingPath module f b i bound' ∧ bound' v = none := by
  induction i with
  | zero => exact ⟨bound, path, hunbound⟩
  | succ i ih =>
      obtain ⟨bound', path', hunbound'⟩ := ih (by omega)
      have hat : f.instructionAt b i = some block.instructions[i] :=
        Function.instructionAt_eq_some.mpr ⟨block, hblock, getElem?_eq_getElem (by omega)⟩
      refine ⟨_, path'.step hat, ?_⟩
      rw [bind_of_ne, hunbound']
      rintro result hresult rfl
      have hsite := accepted.entryParameter_site hv
        (Function.definedAt_instruction.mpr ⟨_, hat, hresult⟩)
      cases hsite

/-- Each reachable block is reached without an edge into the entry block. -/
theorem exists_unbound (accepted : module.Accepts f) {v : ValueId} (hv : f.EntryParameter v)
    (hreach : Reachable f.Edge b) : ∃ bound, BindingPath module f b 0 bound ∧ bound v = none := by
  obtain ⟨visited, path⟩ := hreach
  have hentry : f.entryBindings v = none := by
    apply Function.entryBindings_of_notMem
    intro hmem
    obtain ⟨parameter, hparameter, rfl⟩ := mem_map.mp hmem
    have hsite := accepted.entryParameter_site hv
      (Function.definedAt_functionParameter.mpr hparameter)
    cases hsite
  induction path with
  | entry => exact ⟨_, .entry, hentry⟩
  | @step visited b t path hedge ih =>
      obtain rfl | ht := eq_or_ne t 0
      · exact ⟨_, .entry, hentry⟩
      obtain ⟨bound, path', hunbound⟩ := ih
      obtain ⟨block, hblock, hsuccessor⟩ := hedge
      obtain ⟨arguments, harguments⟩ := Terminator.mem_successorIds.mp hsuccessor
      obtain ⟨bound', path'', hunbound'⟩ := path'.exists_inside accepted hv hunbound hblock le_rfl
      have hcheck := UseContext.checkEdge_of_verifyTerminator
        (accepted.verifyTerminator_eq_nil hblock) harguments
      have hexists : ∃ target, f.blocks[t]? = some target := by
        cases htarget : f.blocks[t]? with
        | none => simp [UseContext.checkEdge, Module.useContext, htarget] at hcheck
        | some target => exact ⟨target, rfl⟩
      obtain ⟨target, htarget⟩ := hexists
      refine ⟨_, path''.edge hblock harguments htarget, ?_⟩
      rw [Bindings.enter_of_notMem, hunbound']
      intro hmem
      obtain ⟨parameter, hparameter, rfl⟩ := mem_map.mp hmem
      have hsite := accepted.entryParameter_site hv
        (Function.definedAt_blockParameter.mpr ⟨target, htarget, hparameter⟩)
      exact ht (DefinitionSite.blockParameter.inj hsite)

end BindingPath

/-! ## What is read is bound -/

/-- **An accepted function only reads bound values, of their declared types, if
and only if nothing it can reach reads a parameter of the entry block.** -/
theorem readsBound_iff (accepted : module.Accepts f) :
    ReadsBound module f ↔ f.IgnoresEntryParameters := by
  constructor
  · intro hbound b i v hreach hreads hv
    obtain ⟨bound, path, hunbound⟩ := BindingPath.exists_unbound accepted hv hreach
    have hinside : ∃ block, f.blocks[b]? = some block ∧ i ≤ block.instructions.length := by
      obtain ⟨instruction, hat, -⟩ | ⟨block, hblock, rfl, -⟩ := hreads
      · obtain ⟨block, hblock, hindex⟩ := Function.instructionAt_eq_some.mp hat
        exact ⟨block, hblock, (List.getElem?_eq_some_iff.mp hindex).1.le⟩
      · exact ⟨block, hblock, le_rfl⟩
    obtain ⟨block, hblock, hi⟩ := hinside
    obtain ⟨bound', path', hunbound'⟩ := path.exists_inside accepted hv hunbound hblock hi
    obtain ⟨ty, hsome, -⟩ := hbound b i bound' path' v hreads
    rw [hunbound'] at hsome
    cases hsome
  · intro hignores b i bound path v hreads
    exact (path.bindsPassed accepted hignores).of_readsAt accepted hignores path.reachable hreads

/-! ## Runs -/

variable {instruction : Instruction}

theorem Instruction.yields_of_isMarker {bound : Bindings} (h : instruction.kind.isMarker = true) :
    instruction.yields module bound = none := by
  unfold yields
  generalize instruction.kind = kind at h
  cases kind with
  | assumeNoAlias left right | drop value => rfl
  | _ => cases h

variable {M : Machine}

/-- A step binds what the path binds. -/
theorem Step.bound {s s' : State M} {observation : Observation M}
    (step : Step M module f instruction s observation s') {bound : Bindings}
    (hbound : ∀ v, bound v ≠ none → s.env v ≠ none) (hv : instruction.bind module bound v ≠ none) :
    s'.env v ≠ none := by
  by_cases hresult : ∃ result, instruction.result = some result ∧ v = result.value
  · obtain ⟨result, hresult, rfl⟩ := hresult
    rw [bind_result hresult] at hv
    cases step with
    | compute hrequest hresult' | allocate hrequest hresult' _ | read hrequest hresult' =>
        obtain rfl := Option.some.inj (hresult.symm.trans hresult')
        simp [State.allocate]
    | write hrequest | check hrequest =>
        -- these compute nothing
        have hasks := InstructionKind.asks_of_operation (request_eq_some.mp hrequest).2
        generalize hkind : instruction.kind = kind at hasks
        cases hasks <;> simp [Instruction.yields, hkind] at hv
    | skip hrequest =>
        have hasks := InstructionKind.asks_of_operation (request_eq_some.mp hrequest).2
        generalize hkind : instruction.kind = kind at hasks
        cases hasks with
        | marker hmarker => exact absurd (Instruction.yields_of_isMarker (hkind ▸ hmarker)) hv
    | external => simp [State.conclude, hresult]
  · have hother : ∀ result, instruction.result = some result → v ≠ result.value :=
      fun result hsome hsame => hresult ⟨result, hsome, hsame⟩
    rw [bind_of_ne hother] at hv
    rw [step.env_of_ne fun result hsome => (hother result hsome).symm]
    exact hbound v hv

theorem Terminator.mem_edges_of_goto {env : ValueId → Option RuntimeValue}
    (h : terminator.goto env = some (t, arguments)) : (t, arguments) ∈ terminator.edges := by
  unfold Terminator.goto at h
  split at h
  · cases h
  · cases h
  · cases h; simp [Terminator.edges]
  · split at h
    · cases h; simp [Terminator.edges]
    · cases h; simp [Terminator.edges]
    · cases h
  · split at h
    · split at h
      · rename_i case hfind
        cases h
        simp only [Terminator.edges, mem_append, mem_map]
        exact Or.inl ⟨case, mem_of_find?_eq_some hfind, rfl⟩
      · cases h; simp [Terminator.edges]
    · cases h

/-- An edge of a run binds what the edge of the path binds. -/
theorem State.bound_bind {s : State M} {bound : Bindings} {parameters : List TypedValue}
    {types : List (Option TypeId)} {values : List RuntimeValue}
    (hlen : types.length = values.length) (hbound : bound v ≠ none → s.env v ≠ none)
    (hv : bound.enter parameters types v ≠ none) : (s.bind parameters values).env v ≠ none := by
  induction parameters generalizing bound types values with
  | nil =>
      cases types <;> exact hbound hv
  | cons parameter rest ih =>
      cases types with
      | nil =>
          obtain rfl := length_eq_zero_iff.mp hlen.symm
          exact hbound hv
      | cons =>
          obtain ⟨value, values, rfl⟩ := exists_cons_of_length_eq_add_one hlen.symm
          rw [State.bind, State.define_env]
          by_cases hsame : v = parameter.value
          · simp [hsame]
          · rw [Function.update_of_ne hsame]
            apply ih (Nat.succ.inj hlen) _ hv
            rwa [Function.update_of_ne hsame]

/-- A run is on a path, and has a value for everything the path binds. -/
theorem Run.exists_bindingPath {start s : State M} {trace : List (Event M)}
    (hstart : ∀ p ∈ f.parameters, start.env p.value ≠ none)
    (run : Run M module f start trace b i s) :
    ∃ bound, BindingPath module f b i bound ∧ ∀ v, bound v ≠ none → s.env v ≠ none := by
  induction run with
  | start =>
      refine ⟨_, .entry, fun v hv => ?_⟩
      by_contra hnone
      refine hv (f.entryBindings_of_notMem fun hmem => ?_)
      obtain ⟨parameter, hparameter, rfl⟩ := mem_map.mp hmem
      exact hstart parameter hparameter hnone
  | step run hat hstep ih =>
      obtain ⟨bound, path, hbound⟩ := ih
      exact ⟨_, path.step hat, fun v hv => hstep.bound hbound hv⟩
  | edge run hblock hgoto hvalues htarget ih =>
      obtain ⟨bound, path, hbound⟩ := ih
      refine ⟨_, path.edge hblock (Terminator.mem_edges_of_goto hgoto) htarget, fun v hv => ?_⟩
      apply State.bound_bind ?_ (hbound v) hv
      have hlen := congrArg length (State.values_eq_some_iff.mp hvalues)
      simpa using hlen

/-- **No run of an accepted function gets stuck on an unbound value**, where the
parameters of the entry block are not read. -/
theorem Run.operand_bound (accepted : module.Accepts f) (hignores : f.IgnoresEntryParameters)
    {M : Machine} {start s : State M} {trace : List (Event M)} {b i : ℕ}
    (hstart : ∀ p ∈ f.parameters, start.env p.value ≠ none)
    (run : Run M module f start trace b i s) {v : ValueId} (hreads : f.ReadsAt b i v) :
    s.env v ≠ none := by
  obtain ⟨bound, path, hbound⟩ := run.exists_bindingPath hstart
  obtain ⟨ty, hsome, -⟩ := (path.bindsPassed accepted hignores).of_readsAt accepted hignores
    path.reachable hreads
  exact hbound v (by simp [hsome])

/-! ## Two functions -/

/-- Counts up to its argument: the counter is the parameter of the loop's block. -/
def countsUp : Function :=
  .of [⟨0, 0⟩] 0
    [.of 0 [] [.defining 1 0 (.constant (.integer 0)), .defining 2 0 (.constant (.integer 1))]
      (.jump 1 [1]),
    .of 1 [⟨3, 0⟩] [.defining 4 0 (.binary .add 3 2), .defining 5 1 (.compare .less 4 0)]
      (.branch 5 1 [4] 2 []),
    .of 2 [] [] (.ret (some 3))]

theorem readsBound_countsUp :
    ReadsBound ⟨[.integer false 32, .bool], [countsUp]⟩ countsUp := by
  apply (readsBound_iff ⟨by decide +kernel, by simp⟩).mpr
  rintro b i v - - ⟨entry, hentry, hv⟩
  cases hentry
  cases hv

/-- The counter of the loop has a value when it is first read. -/
theorem counter_bound :
    ∃ (trace : List (Event cells)) (s : State cells),
      Run cells ⟨[.integer false 32, .bool], [countsUp]⟩ countsUp
        (blank.define 0 (.integer 32 5)) trace 1 0 s ∧ s.env 3 ≠ none := by
  obtain ⟨c, hrun, hobserved⟩ := Configuration.exists_run ⟨[.integer false 32, .bool], [countsUp]⟩
    countsUp (blank.define 0 (.integer 32 5)) 3 (fun c => (c.block, c.index)) (a := (1, 0)) rfl
  obtain ⟨hblock, hindex⟩ := Prod.mk.inj hobserved
  rw [hblock, hindex] at hrun
  have hignores : countsUp.IgnoresEntryParameters := by
    rintro b i v - - ⟨entry, hentry, hv⟩
    cases hentry
    cases hv
  have hstart : ∀ p ∈ countsUp.parameters,
      ((blank.define 0 (.integer 32 5)).env p.value : Option RuntimeValue) ≠ none := by
    decide
  exact ⟨c.trace, c.state, hrun,
    hrun.operand_bound ⟨by decide +kernel, by simp⟩ hignores hstart (.inl ⟨_, rfl, by decide⟩)⟩

/-- Returns a parameter of its entry block. -/
def returnsEntryParameter : Function := .of [] 0 [.of 0 [⟨0, 0⟩] [] (.ret (some 0))]

/-- The verifier accepts a function whose only read is of nothing. -/
theorem not_readsBound_returnsEntryParameter :
    ¬ ∀ (module : Module) (f : Function), module.Accepts f → ReadsBound module f := by
  intro h
  obtain ⟨ty, hsome, -⟩ := h ⟨[.integer false 32], [returnsEntryParameter]⟩ returnsEntryParameter
    ⟨by decide +kernel, by simp⟩ 0 0 _ .entry 0 (Or.inr ⟨_, rfl, rfl, by decide⟩)
  cases hsome

end Jadren.Jir
