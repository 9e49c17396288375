import Jadren.Jir.Persistence
import Jadren.Jir.Rewrite
import Jadren.Jir.Simulation

/-!
# Passes that rename values and leave some out

`Transforms` is what such passes have in common: the blocks where control may come go to blocks of
the new function, with some of their instructions, and with their values renamed.  What is left out
only computes values that are not used.  The states of the two activations are then related by
`Renames`: outside they are the same, and each value that is kept is bound to the same thing under
its new name.

Operations look at the types of their operands, which a function has only by its definitions; so
each function's values are collected (`Function.values`), and types are compared where a run can
have bound the value (`Function.Provides`).
-/

namespace Jadren.Jir

open Dominance (Reachable)
open List

variable {M : Machine} {module : Module} {f g : Function}

/-! ## The values of a function -/

/-- The values a block defines: its parameters, and the results of its instructions. -/
def Block.values (block : Block) : List TypedValue :=
  block.parameters ++ block.instructions.filterMap Instruction.result

namespace Function

/-- The values a function defines. -/
def values (f : Function) : List TypedValue := f.parameters ++ f.blocks.flatMap Block.values

/-- Each value is defined once. -/
def Distinct (f : Function) : Prop := (f.values.map TypedValue.value).Nodup

theorem instructionDefinitions_eq (b position : ℕ) (instructions : List Instruction) :
    (instructionDefinitions b position instructions).map
        (fun entry => (⟨entry.1, entry.2.ty⟩ : TypedValue)) =
      instructions.filterMap Instruction.result := by
  induction instructions generalizing position with
  | nil => rfl
  | cons instruction rest ih =>
      rw [instructionDefinitions, map_append, ih]
      cases hresult : instruction.result with
      | none => simp [hresult]
      | some => simp [hresult]

theorem definitionSites_eq (f : Function) :
    f.definitionSites.map (fun entry => (⟨entry.1, entry.2.ty⟩ : TypedValue)) = f.values := by
  have hblocks (first : ℕ) (blocks : List Block) :
      (blocksDefinitions first blocks).map (fun entry => (⟨entry.1, entry.2.ty⟩ : TypedValue)) =
        blocks.flatMap Block.values := by
    induction blocks generalizing first with
    | nil => rfl
    | cons block rest ih =>
        rw [blocksDefinitions, map_append, ih, blockDefinitions, map_append,
          instructionDefinitions_eq, flatMap_cons, Block.values, map_map]
        exact congrArg (· ++ _ ++ _) (map_id _)
  rw [definitionSites, map_append, hblocks, values, parameterDefinitions, map_map]
  exact congrArg (· ++ _) (map_id _)

theorem map_fst_definitionSites (f : Function) :
    f.definitionSites.map Prod.fst = f.values.map TypedValue.value := by
  rw [← definitionSites_eq, map_map]
  rfl

variable {v : ValueId} {ty : TypeId} {site : DefinitionSite}

theorem DefinedAt.mem_values (h : f.DefinedAt v ty site) : ⟨v, ty⟩ ∈ f.values := by
  rw [← definitionSites_eq]
  exact mem_map.mpr ⟨_, h, rfl⟩

/-- The type of a value that is defined once. -/
theorem Distinct.typeOf_eq_some (h : f.Distinct) : f.typeOf v = some ty ↔ ⟨v, ty⟩ ∈ f.values := by
  have hnodup : (f.definitionSites.reverse.map Prod.fst).Nodup := by
    rw [map_reverse, nodup_reverse, map_fst_definitionSites]
    exact h
  rw [typeOf, Option.map_eq_some_iff, ← definitionSites_eq, mem_map]
  constructor
  · intro hfound
    obtain ⟨definition, hlookup, rfl⟩ := hfound
    rw [lookup_eq_some_iff hnodup, mem_reverse] at hlookup
    exact ⟨_, hlookup, rfl⟩
  · intro hmem
    obtain ⟨⟨w, definition⟩, hmem, heq⟩ := hmem
    obtain ⟨rfl, rfl⟩ := TypedValue.mk.inj heq
    refine ⟨definition, ?_, rfl⟩
    rw [lookup_eq_some_iff hnodup, mem_reverse]
    exact hmem

/-- A parameter, or a value defined where control may come. -/
def Provides (f : Function) (p : TypedValue) : Prop :=
  p ∈ f.parameters ∨ ∃ b block, Reachable f.Edge b ∧ f.blocks[b]? = some block ∧ p ∈ block.values

theorem Provides.mem_values {p : TypedValue} (h : f.Provides p) : p ∈ f.values := by
  rcases h with hparameter | ⟨b, block, _, hblock, hvalue⟩
  · exact mem_append_left _ hparameter
  · exact mem_append_right _ (mem_flatMap.mpr ⟨block, mem_of_getElem? hblock, hvalue⟩)

/-- Where fewer values are defined, each is still defined once. -/
theorem Distinct.of_sublist (h : f.Distinct) (hvalues : g.values.Sublist f.values) : g.Distinct :=
  List.Nodup.sublist (hvalues.map _) h

theorem Distinct.typeOf_congr (h : f.Distinct) (hvalues : g.values = f.values) :
    g.typeOf = f.typeOf := by
  have h' : g.Distinct := h.of_sublist (hvalues ▸ List.Sublist.refl _)
  funext v
  refine Option.ext fun ty => ?_
  rw [h'.typeOf_eq_some, h.typeOf_eq_some, hvalues]

theorem Distinct.unique (h : f.Distinct) {ty' : TypeId} {site' : DefinitionSite}
    (hsite : f.DefinedAt v ty site) (hsite' : f.DefinedAt v ty' site') : site' = site := by
  have hnodup : (f.definitionSites.map Prod.fst).Nodup := by
    rw [map_fst_definitionSites]
    exact h
  have hlookup := (lookup_eq_some_iff hnodup).mpr hsite
  rw [(lookup_eq_some_iff hnodup).mpr hsite'] at hlookup
  cases hlookup
  rfl

end Function

theorem Module.Accepts.distinct (accepted : module.Accepts f) : f.Distinct := by
  rw [Function.Distinct, ← Function.map_fst_definitionSites]
  exact accepted.nodup_definitions

variable {arguments : List RuntimeValue} {v : ValueId} {value : RuntimeValue}

/-- Only parameters are bound when a function is entered. -/
theorem State.entered_env {before : State M}
    (h : (State.entered f arguments before).env v = some value) :
    ∃ p ∈ f.parameters, p.value = v := by
  by_contra hnone
  have hfresh : v ∉ f.parameters.map TypedValue.value :=
    fun hmem => hnone (mem_map.mp hmem)
  rw [State.entered, State.bind_env_of_notMem hfresh] at h
  cases h

variable {link : FunctionId → Option Function} {instruction : Instruction} {s : State M}
  {observed : List (Observation M)}

theorem env_of_acts {depth : ℕ} {s' : State M}
    (h : Acts M module link depth f instruction s observed s')
    (hv : ∀ result, instruction.result = some result → result.value ≠ v) : s'.env v = s.env v := by
  rcases acts_cases h with ⟨_, observation, hstep, _⟩ | ⟨below, _, hcalled⟩
  · exact hstep.env_of_ne hv
  · obtain ⟨callee, arguments, returned, after, _, _, _, rfl⟩ := hcalled
    refine State.bind_env_of_notMem fun hmem => ?_
    obtain ⟨result, hresult, rfl⟩ := mem_map.mp hmem
    exact hv result (Option.mem_toList.mp hresult) rfl

variable {b : ℕ}

theorem Runs.provides {depth : ℕ} {leaves : ℕ → Prop} {before : State M} {i : ℕ}
    (runs : Runs (Acts M module link depth f) leaves f (.entered f arguments before) observed b i s)
    (hv : s.env v = some value) : ∃ ty, f.Provides ⟨v, ty⟩ := by
  induction runs generalizing value with
  | start =>
      obtain ⟨p, hp, rfl⟩ := State.entered_env hv
      exact ⟨p.ty, .inl hp⟩
  | @step observed more b i s s' instruction runs hat hacts ih =>
      by_cases hresult : ∃ result, instruction.result = some result ∧ result.value = v
      · obtain ⟨result, hresult, rfl⟩ := hresult
        obtain ⟨block, hblock, hi⟩ := Function.instructionAt_eq_some.mp hat
        refine ⟨result.ty, .inr ⟨b, block, runs.reachable, hblock, ?_⟩⟩
        exact mem_append_right _
          (mem_filterMap.mpr ⟨instruction, mem_of_getElem? hi, hresult⟩)
      · rw [env_of_acts hacts fun result hsome heq => hresult ⟨result, hsome, heq⟩] at hv
        exact ih hv
  | @edge observed b t₀ s block target arguments values runs hblock hleaves hgoto hvalues htarget
      ih =>
      by_cases hparameter : ∃ p ∈ target.parameters, p.value = v
      · obtain ⟨p, hp, rfl⟩ := hparameter
        have hreachable := (runs.edge hblock hleaves hgoto hvalues htarget).reachable
        exact ⟨p.ty, .inr ⟨t₀, target, hreachable, htarget, mem_append_left _ hp⟩⟩
      · have hfresh : v ∉ target.parameters.map TypedValue.value :=
          fun hmem => hparameter (mem_map.mp hmem)
        rw [State.bind_env_of_notMem hfresh] at hv
        exact ih hv

/-! ## Renamed values -/

def TypedValue.rename (σ : ValueId → ValueId) (p : TypedValue) : TypedValue :=
  { p with value := σ p.value }

/-- An instruction with its result and its operands renamed. -/
def Instruction.rename (σ : ValueId → ValueId) (instruction : Instruction) : Instruction :=
  (instruction.mapOperands σ).mapResult σ

/-- Outside of the activations the states are the same, and each value of a set is bound to the same
thing under its new name. -/
structure Renames (σ : ValueId → ValueId) (K : Set ValueId) (s t : State M) : Prop where
  outside : t.outside = s.outside
  env : ∀ v ∈ K, t.env (σ v) = s.env v

namespace Renames

variable {σ : ValueId → ValueId} {K : Set ValueId} {s t : State M}

theorem values (h : Renames σ K s t) {operands : List ValueId} {values : List RuntimeValue}
    (hK : ∀ v ∈ operands, ∀ value, s.env v = some value → v ∈ K)
    (hvalues : s.values operands = some values) : t.values (operands.map σ) = some values := by
  rw [State.values_eq_some_iff] at hvalues ⊢
  rw [← hvalues, map_map]
  refine map_congr_left fun v hv => ?_
  obtain ⟨value, _, hbound⟩ : ∃ value ∈ values, some value = s.env v := by
    have hmem : s.env v ∈ operands.map s.env := mem_map_of_mem hv
    rwa [hvalues, mem_map] at hmem
  exact h.env v (hK v hv value hbound.symm)

theorem define (h : Renames σ K s t) (hσ : Set.InjOn σ K) {r : ValueId} (hr : r ∈ K)
    (value : RuntimeValue) : Renames σ K (s.define r value) (t.define (σ r) value) where
  outside := h.outside
  env v hv := by
    rw [State.define_env, State.define_env]
    by_cases heq : v = r
    · rw [heq, Function.update_self, Function.update_self]
    · rw [Function.update_of_ne heq, Function.update_of_ne fun hσv => heq (hσ hv hr hσv)]
      exact h.env v hv

/-- A value outside of the set may be bound on one side only. -/
theorem define_left (h : Renames σ K s t) {r : ValueId} (hr : r ∉ K) (value : RuntimeValue) :
    Renames σ K (s.define r value) t where
  outside := h.outside
  env v hv := by
    have hne : v ≠ r := by
      rintro rfl
      exact hr hv
    rw [State.define_env, Function.update_of_ne hne]
    exact h.env v hv

theorem bind (h : Renames σ K s t) (hσ : Set.InjOn σ K) {parameters : List TypedValue}
    (hK : ∀ p ∈ parameters, p.value ∈ K) (values : List RuntimeValue) :
    Renames σ K (s.bind parameters values)
      (t.bind (parameters.map (TypedValue.rename σ)) values) := by
  induction parameters generalizing values with
  | nil => cases values <;> exact h
  | cons p rest ih =>
      obtain ⟨hp, hrest⟩ := forall_mem_cons.mp hK
      cases values with
      | nil => exact h
      | cons value others => exact (ih hrest others).define hσ hp value

theorem entered (hσ : Set.InjOn σ K) (hparameters : g.parameters = f.parameters.map (.rename σ))
    (hK : ∀ p ∈ f.parameters, p.value ∈ K) (arguments : List RuntimeValue) (before : State M) :
    Renames σ K (State.entered f arguments before) (State.entered g arguments before) := by
  unfold State.entered
  rw [hparameters]
  have hbefore : Renames σ K before.outside before.outside := ⟨rfl, fun _ _ => rfl⟩
  exact hbefore.bind hσ hK arguments

/-- The same change outside of both activations. -/
theorem elsewhere (h : Renames σ K s t) (memory : ℕ → M.Contents) (allocated exposed : Finset ℕ) :
    Renames σ K ⟨s.env, memory, allocated, exposed⟩ ⟨t.env, memory, allocated, exposed⟩ :=
  ⟨rfl, h.env⟩

theorem memory (h : Renames σ K s t) : t.memory = s.memory := (congrArg State.memory h.outside :)

theorem allocated (h : Renames σ K s t) : t.allocated = s.allocated :=
  (congrArg State.allocated h.outside :)

theorem exposed (h : Renames σ K s t) : t.exposed = s.exposed :=
  (congrArg State.exposed h.outside :)

end Renames

/-! ## Renamed instructions -/

@[simp] theorem Instruction.rename_kind (σ : ValueId → ValueId) (instruction : Instruction) :
    (instruction.rename σ).kind = instruction.kind.mapOperands σ := rfl

@[simp] theorem Instruction.rename_result (σ : ValueId → ValueId) (instruction : Instruction) :
    (instruction.rename σ).result = instruction.result.map (.rename σ) := rfl

theorem OwnershipKind.mapOperands_mapOperands (σ τ : ValueId → ValueId) (kind : OwnershipKind) :
    (kind.mapOperands σ).mapOperands τ = kind.mapOperands (τ ∘ σ) := by
  cases kind <;> rfl

theorem InstructionKind.mapOperands_mapOperands (σ τ : ValueId → ValueId) (kind : InstructionKind) :
    (kind.mapOperands σ).mapOperands τ = kind.mapOperands (τ ∘ σ) := by
  cases kind with
  | ownership kind => exact congrArg _ (OwnershipKind.mapOperands_mapOperands σ τ kind)
  | _ => simp [mapOperands]

theorem InstructionKind.shape_mapOperands (σ : ValueId → ValueId) (kind : InstructionKind) :
    (kind.mapOperands σ).shape = kind.shape := mapOperands_mapOperands ..

theorem InstructionKind.mapOperands_self (kind : InstructionKind) :
    (kind.mapOperands fun v => v) = kind := by
  cases kind with
  | ownership kind => cases kind <;> rfl
  | _ => simp [mapOperands]

@[simp] theorem map_rename_self (parameters : List TypedValue) :
    parameters.map (.rename fun v => v) = parameters := map_id _

theorem Instruction.rename_self (instruction : Instruction) :
    (instruction.rename fun v => v) = instruction := by
  obtain ⟨result, kind, span⟩ := instruction
  have hresult : (result.map fun result : TypedValue => { result with value := result.value }) =
      result := by cases result <;> rfl
  rw [Instruction.rename, Instruction.mapOperands, InstructionKind.mapOperands_self,
    Instruction.mapResult, hresult]

@[simp] theorem map_instruction_rename_self (instructions : List Instruction) :
    instructions.map (.rename fun v => v) = instructions :=
  (map_congr_left fun instruction _ => instruction.rename_self).trans (map_id _)

theorem InstructionKind.callee_mapOperands (link : FunctionId → Option Function)
    (σ : ValueId → ValueId) (kind : InstructionKind) :
    (kind.mapOperands σ).callee link = kind.callee link := by
  cases kind <;> rfl

theorem State.allocate_eq (s : State M) (v : ValueId) (object : ℕ) :
    s.allocate v object =
      (⟨s.env, Function.update s.memory object M.fresh, insert object s.allocated, s.exposed⟩ :
        State M).define v (.pointer (some ⟨object, 0⟩)) := rfl

/-- What is bound of some operands is kept, and its type stays the same. -/
def Keeps (f g : Function) (σ : ValueId → ValueId) (K : Set ValueId) (s : State M)
    (operands : List ValueId) : Prop :=
  ∀ v ∈ operands, ∀ value, s.env v = some value → v ∈ K ∧ g.typeOf (σ v) = f.typeOf v

namespace Renames

variable {σ : ValueId → ValueId} {K : Set ValueId} {s t s' : State M} {instruction : Instruction}

variable {operation : Operation}

/-- An instruction with renamed operands asks for the same. -/
theorem request_mapOperands (h : Renames σ K s t) {renamed : Instruction}
    (hkind : renamed.kind = instruction.kind.mapOperands σ)
    (hresult : renamed.result.map TypedValue.ty = instruction.result.map TypedValue.ty)
    (hkeeps : Keeps f g σ K s instruction.kind.operands) {values : List RuntimeValue}
    (hrequest : instruction.request M module f s = some (operation, values)) :
    renamed.request M module g t = some (operation, values) := by
  obtain ⟨hvalues, hoperation⟩ := request_eq_some.mp hrequest
  have htypes : g.operandTypes renamed.kind = f.operandTypes instruction.kind := by
    rw [hkind, Function.operandTypes, Function.operandTypes,
      InstructionKind.operands_mapOperands, map_map]
    refine map_congr_left fun v hv => ?_
    obtain ⟨i, hi⟩ := mem_iff_getElem?.mp hv
    obtain ⟨value, _, hbound⟩ := State.env_of_values hvalues hi
    exact (hkeeps v hv value hbound).2
  refine request_eq_some.mpr ⟨?_, ?_⟩
  · rw [hkind, InstructionKind.operands_mapOperands]
    exact h.values (fun v hv value hbound => (hkeeps v hv value hbound).1) hvalues
  · rw [htypes, hresult, hkind, InstructionKind.operation_mapOperands]
    exact hoperation

theorem request (h : Renames σ K s t) (hkeeps : Keeps f g σ K s instruction.kind.operands)
    {values : List RuntimeValue}
    (hrequest : instruction.request M module f s = some (operation, values)) :
    (instruction.rename σ).request M module g t = some (operation, values) := by
  refine h.request_mapOperands rfl ?_ hkeeps hrequest
  rw [Instruction.rename_result, Option.map_map]
  rfl

theorem admissible (h : Renames σ K s t) {arguments : List RuntimeValue} {response : Response M}
    (hresponse : response.Admissible s arguments) : response.Admissible t arguments := by
  have houtside : response.Admissible t.outside arguments := by
    rw [h.outside]
    exact ⟨hresponse.allocated, hresponse.exposed, hresponse.exposed_allocated,
      hresponse.discovered, hresponse.memory, hresponse.pointsTo, hresponse.value⟩
  exact ⟨houtside.allocated, houtside.exposed, houtside.exposed_allocated, houtside.discovered,
    houtside.memory, houtside.pointsTo, houtside.value⟩

theorem step (h : Renames σ K s t) (hσ : Set.InjOn σ K)
    (hkeeps : Keeps f g σ K s instruction.kind.operands)
    (hresult : ∀ result, instruction.result = some result → result.value ∈ K)
    {observation : Observation M} (hstep : Step M module f instruction s observation s') :
    ∃ t', Step M module g (instruction.rename σ) t observation t' ∧ Renames σ K s' t' := by
  have hrename : ∀ {result}, instruction.result = some result →
      (instruction.rename σ).result = some (result.rename σ) := fun hsome => by
    rw [Instruction.rename_result, hsome, Option.map_some]
  cases hstep with
  | compute hrequest hsome =>
      exact ⟨_, .compute (h.request hkeeps hrequest) (hrename hsome),
        h.define hσ (hresult _ hsome) _⟩
  | @allocate values result object hrequest hsome hfresh =>
      have hfresh' : object ∉ t.allocated := h.allocated ▸ hfresh
      refine ⟨_, .allocate (h.request hkeeps hrequest) (hrename hsome) hfresh', ?_⟩
      rw [State.allocate_eq, State.allocate_eq, h.memory, h.allocated, h.exposed]
      exact (h.elsewhere _ _ _).define hσ (hresult _ hsome) _
  | @read values address ty result hrequest hsome =>
      refine ⟨_, .read (h.request hkeeps hrequest) (hrename hsome), ?_⟩
      have hread : t.read address ty = s.read address ty := by
        rw [State.read, State.read, h.memory]
      rw [hread]
      exact h.define hσ (hresult _ hsome) _
  | write hrequest =>
      refine ⟨_, .write (h.request hkeeps hrequest), ?_⟩
      rw [State.write, State.write, h.memory, h.allocated, h.exposed]
      exact h.elsewhere ..
  | check hrequest => exact ⟨t, .check (h.request hkeeps hrequest), h⟩
  | skip hrequest => exact ⟨t, .skip (h.request hkeeps hrequest), h⟩
  | @external values response hrequest hresponse =>
      have hnext := Step.external (h.request hkeeps hrequest) (h.admissible hresponse)
      rw [Instruction.rename_kind, InstructionKind.shape_mapOperands] at hnext
      refine ⟨_, hnext, ?_⟩
      have hrel := h.elsewhere response.memory response.allocated response.exposed
      cases hsome : instruction.result with
      | none =>
          rw [Instruction.rename_result, hsome]
          exact hrel
      | some =>
          rw [hrename hsome]
          exact hrel.define hσ (hresult _ hsome) _

variable {link link' : FunctionId → Option Function} {observed : List (Observation M)}

/-- A renamed instruction that calls no linked function does the same. -/
theorem direct (h : Renames σ K s t) (hσ : Set.InjOn σ K)
    (hkeeps : Keeps f g σ K s instruction.kind.operands)
    (hresult : ∀ result, instruction.result = some result → result.value ∈ K)
    (hlink : instruction.kind.callee link = none → instruction.kind.callee link' = none)
    (hdirect : Direct M module link f instruction s observed s') :
    ∃ t', Direct M module link' g (instruction.rename σ) t observed t' ∧ Renames σ K s' t' := by
  obtain ⟨hcallee, observation, hstep, hseen⟩ := hdirect
  obtain ⟨t', hstep', hrel⟩ := h.step hσ hkeeps hresult hstep
  have hcallee' : (instruction.rename σ).kind.callee link' = none := by
    rw [Instruction.rename_kind, InstructionKind.callee_mapOperands, hlink hcallee]
  exact ⟨t', ⟨hcallee', observation, hstep', hseen⟩, hrel⟩

/-- A renamed call does the same where the function linked there does. -/
theorem called (h : Renames σ K s t) (hσ : Set.InjOn σ K)
    (hK : ∀ v ∈ instruction.kind.operands, ∀ value, s.env v = some value → v ∈ K)
    (hresult : ∀ result, instruction.result = some result → result.value ∈ K)
    {acts acts' : Function → Behaviour M}
    (hlink : ∀ callee arguments before observed after returned,
      instruction.kind.callee link = some callee →
      Reaches (acts callee) module callee arguments before observed after
        (some (.returned returned)) →
      ∃ callee', instruction.kind.callee link' = some callee' ∧
        Reaches (acts' callee') module callee' arguments before observed after
          (some (.returned returned)))
    (hcalled : Called M module link acts instruction s observed s') :
    ∃ t', Called M module link' acts' (instruction.rename σ) t observed t' ∧ Renames σ K s' t' := by
  obtain ⟨callee, arguments, returned, after, hcallee, hvalues, hreaches, rfl⟩ := hcalled
  obtain ⟨callee', hcallee', b, i, u, hruns, hafter, hends⟩ :=
    hlink _ _ _ _ _ _ hcallee hreaches
  refine ⟨t.resume after (instruction.rename σ).result returned,
    ⟨callee', arguments, returned, after, ?_, ?_, ?_, rfl⟩, ?_⟩
  · rw [Instruction.rename_kind, InstructionKind.callee_mapOperands, hcallee']
  · rw [Instruction.rename_kind, InstructionKind.operands_mapOperands]
    exact h.values hK hvalues
  · -- the callee is entered in the same state
    rw [← State.entered_congr h.outside] at hruns
    exact ⟨b, i, u, hruns, hafter, hends⟩
  · have hlist : (instruction.rename σ).result.toList =
        instruction.result.toList.map (.rename σ) := by
      rw [Instruction.rename_result]
      cases instruction.result <;> rfl
    rw [State.resume, State.resume, hlist]
    exact (h.elsewhere _ _ _).bind hσ (fun p hp => hresult p (Option.mem_toList.mp hp)) _

theorem acts (h : Renames σ K s t) (hσ : Set.InjOn σ K)
    (hkeeps : Keeps f g σ K s instruction.kind.operands)
    (hresult : ∀ result, instruction.result = some result → result.value ∈ K) {depth : ℕ}
    (hacts : Acts M module link depth f instruction s observed s') :
    ∃ t', Acts M module link depth g (instruction.rename σ) t observed t' ∧ Renames σ K s' t' := by
  rcases acts_cases hacts with hdirect | ⟨below, rfl, hcalled⟩
  · obtain ⟨t', hdirect', hrel⟩ := h.direct hσ hkeeps hresult id hdirect
    exact ⟨t', hdirect'.acts, hrel⟩
  · obtain ⟨t', hcalled', hrel⟩ :=
      h.called hσ (fun v hv value hbound => (hkeeps v hv value hbound).1) hresult
        (fun callee _ _ _ _ _ hcallee hreaches => ⟨callee, hcallee, hreaches⟩) hcalled
    exact ⟨t', .inr hcalled', hrel⟩

end Renames

/-! ## Renamed terminators -/

/-- A terminator with its targets replaced. -/
def Terminator.mapTargets (β : BlockId → BlockId) : Terminator → Terminator
  | .ret value => .ret value
  | .jump target arguments => .jump (β target) arguments
  | .branch condition thenTarget thenArguments elseTarget elseArguments =>
      .branch condition (β thenTarget) thenArguments (β elseTarget) elseArguments
  | .switch discriminant cases default defaultArguments =>
      .switch discriminant (cases.map fun case => { case with target := β case.target })
        (β default) defaultArguments
  | .unreachable => .unreachable

theorem Terminator.mapTargets_self (terminator : Terminator) :
    terminator.mapTargets (fun target => target) = terminator := by
  cases terminator with
  | switch => simp [mapTargets]
  | _ => rfl

theorem Terminator.mapOperands_self (terminator : Terminator) :
    (terminator.mapOperands fun v => v) = terminator := by
  cases terminator <;> simp [mapOperands]

variable {σ : ValueId → ValueId}

/-- A terminator goes to the block in place of its target, with its arguments under new names. -/
theorem Renames.goto {K : Set ValueId} {t : State M} (h : Renames σ K s t) (β : BlockId → BlockId)
    {terminator : Terminator}
    (hK : ∀ v ∈ terminator.operands, ∀ value, s.env v = some value → v ∈ K) {target : BlockId}
    {arguments : List ValueId} (hgoto : terminator.goto s.env = some (target, arguments)) :
    ((terminator.mapOperands σ).mapTargets β).goto t.env = some (β target, arguments.map σ) := by
  cases terminator with
  | ret => cases hgoto
  | unreachable => cases hgoto
  | jump => cases hgoto; rfl
  | branch condition =>
      -- the condition is read under its new name with the same value
      have hcondition : ∀ {value}, s.env condition = some value →
          t.env (σ condition) = some value :=
        fun hbound => (h.env _ (hK _ mem_cons_self _ hbound)).trans hbound
      simp only [Terminator.goto] at hgoto
      split at hgoto
      · rename_i hbound
        cases hgoto
        simp only [Terminator.mapOperands, Terminator.mapTargets, Terminator.goto,
          hcondition hbound]
      · rename_i hbound
        cases hgoto
        simp only [Terminator.mapOperands, Terminator.mapTargets, Terminator.goto,
          hcondition hbound]
      · cases hgoto
  | switch discriminant cases =>
      have hdiscriminant : ∀ {value}, s.env discriminant = some value →
          t.env (σ discriminant) = some value :=
        fun hbound => (h.env _ (hK _ mem_cons_self _ hbound)).trans hbound
      simp only [Terminator.goto] at hgoto
      split at hgoto
      · rename_i bits pattern hbound
        simp only [Terminator.mapOperands, Terminator.mapTargets, Terminator.goto,
          hdiscriminant hbound, find?_map, Function.comp_def]
        split at hgoto
        · rename_i case hfind
          cases hgoto
          simp only [hfind, Option.map_some]
        · rename_i hfind
          cases hgoto
          simp only [hfind, Option.map_none]
      · cases hgoto

/-! ## Transformations -/

/-- A pass turned `f` into `g` by renaming values with `σ` and keeping some of the instructions.
The values in `K` are kept, and block `b` became block `β b`, where control may come to `b`. -/
structure Transforms (f g : Function) (σ : ValueId → ValueId) (K : Set ValueId) (β : ℕ → ℕ)
    (keeps : Instruction → Bool) : Prop where
  distinct : f.Distinct
  distinct' : g.Distinct
  injective : Set.InjOn σ K
  entry : β 0 = 0
  parameters : g.parameters = f.parameters.map (.rename σ)
  parameters_mem : ∀ p ∈ f.parameters, p.value ∈ K
  block : ∀ {b block}, Reachable f.Edge b → f.blocks[b]? = some block →
    ∃ block', g.blocks[β b]? = some block' ∧
      block'.parameters = block.parameters.map (.rename σ) ∧
      block'.instructions = (block.instructions.filter keeps).map (.rename σ) ∧
      block'.terminator = (block.terminator.mapOperands σ).mapTargets β
  blockParameters_mem : ∀ {b block}, Reachable f.Edge b → f.blocks[b]? = some block →
    ∀ p ∈ block.parameters, p.value ∈ K
  /-- What is kept has its result and its operands kept. -/
  kept : ∀ {b block}, Reachable f.Edge b → f.blocks[b]? = some block →
    ∀ instruction ∈ block.instructions, keeps instruction = true →
      (∀ result, instruction.result = some result → result.value ∈ K) ∧
        ∀ v ∈ instruction.kind.operands, ∀ ty, f.Provides ⟨v, ty⟩ → v ∈ K
  /-- What is left out only computes a value that is not kept. -/
  dropped : ∀ {b block}, Reachable f.Edge b → f.blocks[b]? = some block →
    ∀ instruction ∈ block.instructions, keeps instruction = false →
      instruction.kind.isPure = true ∧
        ∀ result, instruction.result = some result → result.value ∉ K
  terminator : ∀ {b block}, Reachable f.Edge b → f.blocks[b]? = some block →
    ∀ v ∈ block.terminator.operands, ∀ ty, f.Provides ⟨v, ty⟩ → v ∈ K

theorem InstructionKind.callee_of_isPure {kind : InstructionKind} (hpure : kind.isPure = true)
    (link : FunctionId → Option Function) : kind.callee link = none := by
  cases kind with
  | call => cases hpure
  | _ => rfl

/-- What becomes of the instructions of a block, one by one. -/
def renamedGroups (σ : ValueId → ValueId) (keeps : Instruction → Bool) (f : Function) (b : ℕ) :
    List (List Instruction) :=
  (((f.blocks[b]?).map Block.instructions).getD []).map fun instruction =>
    if keeps instruction then [instruction.rename σ] else []

theorem flatten_groups (σ : ValueId → ValueId) (keeps : Instruction → Bool)
    (instructions : List Instruction) :
    (instructions.map fun instruction =>
      if keeps instruction then [instruction.rename σ] else []).flatten =
      (instructions.filter keeps).map (.rename σ) := by
  induction instructions with
  | nil => rfl
  | cons instruction rest ih =>
      cases hkeeps : keeps instruction with
      | true => simp [hkeeps, ih]
      | false => simp [hkeeps, ih]

theorem renamedGroups_of_block {keeps : Instruction → Bool} {block : Block}
    (hblock : f.blocks[b]? = some block) :
    renamedGroups σ keeps f b = block.instructions.map fun instruction =>
      if keeps instruction then [instruction.rename σ] else [] := by
  rw [renamedGroups, hblock]
  rfl

theorem renamedGroups_getElem? (σ : ValueId → ValueId) (keeps : Instruction → Bool) {i : ℕ}
    (hat : f.instructionAt b i = some instruction) :
    (renamedGroups σ keeps f b)[i]? =
      some (if keeps instruction then [instruction.rename σ] else []) := by
  obtain ⟨block, hblock, hi⟩ := Function.instructionAt_eq_some.mp hat
  rw [renamedGroups_of_block hblock, getElem?_map, hi, Option.map_some]

namespace Transforms

variable {σ : ValueId → ValueId} {K : Set ValueId} {β : ℕ → ℕ} {keeps : Instruction → Bool}
  {link : FunctionId → Option Function} {depth b i : ℕ} {arguments : List RuntimeValue}
  {before s t : State M} {observed : List (Observation M)} {instruction : Instruction}

variable (h : Transforms f g σ K β keeps)
include h

/-- A value that is kept is defined in `g` under its new name, with its type. -/
theorem mem_values {p : TypedValue} (hp : f.Provides p)
    (hK : p.value ∈ K) : p.rename σ ∈ g.values := by
  rcases hp with hparameter | ⟨b, block, hreachable, hblock, hvalue⟩
  · refine mem_append_left _ ?_
    rw [h.parameters]
    exact mem_map_of_mem hparameter
  · obtain ⟨block', hblock', hparameters, hinstructions, _⟩ := h.block hreachable hblock
    refine mem_append_right _
      (mem_flatMap.mpr ⟨block', mem_of_getElem? hblock', ?_⟩)
    rcases mem_append.mp hvalue with hvalue | hvalue
    · refine mem_append_left _ ?_
      rw [hparameters]
      exact mem_map_of_mem hvalue
    · obtain ⟨instruction, hmem, hresult⟩ := mem_filterMap.mp hvalue
      have hkeeps : keeps instruction = true := by
        cases hkeeps : keeps instruction with
        | true => rfl
        | false => exact absurd hK ((h.dropped hreachable hblock _ hmem hkeeps).2 p hresult)
      refine mem_append_right _ (mem_filterMap.mpr ⟨instruction.rename σ, ?_, ?_⟩)
      · rw [hinstructions]
        exact mem_map_of_mem (mem_filter.mpr ⟨hmem, hkeeps⟩)
      · rw [Instruction.rename_result, hresult, Option.map_some]

theorem typeOf {v : ValueId} {ty : TypeId}
    (hp : f.Provides ⟨v, ty⟩) (hK : v ∈ K) : g.typeOf (σ v) = f.typeOf v := by
  rw [h.distinct.typeOf_eq_some.mpr hp.mem_values]
  exact h.distinct'.typeOf_eq_some.mpr (h.mem_values hp hK)

variable (runs : Runs (Acts M module link depth f) (fun _ => True) f (.entered f arguments before)
  observed b i s)
include runs

/-- What a run has bound of the operands of a kept instruction is kept. -/
theorem keeps_operands
    (hat : f.instructionAt b i = some instruction) (hkeeps : keeps instruction = true) :
    Keeps f g σ K s instruction.kind.operands := by
  intro v hv value hbound
  obtain ⟨block, hblock, hi⟩ := Function.instructionAt_eq_some.mp hat
  obtain ⟨ty, hp⟩ := runs.provides hbound
  have hK := (h.kept runs.reachable hblock _ (mem_of_getElem? hi) hkeeps).2 v hv ty hp
  exact ⟨hK, h.typeOf hp hK⟩

theorem mem_terminator
    {block : Block} (hblock : f.blocks[b]? = some block) {v : ValueId}
    (hv : v ∈ block.terminator.operands) {value : RuntimeValue} (hbound : s.env v = some value) :
    v ∈ K := by
  obtain ⟨ty, hp⟩ := runs.provides hbound
  exact h.terminator runs.reachable hblock v hv ty hp

/-- The step of an instruction is the step of what is kept of it. -/
theorem follows
    (hrel : Renames σ K s t) (hat : f.instructionAt b i = some instruction)
    {more : List (Observation M)} {s' : State M}
    (hacts : Acts M module link depth f instruction s more s') :
    ∃ group t', (renamedGroups σ keeps f b)[i]? = some group ∧
      Stretch (Acts M module link depth g) group t more t' ∧ Renames σ K s' t' := by
  obtain ⟨block, hblock, hi⟩ := Function.instructionAt_eq_some.mp hat
  have hmem := mem_of_getElem? hi
  have hgroup := renamedGroups_getElem? σ keeps hat
  cases hkeeps : keeps instruction with
  | true =>
      rw [hkeeps, if_pos rfl] at hgroup
      obtain ⟨t', hacts', hrel'⟩ := hrel.acts h.injective (h.keeps_operands runs hat hkeeps)
        (h.kept runs.reachable hblock _ hmem hkeeps).1 hacts
      exact ⟨_, t', hgroup, .singleton hacts', hrel'⟩
  | false =>
      rw [hkeeps, if_neg Bool.false_ne_true] at hgroup
      obtain ⟨hpure, hresult⟩ := h.dropped runs.reachable hblock _ hmem hkeeps
      rcases acts_cases hacts with ⟨_, observation, hstep, rfl⟩ | ⟨_, _, hcalled⟩
      · obtain ⟨rfl, result, values, value, hsome, _, rfl⟩ := hstep.of_isPure hpure
        exact ⟨[], t, hgroup, .nil, hrel.define_left (hresult result hsome) value⟩
      · obtain ⟨callee, _, _, _, hcallee, _⟩ := hcalled
        rw [InstructionKind.callee_of_isPure hpure] at hcallee
        cases hcallee

omit runs

theorem simulates :
    Simulates (Acts M module link depth f) (Acts M module link depth g) (fun _ => True) module f g
      (.entered f arguments before) (Renames σ K) β (renamedGroups σ keeps f) where
  entry := h.entry
  block hreachable hblock := by
    obtain ⟨block', hblock', _, hinstructions, _⟩ := h.block hreachable hblock
    refine ⟨block', hblock', ?_, ?_⟩
    · rw [hinstructions, renamedGroups_of_block hblock, flatten_groups]
    · rw [renamedGroups_of_block hblock, length_map]
  step runs hrel hat hacts := h.follows runs hrel hat hacts
  edge {observed b s t block target t₀ arguments values} runs hrel hblock _ hgoto hvalues
      htarget := by
    obtain ⟨block', hblock', _, _, hterminator⟩ := h.block runs.reachable hblock
    have hreachable := runs.reachable.step
        ⟨block, hblock, Terminator.mem_successorIds_of_goto hgoto⟩
    obtain ⟨target', htarget', hparameters, _, _⟩ := h.block hreachable htarget
    have hK : ∀ v ∈ block.terminator.operands, ∀ value, s.env v = some value → v ∈ K :=
      fun v hv value hbound => h.mem_terminator runs hblock hv hbound
    refine ⟨block', arguments.map σ, target', hblock', ?_, ?_, htarget', ?_⟩
    · rw [hterminator]
      exact hrel.goto β hK hgoto
    · exact hrel.values (fun v hv => hK v (Terminator.arguments_subset_of_goto hgoto hv)) hvalues
    · rw [hparameters]
      exact hrel.bind h.injective (h.blockParameters_mem hreachable htarget) values
  returned {observed b s t block value values} runs hrel hblock hreturn hvalues := by
    obtain ⟨block', hblock', _, _, hterminator⟩ := h.block runs.reachable hblock
    refine ⟨block', value.map σ, hblock', ?_, ?_⟩
    · rw [hterminator, hreturn]
      rfl
    · have hoperands : block.terminator.operands = value.toList := by
        rw [hreturn]
        rfl
      have hmap : (value.map σ).toList = value.toList.map σ := by cases value <;> rfl
      rw [hmap]
      exact hrel.values
        (fun v hv _ hbound => h.mem_terminator runs hblock (hoperands ▸ hv) hbound) hvalues
  panicked {observed b i s t instruction checked} runs hrel hat hrequest := by
    obtain ⟨block, hblock, hi⟩ := Function.instructionAt_eq_some.mp hat
    have hgroup := renamedGroups_getElem? σ keeps hat
    cases hkeeps : keeps instruction with
    | true =>
        rw [hkeeps, if_pos rfl] at hgroup
        exact ⟨_, _, hgroup, hrel.request (h.keeps_operands runs hat hkeeps) hrequest⟩
    | false =>
        -- what is left out checks nothing
        obtain ⟨hpure, _⟩ := h.dropped runs.reachable hblock _ (mem_of_getElem? hi) hkeeps
        obtain ⟨value, hcompute⟩ :=
          InstructionKind.compute_of_isPure hpure (request_eq_some.mp hrequest).2
        cases hcompute

/-- **A pass that renames values and leaves unused ones out keeps what the function does.** -/
theorem refines : Refines M module link depth f g := by
  intro arguments before observed after ending hreaches
  obtain ⟨b, i, s, runs, hafter, hends⟩ := hreaches
  have hstart : Renames σ K (State.entered f arguments before) (State.entered g arguments before) :=
    .entered h.injective h.parameters h.parameters_mem arguments before
  obtain ⟨t, runs', hrel⟩ := h.simulates.run hstart runs
  refine ⟨_, _, t, runs', hrel.outside.trans hafter, fun e he => ?_⟩
  exact h.simulates.ends runs hrel (hends e he)

/-- The same holds of the activations that a function waits for. -/
theorem within {after : State M} {ending : Option Ending}
    (hwithin : Within M module link depth f arguments before observed after ending) :
    Within M module link depth g arguments before observed after ending := by
  cases hwithin with
  | here hreaches => exact .here (h.refines _ _ _ _ _ hreaches)
  | @inside depth _ callee _ values _ s _ observed more _ b i instruction runs hat hcallee hvalues
      hinner hending =>
      have hstart : Renames σ K (State.entered f arguments before)
          (State.entered g arguments before) :=
        .entered h.injective h.parameters h.parameters_mem arguments before
      have simulates : Simulates (Acts M module link (depth + 1) f)
          (Acts M module link (depth + 1) g) (fun _ => True) module f g
            (.entered f arguments before)
          (Renames σ K) β (renamedGroups σ keeps f) := h.simulates
      obtain ⟨t, runs', hrel⟩ := simulates.run hstart runs
      obtain ⟨block, hblock, hi⟩ := Function.instructionAt_eq_some.mp hat
      -- a call is not pure, and so it is kept
      have hkeeps : keeps instruction = true := by
        cases hkeeps : keeps instruction with
        | true => rfl
        | false =>
            obtain ⟨hpure, _⟩ := h.dropped runs.reachable hblock _ (mem_of_getElem? hi) hkeeps
            rw [InstructionKind.callee_of_isPure hpure] at hcallee
            cases hcallee
      have hgroup := renamedGroups_getElem? σ keeps hat
      rw [hkeeps, if_pos rfl] at hgroup
      refine .inside runs' (simulates.instructionAt runs.reachable hblock hgroup) ?_ ?_
        (hinner.of_outside hrel.outside) hending
      · exact (InstructionKind.callee_mapOperands ..).trans hcallee
      · have hoperands : (instruction.rename σ).kind.operands =
            instruction.kind.operands.map σ := InstructionKind.operands_mapOperands ..
        rw [hoperands]
        exact hrel.values (fun v hv value hbound =>
          (h.keeps_operands runs hat hkeeps v hv value hbound).1) hvalues

end Transforms

/-! ## Values numbered anew -/

namespace Function

theorem mem_numberingOrder {v : ValueId} :
    v ∈ f.numberingOrder ↔ v ∈ f.values.map TypedValue.value := by
  simp only [numberingOrder, values, instructions, Block.values, map_append, mem_append,
    mem_map, mem_flatMap, mem_filterMap, Option.map_eq_some_iff]
  constructor
  · rintro ((⟨p, hp, rfl⟩ | ⟨block, hblock, p, hp, rfl⟩) |
      ⟨instruction, ⟨block, hblock, hmem⟩, p, hp, rfl⟩)
    · exact .inl ⟨p, hp, rfl⟩
    · exact .inr ⟨p, ⟨block, hblock, .inl hp⟩, rfl⟩
    · exact .inr ⟨p, ⟨block, hblock, .inr ⟨instruction, hmem, hp⟩⟩, rfl⟩
  · rintro (⟨p, hp, rfl⟩ | ⟨p, ⟨block, hblock, hp | ⟨instruction, hmem, hp⟩⟩, rfl⟩)
    · exact .inl (.inl ⟨p, hp, rfl⟩)
    · exact .inl (.inr ⟨block, hblock, p, hp, rfl⟩)
    · exact .inr ⟨instruction, ⟨block, hblock, hmem⟩, p, hp, rfl⟩

theorem injOn_renumbered : Set.InjOn f.renumbered {v | v ∈ f.numberingOrder} := by
  intro v hv w hw heq
  have hv' : v ∈ f.numberingOrder := hv
  have hw' : w ∈ f.numberingOrder := hw
  rw [renumbered, renumbered, if_pos hv', if_pos hw'] at heq
  exact (idxOf_inj hv').mp heq

theorem filterMap_result_rename (σ : ValueId → ValueId) (instructions : List Instruction) :
    (instructions.map (Instruction.rename σ)).filterMap Instruction.result =
      (instructions.filterMap Instruction.result).map (TypedValue.rename σ) := by
  rw [filterMap_map, map_filterMap]
  rfl

theorem values_renumberValues (f : Function) :
    f.renumberValues.values = f.values.map (.rename f.renumbered) := by
  have hblock (block : Block) : Block.values { (block.mapOperands f.renumbered) with
      parameters := block.parameters.map (TypedValue.rename f.renumbered)
      instructions := block.instructions.map (Instruction.rename f.renumbered) } =
        block.values.map (.rename f.renumbered) := by
    rw [Block.values, Block.values, map_append, filterMap_result_rename]
  have hblocks : f.renumberValues.blocks.flatMap Block.values =
      (f.blocks.flatMap Block.values).map (.rename f.renumbered) := by
    rw [map_flatMap]
    exact (flatMap_map ..).trans (congrArg (fun g => flatMap g f.blocks) (funext hblock))
  rw [values, hblocks, values, map_append]
  rfl

theorem Distinct.renumberValues (h : f.Distinct) : f.renumberValues.Distinct := by
  have hmap : f.renumberValues.values.map TypedValue.value =
      (f.values.map TypedValue.value).map f.renumbered := by
    rw [values_renumberValues, map_map, map_map]
    rfl
  rw [Distinct, hmap]
  exact h.map_on fun v hv w hw heq =>
    injOn_renumbered (mem_numberingOrder.mpr hv) (mem_numberingOrder.mpr hw) heq

theorem Distinct.transforms_renumberValues (h : f.Distinct) :
    Transforms f f.renumberValues f.renumbered {v | v ∈ f.numberingOrder} (fun b => b)
      fun _ => true where
  distinct := h
  distinct' := h.renumberValues
  injective := injOn_renumbered
  entry := rfl
  parameters := rfl
  parameters_mem p hp :=
    mem_numberingOrder.mpr (mem_map_of_mem (mem_append_left _ hp))
  block {b block} _ hblock := by
    refine ⟨_, (getElem?_map ..).trans (congrArg _ hblock), rfl, ?_, ?_⟩
    · rw [filter_true]
      rfl
    · exact (Terminator.mapTargets_self _).symm
  blockParameters_mem hreachable hblock p hp :=
    have hprovides : f.Provides p := .inr ⟨_, _, hreachable, hblock, mem_append_left _ hp⟩
    mem_numberingOrder.mpr (mem_map_of_mem hprovides.mem_values)
  kept hreachable hblock instruction hmem _ := by
    refine ⟨fun result hresult => ?_, fun v _ ty hp => ?_⟩
    · have hprovides : f.Provides result := .inr ⟨_, _, hreachable, hblock,
        mem_append_right _ (mem_filterMap.mpr ⟨instruction, hmem, hresult⟩)⟩
      exact mem_numberingOrder.mpr (mem_map_of_mem hprovides.mem_values)
    · exact mem_numberingOrder.mpr (mem_map_of_mem hp.mem_values)
  dropped _ _ _ _ hkeeps := absurd hkeeps.symm Bool.false_ne_true
  terminator _ _ _ _ _ hp := mem_numberingOrder.mpr (mem_map_of_mem hp.mem_values)

end Function

end Jadren.Jir
