import Jadren.Jir.Semantics

/-!
# What a definition establishes stays true

A value is bound again only when control returns to its definition, and then it
has left the scope of everything that was defined with its help.  So a fact that
an instruction establishes about values in scope right after it holds at every
point the instruction precedes (`Run.persists`), whatever loop the run is in.

The first use is the defining equation of a pure instruction: at every point in
its scope, the result is what the instruction would compute there again
(`Run.satisfied`).
-/

namespace Jadren.Jir

open Dominance (Precedes Reachable)

variable {M : Machine} {module : Module} {f : Function}

namespace Module.Accepts

variable (accepted : module.Accepts f)
include accepted

/-- Where the result of an instruction is in scope, control has passed the instruction. -/
theorem precedes_of_inScope {b i : ℕ} {instruction : Instruction} {result : TypedValue}
    (hat : f.instructionAt b i = some instruction) (hresult : instruction.result = some result)
    {point : Dominance.Point} (h : f.InScope result.value point) :
    Precedes f.Edge (b, i + 1) point := by
  obtain ⟨ty, site, hdefined, hprecedes⟩ := h
  have hsite : site = .instruction b i := (accepted.unique hdefined
    (Function.definedAt_instruction.mpr ⟨instruction, hat, hresult⟩)).2
  subst hsite
  exact hprecedes

/-- Where a block parameter is in scope, control has entered the block. -/
theorem precedes_of_parameter {t : ℕ} {target : Block} (htarget : f.blocks[t]? = some target)
    {v : ValueId} (hv : v ∈ target.parameters.map TypedValue.value) {point : Dominance.Point}
    (h : f.InScope v point) : Precedes f.Edge (t, 0) point := by
  obtain ⟨ty, site, hdefined, hprecedes⟩ := h
  obtain ⟨p, hp, rfl⟩ := List.mem_map.mp hv
  have hsite : site = .blockParameter t := (accepted.unique hdefined
    (Function.definedAt_blockParameter.mpr ⟨target, htarget, hp⟩)).2
  subst hsite
  exact hprecedes

end Module.Accepts

/-- The scope at a point includes the scope at every point it precedes. -/
theorem Function.InScope.trans {v : ValueId} {p q : Dominance.Point} (h : f.InScope v p)
    (hpq : Precedes f.Edge p q) : f.InScope v q := by
  obtain ⟨ty, site, hdefined, hprecedes⟩ := h
  refine ⟨ty, site, hdefined, ?_⟩
  cases site with
  | functionParameter => trivial
  | blockParameter | instruction => exact Precedes.trans hprecedes hpq

namespace Run

/-- **Persistence.**  A fact about the values in scope right after an
instruction, established whenever the instruction is executed, holds at every
point of a run that the instruction precedes. -/
theorem persists (accepted : module.Accepts f) {start : State M} {b₀ i₀ : ℕ}
    {definition : Instruction} (hdefinition : f.instructionAt b₀ i₀ = some definition)
    {P : List (Event M) → Event M → Prop} {Q : (ValueId → Option RuntimeValue) → Prop}
    (hscope : ∀ env env', (∀ v, f.InScope v (b₀, i₀ + 2) → env' v = env v) → Q env → Q env')
    (hstep : ∀ trace s observation s', Run M module f start trace b₀ i₀ s → Throughout P trace →
      P trace ⟨b₀, i₀, s, .instruction definition observation⟩ →
      Step M module f definition s observation s' → Q s'.env)
    {trace : List (Event M)} {b i : ℕ} {s : State M} (run : Run M module f start trace b i s)
    (hP : Throughout P trace) (h : Precedes f.Edge (b₀, i₀ + 1) (b, i + 1)) : Q s.env := by
  induction run with
  | start =>
      rcases h [] .entry with hvisited | ⟨_, hindex⟩
      · cases hvisited
      · exact absurd hindex (by simp)
  | @step trace b i s s' instruction observation run hat hnext ih =>
      obtain ⟨hbefore, hlast⟩ := hP.of_append
      by_cases hsame : (b₀, i₀ + 1) = (b, i + 1)
      · obtain ⟨rfl, hindex⟩ := Prod.mk.inj hsame
        obtain rfl : i₀ = i := Nat.succ.inj hindex
        obtain rfl : definition = instruction := Option.some.inj (hdefinition.symm.trans hat)
        exact hstep _ _ _ _ run hbefore hlast hnext
      · have hprecedes := h.of_succ hsame
        refine hscope _ _ (fun v hv => hnext.env_of_ne ?_) (ih hbefore hprecedes)
        rintro result hresult rfl
        -- otherwise the instruction executed would precede the definition and follow it
        have hafter := (accepted.precedes_of_inScope hat hresult hv).of_succ
          fun heq => hsame (heq.symm)
        exact Precedes.asymm hprecedes run.reachable hafter
  | @edge trace b t s block target arguments values run hblock hgoto hvalues htarget ih =>
      obtain ⟨hbefore, _⟩ := hP.of_append
      have hedge : f.Edge b t := ⟨block, hblock, Terminator.mem_successorIds_of_goto hgoto⟩
      have hentry : Precedes f.Edge (b₀, i₀ + 1) (t, 0) := h.of_succ (by simp)
      have hend : Precedes f.Edge (b₀, i₀ + 1) (b, block.instructions.length + 1) := by
        refine hentry.of_edge hedge fun hsame => ?_
        obtain ⟨block', hblock', hindex⟩ := Function.instructionAt_eq_some.mp hdefinition
        obtain rfl : block = block' := Option.some.inj (hblock.symm.trans (hsame ▸ hblock'))
        exact Nat.succ_lt_succ (List.getElem?_eq_some_iff.mp hindex).1
      refine hscope _ _ (fun v hv => State.bind_env_of_notMem fun hmem => ?_) (ih hbefore hend)
      have hafter := (accepted.precedes_of_parameter htarget hmem hv).of_succ (by simp)
      exact Precedes.asymm hentry (run.reachable.step hedge) hafter

end Run

/-! ## Defining equations -/

/-- Instructions that compute their result from their operands alone. -/
def InstructionKind.isPure : InstructionKind → Bool
  | .stackAlloc _ _ | .load _ _ _ | .store _ _ _ _ | .boundsCheck _ _ | .vectorBoundsCheck _ _ _ =>
      false
  | kind => !kind.isExternal && !kind.isMarker

/-- Instructions that compute a scalar or a vector from their operands, and do nothing else. -/
def InstructionKind.isPureScalar : InstructionKind → Bool
  | .constant _ | .functionAddress _ | .unary _ _ | .binary _ _ _ | .compare _ _ _ | .cast _ _ _
  | .select _ _ _ | .vectorSplat _ _ | .vectorBinary _ _ _ | .vectorExtract _ _
  | .vectorInsert _ _ _ => true
  | _ => false

theorem InstructionKind.isPure_of_isPureScalar {kind : InstructionKind}
    (h : kind.isPureScalar = true) : kind.isPure = true := by
  cases kind <;> first | rfl | cases h

theorem InstructionKind.compute_of_isPure {kind : InstructionKind} (hpure : kind.isPure = true)
    {ty : Option TypeId} {types : List (Option TypeId)} {values : List RuntimeValue}
    {operation : Operation} (h : kind.operation M module ty types values = some operation) :
    ∃ value, operation = .compute value := by
  cases asks_of_operation h with
  | compute => exact ⟨_, rfl⟩
  | marker => cases kind <;> simp_all [isPure, isMarker]
  | external => cases kind <;> simp_all [isPure, isExternal]
  | stackAlloc | load | store | boundsCheck | vectorBoundsCheck => cases hpure

/-- A pure instruction only binds its result. -/
theorem Step.of_isPure {instruction : Instruction} {s s' : State M} {observation : Observation M}
    (hstep : Step M module f instruction s observation s')
    (hpure : instruction.kind.isPure = true) :
    observation = .silent ∧ ∃ result values value, instruction.result = some result ∧
      instruction.request M module f s = some (.compute value, values) ∧
        s' = s.define result.value value := by
  have hcompute : ∀ {operation values}, instruction.request M module f s =
      some (operation, values) →
      ∃ value, operation = .compute value := fun hrequest =>
    InstructionKind.compute_of_isPure hpure (request_eq_some.mp hrequest).2
  cases hstep with
  | compute hrequest hresult => exact ⟨rfl, _, _, _, hresult, hrequest, rfl⟩
  | allocate hrequest | read hrequest | write hrequest | check hrequest | skip hrequest
  | external hrequest => cases (hcompute hrequest).choose_spec

/-- The result of an instruction is what it computes from its operands. -/
def Instruction.Satisfied (M : Machine) (module : Module) (f : Function)
    (env : ValueId → Option RuntimeValue) (instruction : Instruction) (result : TypedValue) :
    Prop :=
  ∃ values value, instruction.kind.operands.map env = values.map some ∧
    instruction.kind.computed M module result.ty (f.operandTypes instruction.kind) values =
      some value ∧ env result.value = some value

theorem Run.satisfied (accepted : module.Accepts f) {start s : State M} {trace : List (Event M)}
    {b i b₀ i₀ : ℕ} (run : Run M module f start trace b i s) {instruction : Instruction}
    {result : TypedValue} (hat : f.instructionAt b₀ i₀ = some instruction)
    (hresult : instruction.result = some result) (hpure : instruction.kind.isPure = true)
    (h : Precedes f.Edge (b₀, i₀ + 1) (b, i + 1)) :
    instruction.Satisfied M module f s.env result := by
  have hoperand : ∀ v ∈ instruction.kind.operands, f.InScope v (b₀, i₀ + 1) :=
    fun v hv => accepted.operand_inScope hat hv
  refine run.persists accepted hat (P := fun _ _ => True)
    (Q := fun env => instruction.Satisfied M module f env result) ?_ ?_
    (fun _ _ _ _ => trivial) h
  · rintro env env' henv ⟨values, value, hvalues, hcomputed, hbound⟩
    refine ⟨values, value, ?_, hcomputed, ?_⟩
    · rw [← hvalues]
      exact List.map_congr_left fun v hv =>
        henv v ((hoperand v hv).trans (Precedes.same_block (by omega)))
    · rw [henv result.value ⟨_, _, Function.definedAt_instruction.mpr ⟨instruction, hat, hresult⟩,
        Precedes.same_block (by omega)⟩]
      exact hbound
  · intro trace s observation s' run _ _ hstep
    obtain ⟨_, declared, values, value, hdeclared, hrequest, rfl⟩ := hstep.of_isPure hpure
    obtain rfl : declared = result := Option.some.inj (hdeclared.symm.trans hresult)
    obtain ⟨hvalues, hoperation⟩ := request_eq_some.mp hrequest
    obtain ⟨ty, hty, hcomputed⟩ := InstructionKind.operation_compute hoperation
    obtain rfl : declared.ty = ty := by simpa [hdeclared] using hty
    refine ⟨values, value, ?_, hcomputed, by simp⟩
    -- the operands are not rebound by the step
    rw [← State.values_eq_some_iff.mp hvalues]
    refine List.map_congr_left fun v hv => Function.update_of_ne ?_ _ _
    rintro rfl
    have hself := accepted.precedes_of_inScope hat hdeclared (hoperand _ hv)
    exact Precedes.irrefl run.reachable hself

end Jadren.Jir
