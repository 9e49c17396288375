import Jadren.Jir.Verifier

/-!
# What an accepted function guarantees

A function of an accepted module defines each value once, and every operand is
in scope where it is used: its definition precedes the use on every path.  These
are the facts about the verifier that arguments about passes rest on, together
with the typing of the instructions that touch memory.

Positions are points `(b, i)` of a block `b` in which `i` counts: `0` is where
the block parameters are bound and `i + 1` is the `i`-th instruction.
-/

namespace Jadren.Jir

open Dominance (Precedes Reachable Point)

/-! ## Where values are defined -/

namespace Function

theorem mem_instructionDefinitions {block position : ℕ} {instructions : List Instruction}
    {v : ValueId} {d : Definition} :
    (v, d) ∈ instructionDefinitions block position instructions ↔
      ∃ i instruction result, instructions[i]? = some instruction ∧
        instruction.result = some result ∧ v = result.value ∧
        d = ⟨result.ty, .instruction block (position + i)⟩ := by
  induction instructions generalizing position with
  | nil => simp [instructionDefinitions]
  | cons instruction rest ih =>
      rw [instructionDefinitions, List.mem_append, ih]
      constructor
      · rintro (hhead | ⟨i, other, result, hi, hresult, hv, hd⟩)
        · obtain ⟨result, hresult, heq⟩ := List.mem_map.mp hhead
          obtain ⟨rfl, rfl⟩ := Prod.mk.inj heq
          exact ⟨0, instruction, result, rfl, by simpa using hresult, rfl, rfl⟩
        · exact ⟨i + 1, other, result, hi, hresult, hv, by rw [hd]; congr 2; omega⟩
      · rintro ⟨i, other, result, hi, hresult, hv, hd⟩
        cases i with
        | zero =>
            obtain rfl : instruction = other := by simpa using hi
            refine .inl (List.mem_map.mpr ⟨result, by simp [hresult], ?_⟩)
            rw [hv, hd, Nat.add_zero]
        | succ i =>
            refine .inr ⟨i, other, result, by simpa using hi, hresult, hv, ?_⟩
            rw [hd]; congr 2; omega

theorem mem_blocksDefinitions {first : ℕ} {blocks : List Block} {v : ValueId} {d : Definition} :
    (v, d) ∈ blocksDefinitions first blocks ↔
      ∃ b block, blocks[b]? = some block ∧ (v, d) ∈ blockDefinitions (first + b) block := by
  induction blocks generalizing first with
  | nil => simp [blocksDefinitions]
  | cons block rest ih =>
      rw [blocksDefinitions, List.mem_append, ih]
      constructor
      · rintro (hhead | ⟨b, other, hb, hmem⟩)
        · exact ⟨0, block, rfl, hhead⟩
        · exact ⟨b + 1, other, hb, by rwa [show first + (b + 1) = first + 1 + b by omega]⟩
      · rintro ⟨b, other, hb, hmem⟩
        cases b with
        | zero =>
            obtain rfl : block = other := by simpa using hb
            exact .inl hmem
        | succ b =>
            refine .inr ⟨b, other, by simpa using hb, ?_⟩
            rwa [show first + 1 + b = first + (b + 1) by omega]

variable {f : Function} {v : ValueId} {ty : TypeId} {b i : ℕ} {site : DefinitionSite}

variable {instruction : Instruction}

theorem instructionAt_eq_some :
    f.instructionAt b i = some instruction ↔
      ∃ block, f.blocks[b]? = some block ∧ block.instructions[i]? = some instruction := by
  simp [instructionAt, Option.bind_eq_some_iff]

theorem mem_instructions (hat : f.instructionAt b i = some instruction) :
    instruction ∈ f.instructions := by
  obtain ⟨block, hblock, hi⟩ := instructionAt_eq_some.mp hat
  exact List.mem_flatMap.mpr ⟨block, List.mem_of_getElem? hblock, List.mem_of_getElem? hi⟩

/-- `v` is defined at a site, with a type. -/
def DefinedAt (f : Function) (v : ValueId) (ty : TypeId) (site : DefinitionSite) : Prop :=
  (v, ⟨ty, site⟩) ∈ f.definitionSites

theorem definedAt_iff : f.DefinedAt v ty site ↔
    (∃ p ∈ f.parameters, v = p.value ∧ ty = p.ty ∧ site = .functionParameter) ∨
    (∃ b block, f.blocks[b]? = some block ∧
      ∃ p ∈ block.parameters, v = p.value ∧ ty = p.ty ∧ site = .blockParameter b) ∨
    ∃ b i instruction result, f.instructionAt b i = some instruction ∧
      instruction.result = some result ∧ v = result.value ∧ ty = result.ty ∧
      site = .instruction b i := by
  have hblock : ∀ b block, (v, (⟨ty, site⟩ : Definition)) ∈ blockDefinitions b block ↔
      (∃ p ∈ block.parameters, v = p.value ∧ ty = p.ty ∧ site = .blockParameter b) ∨
      ∃ i instruction result, block.instructions[i]? = some instruction ∧
        instruction.result = some result ∧ v = result.value ∧ ty = result.ty ∧
        site = .instruction b i := by
    intro b block
    simp only [blockDefinitions, List.mem_append, List.mem_map, mem_instructionDefinitions,
      Prod.mk.injEq, Definition.mk.injEq, Nat.zero_add]
    refine or_congr (exists_congr fun p => ?_) Iff.rfl
    constructor
    · rintro ⟨hp, h₁, h₂, h₃⟩; exact ⟨hp, h₁.symm, h₂.symm, h₃.symm⟩
    · rintro ⟨hp, h₁, h₂, h₃⟩; exact ⟨hp, h₁.symm, h₂.symm, h₃.symm⟩
  simp only [DefinedAt, definitionSites, List.mem_append, mem_blocksDefinitions, Nat.zero_add,
    hblock]
  constructor
  · rintro (hparameter | ⟨b, block, hb, hp | ⟨i, instruction, result, hi, hrest⟩⟩)
    · obtain ⟨p, hp, heq⟩ := List.mem_map.mp hparameter
      obtain ⟨rfl, hd⟩ := Prod.mk.inj heq
      obtain ⟨rfl, rfl⟩ := Definition.mk.inj hd
      exact .inl ⟨p, hp, rfl, rfl, rfl⟩
    · exact .inr (.inl ⟨b, block, hb, hp⟩)
    · exact .inr (.inr ⟨b, i, instruction, result,
        instructionAt_eq_some.mpr ⟨block, hb, hi⟩, hrest⟩)
  · rintro (⟨p, hp, rfl, rfl, rfl⟩ | ⟨b, block, hb, hp⟩ | ⟨b, i, instruction, result, hat, hrest⟩)
    · exact .inl (List.mem_map.mpr ⟨p, hp, rfl⟩)
    · exact .inr ⟨b, block, hb, .inl hp⟩
    · obtain ⟨block, hb, hi⟩ := instructionAt_eq_some.mp hat
      exact .inr ⟨b, block, hb, .inr ⟨i, instruction, result, hi, hrest⟩⟩

theorem definedAt_functionParameter :
    f.DefinedAt v ty .functionParameter ↔ ⟨v, ty⟩ ∈ f.parameters := by
  rw [definedAt_iff]
  constructor
  · rintro (⟨p, hp, rfl, rfl, -⟩ | ⟨_, _, _, _, _, _, _, h⟩ | ⟨_, _, _, _, _, _, _, _, h⟩)
    · exact hp
    · cases h
    · cases h
  · exact fun hp => .inl ⟨⟨v, ty⟩, hp, rfl, rfl, rfl⟩

theorem definedAt_blockParameter :
    f.DefinedAt v ty (.blockParameter b) ↔
      ∃ block, f.blocks[b]? = some block ∧ ⟨v, ty⟩ ∈ block.parameters := by
  rw [definedAt_iff]
  constructor
  · rintro (⟨_, _, _, _, h⟩ | ⟨_, block, hb, p, hp, rfl, rfl, h⟩ | ⟨_, _, _, _, _, _, _, _, h⟩)
    · cases h
    · cases h
      exact ⟨block, hb, hp⟩
    · cases h
  · rintro ⟨block, hb, hp⟩
    exact .inr (.inl ⟨b, block, hb, ⟨v, ty⟩, hp, rfl, rfl, rfl⟩)

theorem definedAt_instruction :
    f.DefinedAt v ty (.instruction b i) ↔
      ∃ instruction, f.instructionAt b i = some instruction ∧
        instruction.result = some ⟨v, ty⟩ := by
  rw [definedAt_iff]
  constructor
  · rintro (⟨_, _, _, _, h⟩ | ⟨_, _, _, _, _, _, _, h⟩ |
      ⟨_, _, instruction, result, hat, hresult, rfl, rfl, h⟩)
    · cases h
    · cases h
    · cases h
      exact ⟨instruction, hat, hresult⟩
  · rintro ⟨instruction, hat, hresult⟩
    exact .inr (.inr ⟨b, i, instruction, _, hat, hresult, rfl, rfl, rfl⟩)

/-- The point a value is defined at; parameters of the function precede all points. -/
def sitePrecedes (f : Function) : DefinitionSite → Point → Prop
  | .functionParameter, _ => True
  | .blockParameter b, point => Precedes f.Edge (b, 0) point
  | .instruction b i, point => Precedes f.Edge (b, i + 1) point

/-- A value may be used at a point. -/
def InScope (f : Function) (v : ValueId) (point : Point) : Prop :=
  ∃ ty site, f.DefinedAt v ty site ∧ f.sitePrecedes site point

theorem mem_predecessors {t : ℕ} : b ∈ f.predecessors t ↔ f.Edge b t := by
  simp only [predecessors, List.mem_flatMap, List.mem_map, List.mem_filter, Prod.exists,
    List.mem_zipIdx_iff_getElem?, Edge, beq_iff_eq]
  constructor
  · rintro ⟨block, index, hblock, target, ⟨htarget, rfl⟩, rfl⟩
    exact ⟨block, hblock, htarget⟩
  · rintro ⟨block, hblock, htarget⟩
    exact ⟨block, b, hblock, t, ⟨htarget, rfl⟩, rfl⟩

/-! ## The dominator sets -/

variable {predecessors : ℕ → List ℕ} {sets : List (Finset ℕ)}

theorem mem_refineDominators {d : ℕ} :
    d ∈ refineDominators predecessors sets b ↔
      d = b ∨ predecessors b ≠ [] ∧ ∀ p ∈ predecessors b, d ∈ sets.getD p ∅ := by
  have hfold : ∀ (rest : List ℕ) (start : Finset ℕ),
      d ∈ rest.foldl (fun current p => current ∩ sets.getD p ∅) start ↔
        d ∈ start ∧ ∀ p ∈ rest, d ∈ sets.getD p ∅ := by
    intro rest
    induction rest with
    | nil => simp
    | cons p rest ih =>
        intro start
        rw [List.foldl_cons, ih, Finset.mem_inter, and_assoc, List.forall_mem_cons]
  rw [refineDominators, Finset.mem_insert]
  cases predecessors b with
  | nil => simp
  | cons => simp only [hfold, List.forall_mem_cons, ne_eq, reduceCtorEq,
      not_false_eq_true, true_and]

theorem refineDominators_mono {sets' : List (Finset ℕ)} (h : Dominance.Contained sets sets')
    (block : ℕ) :
    refineDominators predecessors sets block ⊆ refineDominators predecessors sets' block := by
  intro d hd
  rcases mem_refineDominators.mp hd with rfl | ⟨hne, hall⟩
  · exact mem_refineDominators.mpr (.inl rfl)
  · exact mem_refineDominators.mpr (.inr ⟨hne, fun p hp => h p (hall p hp)⟩)

theorem refineDominators_range {count : ℕ} (hb : b < count) :
    refineDominators predecessors (Dominance.candidates count) b ⊆ Finset.range count := by
  have hsets : ∀ p, (Dominance.candidates count).getD p ∅ ⊆ Finset.range count := by
    intro p
    cases p with
    | zero => simp [Dominance.candidates]; omega
    | succ =>
        intro x hx
        simp only [Dominance.candidates, List.getD_eq_getElem?_getD, List.getElem?_cons_succ,
          List.getElem?_replicate] at hx
        split at hx
        · exact hx
        · simp at hx
  intro d hd
  rcases mem_refineDominators.mp hd with rfl | ⟨hne, hall⟩
  · exact Finset.mem_range.mpr hb
  · obtain ⟨p, hp⟩ := List.exists_mem_of_ne_nil _ hne
    exact hsets p (hall p hp)

/-- A block in a dominator set lies on every path. -/
theorem mem_of_dominators {d : ℕ} (hd : d ∈ f.dominators.getD b ∅) {visited : List ℕ}
    (path : Dominance.Path f.Edge visited b) : d ∈ visited ∨ d = b := by
  by_cases hcount : f.blocks.length = 0
  · simp [dominators, hcount] at hd
  obtain ⟨href, hfix⟩ := @Dominance.refine_dominators (refineDominators f.predecessors)
    f.blocks.length refineDominators_mono (fun block _ hblock => refineDominators_range hblock)
    (by omega)
  have hsets : f.dominators =
      Dominance.dominators (refineDominators f.predecessors) f.blocks.length := by
    simp [dominators, hcount]
  rw [hsets] at hd
  let sets := Dominance.dominators (refineDominators f.predecessors) f.blocks.length
  refine @Dominance.mem_of_closed f.Edge (fun block => sets.getD block ∅) ?_ ?_ visited b d path hd
  · intro e he
    rw [href.entry] at he
    simpa using he
  · intro source t e hedge he
    by_cases hzero : t = 0
    · subst hzero
      rw [href.entry] at he
      exact .inl (by simpa using he)
    · by_cases hlt : t < f.blocks.length
      · rw [← hfix t (by omega) hlt] at he
        rcases mem_refineDominators.mp he with rfl | ⟨-, hall⟩
        · exact .inl rfl
        · exact .inr (hall source (mem_predecessors.mpr hedge))
      · have hlen : sets.length ≤ t := by
          rw [href.length]
          omega
        simp [List.getD_eq_getElem?_getD, List.getElem?_eq_none hlen] at he

end Function

/-! ## What a passed check says -/

namespace UseContext

variable {context : UseContext} {instruction : Instruction}

variable {message : String}

@[simp] theorem demand_eq_nil {passes : Bool} :
    context.demand instruction passes message = [] ↔ passes = true := by
  cases passes <;> simp [demand]

@[simp] theorem requireResult_eq_nil {check : TypeId → List VerificationError} :
    context.requireResult instruction check = [] ↔
      ∃ result, instruction.result = some result ∧ check result.ty = [] := by
  cases h : instruction.result <;> simp [requireResult, h]

@[simp] theorem forbidResult_eq_nil :
    context.forbidResult instruction = [] ↔ instruction.result = none := by
  simp [forbidResult]

/-- A use that passes some check. -/
def Used (context : UseContext) (value : ValueId) : Prop :=
  ∃ expected, context.useValue value expected = []

variable {value : ValueId}

theorem useValue_eq_nil {expected : Option TypeId} :
    context.useValue value expected = [] ↔
      ∃ definition, context.definitions.lookup value = some definition ∧
        (∀ ty, expected = some ty → definition.ty = ty) ∧
        context.dominates definition.site = true := by
  unfold useValue
  cases hlookup : context.definitions.lookup value with
  | none => simp
  | some =>
      cases expected with
      | none => simp
      | some => simp

theorem dominates_blockParameter {block : ℕ} :
    context.dominates (.blockParameter block) = true ↔ block = context.site.block ∨
      block ∈ context.dominators.getD context.site.block ∅ := by
  simp only [dominates, Bool.or_eq_true, beq_iff_eq, decide_eq_true_eq]

theorem dominates_instruction {block position : ℕ} :
    context.dominates (.instruction block position) = true ↔
      block = context.site.block ∧ position < context.site.position ∨
        block ≠ context.site.block ∧ block ∈ context.dominators.getD context.site.block ∅ := by
  unfold dominates
  by_cases hsame : block = context.site.block
  · simp only [hsame, if_true, decide_eq_true_eq, true_and, ne_eq, not_true, false_and, or_false]
  · simp only [hsame, if_false, decide_eq_true_eq, false_and, ne_eq, not_false_eq_true, true_and,
      false_or]

theorem used_of_useTypedKind {predicate : JirType → Bool}
    (h : context.useTypedKind value predicate message = []) : context.Used value :=
  ⟨none, (List.append_eq_nil_iff.mp h).1⟩

variable {values : List ValueId} {expected : List TypeId}

theorem checkTypedValues_eq_nil :
    context.checkTypedValues values expected = [] ↔ values.length = expected.length ∧
      ∀ pair ∈ values.zip expected, context.useValue pair.1 (some pair.2) = [] := by
  simp [checkTypedValues]

theorem used_of_checkTypedValues (h : context.checkTypedValues values expected = [])
    (hvalue : value ∈ values) : context.Used value := by
  obtain ⟨hlen, hall⟩ := checkTypedValues_eq_nil.mp h
  obtain ⟨i, hi, rfl⟩ := List.getElem_of_mem hvalue
  have hi' : i < expected.length := hlen ▸ hi
  refine ⟨some expected[i], hall (values[i], expected[i]) ?_⟩
  exact List.mem_iff_getElem.mpr ⟨i, by simp [hi, hi'], by simp⟩

variable {arguments : List ValueId}

theorem used_of_checkSignature {parameters : List TypeId} {result : TypeId}
    (h : context.checkSignature instruction arguments parameters result message = [])
    (hvalue : value ∈ arguments) : context.Used value :=
  used_of_checkTypedValues (List.append_eq_nil_iff.mp h).1 hvalue

theorem used_of_checkEdge {target : BlockId} (h : context.checkEdge target arguments = [])
    (hvalue : value ∈ arguments) : context.Used value := by
  unfold checkEdge at h
  split at h
  · simp at h
  · exact used_of_checkTypedValues h hvalue

theorem used_of_useDestroyed (h : context.useDestroyed instruction value = []) :
    context.Used value :=
  ⟨none, (List.append_eq_nil_iff.mp h).2⟩

theorem used_of_useResized {descriptor argument : ValueId} {status : Bool}
    {others : List VerificationError}
    (h : context.useResized instruction descriptor argument status message others = []) :
    context.Used descriptor ∧ context.Used argument := by
  simp only [useResized, requireResult_eq_nil, List.append_eq_nil_iff] at h
  obtain ⟨result, _, ⟨⟨hdescriptor, hargument⟩, _⟩, _⟩ := h
  exact ⟨⟨none, hdescriptor⟩, ⟨none, hargument⟩⟩

/-- The runtime is only given values that are in scope. -/
theorem used_of_verifyOwnership {kind : OwnershipKind}
    (h : context.verifyOwnership instruction kind = []) (hvalue : value ∈ kind.operands) :
    context.Used value := by
  cases kind with
  | ownedStringDrop =>
      simp only [OwnershipKind.operands, List.mem_singleton] at hvalue
      exact hvalue ▸ used_of_useDestroyed h
  | bufferResizeMoveOwnedString | bufferResizeMoveNestedOwnedString | bufferResizeMoveRecordFields
  | bufferRemoveDropOwnedString | bufferRemoveDropRecordFields
  | bufferRemoveDropNestedRecordFields | bufferRemoveDropNestedBuffer
  | bufferRemoveDropNestedOwnedString =>
      obtain ⟨hdescriptor, hargument⟩ := used_of_useResized h
      simp only [OwnershipKind.operands, List.mem_cons, List.not_mem_nil, or_false] at hvalue
      rcases hvalue with rfl | rfl
      · exact hdescriptor
      · exact hargument
  | _ =>
      simp only [verifyOwnership, checkEnumCarrierDrop, checkEnumFieldsDrop, checkRecordFieldsDrop,
        checkCarrierDrop, List.append_eq_nil_iff, and_assoc] at h
      simp only [OwnershipKind.operands, List.mem_singleton] at hvalue
      exact hvalue ▸ used_of_useDestroyed h.1

/-- **An accepted instruction only reads values that are in scope.** -/
theorem used_of_verifyInstruction (h : context.verifyInstruction instruction = [])
    (hvalue : value ∈ instruction.kind.operands) : context.Used value := by
  unfold verifyInstruction at h
  cases hkind : instruction.kind with
  | ownership =>
      rw [hkind] at h hvalue
      exact used_of_verifyOwnership h hvalue
  | call =>
      simp only [hkind, verifyCall] at h
      rw [hkind] at hvalue
      split at h
      · simp at h
      · exact used_of_checkSignature h hvalue
  | indirectCall =>
      simp only [hkind, verifyIndirectCall, List.append_eq_nil_iff] at h
      rw [hkind] at hvalue
      obtain ⟨hcallee, hrest⟩ := h
      rcases List.mem_cons.mp hvalue with rfl | hargument
      · exact ⟨none, hcallee⟩
      · obtain ⟨definition, hlookup, _⟩ := useValue_eq_nil.mp hcallee
        simp only [typeOf, hlookup, Option.map_some] at hrest
        split at hrest
        · exact used_of_checkSignature hrest hargument
        · simp at hrest
  | aggregate | enumConstruct =>
      simp only [hkind, requireResult_eq_nil] at h
      rw [hkind] at hvalue
      obtain ⟨result, _, hcheck⟩ := h
      split at hcheck
      · simp at hcheck
      · exact used_of_checkTypedValues hcheck hvalue
  | stackAlloc ty count =>
      simp only [hkind, requireResult_eq_nil, List.append_eq_nil_iff] at h
      rw [hkind] at hvalue
      obtain ⟨result, _, _, hcount⟩ := h
      obtain rfl : count = some value := by simpa [InstructionKind.operands] using hvalue
      have hinteger : context.useInteger value = [] := by simpa using hcount
      exact used_of_useTypedKind hinteger
  | offset =>
      simp only [hkind, requireResult_eq_nil, List.append_eq_nil_iff, List.flatMap_eq_nil_iff] at h
      rw [hkind] at hvalue
      obtain ⟨result, _, ⟨hbase, hindices⟩, _⟩ := h
      rcases List.mem_cons.mp hvalue with rfl | hindex
      · exact ⟨none, hbase⟩
      · exact used_of_useTypedKind (hindices value hindex)
  | vectorSplat operand =>
      simp only [hkind, requireResult_eq_nil] at h
      rw [hkind] at hvalue
      obtain rfl : value = operand := by simpa [InstructionKind.operands] using hvalue
      obtain ⟨result, _, hcheck⟩ := h
      split at hcheck
      · split at hcheck
        · exact ⟨_, hcheck⟩
        · simp at hcheck
      · simp at hcheck
  | constant | builtin | stringLiteral | regionCreate | functionAddress =>
      simp [hkind, InstructionKind.operands] at hvalue
  | boundsCheck =>
      simp only [hkind, checkBounds, List.append_eq_nil_iff] at h
      simp only [hkind, InstructionKind.operands, List.mem_cons, List.not_mem_nil, or_false]
        at hvalue
      rcases hvalue with rfl | rfl
      · exact ⟨_, h.1.1.2⟩
      · exact ⟨_, h.1.2⟩
  | drop operand =>
      simp only [hkind] at h
      obtain rfl : value = operand := by simpa [hkind, InstructionKind.operands] using hvalue
      exact used_of_useDestroyed h
  | regionDestroy region =>
      simp only [hkind, List.append_eq_nil_iff] at h
      obtain rfl : value = region := by simpa [hkind, InstructionKind.operands] using hvalue
      exact used_of_useTypedKind h.2
  | vectorBoundsCheck | store | assumeNoAlias =>
      simp only [hkind, checkBounds, List.append_eq_nil_iff] at h
      simp only [hkind, InstructionKind.operands, List.mem_cons, List.not_mem_nil, or_false]
        at hvalue
      rcases hvalue with rfl | rfl
      · exact ⟨_, h.1.1.1.2⟩
      · exact ⟨_, h.1.1.2⟩
  | extractElement | unary | binary | compare | cast | select | regionAlloc | load | enumTag
  | enumExtract | extractValue | vectorBinary | vectorExtract | vectorInsert =>
      -- one result, a fixed list of uses and a check of the types
      simp only [hkind, requireResult_eq_nil, List.append_eq_nil_iff] at h
      simp only [hkind, InstructionKind.operands, List.mem_cons, List.not_mem_nil, or_false]
        at hvalue
      obtain ⟨result, _, hchecks⟩ := h
      rcases hvalue with rfl | rfl | rfl <;>
        first
          | exact ⟨_, hchecks.1⟩
          | exact ⟨_, hchecks.1.1⟩
          | exact ⟨_, hchecks.1.1.1⟩
          | exact ⟨_, hchecks.1.2⟩
          | exact ⟨_, hchecks.2⟩
          | exact used_of_useTypedKind hchecks.1.1
          | exact used_of_useTypedKind hchecks.1.2

/-- An accepted terminator only reads values that are in scope. -/
theorem used_of_verifyTerminator {terminator : Terminator}
    (h : context.verifyTerminator terminator = []) (hvalue : value ∈ terminator.operands) :
    context.Used value := by
  cases terminator with
  | ret returned =>
      obtain rfl : returned = some value := by simpa [Terminator.operands] using hvalue
      simp only [verifyTerminator] at h
      split at h
      · simp at h
      · exact ⟨_, h⟩
  | jump => exact used_of_checkEdge h hvalue
  | branch =>
      simp only [verifyTerminator, List.append_eq_nil_iff] at h
      obtain ⟨⟨hcondition, hthen⟩, helse⟩ := h
      rcases List.mem_cons.mp hvalue with rfl | hargument
      · exact used_of_useTypedKind hcondition
      · rcases List.mem_append.mp hargument with hargument | hargument
        · exact used_of_checkEdge hthen hargument
        · exact used_of_checkEdge helse hargument
  | switch discriminant cases =>
      simp only [verifyTerminator, List.append_eq_nil_iff] at h
      obtain ⟨⟨hdiscriminant, hcases⟩, hdefault⟩ := h
      have hcase : ∀ (cases : List SwitchCase) (seen : List ℤ),
          context.checkCases seen cases = [] → ∀ case ∈ cases,
            context.checkEdge case.target case.arguments = [] := by
        intro cases
        induction cases with
        | nil => simp
        | cons first rest ih =>
            intro seen hchecks case hmem
            simp only [checkCases, List.append_eq_nil_iff] at hchecks
            rcases List.mem_cons.mp hmem with rfl | hrest
            · exact hchecks.1.2
            · exact ih _ hchecks.2 case hrest
      rcases List.mem_cons.mp hvalue with rfl | hargument
      · exact used_of_useTypedKind hdiscriminant
      · rcases List.mem_append.mp hargument with hargument | hargument
        · obtain ⟨case, hmem, hargument⟩ := List.mem_flatMap.mp hargument
          exact used_of_checkEdge (hcase cases [] hcases case hmem) hargument
        · exact used_of_checkEdge hdefault hargument
  | unreachable => simp [Terminator.operands] at hvalue

end UseContext

/-! ## Accepted functions -/

/-- A function of an accepted module. -/
structure Module.Accepts (module : Module) (f : Function) : Prop where
  verified : module.verify = []
  member : f ∈ module.functions

theorem lookup_eq_some_iff {α β : Type} [BEq α] [LawfulBEq α] {l : List (α × β)}
    (hnodup : (l.map Prod.fst).Nodup) {a : α} {b : β} : l.lookup a = some b ↔ (a, b) ∈ l := by
  induction l with
  | nil => simp
  | cons entry rest ih =>
      obtain ⟨key, value⟩ := entry
      rw [List.map_cons, List.nodup_cons] at hnodup
      by_cases hkey : a = key
      · subst hkey
        have hfresh : (a, b) ∉ rest := fun hmem => hnodup.1 (List.mem_map.mpr ⟨_, hmem, rfl⟩)
        simp [hfresh, eq_comm]
      · have hbeq : (a == key) = false := by simpa using hkey
        simp [List.lookup_cons, hbeq, hkey, ih hnodup.2]

namespace Module

variable {module : Module} {f : Function}

variable {defined : Definitions}

/-- Keys that a list of definitions adds to those collected so far. -/
theorem nodup_of_checkDefinitions {l : List (ValueId × Definition)}
    (h : module.checkDefinitions f defined l = []) :
    (l.map Prod.fst).Nodup ∧ ∀ key ∈ l.map Prod.fst, key ∉ defined.map Prod.fst := by
  induction l generalizing defined with
  | nil => simp
  | cons entry rest ih =>
      obtain ⟨value, definition⟩ := entry
      simp only [checkDefinitions, List.append_eq_nil_iff] at h
      obtain ⟨⟨_, hfresh⟩, hrest⟩ := h
      have hnew : value ∉ defined.map Prod.fst := by
        intro hmem
        obtain ⟨⟨key, old⟩, hold, rfl⟩ := List.mem_map.mp hmem
        have hlookup : (defined.lookup key).isSome = true := by
          rw [List.lookup_isSome_iff]
          exact ⟨(key, old), hold, by simp⟩
        simp [hlookup] at hfresh
      obtain ⟨hnodup, hdisjoint⟩ := ih hrest
      simp only [List.map_cons, List.nodup_cons, List.forall_mem_cons]
      refine ⟨⟨fun hmem => ?_, hnodup⟩, hnew, fun key hkey hold => ?_⟩
      · exact hdisjoint value hmem (by simp)
      · exact hdisjoint key hkey (List.mem_cons_of_mem _ hold)

theorem nodup_of_checkBlocks {index : ℕ} {blocks : List Block}
    (h : module.checkBlocks f index defined blocks = []) :
    ((Function.blocksDefinitions index blocks).map Prod.fst).Nodup ∧
      ∀ key ∈ (Function.blocksDefinitions index blocks).map Prod.fst,
        key ∉ defined.map Prod.fst := by
  induction blocks generalizing index defined with
  | nil => simp [Function.blocksDefinitions]
  | cons block rest ih =>
      simp only [checkBlocks, List.append_eq_nil_iff] at h
      obtain ⟨⟨_, hblock⟩, hrest⟩ := h
      obtain ⟨hnodup, hdisjoint⟩ := nodup_of_checkDefinitions hblock
      obtain ⟨hnodup', hdisjoint'⟩ := ih hrest
      simp only [Function.blocksDefinitions, List.map_append, List.nodup_append, List.mem_append]
      refine ⟨⟨hnodup, hnodup', fun key hkey other hother heq => ?_⟩, fun key hkey hold => ?_⟩
      · refine hdisjoint' other hother ?_
        rw [List.map_append, List.map_reverse, List.mem_append, List.mem_reverse]
        exact .inl (heq ▸ hkey)
      · rcases hkey with hkey | hkey
        · exact hdisjoint key hkey hold
        · refine hdisjoint' key hkey ?_
          rw [List.map_append, List.mem_append]
          exact .inr hold

namespace Accepts

variable (accepted : module.Accepts f)
include accepted

theorem verifyFunction_eq_nil : module.verifyFunction f = [] := by
  have h := accepted.verified
  simp only [verify, List.append_eq_nil_iff, List.flatMap_eq_nil_iff] at h
  obtain ⟨index, hindex⟩ := List.getElem?_of_mem accepted.member
  exact (h.2 (f, index) (List.mem_zipIdx_iff_getElem?.mpr hindex)).2

theorem nodup_definitions : (f.definitionSites.map Prod.fst).Nodup := by
  have h := accepted.verifyFunction_eq_nil
  simp only [verifyFunction, List.append_eq_nil_iff] at h
  obtain ⟨⟨⟨_, hparameters⟩, hblocks⟩, _⟩ := h.1
  obtain ⟨hnodup, _⟩ := nodup_of_checkDefinitions hparameters
  obtain ⟨hnodup', hdisjoint⟩ := nodup_of_checkBlocks hblocks
  simp only [Function.definitionSites, List.map_append, List.nodup_append]
  refine ⟨hnodup, hnodup', fun key hkey other hother heq => hdisjoint other hother ?_⟩
  rw [List.map_reverse, List.mem_reverse]
  exact heq ▸ hkey

variable {v : ValueId} {site : DefinitionSite}

theorem unique {ty ty' : TypeId} {site' : DefinitionSite} (h : f.DefinedAt v ty site)
    (h' : f.DefinedAt v ty' site') : ty = ty' ∧ site = site' := by
  have hlookup := (lookup_eq_some_iff accepted.nodup_definitions).mpr h
  rw [(lookup_eq_some_iff accepted.nodup_definitions).mpr h'] at hlookup
  cases hlookup
  exact ⟨rfl, rfl⟩

theorem lookup_definitions {ty : TypeId} :
    f.definitionSites.reverse.lookup v = some ⟨ty, site⟩ ↔ f.DefinedAt v ty site := by
  rw [lookup_eq_some_iff]
  · rw [List.mem_reverse]
    rfl
  · rw [List.map_reverse, List.nodup_reverse]
    exact accepted.nodup_definitions

variable {b : ℕ} {block : Block}

theorem verifyBlock_eq_nil (hblock : f.blocks[b]? = some block) :
    module.verifyBlock f b block = [] := by
  have hbody : f.blocks.isEmpty = false := by
    obtain ⟨hlt, _⟩ := List.getElem?_eq_some_iff.mp hblock
    cases hblocks : f.blocks with
    | nil => simp [hblocks] at hlt
    | cons => rfl
  have h := accepted.verifyFunction_eq_nil
  simp only [verifyFunction, List.append_eq_nil_iff] at h
  obtain ⟨⟨⟨⟨⟨_, hlinkage⟩, _⟩, _⟩, _⟩, hblocks⟩ := h
  have hlocal : f.linkage ≠ .imported := by
    intro himported
    simp [himported, hbody] at hlinkage
  rw [if_neg hlocal, List.flatMap_eq_nil_iff] at hblocks
  exact hblocks (block, b) (List.mem_zipIdx_iff_getElem?.mpr hblock)

variable {i : ℕ} {instruction : Instruction}

theorem verifyInstruction_eq_nil (hat : f.instructionAt b i = some instruction) :
    ∃ block, f.blocks[b]? = some block ∧
      (module.useContext f b block i instruction.span).verifyInstruction instruction = [] := by
  obtain ⟨block, hblock, hi⟩ := Function.instructionAt_eq_some.mp hat
  have h := accepted.verifyBlock_eq_nil hblock
  simp only [verifyBlock, List.append_eq_nil_iff, List.flatMap_eq_nil_iff] at h
  exact ⟨block, hblock, h.1 (instruction, i) (List.mem_zipIdx_iff_getElem?.mpr hi)⟩

theorem verifyTerminator_eq_nil (hblock : f.blocks[b]? = some block) :
    (module.useContext f b block usizeMax block.span).verifyTerminator block.terminator = [] := by
  have h := accepted.verifyBlock_eq_nil hblock
  simp only [verifyBlock, List.append_eq_nil_iff] at h
  exact h.2

/-- A passed use of a value that is defined before position `n` of this block, if
in this block at all, is in scope there. -/
theorem inScope_of_used {n : ℕ} {span : Option Span}
    (hused : (module.useContext f b block i span).Used v)
    (hn : ∀ ty j, f.DefinedAt v ty (.instruction b j) → j < i → j < n) :
    f.InScope v (b, n + 1) := by
  obtain ⟨expected, hcheck⟩ := hused
  obtain ⟨⟨ty, site⟩, hlookup, _, hdominates⟩ := UseContext.useValue_eq_nil.mp hcheck
  have hdefined := accepted.lookup_definitions.mp hlookup
  refine ⟨ty, site, hdefined, ?_⟩
  cases site with
  | functionParameter => trivial
  | blockParameter =>
      intro visited path
      rcases UseContext.dominates_blockParameter.mp hdominates with hsame | hmem
      · exact .inr ⟨hsame, Nat.succ_pos _⟩
      · rcases Function.mem_of_dominators hmem path with hvisited | hsame
        · exact .inl hvisited
        · exact .inr ⟨hsame, Nat.succ_pos _⟩
  | instruction block' j =>
      intro visited path
      rcases UseContext.dominates_instruction.mp hdominates with ⟨hsame, hj⟩ | ⟨hother, hmem⟩
      · have hsame' : block' = b := hsame
        exact .inr ⟨hsame, Nat.succ_lt_succ (hn ty j (hsame' ▸ hdefined) hj)⟩
      · rcases Function.mem_of_dominators hmem path with hvisited | hsame
        · exact .inl hvisited
        · exact absurd hsame hother

/-- **The operands of an accepted instruction are in scope.** -/
theorem operand_inScope (hat : f.instructionAt b i = some instruction)
    (hv : v ∈ instruction.kind.operands) : f.InScope v (b, i + 1) := by
  obtain ⟨block, _, hcheck⟩ := accepted.verifyInstruction_eq_nil hat
  exact accepted.inScope_of_used (UseContext.used_of_verifyInstruction hcheck hv)
    fun _ _ _ hj => hj

/-- The operands of an accepted terminator are in scope at the end of its block. -/
theorem terminator_inScope (hblock : f.blocks[b]? = some block)
    (hv : v ∈ block.terminator.operands) : f.InScope v (b, block.instructions.length + 1) := by
  refine accepted.inScope_of_used
    (UseContext.used_of_verifyTerminator (accepted.verifyTerminator_eq_nil hblock) hv) ?_
  intro ty j hdefined _
  obtain ⟨instruction, hat, _⟩ := Function.definedAt_instruction.mp hdefined
  obtain ⟨block', hblock', hj⟩ := Function.instructionAt_eq_some.mp hat
  obtain rfl : block = block' := Option.some.inj (hblock.symm.trans hblock')
  exact (List.getElem?_eq_some_iff.mp hj).1

end Accepts

end Module

end Jadren.Jir
