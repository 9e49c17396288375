import Jadren.Jir.Semantics

/-!
# Alias analysis

`analyzeAliases` gives every pointer of a function a provenance in one walk over
the blocks as they are listed, and classifies pairs of pointers by it.  What a
store puts in memory is remembered under the *name* of the pointer stored
through, and a load through the same name gets it back.

`Justified` relates a value to every provenance the walk may give it.  A
provenance covers the objects a value has held so far (`Covers`); steps keep
this, except that a load has to read one of the values the remembered store put
there.  The walk does not see stores through another name of the same slot, on
another path, or made by a callee, so this is a condition on the run.
-/

namespace Jadren.Jir

open List

/-! ## The analysis -/

inductive AliasRelation
  | mustAlias
  | noAlias
  | mayAlias
  deriving DecidableEq, Repr

inductive Provenance
  | parameter (root : ValueId)
  | contractParameter (root : ValueId)
  | unique (root : ValueId)
  | derivedUnique (root : ValueId)
  | contract (root : ValueId)
  | shared (root : ValueId)
  | unknown
  deriving DecidableEq, Repr

/-- The provenance of a pointer derived by index arithmetic. -/
def Provenance.derived : Provenance → Provenance
  | .unique root | .derivedUnique root => .derivedUnique root
  | provenance => provenance

def ordered (left right : ValueId) : ValueId × ValueId :=
  if left ≤ right then (left, right) else (right, left)

def contractProvenance (value : ValueId) (entryParameters : List ValueId) : Provenance :=
  if value ∈ entryParameters then .contractParameter value else .contract value

/-- The relation of two provenances. -/
def aliasRelation (left right : Provenance) (contracts : List (ValueId × ValueId)) :
    AliasRelation :=
  match left, right with
  | .parameter _, .unique _ | .parameter _, .derivedUnique _ | .unique _, .parameter _
  | .derivedUnique _, .parameter _ | .contractParameter _, .unique _
  | .contractParameter _, .derivedUnique _ | .unique _, .contractParameter _
  | .derivedUnique _, .contractParameter _ => .noAlias
  | .unique left, .unique right | .unique left, .derivedUnique right
  | .derivedUnique left, .unique right | .derivedUnique left, .derivedUnique right =>
      if left ≠ right then .noAlias else .mayAlias
  | .contract left, .contract right | .contract left, .contractParameter right
  | .contractParameter left, .contract right
  | .contractParameter left, .contractParameter right =>
      if left ≠ right ∧ ordered left right ∈ contracts then .noAlias else .mayAlias
  | _, _ => .mayAlias

def Module.isPointerType (module : Module) (ty : TypeId) : Bool :=
  (module.typeKind ty).any JirType.isPointer

/-- What the walk over one function knows. -/
structure ProvenanceState where
  provenance : ValueId → Option Provenance
  memoryProvenance : ValueId → Option Provenance
  contractNoalias : List (ValueId × ValueId)
  pointers : OrderedSet ValueId

namespace ProvenanceState

variable (module : Module) (f : Function)

def setProvenance (state : ProvenanceState) (value : ValueId) (provenance : Provenance) :
    ProvenanceState :=
  { state with provenance := Function.update state.provenance value (some provenance) }

/-- Remembers a value that is a pointer. -/
def notePointer (state : ProvenanceState) (value : ValueId) (ty : TypeId) : ProvenanceState :=
  if module.isPointerType ty then { state with pointers := state.pointers.insert value } else state

def entryParameters : List ValueId := f.parameters.map TypedValue.value

def visitParameter (state : ProvenanceState) (parameter : TypedValue) : ProvenanceState :=
  (state.setProvenance parameter.value (.parameter parameter.value)).notePointer module
    parameter.value parameter.ty

/-- A contract marker names two handles that do not overlap. -/
def visitContract (state : ProvenanceState) (left right : ValueId) : ProvenanceState :=
  ({ state with contractNoalias := ordered left right :: state.contractNoalias }.setProvenance left
    (contractProvenance left (entryParameters f))).setProvenance right
      (contractProvenance right (entryParameters f))

/-- The markers are collected before the walk. -/
def precollect (state : ProvenanceState) (instruction : Instruction) : ProvenanceState :=
  match instruction.kind with
  | .assumeNoAlias left right => state.visitContract f left right
  | _ => state

def visitBlockParameter (state : ProvenanceState) (parameter : TypedValue) : ProvenanceState :=
  (state.setProvenance parameter.value .unknown).notePointer module parameter.value parameter.ty

/-- The provenance of the result of an instruction. -/
def resultProvenance (state : ProvenanceState) (result : ValueId) : InstructionKind → Provenance
  | .stackAlloc _ _ => .unique result
  | .regionAlloc region _ _ => .shared region
  | .extractValue aggregate _ => (state.provenance aggregate).getD .unknown
  | .load pointer _ _ => (state.memoryProvenance pointer).getD .unknown
  | .offset base _ => ((state.provenance base).map Provenance.derived).getD .unknown
  | .cast _ value _ => (state.provenance value).getD .unknown
  | .select _ whenTrue whenFalse =>
      if (state.provenance whenTrue).isSome ∧ state.provenance whenTrue = state.provenance whenFalse
      then (state.provenance whenTrue).getD .unknown else .unknown
  | _ => .unknown

/-- The effect of an instruction before its result is classified. -/
def visitEffect (state : ProvenanceState) : InstructionKind → ProvenanceState
  | .assumeNoAlias left right => state.visitContract f left right
  | .store pointer value _ _ =>
      { state with
        memoryProvenance := Function.update state.memoryProvenance pointer
          (state.provenance value) }
  | _ => state

def visitInstruction (state : ProvenanceState) (instruction : Instruction) : ProvenanceState :=
  let after := state.visitEffect f instruction.kind
  match instruction.result with
  | none => after
  | some result =>
      (after.setProvenance result.value
        (after.resultProvenance result.value instruction.kind)).notePointer
        module result.value result.ty

def visitBlock (state : ProvenanceState) (block : Block) : ProvenanceState :=
  block.instructions.foldl (visitInstruction module f)
    (block.parameters.foldl (visitBlockParameter module) state)

/-- Before the walk over the blocks. -/
def initial : ProvenanceState :=
  f.instructions.foldl (precollect f)
    (f.parameters.foldl (visitParameter module) ⟨fun _ => none, fun _ => none, [], ∅⟩)

def ofFunction : ProvenanceState := f.blocks.foldl (visitBlock module f) (initial module f)

/-- The relation of two pointers at the end of the walk. -/
def relationOf (state : ProvenanceState) (left right : ValueId) : AliasRelation :=
  aliasRelation ((state.provenance left).getD .unknown) ((state.provenance right).getD .unknown)
    state.contractNoalias

end ProvenanceState

/-- Facts about pairs of values of one function. -/
structure AliasAnalysis where
  relations : List ((FunctionId × ValueId × ValueId) × AliasRelation)

/-- The relation of two values; missing pairs may alias. -/
def AliasAnalysis.relation (analysis : AliasAnalysis) (function : FunctionId)
    (left right : ValueId) : AliasRelation :=
  if left = right then .mustAlias
  else (analysis.relations.lookup (function, ordered left right)).getD .mayAlias

/-- Each pair of a list, in order. -/
def pairs : List ValueId → List (ValueId × ValueId)
  | [] => []
  | left :: rest => rest.map (fun right => (left, right)) ++ pairs rest

namespace Module

def functionRelations (module : Module) (f : Function) :
    List ((FunctionId × ValueId × ValueId) × AliasRelation) :=
  let state := ProvenanceState.ofFunction module f
  (pairs state.pointers.elems).map fun pair =>
    ((f.id, ordered pair.1 pair.2), state.relationOf pair.1 pair.2)

/-- **Alias analysis** of a module. -/
def analyzeAliases (module : Module) : AliasAnalysis :=
  ⟨(module.functions.flatMap module.functionRelations).reverse⟩

end Module

/-! ## What the walk may conclude -/

namespace Function

variable (f : Function)

/-- The instructions listed before a position. -/
def earlier (b i : ℕ) : List Instruction :=
  (f.blocks.take b).flatMap Block.instructions ++
    ((f.blocks[b]?).map fun block => block.instructions.take i).getD []

end Function

/-- The operand of the last store through a pointer, by name. -/
def lastStored (instructions : List Instruction) (pointer : ValueId) : Option ValueId :=
  instructions.foldl (fun last instruction =>
    match instruction.kind with
    | .store through value _ _ => if through = pointer then some value else last
    | _ => last) none

/-- A stack allocation defines the value. -/
def Function.IsSlot (f : Function) (v : ValueId) : Prop :=
  ∃ b i instruction result ty count, f.instructionAt b i = some instruction ∧
    instruction.result = some result ∧ result.value = v ∧ instruction.kind = .stackAlloc ty count

/-- The provenances the walk may give a value, one rule for each way. -/
inductive Justified (f : Function) : ValueId → Provenance → Prop
  | parameter {p : TypedValue} (hp : p ∈ f.parameters) : Justified f p.value (.parameter p.value)
  | contractParameter {p : TypedValue} (hp : p ∈ f.parameters) :
      Justified f p.value (.contractParameter p.value)
  | contract (v : ValueId) : Justified f v (.contract v)
  | unknown (v : ValueId) : Justified f v .unknown
  | shared (v region : ValueId) : Justified f v (.shared region)
  | unique {v : ValueId} (hslot : f.IsSlot v) : Justified f v (.unique v)
  | extractValue {b i : ℕ} {instruction : Instruction} {result : TypedValue} {aggregate index : ℕ}
      {provenance : Provenance} (hat : f.instructionAt b i = some instruction)
      (hresult : instruction.result = some result)
      (hkind : instruction.kind = .extractValue aggregate index)
      (hfrom : Justified f aggregate provenance) : Justified f result.value provenance
  | load {b i : ℕ} {instruction : Instruction} {result : TypedValue} {pointer alignment value : ℕ}
      {isVolatile : Bool} {provenance : Provenance} (hat : f.instructionAt b i = some instruction)
      (hresult : instruction.result = some result)
      (hkind : instruction.kind = .load pointer alignment isVolatile)
      (hstored : lastStored (f.earlier b i) pointer = some value)
      (hfrom : Justified f value provenance) : Justified f result.value provenance
  | offset {b i : ℕ} {instruction : Instruction} {result : TypedValue} {base : ValueId}
      {indices : List ValueId} {provenance : Provenance}
      (hat : f.instructionAt b i = some instruction) (hresult : instruction.result = some result)
      (hkind : instruction.kind = .offset base indices) (hfrom : Justified f base provenance) :
      Justified f result.value provenance.derived
  | cast {b i : ℕ} {instruction : Instruction} {result : TypedValue} {op : CastOp}
      {value target : ℕ} {provenance : Provenance} (hat : f.instructionAt b i = some instruction)
      (hresult : instruction.result = some result)
      (hkind : instruction.kind = .cast op value target) (hfrom : Justified f value provenance) :
      Justified f result.value provenance
  | select {b i : ℕ} {instruction : Instruction} {result : TypedValue}
      {condition whenTrue whenFalse : ValueId} {provenance : Provenance}
      (hat : f.instructionAt b i = some instruction) (hresult : instruction.result = some result)
      (hkind : instruction.kind = .select condition whenTrue whenFalse)
      (htrue : Justified f whenTrue provenance) (hfalse : Justified f whenFalse provenance) :
      Justified f result.value provenance

/-- The handles of a contract marker of the function. -/
def Function.IsContract (f : Function) (left right : ValueId) : Prop :=
  ∃ instruction ∈ f.instructions, instruction.kind = .assumeNoAlias left right

/-- What the walk knows after the instructions listed so far. -/
structure ProvenanceState.Explained (f : Function) (done : List Instruction)
    (state : ProvenanceState) : Prop where
  provenance : ∀ v p, state.provenance v = some p → Justified f v p
  memory : ∀ pointer p, state.memoryProvenance pointer = some p →
    ∃ value, lastStored done pointer = some value ∧ Justified f value p
  contracts : ∀ pair ∈ state.contractNoalias, ∃ left right, pair = ordered left right ∧
    f.IsContract left right

namespace ProvenanceState

variable {module : Module} {f : Function} {done : List Instruction} {state : ProvenanceState}

namespace Explained

theorem setProvenance (h : state.Explained f done) {v : ValueId} {p : Provenance}
    (hp : Justified f v p) : (state.setProvenance v p).Explained f done where
  provenance w q hq := by
    simp only [ProvenanceState.setProvenance] at hq
    by_cases hw : w = v
    · subst hw
      rw [Function.update_self] at hq
      cases hq
      exact hp
    · rw [Function.update_of_ne hw] at hq
      exact h.provenance w q hq
  memory := h.memory
  contracts := h.contracts

theorem notePointer (h : state.Explained f done) (v : ValueId) (ty : TypeId) :
    (state.notePointer module v ty).Explained f done := by
  unfold ProvenanceState.notePointer
  split
  · exact ⟨h.provenance, h.memory, h.contracts⟩
  · exact h

theorem justified_contractProvenance (v : ValueId) :
    Justified f v (contractProvenance v (entryParameters f)) := by
  unfold contractProvenance
  split
  · rename_i hmem
    obtain ⟨p, hp, rfl⟩ := List.mem_map.mp hmem
    exact .contractParameter hp
  · exact .contract v

theorem visitContract (h : state.Explained f done) {left right : ValueId}
    (hcontract : f.IsContract left right) :
    (state.visitContract f left right).Explained f done := by
  have hadd : ({ state with
      contractNoalias := ordered left right :: state.contractNoalias } :
        ProvenanceState).Explained f done := by
    refine ⟨h.provenance, h.memory, fun pair hpair => ?_⟩
    rcases List.mem_cons.mp hpair with rfl | hold
    · exact ⟨left, right, rfl, hcontract⟩
    · exact h.contracts pair hold
  exact (hadd.setProvenance (justified_contractProvenance left)).setProvenance
    (justified_contractProvenance right)

theorem foldl {α : Type} {visit : ProvenanceState → α → ProvenanceState} {items : List α}
    (h : state.Explained f done)
    (hvisit : ∀ state item, item ∈ items → state.Explained f done →
      (visit state item).Explained f done) : (items.foldl visit state).Explained f done := by
  induction items generalizing state with
  | nil => exact h
  | cons item rest ih =>
      exact ih (hvisit state item (by simp) h) fun state item hitem =>
        hvisit state item (mem_cons_of_mem _ hitem)

theorem initial : (initial module f).Explained f [] := by
  refine foldl (foldl ⟨by simp, by simp, by simp⟩ fun state parameter hparameter h => ?_)
    fun state instruction hinstruction h => ?_
  · exact (h.setProvenance (.parameter hparameter)).notePointer _ _
  · unfold precollect
    split
    · rename_i left right hkind
      exact h.visitContract ⟨instruction, hinstruction, hkind⟩
    · exact h

theorem lastStored_append (instruction : Instruction) (pointer : ValueId) :
    lastStored (done ++ [instruction]) pointer =
      match instruction.kind with
      | .store through value _ _ =>
          if through = pointer then some value else lastStored done pointer
      | _ => lastStored done pointer := by
  simp only [lastStored, foldl_append, foldl_cons, foldl_nil]

variable {instruction : Instruction}

/-- The effect of an instruction, before its result. -/
theorem visitEffect (h : state.Explained f done) (hmem : instruction ∈ f.instructions) :
    (state.visitEffect f instruction.kind).Explained f (done ++ [instruction]) := by
  have hkeep : (∀ through value alignment isVolatile,
      instruction.kind ≠ .store through value alignment isVolatile) →
      ∀ pointer, lastStored (done ++ [instruction]) pointer = lastStored done pointer := by
    intro hstore pointer
    rw [lastStored_append]
    split
    · rename_i hkind
      exact absurd hkind (hstore _ _ _ _)
    · rfl
  have hother : (∀ through value alignment isVolatile,
      instruction.kind ≠ .store through value alignment isVolatile) →
      state.Explained f (done ++ [instruction]) := by
    intro hstore
    refine ⟨h.provenance, fun pointer p hp => ?_, h.contracts⟩
    rw [hkeep hstore]
    exact h.memory pointer p hp
  cases hkind : instruction.kind with
  | assumeNoAlias =>
      exact (hother (by simp [hkind])).visitContract ⟨instruction, hmem, hkind⟩
  | store through value =>
      refine ⟨h.provenance, fun pointer p hp => ?_, h.contracts⟩
      simp only [ProvenanceState.visitEffect] at hp
      rw [lastStored_append, hkind]
      by_cases hpointer : pointer = through
      · subst hpointer
        rw [Function.update_self] at hp
        exact ⟨value, by simp, h.provenance value p hp⟩
      · rw [Function.update_of_ne hpointer] at hp
        simpa [Ne.symm hpointer] using h.memory pointer p hp
  | _ => exact hother (by simp [hkind])

theorem justified_resultProvenance {b i : ℕ} {result : TypedValue}
    (h : state.Explained f (f.earlier b i ++ [instruction]))
    (hat : f.instructionAt b i = some instruction) (hresult : instruction.result = some result) :
    Justified f result.value (state.resultProvenance result.value instruction.kind) := by
  cases hkind : instruction.kind with
  | stackAlloc ty count =>
      exact .unique ⟨b, i, instruction, result, ty, count, hat, hresult, rfl, hkind⟩
  | regionAlloc => exact .shared _ _
  | extractValue aggregate =>
      simp only [resultProvenance]
      cases hp : state.provenance aggregate with
      | none => exact .unknown _
      | some => exact .extractValue hat hresult hkind (h.provenance _ _ hp)
  | load pointer =>
      simp only [resultProvenance]
      cases hp : state.memoryProvenance pointer with
      | none => exact .unknown _
      | some p =>
          obtain ⟨value, hstored, hjustified⟩ := h.memory pointer p hp
          rw [lastStored_append, hkind] at hstored
          exact .load hat hresult hkind hstored hjustified
  | offset base =>
      simp only [resultProvenance]
      cases hp : state.provenance base with
      | none => exact .unknown _
      | some => exact .offset hat hresult hkind (h.provenance _ _ hp)
  | cast op value =>
      simp only [resultProvenance]
      cases hp : state.provenance value with
      | none => exact .unknown _
      | some => exact .cast hat hresult hkind (h.provenance _ _ hp)
  | select =>
      simp only [resultProvenance]
      split
      · rename_i hsame
        obtain ⟨p, hp⟩ := Option.isSome_iff_exists.mp hsame.1
        rw [hp, Option.getD_some]
        exact .select hat hresult hkind (h.provenance _ _ hp) (h.provenance _ _ (hsame.2 ▸ hp))
      · exact .unknown _
  | _ => exact .unknown _

theorem visitInstruction {b i : ℕ} (h : state.Explained f (f.earlier b i))
    (hat : f.instructionAt b i = some instruction) :
    (state.visitInstruction module f instruction).Explained f (f.earlier b i ++ [instruction]) := by
  have heffect := h.visitEffect (Function.mem_instructions hat)
  unfold ProvenanceState.visitInstruction
  split
  · exact heffect
  · rename_i result hresult
    exact (heffect.setProvenance (heffect.justified_resultProvenance hat hresult)).notePointer _ _

end Explained

variable {b : ℕ}

theorem earlier_succ {i : ℕ} {instruction : Instruction}
    (hat : f.instructionAt b i = some instruction) :
    f.earlier b (i + 1) = f.earlier b i ++ [instruction] := by
  obtain ⟨block, hblock, hi⟩ := Function.instructionAt_eq_some.mp hat
  simp only [Function.earlier, hblock, Option.map_some, Option.getD_some, append_assoc]
  rw [take_add_one, hi]
  rfl

theorem earlier_length {block : Block} (hblock : f.blocks[b]? = some block) :
    f.earlier b block.instructions.length = f.earlier (b + 1) 0 := by
  have htake : f.blocks.take (b + 1) = f.blocks.take b ++ [block] := by
    rw [take_add_one, hblock]
    rfl
  simp only [Function.earlier, hblock, Option.map_some, Option.getD_some, take_length, htake,
    flatMap_append, flatMap_cons, flatMap_nil, append_nil, take_zero]
  cases f.blocks[b + 1]? <;> simp

theorem explained_take (module : Module) {block : Block} (hblock : f.blocks[b]? = some block)
    (h : state.Explained f (f.earlier b 0)) {i : ℕ} (hi : i ≤ block.instructions.length) :
    ((block.instructions.take i).foldl (visitInstruction module f) state).Explained f
      (f.earlier b i) := by
  induction i with
  | zero => exact h
  | succ i ih =>
      have hlt : i < block.instructions.length := hi
      have hat : f.instructionAt b i = some block.instructions[i] :=
        Function.instructionAt_eq_some.mpr ⟨block, hblock, getElem?_eq_getElem hlt⟩
      rw [take_add_one, getElem?_eq_getElem hlt, foldl_append, earlier_succ hat]
      exact (ih (by omega)).visitInstruction hat

theorem explained_blocks (module : Module) (hb : b ≤ f.blocks.length) :
    ((f.blocks.take b).foldl (visitBlock module f) (initial module f)).Explained f
      (f.earlier b 0) := by
  induction b with
  | zero =>
      have hnone : f.earlier 0 0 = [] := by
        simp only [Function.earlier, take_zero, flatMap_nil, nil_append]
        cases f.blocks[0]? <;> rfl
      rw [hnone]
      exact Explained.initial
  | succ b ih =>
      have hlt : b < f.blocks.length := hb
      have hblock : f.blocks[b]? = some f.blocks[b] := getElem?_eq_getElem hlt
      rw [take_add_one, hblock, foldl_append, ← earlier_length hblock]
      simp only [Option.toList_some, foldl_cons, foldl_nil]
      have hparameters : (f.blocks[b].parameters.foldl (visitBlockParameter module)
          ((f.blocks.take b).foldl (visitBlock module f) (initial module f))).Explained f
            (f.earlier b 0) :=
        (ih (by omega)).foldl fun state parameter _ h =>
          (h.setProvenance (.unknown _)).notePointer _ _
      have hbody := explained_take module hblock hparameters le_rfl
      rwa [take_length] at hbody

/-- **What the walk says is justified.** -/
theorem explained_ofFunction :
    (ofFunction module f).Explained f (f.earlier f.blocks.length 0) := by
  have h := explained_blocks (f := f) module le_rfl
  rwa [take_length] at h

end ProvenanceState

end Jadren.Jir
