import Jadren.Jir.Canonical
import Jadren.Jir.Execution
import Jadren.Jir.Renaming
import Jadren.Library.Search
import Mathlib.Algebra.Order.BigOperators.Group.Finset

/-!
# Simplified control flow and dead code

`simplifyCfgAndDce` takes a function through three passes: branches and switches on constants become
jumps, blocks that no path leads to are dropped and the others numbered anew, and instructions that
only compute a value nobody reads are removed until there are none.

Each pass has a simulation of its own.  A jump goes where the terminator went
(`goto_of_replacement`), a block that is found does the same under its new number, and what is
dropped computes only values that are not kept (`keptValues`); `simplifyCfgAndDce_follows` composes
them.
-/

namespace Jadren.Jir

open List Terminator List.Sublist Option

/-- What the pass counts. -/
structure OptimizationStats where
  simplifiedTerminators : ℕ
  removedInstructions : ℕ
  deriving DecidableEq, Repr

namespace Function

variable (f : Function)

/-! ## Terminators -/

/-- The values defined by constants. -/
def constants : List (ValueId × Constant) :=
  f.definitions.filterMap fun definition =>
    match definition.2 with
    | .constant constant => some (definition.1, constant)
    | _ => none

/-- A later constant of a value replaces an earlier one. -/
def constantOf (v : ValueId) : Option Constant := f.constants.reverse.lookup v

/-- The jump that replaces a branch or a switch on a constant. -/
def replacement : Terminator → Option Terminator
  | .branch condition thenTarget thenArguments elseTarget elseArguments =>
      match f.constantOf condition with
      | some (.bool true) => some (.jump thenTarget thenArguments)
      | some (.bool false) => some (.jump elseTarget elseArguments)
      | _ => none
  | .switch discriminant cases default defaultArguments =>
      match f.constantOf discriminant with
      | some (.integer value) =>
          match cases.find? fun case => case.value == value with
          | some case => some (.jump case.target case.arguments)
          | none => some (.jump default defaultArguments)
      | _ => none
  | _ => none

def simplifyConstantTerminators : Function :=
  { f with
    blocks := f.blocks.map fun block =>
      { block with terminator := (f.replacement block.terminator).getD block.terminator } }

def simplifiedTerminators : ℕ :=
  f.blocks.countP fun block => (f.replacement block.terminator).isSome

/-! ## Blocks -/

def targetsOf (b : BlockId) : List BlockId :=
  ((f.blocks[b]?).map fun block => block.terminator.successorIds).getD []

/-- The blocks found from the entry; each target is pushed at most once. -/
def reachedBlocks : List BlockId :=
  Search.search f.targetsOf
    (1 + (f.blocks.map fun block => block.terminator.successorIds.length).sum) [0] []

/-- The number of a block that is kept; blocks that are not kept there have none. -/
def blockNumber (b : BlockId) : Option BlockId :=
  if b < f.blocks.length ∧ b ∈ f.reachedBlocks then
    some ((range b).countP fun earlier => decide (earlier ∈ f.reachedBlocks))
  else none

def remapBlock (b : BlockId) : BlockId := (f.blockNumber b).getD b

def pruneUnreachableBlocks : Function :=
  if f.blocks.isEmpty then f
  else if f.reachedBlocks.length = f.blocks.length then f
  else
    { f with
      blocks := f.blocks.zipIdx.filterMap fun entry =>
        (f.blockNumber entry.2).map fun number =>
          { entry.1 with id := number, terminator := entry.1.terminator.mapTargets f.remapBlock } }

/-! ## Instructions -/

/-- All uses of values. -/
def uses : List ValueId :=
  f.blocks.flatMap fun block =>
    block.instructions.flatMap (fun instruction => instruction.kind.operands) ++
      block.terminator.operands

def isDead (instruction : Instruction) : Bool :=
  match instruction.result with
  | some result => f.uses.count result.value == 0 && instruction.kind.isPureScalar
  | none => false

def withoutDead : Function :=
  { f with
    blocks := f.blocks.map fun block =>
      { block with
        instructions := block.instructions.filter fun instruction => !f.isDead instruction } }

def deadInstructions : ℕ := f.instructions.countP f.isDead

/-- Removes dead instructions until there are none, and counts them. -/
def removeDead : ℕ → Function → ℕ → Function × ℕ
  | 0, f, removed => (f, removed)
  | fuel + 1, f, removed =>
      if f.deadInstructions = 0 then (f, removed)
      else removeDead fuel f.withoutDead (removed + f.deadInstructions)

/-- Values are numbered anew once an instruction has been removed, here or in a function before. -/
def eliminateDeadInstructions (removed : ℕ) : Function × ℕ :=
  let result := removeDead (f.instructions.length + 1) f removed
  if result.2 = 0 then result else (result.1.renumberValues, result.2)

def simplify (stats : OptimizationStats) : Function × OptimizationStats :=
  let result := f.simplifyConstantTerminators.pruneUnreachableBlocks.eliminateDeadInstructions
    stats.removedInstructions
  (result.1, ⟨stats.simplifiedTerminators + f.simplifiedTerminators, result.2⟩)

end Function

/-- The functions of a module, one after the other. -/
def simplifyFunctions : OptimizationStats → List Function → List Function × OptimizationStats
  | stats, [] => ([], stats)
  | stats, f :: rest =>
      let first := f.simplify stats
      let others := simplifyFunctions first.2 rest
      (first.1 :: others.1, others.2)

/-- **Control flow simplification and dead code elimination**, with what has been done. -/
def simplifyCfgAndDce (module : Module) : Module × OptimizationStats :=
  let result := simplifyFunctions ⟨0, 0⟩ module.functions
  ({ module with functions := result.1 }, result.2)

open Dominance (Reachable)

variable {M : Machine} {module : Module} {f g : Function}

/-! ## Constant terminators on a run -/

/-- Where the terminator of a block is a switch on a constant, the first case that is equal to it at
the width of the switch is equal to it as stored. -/
def Function.FoldsExactly (module : Module) (f : Function) (b : ℕ) : Prop :=
  ∀ block discriminant cases default defaultArguments value ty signed bits case,
    f.blocks[b]? = some block →
    block.terminator = .switch discriminant cases default defaultArguments →
    f.constantOf discriminant = some (.integer value) → f.typeOf discriminant = some ty →
    module.typeKind ty = some (.integer signed bits) →
    cases.find? (fun case => encode bits case.value == encode bits value) = some case →
    case.value = value

namespace Function

theorem defines_of_constantOf {v : ValueId} {constant : Constant}
    (h : f.constantOf v = some constant) : ∃ b i instruction result,
      f.Defines b i instruction result ∧ result.value = v ∧
        instruction.kind = .constant constant := by
  obtain ⟨before, after, hlist, _⟩ := List.lookup_eq_some_iff.mp h
  have hmem : (v, constant) ∈ f.constants := by
    rw [← mem_reverse, hlist]
    simp
  obtain ⟨⟨w, kind⟩, hdefinition, hkind⟩ := mem_filterMap.mp hmem
  split at hkind
  · rename_i hconstant
    cases hkind
    obtain ⟨b, i, instruction, result, hdefines, hvalue, rfl⟩ :=
      Function.mem_definitions.mp hdefinition
    exact ⟨b, i, instruction, result, hdefines, hvalue, hconstant⟩
  · cases hkind

/-- The values of a function stay where its terminators change. -/
theorem values_simplifyConstantTerminators (f : Function) :
    f.simplifyConstantTerminators.values = f.values := by
  refine congrArg (f.parameters ++ ·) ?_
  exact flatMap_map ..

/-- What is found among the cases as stored is what the comparison at the width finds. -/
theorem find?_eq_of_exact {cases : List SwitchCase} {bits : ℕ} {value : ℤ}
    (h : ∀ case, cases.find? (fun case => encode bits case.value == encode bits value) =
      some case → case.value = value) :
    cases.find? (fun case => case.value == value) =
      cases.find? fun case => encode bits case.value == encode bits value := by
  induction cases with
  | nil => rfl
  | cons first rest ih =>
      by_cases hstored : first.value = value
      · rw [find?_cons_of_pos (by simp [hstored]), find?_cons_of_pos (by simp [hstored])]
      · by_cases hencoded : encode bits first.value = encode bits value
        · have hfirst := h first (find?_cons_of_pos (by simp [hencoded]))
          exact absurd hfirst hstored
        · have hskip : (encode bits first.value == encode bits value) = false := by
            simpa using hencoded
          rw [find?_cons_of_neg (by simp [hstored]), find?_cons_of_neg (by simp [hskip])]
          refine ih fun case hcase => h case ?_
          rw [find?_cons_of_neg (by simp [hskip]), hcase]

end Function

variable {b : ℕ}

/-- **The jump in place of a terminator goes where the terminator goes.** -/
theorem goto_of_replacement (accepted : module.Accepts f) {start s : State M}
    {trace : List (Event M)} {block : Block}
    (run : Run M module f start trace b block.instructions.length s)
    (hblock : f.blocks[b]? = some block) (hexact : f.FoldsExactly module b) {jump : Terminator}
    (hjump : f.replacement block.terminator = some jump) {target : BlockId}
    {arguments : List ValueId} (hgoto : block.terminator.goto s.env = some (target, arguments)) :
    jump.goto s.env = some (target, arguments) := by
  -- a constant that the terminator reads is bound to what it stands for
  have hconstant : ∀ {v constant}, v ∈ block.terminator.operands →
      f.constantOf v = some constant → ∃ ty value, f.typeOf v = some ty ∧
        constantValue M module ty constant = some value ∧ s.env v = some value := by
    intro v constant hv hconstant
    have hscope := accepted.terminator_inScope hblock hv
    obtain ⟨b₀, i₀, instruction, result, hdefines, rfl, hkind⟩ :=
      Function.defines_of_constantOf hconstant
    obtain ⟨hty, value, hvalue, henv⟩ := run.env_of_constant accepted hdefines hkind hscope
    exact ⟨result.ty, value, hty, hvalue, henv⟩
  cases hterminator : block.terminator with
  | ret | unreachable | jump => rw [hterminator] at hjump; cases hjump
  | branch condition =>
      have hmem : condition ∈ block.terminator.operands := by
        rw [hterminator]
        exact mem_cons_self
      rw [hterminator] at hjump hgoto
      simp only [Function.replacement] at hjump
      split at hjump
      · rename_i hbool
        obtain ⟨ty, value, _, hvalue, henv⟩ := hconstant hmem hbool
        cases hvalue
        cases hjump
        simp only [goto, henv] at hgoto
        exact hgoto
      · rename_i hbool
        obtain ⟨ty, value, _, hvalue, henv⟩ := hconstant hmem hbool
        cases hvalue
        cases hjump
        simp only [goto, henv] at hgoto
        exact hgoto
      · cases hjump
  | switch discriminant cases default defaultArguments =>
      have hmem : discriminant ∈ block.terminator.operands := by
        rw [hterminator]
        exact mem_cons_self
      rw [hterminator] at hjump hgoto
      simp only [Function.replacement] at hjump
      split at hjump
      · rename_i stored hinteger
        obtain ⟨ty, value, hty, hvalue, henv⟩ := hconstant hmem hinteger
        simp only [constantValue] at hvalue
        split at hvalue
        · rename_i signed bits hkind
          cases hvalue
          have hfind := Function.find?_eq_of_exact fun case =>
            hexact block discriminant cases default defaultArguments stored ty signed bits case
              hblock hterminator hinteger hty hkind
          simp only [goto, henv, ← hfind] at hgoto
          cases hfound : cases.find? fun case => case.value == stored with
          | some | none =>
              simp only [hfound] at hjump hgoto
              cases hjump
              exact hgoto
        · cases hvalue
      · cases hjump

/-- The instructions of a block, each for itself. -/
def singletonGroups (f : Function) (b : ℕ) : List (List Instruction) :=
  (((f.blocks[b]?).map Block.instructions).getD []).map fun instruction => [instruction]

theorem simplifyConstantTerminators_block {block : Block} (hblock : f.blocks[b]? = some block) :
    f.simplifyConstantTerminators.blocks[b]? =
      some { block with terminator := (f.replacement block.terminator).getD block.terminator } :=
  (getElem?_map ..).trans (congrArg _ hblock)

theorem simplifyConstantTerminators_request (hdistinct : f.Distinct) (instruction : Instruction)
    (s : State M) :
    instruction.request M module f.simplifyConstantTerminators s =
      instruction.request M module f s := by
  have htypes := hdistinct.typeOf_congr f.values_simplifyConstantTerminators
  simp only [Instruction.request, Function.operandTypes, htypes]

/-- A terminator that goes on is either left or replaced by a jump that goes to the same place. -/
theorem simulates_simplifyConstantTerminators (accepted : module.Accepts f)
    (arguments : List RuntimeValue) (before : State M) :
    Simulates (Acts M module unlinked 0 f)
      (Acts M module unlinked 0 f.simplifyConstantTerminators) (f.FoldsExactly module) module f
      f.simplifyConstantTerminators (.entered f arguments before) (fun s t => t = s) (fun b => b)
      (singletonGroups f) where
  entry := rfl
  block {b block} _ hblock := by
    refine ⟨_, simplifyConstantTerminators_block hblock, ?_, ?_⟩
    · rw [singletonGroups, hblock]
      exact (flatMap_singleton' _).symm
    · rw [singletonGroups, hblock]
      exact length_map ..
  step {observed b i s t instruction more s'} _ hrel hat hacts := by
    obtain ⟨block, hblock, hi⟩ := Function.instructionAt_eq_some.mp hat
    obtain ⟨observation, hstep, hseen⟩ := direct_unlinked.mp hacts
    have hstep' : Step M module f.simplifyConstantTerminators instruction s observation s' :=
      hstep.congr fun r hr => (simplifyConstantTerminators_request accepted.distinct _ _).trans hr
    refine ⟨[instruction], s', ?_, ?_, rfl⟩
    · rw [singletonGroups, hblock]
      exact (getElem?_map ..).trans (congrArg _ hi)
    · rw [hrel]
      exact .singleton (direct_unlinked.mpr ⟨observation, hstep', hseen⟩)
  edge {observed b s t block target t₀ arguments values} runs hrel hblock hexact hgoto hvalues
      htarget := by
    refine ⟨_, arguments, _, simplifyConstantTerminators_block hblock, ?_, hrel ▸ hvalues,
      simplifyConstantTerminators_block htarget, by rw [hrel]⟩
    rw [hrel]
    -- the replacement goes where the terminator would, if the block is folded exactly
    cases hjump : f.replacement block.terminator with
    | none => exact hgoto
    | some =>
        obtain ⟨trace, run, _⟩ := runs.run rfl
        exact goto_of_replacement accepted run hblock hexact hjump hgoto
  returned {observed b s t block value values} _ hrel hblock hreturn hvalues := by
    refine ⟨_, value, simplifyConstantTerminators_block hblock, ?_, hrel ▸ hvalues⟩
    rw [hreturn]
    rfl
  panicked {observed b i s t instruction checked} _ hrel hat hrequest := by
    obtain ⟨block, hblock, hi⟩ := Function.instructionAt_eq_some.mp hat
    refine ⟨instruction, [], ?_, ?_⟩
    · rw [singletonGroups, hblock]
      exact (getElem?_map ..).trans (congrArg _ hi)
    · rw [hrel]
      exact (simplifyConstantTerminators_request accepted.distinct _ _).trans hrequest

/-! ## Blocks that are found -/

namespace Function

theorem sum_range_blocks (blocks : List Block) (h : Block → ℕ) :
    ∑ b ∈ Finset.range blocks.length, ((blocks[b]?).map h).getD 0 = (blocks.map h).sum := by
  induction blocks with
  | nil => rfl
  | cons block rest ih =>
      rw [length_cons, Finset.sum_range_succ', map_cons, sum_cons, ← ih,
        Nat.add_comm]
      rfl

/-- The search has fuel enough. -/
theorem measure_le (f : Function) :
    Search.measure f.targetsOf (Finset.range f.blocks.length) [0] [] ≤
      1 + (f.blocks.map fun block => block.terminator.successorIds.length).sum := by
  have hlength (b : ℕ) : (f.targetsOf b).length =
      ((f.blocks[b]?).map fun block => block.terminator.successorIds.length).getD 0 := by
    unfold targetsOf
    cases f.blocks[b]? <;> rfl
  rw [Search.measure, ← sum_range_blocks, length_singleton]
  refine Nat.add_le_add_left ?_ 1
  calc ∑ b ∈ (Finset.range f.blocks.length).filter (· ∉ []), (f.targetsOf b).length
      ≤ ∑ b ∈ Finset.range f.blocks.length, (f.targetsOf b).length :=
        Finset.sum_le_sum_of_subset (Finset.filter_subset _ _)
    _ = _ := Finset.sum_congr rfl fun b _ => hlength b

variable {b : ℕ}

/-- All blocks where control may come are found. -/
theorem mem_reachedBlocks (hreachable : Reachable f.Edge b) : b ∈ f.reachedBlocks := by
  have hnodes : ∀ a ∉ Finset.range f.blocks.length, f.targetsOf a = [] := by
    intro a ha
    rw [Finset.mem_range, not_lt] at ha
    rw [targetsOf, getElem?_eq_none ha]
    rfl
  refine Search.mem_search_of_chain hnodes f.measure_le ?_
  obtain ⟨visited, path⟩ := hreachable
  induction path with
  | entry => exact .refl
  | step path hedge ih =>
      refine ih.tail ?_
      obtain ⟨block, hblock, hsuccessor⟩ := hedge
      rw [targetsOf, hblock]
      exact hsuccessor

theorem blockNumber_isSome (hb : b < f.blocks.length) :
    (f.blockNumber b).isSome = decide (b ∈ f.reachedBlocks) := by
  by_cases hmem : b ∈ f.reachedBlocks <;> simp [blockNumber, hb, hmem]

theorem blockNumber_of_reachable {block : Block} (hreachable : Reachable f.Edge b)
    (hblock : f.blocks[b]? = some block) :
    f.blockNumber b =
      some ((range b).countP fun earlier => decide (earlier ∈ f.reachedBlocks)) :=
  if_pos ⟨(List.getElem?_eq_some_iff.mp hblock).1, mem_reachedBlocks hreachable⟩

variable {keep : Block × ℕ → Option Block}

/-- Where an entry of a list is found among those that are kept: after the kept ones before it. -/
theorem getElem?_filterMap_zipIdx {kept : ℕ → Bool} {blocks : List Block} {first k : ℕ}
    {block : Block}
    (hkept : ∀ entry, entry.2 < first + blocks.length → (keep entry).isSome = kept entry.2)
    (hk : blocks[k]? = some block) (hblock : kept (first + k) = true) :
    ((blocks.zipIdx first).filterMap keep)[(range' first k).countP kept]? =
      keep (block, first + k) := by
  induction blocks generalizing first k with
  | nil => cases hk
  | cons head rest ih =>
      have hhead := hkept (head, first) (by simp)
      rw [zipIdx_cons]
      cases k with
      | zero =>
          obtain rfl := some.inj hk
          obtain ⟨kept', heq⟩ := Option.isSome_iff_exists.mp (hhead.trans hblock)
          rw [filterMap_cons_some heq]
          exact heq.symm
      | succ k =>
          have hshift : first + (k + 1) = first + 1 + k := by omega
          rw [hshift] at hblock ⊢
          have hrest := @ih (first + 1) k (fun entry hentry => hkept entry (by
            rw [length_cons]
            omega)) hk hblock
          rw [range'_succ, countP_cons]
          cases heq : keep (head, first) with
          | none =>
              rw [heq] at hhead
              rw [filterMap_cons_none heq, ← hhead]
              exact hrest
          | some =>
              rw [heq] at hhead
              rw [filterMap_cons_some heq, ← hhead]
              exact hrest

theorem flatMap_filterMap_sublist
    (hvalues : ∀ entry block, keep entry = some block → block.values = entry.1.values)
    (blocks : List Block) (first : ℕ) :
    (((blocks.zipIdx first).filterMap keep).flatMap Block.values).Sublist
      (blocks.flatMap Block.values) := by
  induction blocks generalizing first with
  | nil => exact refl _
  | cons head rest ih =>
      rw [zipIdx_cons, flatMap_cons]
      cases heq : keep (head, first) with
      | none =>
          rw [filterMap_cons_none heq]
          exact (ih (first + 1)).trans (sublist_append_right _ _)
      | some =>
          rw [filterMap_cons_some heq, flatMap_cons, hvalues _ _ heq]
          exact (ih (first + 1)).append_left _

/-- Blocks that are dropped define values, and the others the same as before. -/
theorem values_pruneUnreachableBlocks (f : Function) :
    f.pruneUnreachableBlocks.values.Sublist f.values := by
  unfold pruneUnreachableBlocks
  split
  · exact refl _
  · split
    · exact refl _
    · refine (flatMap_filterMap_sublist (fun entry block heq => ?_) f.blocks 0).append_left _
      obtain ⟨number, _, rfl⟩ := Option.map_eq_some_iff.mp heq
      rfl

theorem Distinct.pruneUnreachableBlocks (h : f.Distinct) : f.pruneUnreachableBlocks.Distinct :=
  h.of_sublist f.values_pruneUnreachableBlocks

end Function

variable {link : FunctionId → Option Function} {depth : ℕ}

/-- Dropping blocks that no path leads to keeps what the function does. -/
theorem refines_pruneUnreachableBlocks (h : f.Distinct) :
    Refines M module link depth f f.pruneUnreachableBlocks := by
  have hdistinct := h.pruneUnreachableBlocks
  by_cases hsame : f.pruneUnreachableBlocks = f
  · rw [hsame]
    exact .refl f
  have hblocks : f.pruneUnreachableBlocks =
      { f with
        blocks := f.blocks.zipIdx.filterMap fun entry =>
          (f.blockNumber entry.2).map fun number =>
            { entry.1 with
              id := number, terminator := entry.1.terminator.mapTargets f.remapBlock } } := by
    unfold Function.pruneUnreachableBlocks at hsame ⊢
    split at hsame
    · exact absurd rfl hsame
    · rename_i hnonempty
      split at hsame
      · exact absurd rfl hsame
      · rename_i hlength
        rw [if_neg hnonempty, if_neg hlength]
  rw [hblocks] at hdistinct ⊢
  have transforms : Transforms f _ (fun v => v) Set.univ f.remapBlock fun _ => true := {
    distinct := h
    distinct' := hdistinct
    injective := Set.injOn_of_injective fun _ _ heq => heq
    entry := by
      unfold Function.remapBlock Function.blockNumber
      split <;> rfl
    parameters := (map_rename_self _).symm
    parameters_mem := fun _ _ => trivial
    block := fun {b block} hreachable hblock => by
      -- a block that is kept moves up by the blocks dropped before it
      have hnumber := Function.blockNumber_of_reachable hreachable hblock
      have hremap : f.remapBlock b =
          (range b).countP fun earlier => decide (earlier ∈ f.reachedBlocks) := by
        rw [Function.remapBlock, hnumber, Option.getD_some]
      refine ⟨{ block with
        id := f.remapBlock b, terminator := block.terminator.mapTargets f.remapBlock }, ?_, ?_⟩
      · rw [hremap, range_eq_range']
        refine (Function.getElem?_filterMap_zipIdx (fun entry hentry => ?_) hblock ?_).trans ?_
        · rw [Option.isSome_map]
          exact Function.blockNumber_isSome (by rwa [Nat.zero_add] at hentry)
        · rw [Nat.zero_add]
          exact decide_eq_true (Function.mem_reachedBlocks hreachable)
        · rw [Nat.zero_add, hnumber, range_eq_range']
          rfl
      · simp [mapOperands_self]
    blockParameters_mem := fun _ _ _ _ => trivial
    kept := fun _ _ _ _ _ => ⟨fun _ _ => trivial, fun _ _ _ _ => trivial⟩
    dropped := fun _ _ _ _ hkeeps => absurd hkeeps.symm Bool.false_ne_true
    terminator := fun _ _ _ _ _ _ => trivial }
  exact transforms.refines

/-! ## Instructions that are dead -/

namespace Function

theorem isDead_eq_true {instruction : Instruction} :
    f.isDead instruction = true ↔ ∃ result, instruction.result = some result ∧
      result.value ∉ f.uses ∧ instruction.kind.isPureScalar = true := by
  unfold isDead
  cases instruction.result with
  | none => simp
  | some => simp [count_eq_zero]

/-- The values that are not the result of a dead instruction. -/
def keptValues (f : Function) : Set ValueId :=
  {v | ∀ instruction ∈ f.instructions, f.isDead instruction = true →
    ∀ result, instruction.result = some result → result.value ≠ v}

theorem mem_keptValues_of_use {v : ValueId} (hv : v ∈ f.uses) : v ∈ f.keptValues := by
  intro instruction _ hdead result hresult heq
  obtain ⟨result', hresult', hunused, _⟩ := isDead_eq_true.mp hdead
  obtain rfl := some.inj (hresult.symm.trans hresult')
  exact hunused (heq ▸ hv)

/-- A value with a definition other than a dead instruction is kept. -/
theorem Distinct.mem_keptValues (h : f.Distinct) {v : ValueId} {ty : TypeId}
    {site : DefinitionSite} (hsite : f.DefinedAt v ty site)
    (hlive : ∀ b i instruction, site = .instruction b i → f.instructionAt b i = some instruction →
      f.isDead instruction = false) : v ∈ f.keptValues := by
  intro instruction hmem hdead result hresult heq
  obtain ⟨block, hblock, hin⟩ := mem_flatMap.mp hmem
  obtain ⟨b, hb⟩ := getElem?_of_mem hblock
  obtain ⟨i, hi⟩ := getElem?_of_mem hin
  have hat : f.instructionAt b i = some instruction :=
    Function.instructionAt_eq_some.mpr ⟨block, hb, hi⟩
  have hdefined : f.DefinedAt v result.ty (.instruction b i) :=
    heq ▸ Function.definedAt_instruction.mpr ⟨instruction, hat, hresult⟩
  have hsame := h.unique hdefined hsite
  rw [hlive b i instruction hsame hat] at hdead
  cases hdead

theorem values_withoutDead (f : Function) : f.withoutDead.values.Sublist f.values := by
  have hblocks (blocks : List Block) : ((blocks.map fun block => { block with
      instructions := block.instructions.filter fun instruction => !f.isDead instruction }).flatMap
        Block.values).Sublist (blocks.flatMap Block.values) := by
    induction blocks with
    | nil => exact refl _
    | cons block rest ih =>
        rw [map_cons, flatMap_cons, flatMap_cons]
        refine append (append_left ?_ _) ih
        exact filter_sublist.filterMap _
  exact (hblocks f.blocks).append_left _

theorem Distinct.withoutDead (h : f.Distinct) : f.withoutDead.Distinct :=
  h.of_sublist f.values_withoutDead

/-- Removing dead instructions only leaves out values that are not read. -/
theorem Distinct.transforms_withoutDead (h : f.Distinct) :
    Transforms f f.withoutDead (fun v => v) f.keptValues (fun b => b)
      fun instruction => !f.isDead instruction where
  distinct := h
  distinct' := h.withoutDead
  injective := Set.injOn_of_injective fun _ _ heq => heq
  entry := rfl
  parameters := (map_rename_self _).symm
  parameters_mem p hp := h.mem_keptValues (definedAt_functionParameter.mpr hp) fun _ _ _ heq => by
    cases heq
  block {b block} _ hblock := by
    refine ⟨_, (getElem?_map ..).trans (congrArg _ hblock), ?_⟩
    simp [mapOperands_self, mapTargets_self]
  blockParameters_mem {b block} _ hblock p hp :=
    h.mem_keptValues (definedAt_blockParameter.mpr ⟨block, hblock, hp⟩) fun _ _ _ heq => by
      cases heq
  -- what a kept instruction reads is kept, as it is a use
  kept {b block} _ hblock instruction hmem hkeeps := by
    have hblock' := mem_of_getElem? hblock
    constructor
    · intro result hresult
      obtain ⟨i, hi⟩ := getElem?_of_mem hmem
      have hat : f.instructionAt b i = some instruction :=
        Function.instructionAt_eq_some.mpr ⟨block, hblock, hi⟩
      refine h.mem_keptValues (definedAt_instruction.mpr ⟨instruction, hat, hresult⟩) ?_
      intro b' i' instruction' heq hat'
      cases heq
      obtain rfl := some.inj (hat.symm.trans hat')
      simpa using hkeeps
    · intro v hv _ _
      refine mem_keptValues_of_use (mem_flatMap.mpr ⟨block, hblock', ?_⟩)
      exact mem_append_left _ (mem_flatMap.mpr ⟨instruction, hmem, hv⟩)
  -- a dead instruction is pure, and nothing reads its result
  dropped {b block} _ hblock instruction hmem hkeeps := by
    have hdead : f.isDead instruction = true := by simpa using hkeeps
    obtain ⟨_, _, _, hpure⟩ := isDead_eq_true.mp hdead
    refine ⟨InstructionKind.isPure_of_isPureScalar hpure, fun result hresult hkept => ?_⟩
    have hin : instruction ∈ f.instructions :=
      mem_flatMap.mpr ⟨block, mem_of_getElem? hblock, hmem⟩
    exact hkept instruction hin hdead result hresult rfl
  terminator {b block} _ hblock v hv _ _ := mem_keptValues_of_use
    (mem_flatMap.mpr ⟨block, mem_of_getElem? hblock, mem_append_right _ hv⟩)

theorem Distinct.removeDead (h : f.Distinct) (fuel removed : ℕ) :
    (Function.removeDead fuel f removed).1.Distinct := by
  induction fuel generalizing f removed with
  | zero => exact h
  | succ fuel ih =>
      rw [Function.removeDead]
      split
      · exact h
      · exact ih h.withoutDead _

end Function

theorem refines_removeDead (h : f.Distinct) (fuel removed : ℕ) :
    Refines M module link depth f (Function.removeDead fuel f removed).1 := by
  induction fuel generalizing f removed with
  | zero => exact .refl f
  | succ fuel ih =>
      rw [Function.removeDead]
      split
      · exact .refl f
      · exact h.transforms_withoutDead.refines.trans (ih h.withoutDead _)

/-- Removing dead instructions keeps what the function does. -/
theorem refines_eliminateDeadInstructions (h : f.Distinct) (removed : ℕ) :
    Refines M module link depth f (f.eliminateDeadInstructions removed).1 := by
  have hremoved : Refines M module link depth f
      (Function.removeDead (f.instructions.length + 1) f removed).1 :=
    refines_removeDead h _ removed
  simp only [Function.eliminateDeadInstructions]
  split
  · exact hremoved
  · exact hremoved.trans (h.removeDead _ _).transforms_renumberValues.refines

/-! ## The pass -/

theorem simplifyFunctions_getElem? {functions : List Function} {k : ℕ}
    (hf : functions[k]? = some f) (stats : OptimizationStats) :
    ∃ before, (simplifyFunctions stats functions).1[k]? = some (f.simplify before).1 := by
  induction functions generalizing k stats with
  | nil => cases hf
  | cons first rest ih =>
      cases k with
      | zero =>
          obtain rfl := some.inj hf
          exact ⟨stats, rfl⟩
      | succ => exact ih hf _

/-- **What simplification keeps.**  Each run of a function of a verified module, as long as it only
leaves blocks that are folded exactly, is followed by a run of the simplified function: with the
same stores and external calls, to the same memory, and to the same end if it ends there. -/
theorem simplifyCfgAndDce_follows (hverified : module.verify = []) {k : ℕ}
    (hf : module.functions[k]? = some f) {arguments : List RuntimeValue} {before s : State M}
    {trace : List (Event M)} {b i : ℕ}
    (run : Run M module f (.entered f arguments before) trace b i s)
    (hfolds : ∀ event ∈ trace, ∀ target values, event.action = .edge target values →
      f.FoldsExactly module event.block) {ending : Option Ending}
    (hends : ∀ e ∈ ending, Ends M module f b i s e) :
    ∃ g, (simplifyCfgAndDce module).1.functions[k]? = some g ∧ ∃ trace' b' i' t,
      Run M (simplifyCfgAndDce module).1 g (.entered g arguments before) trace' b' i' t ∧
        seen trace' = seen trace ∧ t.outside = s.outside ∧
          ∀ e ∈ ending, Ends M (simplifyCfgAndDce module).1 g b' i' t e := by
  have accepted : module.Accepts f := ⟨hverified, mem_of_getElem? hf⟩
  obtain ⟨stats, hg⟩ := simplifyFunctions_getElem? hf ⟨0, 0⟩
  refine ⟨(f.simplify stats).1, hg, ?_⟩
  have hdistinct : f.simplifyConstantTerminators.Distinct := by
    refine accepted.distinct.of_sublist ?_
    rw [Function.values_simplifyConstantTerminators]
  -- the terminators change first
  have simulates := simulates_simplifyConstantTerminators (M := M) accepted arguments before
  have hruns := run.runs hfolds
  obtain ⟨t, runs, rfl⟩ := simulates.run rfl hruns
  have hreaches : Reaches (Acts M module unlinked 0 f.simplifyConstantTerminators) module
      f.simplifyConstantTerminators arguments before (seen trace) t.outside ending :=
    ⟨_, _, t, runs, rfl, fun e he => simulates.ends hruns rfl (hends e he)⟩
  -- then blocks are dropped, dead instructions removed and values numbered anew
  have hrefines : Refines M module unlinked 0 f.simplifyConstantTerminators
      (f.simplify stats).1 :=
    (refines_pruneUnreachableBlocks hdistinct).trans
      (refines_eliminateDeadInstructions hdistinct.pruneUnreachableBlocks _)
  obtain ⟨b', i', t', runs', houtside, hends'⟩ := hrefines _ _ _ _ _ hreaches
  have htypes : (simplifyCfgAndDce module).1.types = module.types := rfl
  obtain ⟨trace', run', hseen⟩ := runs'.run htypes
  exact ⟨trace', b', i', t', run', hseen, houtside, fun e he => (hends' e he).of_types htypes⟩

/-- `u8 x = value; switch x { 44 => return 1, _ => return 2 }`. -/
def switched (value : ℤ) : Function :=
  .of [] 0
    [.of 0 [] [.defining 0 0 (.constant (.integer value))] (.switch 0 [⟨44, 1, []⟩] 2 []),
      .of 1 [] [.defining 1 0 (.constant (.integer 1))] (.ret (some 1)),
      .of 2 [] [.defining 2 0 (.constant (.integer 2))] (.ret (some 2))]

def switchedModule (value : ℤ) : Module := ⟨[.integer false 8], [switched value]⟩

theorem foldsExactly_switched (b : ℕ) : (switched 44).FoldsExactly (switchedModule 44) b := by
  intro block discriminant cases default defaultArguments value ty signed bits case hblock
    hterminator hconstant _ _ hfind
  have hmem := mem_of_find?_eq_some hfind
  rcases b with _ | _ | _ | b
  · cases hblock
    cases hterminator
    cases hconstant
    rw [mem_singleton.mp hmem]
  · cases hblock
    cases hterminator
  · cases hblock
    cases hterminator
  · cases hblock

theorem ends_switched {value : ℤ} {s : State cells} (hvalues : s.values [1] = some [.integer 8 1]) :
    Ends cells (switchedModule value) (switched value) 1 1 s (.returned [.integer 8 1]) := by
  have hblock : (switched value).blocks[1]? =
      some (.of 1 [] [.defining 1 0 (.constant (.integer 1))] (.ret (some 1))) := rfl
  exact .returned hblock rfl hvalues

/-- The function that switches on 44 returns 1, before and after. -/
theorem follows_switched :
    ∃ (s : State cells) (trace : List (Event cells)),
      Run cells (switchedModule 44) (switched 44) (.entered (switched 44) [] blank) trace 1 1 s ∧
        ∃ g, (simplifyCfgAndDce (switchedModule 44)).1.functions[0]? = some g ∧
          ∃ trace' b' i' t, Run cells (simplifyCfgAndDce (switchedModule 44)).1 g
              (.entered g [] blank) trace' b' i' t ∧
            seen trace' = seen trace ∧ t.outside = s.outside ∧
              ∀ e ∈ some (Ending.returned [.integer 8 1]),
                Ends cells (simplifyCfgAndDce (switchedModule 44)).1 g b' i' t e := by
  obtain ⟨c, hrun, hobserved⟩ := Configuration.exists_run (switchedModule 44) (switched 44)
    (.entered (switched 44) [] blank) 3 (fun c => (c.block, c.index, c.state.values [1]))
    (a := (1, 1, some [.integer 8 1])) rfl
  simp only [Prod.mk.injEq] at hobserved
  obtain ⟨hblock, hindex, hvalues⟩ := hobserved
  rw [hblock, hindex] at hrun
  refine ⟨c.state, c.trace, hrun, simplifyCfgAndDce_follows rfl rfl hrun
    (fun _ _ _ _ _ => foldsExactly_switched _) fun e he => ?_⟩
  obtain rfl := some.inj he
  exact ends_switched hvalues

/-! ## A discriminant that does not fit -/

/-- What becomes of the switch on 300. -/
def switchedWide : Function :=
  .of [] 0
    [.of 0 [] [] (.jump 1 []),
      .of 1 [] [.defining 0 0 (.constant (.integer 2))] (.ret (some 0))]

theorem run_switchedWide {module : Module} (htypes : module.types = [.integer false 8])
    {start t : State cells} {trace : List (Event cells)} {i : ℕ}
    (run : Run cells module switchedWide start trace b i t) :
    b = 0 ∨ b = 1 ∧ (i = 0 ∨ t.env 0 = some (.integer 8 2)) := by
  induction run with
  | start => exact .inl rfl
  | @step trace b i s s' instruction observation run hat hstep ih =>
      rcases ih with rfl | ⟨rfl, _⟩
      · cases i <;> cases hat
      · refine .inr ⟨rfl, .inr ?_⟩
        cases i with
        | succ i => cases i <;> cases hat
        | zero =>
            cases hat
            obtain ⟨_, result, values, value, hresult, hrequest, rfl⟩ := hstep.of_isPure rfl
            cases hresult
            obtain ⟨_, hoperation⟩ := request_eq_some.mp hrequest
            have hkind : module.typeKind 0 = some (.integer false 8) := by
              rw [Module.typeKind, htypes]
              rfl
            have hvalue : value = .integer 8 2 := by
              simpa [Instruction.defining, InstructionKind.operation, InstructionKind.computed,
                constantValue, hkind, encode] using hoperation.symm
            rw [hvalue, State.define_env, Function.update_self]
  | @edge trace b t s block target arguments values run hblock hgoto hvalues htarget ih =>
      rcases ih with rfl | ⟨rfl, _⟩
      · cases hblock
        cases hgoto
        exact .inr ⟨rfl, .inl rfl⟩
      · cases hblock
        cases hgoto

/-- A switch on 300 in eight bits takes the case 44, but is folded to its default. -/
theorem not_follows_switchedWide :
    ¬ ∀ (M : Machine) (module : Module) (k : ℕ) (f : Function) (arguments : List RuntimeValue)
      (before s : State M) (trace : List (Event M)) (b i : ℕ) (ending : Option Ending),
      module.verify = [] → module.functions[k]? = some f →
      Run M module f (.entered f arguments before) trace b i s →
      (∀ e ∈ ending, Ends M module f b i s e) →
      ∃ g, (simplifyCfgAndDce module).1.functions[k]? = some g ∧ ∃ trace' b' i' t,
        Run M (simplifyCfgAndDce module).1 g (.entered g arguments before) trace' b' i' t ∧
          seen trace' = seen trace ∧ t.outside = s.outside ∧
            ∀ e ∈ ending, Ends M (simplifyCfgAndDce module).1 g b' i' t e := by
  intro h
  obtain ⟨c, hrun, hobserved⟩ := Configuration.exists_run (switchedModule 300) (switched 300)
    (.entered (switched 300) [] blank) 3 (fun c => (c.block, c.index, c.state.values [1]))
    (a := (1, 1, some [.integer 8 1])) rfl
  simp only [Prod.mk.injEq] at hobserved
  obtain ⟨hblock, hindex, hvalues⟩ := hobserved
  rw [hblock, hindex] at hrun
  have hends : ∀ e ∈ some (Ending.returned [.integer 8 1]),
      Ends cells (switchedModule 300) (switched 300) 1 1 c.state e := by
    intro e he
    obtain rfl := some.inj he
    exact ends_switched hvalues
  obtain ⟨g, hg, trace', b', i', t, run', _, _, hends'⟩ :=
    h cells (switchedModule 300) 0 (switched 300) [] blank c.state c.trace 1 1 _ rfl rfl hrun hends
  have hg' : (simplifyCfgAndDce (switchedModule 300)).1.functions[0]? = some switchedWide := rfl
  obtain rfl := some.inj (hg'.symm.trans hg)
  have hreturned := hends' _ rfl
  cases hreturned with
  | returned hat hreturn hreturned =>
      rcases run_switchedWide rfl run' with rfl | ⟨rfl, hstate⟩
      · cases hat
        cases hreturn
      · cases hat
        cases hreturn
        rcases hstate with hzero | hbound
        · cases hzero
        · rw [State.values_eq_some_iff] at hreturned
          cases hreturned.symm.trans (congrArg (fun x => [x]) hbound)

end Jadren.Jir
