import Jadren.Jir.Semantics

/-!
# Simulations between functions

A pass preserves what a function does if each run of the function it was given is followed by a run
of the function it makes: with the same stores, the same external calls and answers, and to the same
end.

What an instruction does is a parameter of the runs considered here, a `Behaviour`.  With `Acts`, a
call of a linked function executes that function, and calls may be nested only so deep; where no
function is linked, the rest of the program answers every call and the runs are those of `Run`.

`Simulates` is what has to be shown of a pass: blocks go to blocks, each instruction to a group of
instructions, and a relation between the states of the two activations is kept by each instruction
and each edge.
-/

namespace Jadren.Jir

open Dominance (Reachable)
open List

variable {M : Machine} {module : Module} {f g : Function}

/-! ## Runs without their events -/

def Observation.seen : Observation M → List (Observation M)
  | .silent => []
  | observation => [observation]

def Event.seen (event : Event M) : List (Observation M) :=
  match event.action with
  | .instruction _ observation => observation.seen
  | .edge _ _ => []

/-- What an instruction does to the state of an activation, and what is seen of it. -/
abbrev Behaviour (M : Machine) :=
  Instruction → State M → List (Observation M) → State M → Prop

/-- The runs of a function whose instructions behave so, and which goes on only from certain
blocks: what has been seen, the position reached and the state there. -/
inductive Runs (acts : Behaviour M) (leaves : ℕ → Prop) (f : Function) (start : State M) :
    List (Observation M) → ℕ → ℕ → State M → Prop
  | start : Runs acts leaves f start [] 0 0 start
  | step {observed more : List (Observation M)} {b i : ℕ} {s s' : State M}
      {instruction : Instruction} (runs : Runs acts leaves f start observed b i s)
      (hat : f.instructionAt b i = some instruction) (hacts : acts instruction s more s') :
      Runs acts leaves f start (observed ++ more) b (i + 1) s'
  | edge {observed : List (Observation M)} {b t : ℕ} {s : State M} {block target : Block}
      {arguments : List ValueId} {values : List RuntimeValue}
      (runs : Runs acts leaves f start observed b block.instructions.length s)
      (hblock : f.blocks[b]? = some block) (hleaves : leaves b)
      (hgoto : block.terminator.goto s.env = some (t, arguments))
      (hvalues : s.values arguments = some values) (htarget : f.blocks[t]? = some target) :
      Runs acts leaves f start observed t 0 (s.bind target.parameters values)

variable {leaves : ℕ → Prop} {start s : State M} {observed : List (Observation M)} {b i : ℕ}

theorem Runs.reachable {acts : Behaviour M} (runs : Runs acts leaves f start observed b i s) :
    Reachable f.Edge b := by
  induction runs with
  | start => exact ⟨[], .entry⟩
  | step runs hat hacts ih => exact ih
  | edge runs hblock hleaves hgoto hvalues htarget ih =>
      exact ih.step ⟨_, hblock, Terminator.mem_successorIds_of_goto hgoto⟩

/-- How an activation ends: it returns, or a check fails. -/
inductive Ending
  | returned (values : List RuntimeValue)
  | panicked (checked : List RuntimeValue)

/-- An activation ends in a state at a position. -/
inductive Ends (M : Machine) (module : Module) (f : Function) : ℕ → ℕ → State M → Ending → Prop
  | returned {b : ℕ} {s : State M} {block : Block} {value : Option ValueId}
      {values : List RuntimeValue} (hblock : f.blocks[b]? = some block)
      (hreturn : block.terminator = .ret value) (hvalues : s.values value.toList = some values) :
      Ends M module f b block.instructions.length s (.returned values)
  | panicked {b i : ℕ} {s : State M} {instruction : Instruction} {checked : List RuntimeValue}
      (hat : f.instructionAt b i = some instruction)
      (hrequest : instruction.request M module f s = some (.check false, checked)) :
      Ends M module f b i s (.panicked checked)

namespace State

/-- The state without the bindings of the activation. -/
def outside (s : State M) : State M := { s with env := fun _ => none }

/-- A function is entered with arguments; its other values are not bound yet. -/
def entered (f : Function) (arguments : List RuntimeValue) (s : State M) : State M :=
  s.outside.bind f.parameters arguments

/-- An activation goes on after a call with what was returned. -/
def resume (s after : State M) (result : Option TypedValue) (returned : List RuntimeValue) :
    State M :=
  ({ after with env := s.env } : State M).bind result.toList returned

@[simp] theorem outside_define (s : State M) (v : ValueId) (value : RuntimeValue) :
    (s.define v value).outside = s.outside := rfl

@[simp] theorem outside_bind (s : State M) (parameters : List TypedValue)
    (values : List RuntimeValue) : (s.bind parameters values).outside = s.outside := by
  simp [outside]

@[simp] theorem outside_outside (s : State M) : s.outside.outside = s.outside := rfl

theorem entered_congr {s t : State M} (h : t.outside = s.outside) (arguments : List RuntimeValue) :
    entered f arguments t = entered f arguments s := by
  rw [entered, h, entered]

end State

/-- Entered with arguments, a function comes to a state outside of which is `after`, and ends there
if an ending is given. -/
def Reaches (acts : Behaviour M) (module : Module) (f : Function) (arguments : List RuntimeValue)
    (before : State M) (observed : List (Observation M)) (after : State M)
    (ending : Option Ending) : Prop :=
  ∃ b i s, Runs acts (fun _ => True) f (.entered f arguments before) observed b i s ∧
    s.outside = after ∧ ∀ e ∈ ending, Ends M module f b i s e

/-! ## Linked functions -/

/-- The function an instruction calls, if it is linked. -/
def InstructionKind.callee (link : FunctionId → Option Function) :
    InstructionKind → Option Function
  | .call function _ => link function
  | _ => none

section

variable (M) (module) (link : FunctionId → Option Function)

/-- What an instruction of `f` does that calls no linked function. -/
def Direct (f : Function) : Behaviour M := fun instruction s observed s' =>
  instruction.kind.callee link = none ∧
    ∃ observation, Step M module f instruction s observation s' ∧ observation.seen = observed

/-- A call executes the linked function. -/
def Called (acts : Function → Behaviour M) : Behaviour M := fun instruction s observed s' =>
  ∃ callee arguments returned after, instruction.kind.callee link = some callee ∧
    s.values instruction.kind.operands = some arguments ∧
      Reaches (acts callee) module callee arguments s observed after (some (.returned returned)) ∧
        s' = s.resume after instruction.result returned

/-- What an instruction of `f` does where calls may be nested only so deep. -/
def Acts : ℕ → Function → Behaviour M
  | 0, f => Direct M module link f
  | depth + 1, f => fun instruction s observed s' =>
      Direct M module link f instruction s observed s' ∨
        Called M module link (Acts depth) instruction s observed s'

/-- The second function does all that the first does. -/
def Refines (depth : ℕ) (f g : Function) : Prop :=
  ∀ arguments before observed after ending,
    Reaches (Acts M module link depth f) module f arguments before observed after ending →
      Reaches (Acts M module link depth g) module g arguments before observed after ending

end

variable {link : FunctionId → Option Function} {depth : ℕ}

theorem Refines.refl (f : Function) : Refines M module link depth f f :=
  fun _ _ _ _ _ h => h

theorem Refines.trans {h : Function} (first : Refines M module link depth f g)
    (second : Refines M module link depth g h) : Refines M module link depth f h :=
  fun _ _ _ _ _ hreaches => second _ _ _ _ _ (first _ _ _ _ _ hreaches)

variable {instruction : Instruction} {s' : State M}

/-- A step is either one that calls no linked function, or the execution of one. -/
theorem acts_cases (h : Acts M module link depth f instruction s observed s') :
    Direct M module link f instruction s observed s' ∨
      ∃ below, depth = below + 1 ∧
        Called M module link (Acts M module link below) instruction s observed s' := by
  cases depth with
  | zero => exact .inl h
  | succ below =>
      rcases h with hdirect | hcalled
      · exact .inl hdirect
      · exact .inr ⟨below, rfl, hcalled⟩

theorem Direct.acts (h : Direct M module link f instruction s observed s') :
    Acts M module link depth f instruction s observed s' := by
  cases depth with
  | zero => exact h
  | succ => exact .inl h

/-! ## Runs in which the rest of the program answers all calls -/

variable {module' : Module}

/-- A step in one function is a step in another that asks for the same. -/
theorem Step.congr {observation : Observation M}
    (h : ∀ r, instruction.request M module f s = some r →
    instruction.request M module' g s = some r)
    (hstep : Step M module f instruction s observation s') :
    Step M module' g instruction s observation s' := by
  cases hstep with
  | compute hrequest hresult => exact .compute (h _ hrequest) hresult
  | allocate hrequest hresult hfresh => exact .allocate (h _ hrequest) hresult hfresh
  | read hrequest hresult => exact .read (h _ hrequest) hresult
  | write hrequest => exact .write (h _ hrequest)
  | check hrequest => exact .check (h _ hrequest)
  | skip hrequest => exact .skip (h _ hrequest)
  | external hrequest hresponse => exact .external (h _ hrequest) hresponse

section

variable {types : List JirType} (functions functions' : List Function)

theorem stepInto_of_types (ty : TypeId) (path : List ℤ) :
    stepInto M ⟨types, functions'⟩ ty path = stepInto M ⟨types, functions⟩ ty path := by
  induction path generalizing ty with
  | nil => rfl
  | cons index rest ih =>
      have hkind : Module.typeKind ⟨types, functions'⟩ ty = Module.typeKind ⟨types, functions⟩ ty :=
        rfl
      simp only [stepInto, hkind, ih]

theorem offsetDistance_of_types (pointee resultPointee : TypeId) (indices : List (ℕ × ℕ)) :
    offsetDistance M ⟨types, functions'⟩ pointee resultPointee indices =
      offsetDistance M ⟨types, functions⟩ pointee resultPointee indices := by
  have hkind : Module.typeKind ⟨types, functions'⟩ pointee =
      Module.typeKind ⟨types, functions⟩ pointee := rfl
  have helement (path : List ℤ) : elementOffset M ⟨types, functions'⟩ pointee path =
      elementOffset M ⟨types, functions⟩ pointee path := by
    cases path with
    | nil => rfl
    | cons => rw [elementOffset, elementOffset, stepInto_of_types functions]
  simp only [offsetDistance, hkind, helement]

theorem operation_of_types (ty : Option TypeId) (operandTypes : List (Option TypeId))
    (kind : InstructionKind) (values : List RuntimeValue) :
    kind.operation M ⟨types, functions'⟩ ty operandTypes values =
      kind.operation M ⟨types, functions⟩ ty operandTypes values := by
  cases kind with
  | offset =>
      have hoffset (baseType resultType : TypeId) (address : RuntimeValue)
          (distances : List RuntimeValue) :
          offsetValue M ⟨types, functions'⟩ baseType resultType address distances =
            offsetValue M ⟨types, functions⟩ baseType resultType address distances := by
        have hpointee (ty : TypeId) : Module.pointee ⟨types, functions'⟩ ty =
            Module.pointee ⟨types, functions⟩ ty := rfl
        simp only [offsetValue, hpointee, offsetDistance_of_types functions functions']
      simp only [InstructionKind.operation, InstructionKind.computed, hoffset]
  | _ => rfl

end

/-- What an instruction asks for depends on a module by its types only. -/
theorem request_of_types (htypes : module'.types = module.types) (instruction : Instruction)
    (s : State M) : instruction.request M module' f s = instruction.request M module f s := by
  obtain ⟨types, functions⟩ := module
  obtain ⟨types', functions'⟩ := module'
  obtain rfl : types' = types := htypes
  simp only [Instruction.request, operation_of_types functions functions']

theorem Ends.of_types (htypes : module'.types = module.types) {ending : Ending}
    (h : Ends M module f b i s ending) : Ends M module' f b i s ending := by
  cases h with
  | returned hblock hreturn hvalues => exact .returned hblock hreturn hvalues
  | panicked hat hrequest =>
      exact .panicked hat ((request_of_types htypes _ _).trans hrequest)

def seen (trace : List (Event M)) : List (Observation M) := trace.flatMap Event.seen

section

variable {module' : Module} (htypes : module'.types = module.types)
include htypes

theorem step_of_types : Step M module' f = Step M module f := by
  funext instruction s observation s'
  refine propext ⟨fun h => h.congr fun r hr => ?_, fun h => h.congr fun r hr => ?_⟩
  · rwa [request_of_types htypes] at hr
  · rwa [request_of_types htypes]

theorem ends_of_types : Ends M module' f = Ends M module f := by
  funext b i s ending
  exact propext ⟨fun h => h.of_types htypes.symm, fun h => h.of_types htypes⟩

theorem acts_of_types (link : FunctionId → Option Function) (depth : ℕ) :
    Acts M module' link depth = Acts M module link depth := by
  induction depth with
  | zero =>
      funext f
      rw [Acts, Acts]
      unfold Direct
      rw [step_of_types htypes]
  | succ depth ih =>
      funext f
      simp only [Acts, Direct, Called, Reaches, step_of_types htypes, ends_of_types htypes, ih]

end

/-- No function is linked. -/
abbrev unlinked : FunctionId → Option Function := fun _ => none

theorem direct_unlinked :
    Direct M module unlinked f instruction s observed s' ↔
      ∃ observation, Step M module f instruction s observation s' ∧
        observation.seen = observed := by
  have hcallee : instruction.kind.callee unlinked = none := by
    cases instruction.kind <;> rfl
  exact ⟨fun h => h.2, fun h => ⟨hcallee, h⟩⟩

theorem Run.runs {trace : List (Event M)} (run : Run M module f start trace b i s)
    (hleaves : ∀ event ∈ trace, ∀ target values, event.action = .edge target values →
      leaves event.block) :
    Runs (Acts M module unlinked 0 f) leaves f start (seen trace) b i s := by
  induction run with
  | start => exact .start
  | @step trace b i s s' instruction observation run hat hstep ih =>
      obtain ⟨hbefore, _⟩ := forall_mem_append.mp hleaves
      rw [seen, flatMap_append, flatMap_singleton]
      exact (ih hbefore).step hat (direct_unlinked.mpr ⟨observation, hstep, rfl⟩)
  | @edge trace b t s block target arguments values run hblock hgoto hvalues htarget ih =>
      obtain ⟨hbefore, hevent⟩ := forall_mem_append.mp hleaves
      have hleave := hevent _ (mem_singleton_self _) t values rfl
      rw [seen, flatMap_append, flatMap_singleton, Event.seen, append_nil]
      exact (ih hbefore).edge hblock hleave hgoto hvalues htarget

/-- The steps of such a run, in a module with the same types. -/
theorem Runs.run {module' : Module} (htypes : module'.types = module.types) {leaves : ℕ → Prop}
    {start s : State M} {observed : List (Observation M)} {b i : ℕ}
    (runs : Runs (Acts M module unlinked 0 f) leaves f start observed b i s) :
    ∃ trace, Run M module' f start trace b i s ∧ seen trace = observed := by
  induction runs with
  | start => exact ⟨[], .start, rfl⟩
  | @step observed more b i s s' instruction runs hat hacts ih =>
      obtain ⟨trace, run, rfl⟩ := ih
      obtain ⟨observation, hstep, rfl⟩ := direct_unlinked.mp hacts
      have hstep' := hstep.congr fun r hr => (request_of_types htypes instruction s).trans hr
      refine ⟨_, run.step hat hstep', ?_⟩
      rw [seen, flatMap_append, flatMap_singleton]
      rfl
  | @edge observed b t s block target arguments values runs hblock hleaves hgoto hvalues htarget
      ih =>
      obtain ⟨trace, run, rfl⟩ := ih
      refine ⟨_, run.edge hblock hgoto hvalues htarget, ?_⟩
      rw [seen, flatMap_append, flatMap_singleton, Event.seen, append_nil]
      rfl

/-! ## Activations inside of activations -/

/-- What may have been seen of an activation, or of one that it waits for: a function that it called
has come so far, or a check in it has failed. -/
inductive Within (M : Machine) (module : Module) (link : FunctionId → Option Function) :
    ℕ → Function → List RuntimeValue → State M → List (Observation M) → State M →
      Option Ending → Prop
  | here {depth : ℕ} {f : Function} {arguments : List RuntimeValue} {before after : State M}
      {observed : List (Observation M)} {ending : Option Ending}
      (hreaches : Reaches (Acts M module link depth f) module f arguments before observed after
        ending) :
      Within M module link depth f arguments before observed after ending
  | inside {depth : ℕ} {f callee : Function} {arguments values : List RuntimeValue}
      {before s after : State M} {observed more : List (Observation M)} {ending : Option Ending}
      {b i : ℕ} {instruction : Instruction}
      (runs : Runs (Acts M module link (depth + 1) f) (fun _ => True) f
        (.entered f arguments before) observed b i s)
      (hat : f.instructionAt b i = some instruction)
      (hcallee : instruction.kind.callee link = some callee)
      (hvalues : s.values instruction.kind.operands = some values)
      (hwithin : Within M module link depth callee values s more after ending)
      (hending : ∀ e ∈ ending, ∃ checked, e = .panicked checked) :
      Within M module link (depth + 1) f arguments before (observed ++ more) after ending

variable {arguments : List RuntimeValue} {ending : Option Ending}

theorem Within.of_types (htypes : module'.types = module.types) {before after : State M}
    (h : Within M module link depth f arguments before observed after ending) :
    Within M module' link depth f arguments before observed after ending := by
  induction h with
  | here hreaches =>
      unfold Reaches at hreaches
      rw [← acts_of_types htypes, ← ends_of_types htypes] at hreaches
      exact .here hreaches
  | inside runs hat hcallee hvalues _ hending ih =>
      rw [← acts_of_types htypes] at runs
      exact .inside runs hat hcallee hvalues ih hending

variable {t : State M}

/-- The bindings of the caller do not matter. -/
theorem Within.of_outside {after : State M} (houtside : t.outside = s.outside)
    (h : Within M module link depth f arguments s observed after ending) :
    Within M module link depth f arguments t observed after ending := by
  cases h with
  | here hreaches =>
      refine .here ?_
      rw [Reaches, State.entered_congr houtside]
      exact hreaches
  | inside runs hat hcallee hvalues hwithin hending =>
      rw [← State.entered_congr houtside] at runs
      exact .inside runs hat hcallee hvalues hwithin hending

/-! ## Stretches of instructions -/

/-- The instructions are executed one after the other. -/
inductive Stretch (acts : Behaviour M) :
    List Instruction → State M → List (Observation M) → State M → Prop
  | nil {t : State M} : Stretch acts [] t [] t
  | cons {instruction : Instruction} {rest : List Instruction} {t t' t'' : State M}
      {observed more : List (Observation M)} (hacts : acts instruction t observed t')
      (hrest : Stretch acts rest t' more t'') :
      Stretch acts (instruction :: rest) t (observed ++ more) t''

theorem Stretch.singleton {acts : Behaviour M} {t' : State M}
    (hacts : acts instruction t observed t') : Stretch acts [instruction] t observed t' := by
  have hstretch : Stretch acts [instruction] t (observed ++ []) t' := .cons hacts .nil
  rwa [append_nil] at hstretch

/-- A run goes on through a stretch of its block. -/
theorem Runs.stretch {acts : Behaviour M} {t' : State M} {more : List (Observation M)}
    (runs : Runs acts leaves g start observed b i t) {block : Block}
    (hblock : g.blocks[b]? = some block) {group rest : List Instruction}
    (hgroup : block.instructions.drop i = group ++ rest) (hstretch : Stretch acts group t more t') :
    Runs acts leaves g start (observed ++ more) b (i + group.length) t' := by
  induction hstretch generalizing observed i with
  | nil => rwa [append_nil]
  | @cons instruction others t₁ t₂ t₃ here later hacts hrest ih =>
      have hi : block.instructions[i]? = some instruction := by
        have hhead := congrArg head? hgroup
        rwa [head?_drop, cons_append, head?_cons] at hhead
      have hat : g.instructionAt b i = some instruction :=
        Function.instructionAt_eq_some.mpr ⟨block, hblock, hi⟩
      have hdrop : block.instructions.drop (i + 1) = others ++ rest := by
        have htail := congrArg (drop 1) hgroup
        rwa [drop_drop, cons_append, drop_one, tail_cons] at htail
      have hruns := ih (runs.step hat hacts) hdrop
      rwa [length_cons, Nat.add_comm others.length 1, ← Nat.add_assoc, ← append_assoc]

/-! ## Simulations -/

/-- What makes the runs of `g` follow those of `f`: block `b` goes to block `β b`, the instructions
of `b` to the groups of `b`, and the relation is kept wherever a run of `f` may come. -/
structure Simulates (acts acts' : Behaviour M) (leaves : ℕ → Prop) (module : Module)
    (f g : Function) (start : State M) (R : State M → State M → Prop) (β : ℕ → ℕ)
    (groups : ℕ → List (List Instruction)) : Prop where
  entry : β 0 = 0
  block : ∀ {b block}, Reachable f.Edge b → f.blocks[b]? = some block →
    ∃ block', g.blocks[β b]? = some block' ∧ block'.instructions = (groups b).flatten ∧
      (groups b).length = block.instructions.length
  step : ∀ {observed b i s t instruction more s'}, Runs acts leaves f start observed b i s →
    R s t → f.instructionAt b i = some instruction → acts instruction s more s' →
    ∃ group t', (groups b)[i]? = some group ∧ Stretch acts' group t more t' ∧ R s' t'
  edge : ∀ {observed b s t block target t₀ arguments values},
    Runs acts leaves f start observed b block.instructions.length s → R s t →
    f.blocks[b]? = some block → leaves b → block.terminator.goto s.env = some (t₀, arguments) →
    s.values arguments = some values → f.blocks[t₀]? = some target →
    ∃ block' arguments' target', g.blocks[β b]? = some block' ∧
      block'.terminator.goto t.env = some (β t₀, arguments') ∧
      t.values arguments' = some values ∧ g.blocks[β t₀]? = some target' ∧
      R (s.bind target.parameters values) (t.bind target'.parameters values)
  returned : ∀ {observed b s t block value values},
    Runs acts leaves f start observed b block.instructions.length s → R s t →
    f.blocks[b]? = some block → block.terminator = .ret value →
    s.values value.toList = some values →
    ∃ block' value', g.blocks[β b]? = some block' ∧ block'.terminator = .ret value' ∧
      t.values value'.toList = some values
  panicked : ∀ {observed b i s t instruction checked}, Runs acts leaves f start observed b i s →
    R s t → f.instructionAt b i = some instruction →
    instruction.request M module f s = some (.check false, checked) →
    ∃ instruction' rest, (groups b)[i]? = some (instruction' :: rest) ∧
      instruction'.request M module g t = some (.check false, checked)

namespace Simulates

variable {acts acts' : Behaviour M} {leaves : ℕ → Prop} {start start' s t : State M}
  {R : State M → State M → Prop} {β : ℕ → ℕ} {groups : ℕ → List (List Instruction)}
  {observed : List (Observation M)} {b i : ℕ}

/-- The groups before a group, the group, and the groups after it. -/
theorem drop_flatten {lists : List (List Instruction)} {group : List Instruction}
    (h : lists[i]? = some group) :
    lists.flatten.drop (lists.take i).flatten.length = group ++ (lists.drop (i + 1)).flatten := by
  obtain ⟨hi, rfl⟩ := List.getElem?_eq_some_iff.mp h
  have hsplit : lists.flatten =
      (lists.take i).flatten ++ (lists[i] ++ (lists.drop (i + 1)).flatten) := by
    calc lists.flatten
        = (lists.take i ++ lists.drop i).flatten := by rw [take_append_drop]
      _ = _ := by rw [flatten_append, drop_eq_getElem_cons hi, flatten_cons]
  rw [hsplit, drop_left]

variable (h : Simulates acts acts' leaves module f g start R β groups)
include h

theorem instructionAt
    (hreachable : Reachable f.Edge b) {block : Block} (hblock : f.blocks[b]? = some block)
    {instruction : Instruction} {rest : List Instruction}
    (hgroup : (groups b)[i]? = some (instruction :: rest)) :
    g.instructionAt (β b) ((groups b).take i).flatten.length = some instruction := by
  obtain ⟨block', hblock', hinstructions, _⟩ := h.block hreachable hblock
  refine Function.instructionAt_eq_some.mpr ⟨block', hblock', ?_⟩
  rw [hinstructions, ← head?_drop, drop_flatten hgroup]
  rfl

theorem run (hstart : R start start')
    (runs : Runs acts leaves f start observed b i s) :
    ∃ t, Runs acts' (fun _ => True) g start' observed (β b)
      ((groups b).take i).flatten.length t ∧ R s t := by
  induction runs with
  | start =>
      refine ⟨start', ?_, hstart⟩
      rw [h.entry]
      exact .start
  | @step observed more b i s s' instruction runs hat hacts ih =>
      obtain ⟨t, runs', hrel⟩ := ih
      obtain ⟨group, t', hgroup, hstretch, hrel'⟩ := h.step runs hrel hat hacts
      obtain ⟨block, hblock, _⟩ := Function.instructionAt_eq_some.mp hat
      obtain ⟨block', hblock', hinstructions, _⟩ := h.block runs.reachable hblock
      have hdrop := drop_flatten hgroup
      rw [← hinstructions] at hdrop
      refine ⟨t', ?_, hrel'⟩
      rw [take_add_one, hgroup, Option.toList_some, flatten_append, length_append,
        flatten_singleton]
      exact runs'.stretch hblock' hdrop hstretch
  | @edge observed b t₀ s block target arguments values runs hblock hleaves hgoto hvalues htarget
      ih =>
      obtain ⟨t, runs', hrel⟩ := ih
      obtain ⟨block', arguments', target', hblock', hgoto', hvalues', htarget', hrel'⟩ :=
        h.edge runs hrel hblock hleaves hgoto hvalues htarget
      obtain ⟨block'', hblock'', hinstructions, hlength⟩ := h.block runs.reachable hblock
      obtain rfl := Option.some.inj (hblock'.symm.trans hblock'')
      rw [← hlength, take_length, ← hinstructions] at runs'
      exact ⟨_, runs'.edge hblock' trivial hgoto' hvalues' htarget', hrel'⟩

/-- Where a run of `f` ends, the run of `g` that follows it ends the same way. -/
theorem ends
    (runs : Runs acts leaves f start observed b i s) (hrel : R s t) {ending : Ending}
    (hends : Ends M module f b i s ending) :
    Ends M module g (β b) ((groups b).take i).flatten.length t ending := by
  cases hends with
  | returned hblock hreturn hvalues =>
      obtain ⟨block', value', hblock', hreturn', hvalues'⟩ :=
        h.returned runs hrel hblock hreturn hvalues
      obtain ⟨block'', hblock'', hinstructions, hlength⟩ := h.block runs.reachable hblock
      obtain rfl := Option.some.inj (hblock'.symm.trans hblock'')
      rw [← hlength, take_length, ← hinstructions]
      exact .returned hblock' hreturn' hvalues'
  | panicked hat hrequest =>
      obtain ⟨instruction', rest, hgroup, hrequest'⟩ := h.panicked runs hrel hat hrequest
      obtain ⟨block, hblock, _⟩ := Function.instructionAt_eq_some.mp hat
      exact .panicked (h.instructionAt runs.reachable hblock hgroup) hrequest'

end Simulates

end Jadren.Jir
