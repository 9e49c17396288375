import Jadren.Jir.Accepted
import Jadren.Jir.Values
import Jadren.Library.Folds

/-!
# Runs of a function

One activation of a function, instruction by instruction.  The rest of the
program is on the other side of a boundary: a call, a runtime operation or a
region operation gets its arguments and answers with a result and a new memory.
The answer is arbitrary, except that it cannot touch an object the activation
has kept to itself.  An object is `exposed` once its address has been stored or
handed over, or if it was never the activation's own.

A `Run` lists the steps taken, each with the state before it.  A failed bounds
check has no step: the activation panics there.
-/

namespace Jadren.Jir

open Dominance (Precedes Reachable)
open RuntimeValue

/-- The state of an activation. -/
structure State (M : Machine) where
  env : ValueId → Option RuntimeValue
  memory : ℕ → M.Contents
  allocated : Finset ℕ
  exposed : Finset ℕ

namespace State

variable {M : Machine} (s : State M)

/-- Gives a value its new binding. -/
def define (v : ValueId) (value : RuntimeValue) : State M :=
  { s with env := Function.update s.env v (some value) }

/-- Binds block parameters to the values an edge passes. -/
def bind (s : State M) : List TypedValue → List RuntimeValue → State M
  | parameter :: parameters, value :: values =>
      (bind s parameters values).define parameter.value value
  | _, _ => s

/-- The values of operands, when all are defined. -/
def values (operands : List ValueId) : Option (List RuntimeValue) := operands.mapM s.env

/-- A fresh object, with a pointer to it. -/
def allocate (v : ValueId) (object : ℕ) : State M :=
  { s with
    env := Function.update s.env v (some (.pointer (some ⟨object, 0⟩)))
    memory := Function.update s.memory object M.fresh
    allocated := insert object s.allocated }

/-- A store.  The addresses in the stored value can now be found in memory. -/
def write (address : Address) (ty : TypeId) (value : RuntimeValue) : State M :=
  { s with
    memory := Function.update s.memory address.object
      (M.write (s.memory address.object) address.offset ty value)
    exposed := s.exposed ∪ value.objects }

def read (address : Address) (ty : TypeId) : RuntimeValue :=
  M.read (s.memory address.object) address.offset ty

end State

/-- What the rest of the program answers. -/
structure Response (M : Machine) where
  value : RuntimeValue
  memory : ℕ → M.Contents
  allocated : Finset ℕ
  exposed : Finset ℕ

/-- The answers the rest of the program can give when handed some values. -/
structure Response.Admissible {M : Machine} (s : State M) (arguments : List RuntimeValue)
    (response : Response M) : Prop where
  allocated : s.allocated ⊆ response.allocated
  exposed : s.exposed ∪ objectsOf arguments ⊆ response.exposed
  exposed_allocated : response.exposed ⊆ response.allocated
  /-- An object of the activation stays its own unless its address was handed over. -/
  discovered : ∀ o ∈ response.exposed,
    o ∈ s.exposed ∪ objectsOf arguments ∨ o ∉ s.allocated
  /-- What is not exposed is out of reach. -/
  memory : ∀ o ∈ s.allocated, o ∉ s.exposed ∪ objectsOf arguments →
    response.memory o = s.memory o
  pointsTo : ∀ o ∈ response.allocated, ∀ o', M.pointsTo (response.memory o) o' →
    o' ∈ response.exposed
  value : response.value.objects ⊆ response.exposed

/-- What can be seen of a step from outside. -/
inductive Observation (M : Machine)
  | silent
  | store (address : Address) (ty : TypeId) (value : RuntimeValue)
  | external (kind : InstructionKind) (arguments : List RuntimeValue) (response : Response M)

namespace Function

/-- The declared type of a value. -/
def typeOf (f : Function) (v : ValueId) : Option TypeId :=
  (f.definitionSites.reverse.lookup v).map Definition.ty

/-- The types of an instruction's operands. -/
def operandTypes (f : Function) (kind : InstructionKind) : List (Option TypeId) :=
  kind.operands.map f.typeOf

end Function

/-- An instruction without the names of its operands. -/
def InstructionKind.shape (kind : InstructionKind) : InstructionKind := kind.mapOperands fun _ => 0

section

variable (M : Machine) (module : Module) (f : Function)

/-- What an instruction asks for in a state. -/
def Instruction.request (s : State M) (instruction : Instruction) :
    Option (Operation × List RuntimeValue) :=
  (s.values instruction.kind.operands).bind fun values =>
    (instruction.kind.operation M module (instruction.result.map TypedValue.ty)
      (f.operandTypes instruction.kind) values).map fun operation => (operation, values)

/-- Binds the result of an instruction, if it has one. -/
def State.conclude {M : Machine} (s : State M) (result : Option TypedValue)
    (value : RuntimeValue) : State M :=
  match result with
  | some result => s.define result.value value
  | none => s

/-- One step of an instruction. -/
inductive Step (instruction : Instruction) (s : State M) : Observation M → State M → Prop
  | compute {values : List RuntimeValue} {value : RuntimeValue} {result : TypedValue}
      (hrequest : instruction.request M module f s = some (.compute value, values))
      (hresult : instruction.result = some result) :
      Step instruction s .silent (s.define result.value value)
  | allocate {values : List RuntimeValue} {result : TypedValue} {object : ℕ}
      (hrequest : instruction.request M module f s = some (.allocate, values))
      (hresult : instruction.result = some result) (hfresh : object ∉ s.allocated) :
      Step instruction s .silent (s.allocate result.value object)
  | read {values : List RuntimeValue} {address : Address} {ty : TypeId} {result : TypedValue}
      (hrequest : instruction.request M module f s = some (.read address ty, values))
      (hresult : instruction.result = some result) :
      Step instruction s .silent (s.define result.value (s.read address ty))
  | write {values : List RuntimeValue} {address : Address} {ty : TypeId} {value : RuntimeValue}
      (hrequest : instruction.request M module f s = some (.write address ty value, values)) :
      Step instruction s (.store address ty value) (s.write address ty value)
  | check {values : List RuntimeValue}
      (hrequest : instruction.request M module f s = some (.check true, values)) :
      Step instruction s .silent s
  | skip {values : List RuntimeValue}
      (hrequest : instruction.request M module f s = some (.skip, values)) :
      Step instruction s .silent s
  | external {values : List RuntimeValue} {response : Response M}
      (hrequest : instruction.request M module f s = some (.external, values))
      (hresponse : response.Admissible s values) :
      Step instruction s (.external instruction.kind.shape values response)
        (({ s with
            memory := response.memory
            allocated := response.allocated
            exposed := response.exposed } : State M).conclude instruction.result response.value)

end

/-- The edge a terminator takes, with the arguments it passes. -/
def Terminator.goto (env : ValueId → Option RuntimeValue) :
    Terminator → Option (BlockId × List ValueId)
  | .ret _ | .unreachable => none
  | .jump target arguments => some (target, arguments)
  | .branch condition thenTarget thenArguments elseTarget elseArguments =>
      match env condition with
      | some (.bool true) => some (thenTarget, thenArguments)
      | some (.bool false) => some (elseTarget, elseArguments)
      | _ => none
  | .switch discriminant cases default defaultArguments =>
      match env discriminant with
      | some (.integer bits pattern) =>
          match cases.find? fun case => encode bits case.value == pattern with
          | some case => some (case.target, case.arguments)
          | none => some (default, defaultArguments)
      | _ => none

/-- What happens at an event of a run. -/
inductive Action (M : Machine)
  | instruction (instruction : Instruction) (observation : Observation M)
  | edge (target : BlockId) (arguments : List RuntimeValue)

/-- An event of a run: where it happens, the state before it and what happens. -/
structure Event (M : Machine) where
  block : ℕ
  index : ℕ
  before : State M
  action : Action M

/-- The states an activation may begin in: the parameters are bound to arguments
that come from outside, and nothing else is bound. -/
structure State.Initial {M : Machine} (f : Function) (s : State M) : Prop where
  env : ∀ v value, s.env v = some value → ∃ ty, ⟨v, ty⟩ ∈ f.parameters
  arguments : ∀ v value, s.env v = some value → value.objects ⊆ s.exposed
  static : M.static ⊆ s.exposed
  exposed : s.exposed ⊆ s.allocated
  pointsTo : ∀ o ∈ s.allocated, ∀ o', M.pointsTo (s.memory o) o' → o' ∈ s.exposed

/-- The runs of a function from a state: the events so far, the position reached
(the index of the next instruction in its block) and the state there. -/
inductive Run (M : Machine) (module : Module) (f : Function) (start : State M) :
    List (Event M) → ℕ → ℕ → State M → Prop
  | start : Run M module f start [] 0 0 start
  | step {trace : List (Event M)} {b i : ℕ} {s s' : State M} {instruction : Instruction}
      {observation : Observation M} (run : Run M module f start trace b i s)
      (hat : f.instructionAt b i = some instruction)
      (hstep : Step M module f instruction s observation s') :
      Run M module f start (trace ++ [⟨b, i, s, .instruction instruction observation⟩]) b (i + 1) s'
  | edge {trace : List (Event M)} {b t : ℕ} {s : State M} {block target : Block}
      {arguments : List ValueId} {values : List RuntimeValue}
      (run : Run M module f start trace b block.instructions.length s)
      (hblock : f.blocks[b]? = some block)
      (hgoto : block.terminator.goto s.env = some (t, arguments))
      (hvalues : s.values arguments = some values) (htarget : f.blocks[t]? = some target) :
      Run M module f start (trace ++ [⟨b, block.instructions.length, s, .edge t values⟩]) t 0
        (s.bind target.parameters values)

/-- A condition on every event of a trace, given the events before it. -/
def Throughout {M : Machine} (P : List (Event M) → Event M → Prop) (trace : List (Event M)) :
    Prop :=
  ∀ earlier event later, trace = earlier ++ event :: later → P earlier event

theorem Throughout.of_append {M : Machine} {P : List (Event M) → Event M → Prop}
    {trace : List (Event M)} {event : Event M} (h : Throughout P (trace ++ [event])) :
    Throughout P trace ∧ P trace event := by
  constructor
  · intro earlier other later htrace
    apply h earlier other (later ++ [event])
    rw [htrace]
    simp
  · exact h trace event [] rfl

/-! ## What a step changes -/

namespace State

variable {M : Machine} {s : State M}

@[simp] theorem define_env (v : ValueId) (value : RuntimeValue) :
    (s.define v value).env = Function.update s.env v (some value) := rfl

@[simp] theorem define_memory (v : ValueId) (value : RuntimeValue) :
    (s.define v value).memory = s.memory := rfl

@[simp] theorem define_allocated (v : ValueId) (value : RuntimeValue) :
    (s.define v value).allocated = s.allocated := rfl

@[simp] theorem define_exposed (v : ValueId) (value : RuntimeValue) :
    (s.define v value).exposed = s.exposed := rfl

variable (parameters : List TypedValue)

variable (values : List RuntimeValue)

@[simp] theorem bind_memory :
    (s.bind parameters values).memory = s.memory := by
  induction parameters generalizing values with
  | nil => cases values <;> rfl
  | cons parameter rest ih =>
      cases values with
      | nil => rfl
      | cons value others => exact ih others

@[simp] theorem bind_allocated :
    (s.bind parameters values).allocated = s.allocated := by
  induction parameters generalizing values with
  | nil => cases values <;> rfl
  | cons parameter rest ih =>
      cases values with
      | nil => rfl
      | cons value others => exact ih others

@[simp] theorem bind_exposed :
    (s.bind parameters values).exposed = s.exposed := by
  induction parameters generalizing values with
  | nil => cases values <;> rfl
  | cons parameter rest ih =>
      cases values with
      | nil => rfl
      | cons value others => exact ih others

/-- Binding parameters leaves other values alone. -/
theorem bind_env_of_notMem {parameters : List TypedValue} {values : List RuntimeValue} {v : ValueId}
    (hv : v ∉ parameters.map TypedValue.value) : (s.bind parameters values).env v = s.env v := by
  induction parameters generalizing values with
  | nil => cases values <;> rfl
  | cons parameter rest ih =>
      rw [List.map_cons, List.mem_cons, not_or] at hv
      cases values with
      | nil => rfl
      | cons =>
          rw [bind, define_env, Function.update_of_ne hv.1]
          exact ih hv.2

/-- A bound value is an argument or the value before. -/
theorem bind_env_cases (v : ValueId) :
    (s.bind parameters values).env v = s.env v ∨
      ∃ value ∈ values, (s.bind parameters values).env v = some value := by
  induction parameters generalizing values with
  | nil => cases values <;> exact .inl rfl
  | cons parameter rest ih =>
      cases values with
      | nil => exact .inl rfl
      | cons value others =>
          rw [bind, define_env]
          by_cases hv : v = parameter.value
          · exact .inr ⟨value, by simp, by rw [hv, Function.update_self]⟩
          · rw [Function.update_of_ne hv]
            rcases ih others with hold | ⟨other, hother, hbound⟩
            · exact .inl hold
            · exact .inr ⟨other, List.mem_cons_of_mem _ hother, hbound⟩

variable {operands : List ValueId}

theorem values_eq_some_iff {values : List RuntimeValue} :
    s.values operands = some values ↔ operands.map s.env = values.map some :=
  Folds.mapM_eq_some_iff

theorem env_of_values {values : List RuntimeValue} (h : s.values operands = some values) {i : ℕ}
    {v : ValueId} (hv : operands[i]? = some v) :
    ∃ value, values[i]? = some value ∧ s.env v = some value := by
  have hmap := congrArg (fun l => l[i]?) (values_eq_some_iff.mp h)
  simp only [List.getElem?_map, hv, Option.map_some] at hmap
  obtain ⟨value, hvalue, heq⟩ := Option.map_eq_some_iff.mp hmap.symm
  exact ⟨value, hvalue, heq.symm⟩

theorem mem_values {values : List RuntimeValue} (h : s.values operands = some values)
    {value : RuntimeValue} (hvalue : value ∈ values) : ∃ v ∈ operands, s.env v = some value := by
  have hmem : some value ∈ operands.map s.env := by
    rw [values_eq_some_iff.mp h]
    exact List.mem_map.mpr ⟨value, hvalue, rfl⟩
  exact List.mem_map.mp hmem

end State

section

variable {M : Machine} {module : Module} {f : Function}

variable {s : State M} {instruction : Instruction}

theorem request_eq_some {operation : Operation} {values : List RuntimeValue} :
    instruction.request M module f s = some (operation, values) ↔
      s.values instruction.kind.operands = some values ∧
        instruction.kind.operation M module (instruction.result.map TypedValue.ty)
          (f.operandTypes instruction.kind) values = some operation := by
  simp only [Instruction.request, Option.bind_eq_some_iff, Option.map_eq_some_iff, Prod.mk.injEq]
  constructor
  · rintro ⟨values', hvalues, operation', hoperation, rfl, rfl⟩
    exact ⟨hvalues, hoperation⟩
  · rintro ⟨hvalues, hoperation⟩
    exact ⟨values, hvalues, operation, hoperation, rfl, rfl⟩

/-- A step only rebinds the result of its instruction. -/
theorem Step.env_of_ne {s' : State M} {observation : Observation M}
    (hstep : Step M module f instruction s observation s') {v : ValueId}
    (hv : ∀ result, instruction.result = some result → result.value ≠ v) : s'.env v = s.env v := by
  cases hstep with
  | compute hrequest hresult =>
      rw [State.define_env, Function.update_of_ne (hv _ hresult).symm]
  | allocate hrequest hresult =>
      exact Function.update_of_ne (hv _ hresult).symm _ _
  | read hrequest hresult => rw [State.define_env, Function.update_of_ne (hv _ hresult).symm]
  | write => rfl
  | check => rfl
  | skip => rfl
  | external =>
      unfold State.conclude
      cases hresult : instruction.result with
      | none => rfl
      | some => exact Function.update_of_ne (hv _ hresult).symm _ _

/-- The addresses an activation holds and the memory it can reach hang together. -/
structure State.Closed (s : State M) : Prop where
  env : ∀ v value, s.env v = some value → value.objects ⊆ s.allocated
  static : M.static ⊆ s.exposed
  exposed : s.exposed ⊆ s.allocated
  pointsTo : ∀ o ∈ s.allocated, ∀ o', M.pointsTo (s.memory o) o' → o' ∈ s.exposed

theorem State.Initial.closed (h : s.Initial f) : s.Closed where
  env v value hv := (h.arguments v value hv).trans h.exposed
  static := h.static
  exposed := h.exposed
  pointsTo := h.pointsTo

namespace State.Closed

variable {s s' : State M}

variable {operands : List ValueId}

theorem objectsOf_values (h : s.Closed) {values : List RuntimeValue}
    (hvalues : s.values operands = some values) : objectsOf values ⊆ s.allocated := by
  intro o ho
  obtain ⟨value, hvalue, ho⟩ := mem_objectsOf.mp ho
  obtain ⟨v, _, hv⟩ := State.mem_values hvalues hvalue
  exact h.env v value hv ho

theorem define (h : s.Closed) {v : ValueId} {value : RuntimeValue}
    (hvalue : value.objects ⊆ s.allocated) : (s.define v value).Closed where
  env w other hw := by
    rw [State.define_env] at hw
    by_cases hwv : w = v
    · subst hwv
      rw [Function.update_self] at hw
      cases hw
      exact hvalue
    · rw [Function.update_of_ne hwv] at hw
      exact h.env w other hw
  static := h.static
  exposed := h.exposed
  pointsTo := h.pointsTo

/-- An address that is read is an exposed one. -/
theorem objects_read (h : s.Closed) {address : Address} (haddress : address.object ∈ s.allocated)
    (ty : TypeId) : (s.read address ty).objects ⊆ s.exposed :=
  fun _ ho => h.pointsTo _ haddress _ (M.pointsTo_read ho)

/-- Steps keep the state closed. -/
theorem step {instruction : Instruction} {observation : Observation M} (h : s.Closed)
    (hstep : Step M module f instruction s observation s') : s'.Closed := by
  cases hstep with
  | @compute values value result hrequest hresult =>
      obtain ⟨hvalues, hoperation⟩ := request_eq_some.mp hrequest
      obtain ⟨resultType, hty, hcomputed⟩ := InstructionKind.operation_compute hoperation
      refine h.define ((objects_computed hcomputed).trans (Finset.union_subset ?_ ?_))
      · exact h.objectsOf_values hvalues
      · exact h.static.trans h.exposed
  | @allocate values result object hrequest hresult hfresh =>
      refine ⟨fun w other hw => ?_, h.static, h.exposed.trans (Finset.subset_insert _ _),
        fun o ho o' hpoints => ?_⟩
      · by_cases hwv : w = result.value
        · subst hwv
          simp only [State.allocate, Function.update_self, Option.some.injEq] at hw
          subst hw
          simp [State.allocate]
        · simp only [State.allocate, Function.update_of_ne hwv] at hw
          exact (h.env w other hw).trans (Finset.subset_insert _ _)
      · by_cases hobject : o = object
        · subst hobject
          simp only [State.allocate, Function.update_self] at hpoints
          exact absurd hpoints M.pointsTo_fresh
        · simp only [State.allocate, Function.update_of_ne hobject] at hpoints
          exact h.pointsTo o (Finset.mem_of_mem_insert_of_ne ho hobject) o' hpoints
  | @read values address ty result hrequest hresult =>
      obtain ⟨hvalues, hoperation⟩ := request_eq_some.mp hrequest
      obtain ⟨_, _, _, _, rfl, _⟩ := InstructionKind.operation_read hoperation
      have haddress : address.object ∈ s.allocated :=
        h.objectsOf_values hvalues (by simp [objectsOf])
      exact h.define ((h.objects_read haddress ty).trans h.exposed)
  | @write values address ty value hrequest =>
      obtain ⟨hvalues, hoperation⟩ := request_eq_some.mp hrequest
      obtain ⟨_, _, _, _, _, rfl, _⟩ := InstructionKind.operation_write hoperation
      have hvalue : value.objects ⊆ s.allocated := by
        refine subset_trans (fun o ho => ?_) (h.objectsOf_values hvalues)
        simp [objectsOf, ho]
      refine ⟨h.env, h.static.trans Finset.subset_union_left,
        Finset.union_subset h.exposed hvalue, fun o ho o' hpoints => ?_⟩
      by_cases hobject : o = address.object
      · subst hobject
        simp only [State.write, Function.update_self] at hpoints
        rcases M.pointsTo_write hpoints with hold | hnew
        · exact Finset.mem_union_left _ (h.pointsTo _ ho _ hold)
        · exact Finset.mem_union_right _ hnew
      · simp only [State.write, Function.update_of_ne hobject] at hpoints
        exact Finset.mem_union_left _ (h.pointsTo o ho o' hpoints)
  | check => exact h
  | skip => exact h
  | @external values response hrequest hresponse =>
      have hclosed : ({ s with
          memory := response.memory
          allocated := response.allocated
          exposed := response.exposed } : State M).Closed :=
        ⟨fun v value hv => (h.env v value hv).trans hresponse.allocated,
          h.static.trans (Finset.subset_union_left.trans hresponse.exposed),
          hresponse.exposed_allocated, hresponse.pointsTo⟩
      unfold State.conclude
      split
      · exact hclosed.define (hresponse.value.trans hresponse.exposed_allocated)
      · exact hclosed

theorem bind (h : s.Closed) {values : List RuntimeValue}
    (hvalues : s.values operands = some values) (parameters : List TypedValue) :
    (s.bind parameters values).Closed := by
  refine ⟨fun v value hv => ?_, ?_, ?_, ?_⟩
  · rw [State.bind_allocated]
    rcases State.bind_env_cases parameters values v with hold | ⟨other, hother, hnew⟩
    · exact h.env v value (hold ▸ hv)
    · obtain rfl : other = value := Option.some.inj (hnew.symm.trans hv)
      exact (objects_subset_objectsOf hother).trans (h.objectsOf_values hvalues)
  · simpa using h.static
  · simpa using h.exposed
  · simpa using h.pointsTo

end State.Closed

/-! ## Runs -/

variable {terminator : Terminator} {env : ValueId → Option RuntimeValue}
  {arguments : List ValueId}

/-- The edge taken is one of the terminator's. -/
theorem Terminator.mem_successorIds_of_goto {t : BlockId}
    (h : terminator.goto env = some (t, arguments)) : t ∈ terminator.successorIds := by
  unfold Terminator.goto at h
  split at h
  · cases h
  · cases h
  · cases h; simp [Terminator.successorIds]
  · split at h
    · cases h; simp [Terminator.successorIds]
    · cases h; simp [Terminator.successorIds]
    · cases h
  · split at h
    · split at h
      · rename_i case hfind
        cases h
        simp only [Terminator.successorIds, List.mem_append, List.mem_map]
        exact .inl ⟨case, List.mem_of_find?_eq_some hfind, rfl⟩
      · cases h; simp [Terminator.successorIds]
    · cases h

/-- The arguments passed are operands of the terminator. -/
theorem Terminator.arguments_subset_of_goto {t : BlockId}
    (h : terminator.goto env = some (t, arguments)) : arguments ⊆ terminator.operands := by
  unfold Terminator.goto at h
  split at h
  · cases h
  · cases h
  · cases h; exact fun v hv => hv
  · split at h
    · cases h; exact fun v hv => by simp [Terminator.operands, hv]
    · cases h; exact fun v hv => by simp [Terminator.operands, hv]
    · cases h
  · split at h
    · split at h
      · rename_i case hfind
        cases h
        intro v hv
        simp only [Terminator.operands, List.mem_cons, List.mem_append, List.mem_flatMap]
        exact .inr (.inl ⟨case, List.mem_of_find?_eq_some hfind, hv⟩)
      · cases h; exact fun v hv => by simp [Terminator.operands, hv]
    · cases h

namespace Run

variable {start s : State M} {trace : List (Event M)} {b i : ℕ}

theorem reachable (run : Run M module f start trace b i s) : Reachable f.Edge b := by
  induction run with
  | start => exact ⟨[], .entry⟩
  | step run hat hstep ih => exact ih
  | edge run hblock hgoto hvalues htarget ih =>
      exact ih.step ⟨_, hblock, Terminator.mem_successorIds_of_goto hgoto⟩

/-- An event of a run is a step of the instruction at its place. -/
theorem step_of_mem (run : Run M module f start trace b i s) {event : Event M} (h : event ∈ trace)
    {instruction : Instruction} {observation : Observation M}
    (haction : event.action = .instruction instruction observation) :
    f.instructionAt event.block event.index = some instruction ∧
      ∃ s', Step M module f instruction event.before observation s' := by
  induction run with
  | start => cases h
  | step run hat hstep ih =>
      rcases List.mem_append.mp h with hold | hlast
      · exact ih hold
      · obtain rfl := List.mem_singleton.mp hlast
        cases haction
        exact ⟨hat, _, hstep⟩
  | edge run hblock hgoto hvalues htarget ih =>
      rcases List.mem_append.mp h with hold | hlast
      · exact ih hold
      · obtain rfl := List.mem_singleton.mp hlast
        cases haction

theorem closed (hstart : start.Closed) (run : Run M module f start trace b i s) : s.Closed := by
  induction run with
  | start => exact hstart
  | step run hat hstep ih => exact ih.step hstep
  | edge run hblock hgoto hvalues htarget ih => exact ih.bind hvalues _

end Run

end

end Jadren.Jir
