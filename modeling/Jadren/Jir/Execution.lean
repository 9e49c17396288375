import Jadren.Jir.Semantics
import Mathlib.Order.Lattice.Nat

/-!
# Executing a function

`execute` follows a run as long as nothing outside has to answer.  Allocation
takes the next number that is not in use.  A function that is executed for a
number of steps has a run that ends in the configuration reached, so properties
of runs can be tried on concrete functions.

`cells` is a small machine for that: an object keeps one value for each offset
and type.
-/

namespace Jadren.Jir

open Option

/-- A position in a run. -/
structure Configuration (M : Machine) where
  trace : List (Event M)
  block : ℕ
  index : ℕ
  state : State M

variable {M : Machine} {module : Module} {f : Function}

/-- Where a run begins. -/
def Configuration.entry (start : State M) : Configuration M := ⟨[], 0, 0, start⟩

section

variable (M) (module : Module) (f : Function)

/-- What executing an instruction does, when it is not up to the rest of the program. -/
def Instruction.perform (instruction : Instruction) (s : State M) :
    Option (Observation M × State M) :=
  (instruction.request M module f s).bind fun request =>
    match request.1, instruction.result with
    | .compute value, some result => some (.silent, s.define result.value value)
    | .allocate, some result => some (.silent, s.allocate result.value (s.allocated.sup id + 1))
    | .read address ty, some result => some (.silent, s.define result.value (s.read address ty))
    | .write address ty value, _ => some (.store address ty value, s.write address ty value)
    | .check true, _ => some (.silent, s)
    | .skip, _ => some (.silent, s)
    | _, _ => none

namespace Configuration

/-- The edge out of a block. -/
def leave (c : Configuration M) (block : Block) : Option (Configuration M) :=
  (block.terminator.goto c.state.env).bind fun edge =>
    (c.state.values edge.2).bind fun values =>
      (f.blocks[edge.1]?).map fun target =>
        ⟨c.trace ++ [⟨c.block, c.index, c.state, .edge edge.1 values⟩], edge.1, 0,
          c.state.bind target.parameters values⟩

/-- The next event. -/
def advance (c : Configuration M) : Option (Configuration M) :=
  (f.blocks[c.block]?).bind fun block =>
    match block.instructions[c.index]? with
    | some instruction =>
        (instruction.perform M module f c.state).map fun outcome =>
          ⟨c.trace ++ [⟨c.block, c.index, c.state, .instruction instruction outcome.1⟩], c.block,
            c.index + 1, outcome.2⟩
    | none => if c.index = block.instructions.length then c.leave M f block else none

def execute : ℕ → Configuration M → Option (Configuration M)
  | 0, c => some c
  | n + 1, c => (c.advance M module f).bind (execute n)

end Configuration

end

/-- The number after all those in use is not in use. -/
theorem sup_succ_notMem (objects : Finset ℕ) : objects.sup id + 1 ∉ objects := by
  intro hmem
  have hle : objects.sup id + 1 ≤ objects.sup id := Finset.le_sup (f := id) hmem
  omega

theorem Instruction.step_of_perform {instruction : Instruction} {s s' : State M}
    {observation : Observation M}
    (h : instruction.perform M module f s = some (observation, s')) :
    Step M module f instruction s observation s' := by
  obtain ⟨⟨operation, values⟩, hrequest, hoperation⟩ := bind_eq_some_iff.mp h
  -- operations with a result are not performed for instructions without one
  cases hresult : instruction.result with
  | none =>
      rw [hresult] at hoperation
      cases operation with
      | write => cases hoperation; exact .write hrequest
      | check passes => cases passes <;> cases hoperation; exact .check hrequest
      | skip => cases hoperation; exact .skip hrequest
      | compute | allocate | read | external => cases hoperation
  | some =>
      rw [hresult] at hoperation
      cases operation with
      | compute => cases hoperation; exact .compute hrequest hresult
      | allocate => cases hoperation; exact .allocate hrequest hresult (sup_succ_notMem _)
      | read => cases hoperation; exact .read hrequest hresult
      | write => cases hoperation; exact .write hrequest
      | check passes => cases passes <;> cases hoperation; exact .check hrequest
      | skip => cases hoperation; exact .skip hrequest
      | external => cases hoperation

namespace Configuration

/-- The configuration is reached by a run. -/
def Reached (module : Module) (f : Function) (start : State M) (c : Configuration M) : Prop :=
  Run M module f start c.trace c.block c.index c.state

variable {start : State M} {c c' : Configuration M}

theorem Reached.advance (reached : c.Reached module f start)
    (h : c.advance M module f = some c') : c'.Reached module f start := by
  obtain ⟨block, hblock, hnext⟩ := bind_eq_some_iff.mp h
  cases hat : block.instructions[c.index]? with
  | some =>
      rw [hat] at hnext
      obtain ⟨⟨observation, s'⟩, hperform, rfl⟩ := map_eq_some_iff.mp hnext
      exact .step reached (Function.instructionAt_eq_some.mpr ⟨block, hblock, hat⟩)
        (Instruction.step_of_perform hperform)
  | none =>
      simp only [hat] at hnext
      split at hnext
      · rename_i hindex
        obtain ⟨edge, hgoto, hedge⟩ := bind_eq_some_iff.mp hnext
        obtain ⟨values, hvalues, htaken⟩ := bind_eq_some_iff.mp hedge
        obtain ⟨target, htarget, rfl⟩ := map_eq_some_iff.mp htaken
        unfold Reached at reached
        rw [hindex] at reached ⊢
        exact .edge reached hblock hgoto hvalues htarget
      · cases hnext

theorem Reached.execute {n : ℕ} (reached : c.Reached module f start)
    (h : c.execute M module f n = some c') : c'.Reached module f start := by
  induction n generalizing c with
  | zero => cases h; exact reached
  | succ n ih =>
      obtain ⟨next, hnext, hrest⟩ := bind_eq_some_iff.mp h
      exact ih (reached.advance hnext) hrest

/-- A function that can be executed for `n` steps has a run of `n` steps. -/
theorem exists_run (module : Module) (f : Function) (start : State M) (n : ℕ) {α : Type}
    (observe : Configuration M → α) {a : α}
    (h : ((entry start).execute M module f n).map observe = some a) :
    ∃ c : Configuration M, Run M module f start c.trace c.block c.index c.state ∧
    observe c = a := by
  obtain ⟨c, hc, rfl⟩ := map_eq_some_iff.mp h
  exact ⟨c, Reached.execute (c := entry start) .start hc, rfl⟩

end Configuration

/-! ## Concrete functions -/

def Instruction.defining (value : ValueId) (ty : TypeId) (kind : InstructionKind) : Instruction :=
  ⟨some ⟨value, ty⟩, kind, none⟩

def Instruction.effect (kind : InstructionKind) : Instruction := ⟨none, kind, none⟩

/-- A block with its terminator. -/
def Block.of (id : BlockId) (parameters : List TypedValue) (instructions : List Instruction)
    (terminator : Terminator) : Block := ⟨id, parameters, instructions, terminator, none⟩

/-- The only function of its module. -/
def Function.of (parameters : List TypedValue) (result : TypeId) (blocks : List Block) : Function :=
  ⟨0, .internal, parameters, result, blocks, none⟩

theorem instructions_of (parameters arguments : List TypedValue) (result : TypeId) (id : BlockId)
    (instructions : List Instruction) (terminator : Terminator) :
    (Function.of parameters result [.of id arguments instructions terminator]).instructions =
      instructions := List.append_nil _

/-! ## A machine -/

/-- An object keeps a value for each offset and type. -/
abbrev Cells : Type := ℤ → TypeId → Option RuntimeValue

/-- Four-byte values and fields; floating-point results are not looked at. -/
def cells : Machine where
  Contents := Cells
  fresh _ _ := none
  read contents offset ty := (contents offset ty).getD (.integer 32 0)
  write contents offset ty value := Function.update contents offset
    (Function.update (contents offset) ty (some value))
  pointsTo contents o := ∃ offset ty value, contents offset ty = some value ∧ o ∈ value.objects
  size _ := 4
  fieldOffset _ field := 4 * field
  floatNegate _ pattern := pattern
  floatBinary _ _ left _ := left
  floatCompare _ _ _ _ := false
  integerToFloat _ _ pattern _ := pattern
  floatToInteger _ _ pattern _ := pattern
  floatResize _ pattern _ := pattern
  overshift _ _ _ _ := 0
  missingLane := .integer 32 0
  zero _ := .integer 32 0
  builtin _ := 0
  literal _ := .pointer none
  static := ∅
  read_write contents offset ty value := by simp
  pointsTo_read {contents offset ty o} h := by
    cases hvalue : contents offset ty with
    | none => simp [hvalue] at h
    | some value => exact ⟨offset, ty, value, hvalue, by simpa [hvalue] using h⟩
  pointsTo_write {contents offset ty value o} := by
    rintro ⟨offset', ty', value', hvalue, ho⟩
    by_cases hoffset : offset' = offset
    · subst hoffset
      by_cases hty : ty' = ty
      · subst hty
        simp only [Function.update_self, Option.some.injEq] at hvalue
        exact Or.inr (hvalue ▸ ho)
      · simp only [Function.update_self, Function.update_of_ne hty] at hvalue
        exact Or.inl ⟨offset', ty', value', hvalue, ho⟩
    · rw [Function.update_of_ne hoffset] at hvalue
      exact Or.inl ⟨offset', ty', value', hvalue, ho⟩
  pointsTo_fresh := by simp
  missingLane_objects := by simp
  zero_objects := by simp
  literal_objects := by simp

/-- An activation without arguments, in an empty memory. -/
def blank : State cells := ⟨fun _ => none, fun _ => cells.fresh, ∅, ∅⟩

theorem initial_blank (f : Function) : blank.Initial f where
  env _ _ hv := by cases hv
  arguments _ _ hv := by cases hv
  static := Finset.empty_subset _
  exposed := Finset.empty_subset _
  pointsTo _ ho := absurd ho (Finset.notMem_empty _)

end Jadren.Jir
