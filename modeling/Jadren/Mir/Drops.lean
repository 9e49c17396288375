import Jadren.Mir.Paths
import Jadren.Library.Exactness

/-!
# Drop elaboration

`elaborateDrops` first evaluates every return operand into a local of its own
(`materializeFunctionReturns`), then inserts a `Drop` for each move-only local
that is available at the end of its storage: before `StorageDead`, and in reverse
order of declaration before a `Return`.  A local is available where it is
initialized on all paths and moved out on none.

The facts used are those of the function before the elaboration.  They stay a
solution for the elaborated one (`isSolution_elaborate`): a drop followed by
`StorageDead` leaves the same facts as `StorageDead` alone, and nothing follows
the drops before a `Return`.
-/

namespace Jadren.Mir

open Flow.Analysis List OrderedSet

/-! ## Return materialization -/

/-- The statements before a trailing run of region exits and storage ends. -/
def trailingRegionCleanupStart (statements : List MirStatement) : ℕ :=
  (statements.reverse.dropWhile fun
    | .regionExit _ _ | .storageDead _ _ => true
    | _ => false).length

def operandOwnedRegion (operand : MirOperand) (function : MirFunction) : Option LocalId :=
  match operand.kind with
  | .place place => function.locals[place.root]?.bind MirLocal.ownedRegion
  | .other => none

/-- Whether a return operand already is a return temporary. -/
def isReturnPlace (operand : MirOperand) (function : MirFunction) : Bool :=
  match operand.kind with
  | .place place => function.locals[place.root]?.any MirLocal.isReturn
  | .other => false

/-- The statements that evaluate a return operand into `slot`.  A returned place of a
capability type is borrowed again, anything else is assigned. -/
def materialization (slot : LocalId) (operand : MirOperand) (accesses : List PlaceAccess)
    (span : Span) : List MirStatement :=
  match operand.ty, operand.kind with
  | .capability .read _, .place source =>
      [.storageLive slot span, .borrow slot source .read false span]
  | .capability .write _, .place source =>
      [.storageLive slot span, .borrow slot source .write false span]
  | _, _ => [.storageLive slot span, .assign (.ofLocal slot) [] (some operand) accesses span]

/-- Gives the return operand of one block a local of its own. -/
def materializeReturn (function : MirFunction) (b : BasicBlockId) : MirFunction :=
  match function.blocks[b]? with
  | some ⟨statements, .return (some operand) accesses span⟩ =>
      if isReturnPlace operand function then function
      else
        let slot := function.locals.length
        let insertion := trailingRegionCleanupStart statements
        let kind := if isMoveOnly operand.ty then AccessKind.move else AccessKind.read
        { locals := function.locals ++
            [⟨"$return" ++ toString slot, operand.ty, false, false, true, none,
              operandOwnedRegion operand function, span⟩]
          blocks := function.blocks.set b
            { statements := statements.take insertion ++
                materialization slot operand accesses span ++ statements.drop insertion
              terminator := .return (some ⟨operand.ty, .place (.ofLocal slot), span⟩)
                [⟨.ofLocal slot, kind, span⟩] span } }
  | _ => function

def materializeFunctionReturns (function : MirFunction) : MirFunction :=
  (range function.blocks.length).foldl materializeReturn function

/-! ## The facts -/

/-- The locals initialized on all paths and the places moved out on some path. -/
structure DropState where
  initialized : OrderedSet LocalId
  moved : OrderedSet Place
  deriving DecidableEq, Repr

namespace DropState

def join (existing incoming : DropState) : DropState :=
  ⟨existing.initialized.inter incoming.initialized, existing.moved.union incoming.moved⟩

/-- Fewer locals are known to be initialized, more places may be moved out. -/
def le (state other : DropState) : Prop :=
  (∀ slot ∈ other.initialized, slot ∈ state.initialized) ∧ ∀ place ∈ state.moved,
    place ∈ other.moved

/-- Ends what is known of a local. -/
def forget (state : DropState) (slot : LocalId) : DropState :=
  ⟨state.initialized.erase slot, state.moved.retain fun place => place.root ≠ slot⟩

/-- Whether a local surely holds a whole value. -/
def available (state : DropState) (slot : LocalId) : Bool :=
  decide (slot ∈ state.initialized) &&
    !(state.moved.any fun moved => moved.overlaps (.ofLocal slot))

end DropState

/-- A runtime move keeps its source drop-managed, so only plain moves count. -/
def AccessKind.consumes : AccessKind → Bool
  | .move => true
  | _ => false

def applyDropAccesses (accesses : List PlaceAccess) (state : DropState) : DropState :=
  { state with
    moved := state.moved.extend
      ((accesses.filter fun access => access.kind.consumes).map PlaceAccess.place) }

def transferDropStatement (statement : MirStatement) (state : DropState) : DropState :=
  match statement with
  | .storageLive slot _ | .storageDead slot _ => state.forget slot
  | .regionEnter region _ =>
      ⟨state.initialized.insert region, state.moved.retain fun place => place.root ≠ region⟩
  | .regionExit region _ => state.forget region
  | .assign destination _ _ accesses _ =>
      let after := applyDropAccesses accesses state
      ⟨if destination.projection = [] then after.initialized.insert destination.root
        else after.initialized, after.moved.retain fun place => !place.overlaps destination⟩
  | .borrow destination source _ _ span =>
      let after := applyDropAccesses [⟨source, .borrowRead, span⟩] state
      ⟨after.initialized.insert destination,
        after.moved.retain fun place => place.root ≠ destination⟩
  | .drop place _ => ⟨state.initialized.erase place.root, state.moved.insert place⟩
  | .evaluate _ accesses _ => applyDropAccesses accesses state

/-- The drop facts as a forward analysis; it objects to nothing. -/
def dropAnalysis : Flow.Analysis Action DropState where
  transfer action state :=
    match action with
    | .statement statement => transferDropStatement statement state
    | .terminator last => applyDropAccesses (terminatorAccesses last) state
  le := DropState.le
  quiet _ _ := True

def dropSolver : Flow.Solver Action DropState Unit :=
  ⟨fun action current => (dropAnalysis.transfer action current.1, ()), DropState.join⟩

/-- The parameters are initialized at the entry. -/
def MirFunction.parameters (function : MirFunction) : List LocalId :=
  (range function.locals.length).filter fun slot =>
    function.locals[slot]?.any MirLocal.isParameter

def entryDropState (function : MirFunction) : DropState := ⟨.ofList function.parameters, ∅⟩

/-! ## The elaboration -/

/-- Whether a local is to be dropped at the end of its storage. -/
def MirFunction.drops (function : MirFunction) (slot : LocalId) : Bool :=
  function.locals[slot]?.any fun info =>
    isMoveOnly info.ty && !info.isReturn && info.ownedRegion.isNone

/-- A statement, with a drop before it if it ends the storage of an available local. -/
def elaborateStatement (function : MirFunction) (statement : MirStatement) (state : DropState) :
    List MirStatement :=
  match statement with
  | .storageDead slot span =>
      if function.drops slot && state.available slot then [.drop (.ofLocal slot) span, statement]
      else [statement]
  | _ => [statement]

/-- The elaborated statements and the facts after them. -/
def elaborateStatements (function : MirFunction) :
    List MirStatement → DropState → List MirStatement × DropState
  | [], state => ([], state)
  | statement :: rest, state =>
      let emitted := elaborateStatement function statement state
      let result := elaborateStatements function rest
        (emitted.foldl (fun current next => transferDropStatement next current) state)
      (emitted ++ result.1, result.2)

/-- The drops before a return, one for each available local of the list. -/
def returnDrops (function : MirFunction) (span : Span) :
    List LocalId → DropState → List MirStatement
  | [], _ => []
  | slot :: rest, state =>
      if state.available slot && function.drops slot then
        let drop : MirStatement := .drop (.ofLocal slot) span
        drop :: returnDrops function span rest (transferDropStatement drop state)
      else returnDrops function span rest state

def elaborateBlock (function : MirFunction) (input : Option DropState) (block : BasicBlock) :
    BasicBlock :=
  match input with
  | none => block
  | some state =>
      let result := elaborateStatements function block.statements state
      match block.terminator with
      | .return _ _ span =>
          { block with
            statements := result.1 ++
              returnDrops function span (range function.locals.length).reverse result.2 }
      | _ => { block with statements := result.1 }

def MirStatement.isDrop : MirStatement → Bool
  | .drop _ _ => true
  | _ => false

@[simp] theorem MirStatement.isDrop_drop (place : Place) (span : Span) :
    (MirStatement.drop place span).isDrop = true := rfl

@[simp] theorem MirStatement.isDrop_storageDead (slot : LocalId) (span : Span) :
    (MirStatement.storageDead slot span).isDrop = false := rfl

/-- The blocks with drops inserted, given the facts at the block entries. -/
def elaborateBlocks (function : MirFunction) (inputs : BasicBlockId → Option DropState) :
    MirFunction :=
  { function with
    blocks := function.blocks.mapIdx fun b block => elaborateBlock function (inputs b) block }

/-- Drop elaboration of a function whose returns are materialized. -/
def elaborateFunctionDrops (fuel : ℕ) (function : MirFunction) : Option MirFunction :=
  if (function.blocks.any fun block => block.statements.any MirStatement.isDrop) ∨
      function.blocks = [] then some function
  else
    (dropSolver.solve function.graph fuel
      (Flow.Solver.initial function.graph (entryDropState function) ())).map fun work =>
        elaborateBlocks function work.input

def elaborateDrops (fuel : ℕ) (function : MirFunction) : Option MirFunction :=
  elaborateFunctionDrops fuel (materializeFunctionReturns function)

/-! ## The facts still hold after the elaboration -/

theorem through_statements (statements : List MirStatement) (state : DropState) :
    dropAnalysis.through (statements.map .statement) state =
      statements.foldl (fun current next => transferDropStatement next current) state := by
  rw [through, foldl_map]
  rfl

/-- Dropping a local whose storage ends adds nothing. -/
theorem transferDropStatement_storageDead_drop (slot : LocalId) (span span' : Span)
    (state : DropState) :
    transferDropStatement (.storageDead slot span)
        (transferDropStatement (.drop (.ofLocal slot) span') state) =
      transferDropStatement (.storageDead slot span) state := by
  simp only [transferDropStatement, DropState.forget, Place.ofLocal, erase_erase]
  rw [retain_insert _ (by simp)]

theorem transfer_elaborateStatement (function : MirFunction) (statement : MirStatement)
    (state : DropState) :
    (elaborateStatement function statement state).foldl
        (fun current next => transferDropStatement next current) state =
      transferDropStatement statement state := by
  unfold elaborateStatement
  split
  · split
    · exact transferDropStatement_storageDead_drop _ _ _ state
    · rfl
  · rfl

/-- The facts after the elaborated statements are those after the original ones. -/
theorem elaborateStatements_snd (function : MirFunction) (statements : List MirStatement)
    (state : DropState) :
    (elaborateStatements function statements state).2 =
      dropAnalysis.through (statements.map .statement) state := by
  induction statements generalizing state with
  | nil => rfl
  | cons statement rest ih =>
      rw [elaborateStatements, ih, transfer_elaborateStatement]
      rfl

theorem through_elaborateStatements (function : MirFunction) (statements : List MirStatement)
    (state : DropState) :
    dropAnalysis.through ((elaborateStatements function statements state).1.map .statement) state =
      (elaborateStatements function statements state).2 := by
  induction statements generalizing state with
  | nil => rfl
  | cons statement rest ih =>
      rw [elaborateStatements, map_append, through_append,
        through_statements (elaborateStatement function statement state)]
      exact ih _

/-- A drop is justified where its local is to be dropped and available. -/
def DropJustified (function : MirFunction) (action : Action) (state : DropState) : Prop :=
  match action with
  | .statement (.drop place _) =>
      ∃ slot, place = .ofLocal slot ∧ function.drops slot = true ∧ state.available slot = true
  | _ => True

/-- The drop facts, objecting to the drops they do not justify. -/
def justifyingAnalysis (function : MirFunction) : Flow.Analysis Action DropState :=
  { dropAnalysis with quiet := DropJustified function }

variable {function : MirFunction} {statement : MirStatement} {state : DropState}

theorem dropJustified_of_not_isDrop (h : statement.isDrop = false) :
    DropJustified function (.statement statement) state := by
  cases statement with
  | drop => cases h
  | _ => trivial

theorem passes_elaborateStatement (h : statement.isDrop = false) :
    (justifyingAnalysis function).Passes
      ((elaborateStatement function statement state).map .statement) state := by
  unfold elaborateStatement
  split
  · split
    · rename_i hdrop
      rw [Bool.and_eq_true] at hdrop
      exact ⟨⟨_, rfl, hdrop.1, hdrop.2⟩, trivial, trivial⟩
    · exact ⟨trivial, trivial⟩
  · exact ⟨dropJustified_of_not_isDrop h, trivial⟩

theorem passes_elaborateStatements {statements : List MirStatement}
    (h : ∀ statement ∈ statements, statement.isDrop = false) :
    (justifyingAnalysis function).Passes
      ((elaborateStatements function statements state).1.map .statement) state := by
  induction statements generalizing state with
  | nil => trivial
  | cons statement rest ih =>
      rw [elaborateStatements, map_append, passes_append]
      refine ⟨passes_elaborateStatement (h statement (mem_cons_self ..)), ?_⟩
      have hthrough := through_statements (elaborateStatement function statement state) state
      rw [show (justifyingAnalysis function).through _ state = _ from hthrough]
      exact ih fun other hother => h other (mem_cons_of_mem _ hother)

theorem passes_returnDrops (function : MirFunction) (span : Span) (slots : List LocalId)
    (state : DropState) :
    (justifyingAnalysis function).Passes
      ((returnDrops function span slots state).map .statement) state := by
  induction slots generalizing state with
  | nil => trivial
  | cons slot rest ih =>
      unfold returnDrops
      split
      · rename_i hdrop
        rw [Bool.and_eq_true] at hdrop
        exact ⟨⟨slot, rfl, hdrop.2, hdrop.1⟩, ih _⟩
      · exact ih _

/-- A function without drops, as lowering builds it. -/
def MirFunction.DropFree (function : MirFunction) : Prop :=
  ∀ block ∈ function.blocks, ∀ statement ∈ block.statements, statement.isDrop = false

@[simp] theorem elaborateBlock_terminator (function : MirFunction) (input : Option DropState)
    (block : BasicBlock) : (elaborateBlock function input block).terminator = block.terminator := by
  unfold elaborateBlock
  split
  · rfl
  · split <;> simp_all

variable {inputs : BasicBlockId → Option DropState}

theorem elaborateBlocks_block {b : BasicBlockId} {flow : Flow.Block Action}
    (h : (elaborateBlocks function inputs).graph.blocks[b]? = some flow) :
    ∃ block, function.blocks[b]? = some block ∧
      flow = (elaborateBlock function (inputs b) block).flow := by
  have hmap : (function.blocks[b]?.map fun block =>
      (elaborateBlock function (inputs b) block).flow) = some flow := by
    simpa [elaborateBlocks, MirFunction.graph] using h
  obtain ⟨block, hblock, hflow⟩ := Option.map_eq_some_iff.mp hmap
  exact ⟨block, hblock, hflow.symm⟩

variable {block : BasicBlock}

/-- A block with successors ends with the facts it had before the elaboration. -/
theorem through_elaborateBlock (h : successors block.terminator ≠ []) :
    dropAnalysis.through (elaborateBlock function (some state) block).actions state =
      dropAnalysis.through block.actions state := by
  have hstatements : (elaborateBlock function (some state) block).statements =
      (elaborateStatements function block.statements state).1 := by
    unfold elaborateBlock
    split
    · contradiction
    · rename_i heq
      cases heq
      split
      · rename_i hreturn
        simp [hreturn, successors] at h
      · rfl
  rw [BasicBlock.actions, BasicBlock.actions, hstatements, elaborateBlock_terminator,
    through_append, through_append, through_elaborateStatements,
    elaborateStatements_snd]

theorem passes_elaborateBlock (h : ∀ statement ∈ block.statements, statement.isDrop = false) :
    (justifyingAnalysis function).Passes (elaborateBlock function (some state) block).actions
      state := by
  have hbody : (justifyingAnalysis function).Passes
      ((elaborateStatements function block.statements state).1.map .statement) state :=
    passes_elaborateStatements h
  unfold elaborateBlock BasicBlock.actions
  split
  · contradiction
  · rename_i heq
    cases heq
    split
    · rw [map_append, passes_append, passes_append]
      refine ⟨⟨hbody, ?_⟩, trivial, trivial⟩
      rw [show (justifyingAnalysis function).through _ state = _ from
        through_elaborateStatements function block.statements state]
      exact passes_returnDrops function _ _ _
    · exact passes_append.mpr ⟨hbody, trivial, trivial⟩

/-- **The facts of a function justify every drop of its elaboration.** -/
theorem isSolution_elaborateBlocks {entry : DropState} (hfree : function.DropFree)
    (solution : Flow.IsSolution dropAnalysis function.graph entry inputs) :
    Flow.IsSolution (justifyingAnalysis function) (elaborateBlocks function inputs).graph entry
      inputs where
  entry := solution.entry
  edge {b flow state t} hflow hinput ht := by
    obtain ⟨block, hblock, rfl⟩ := elaborateBlocks_block hflow
    have hsuccessor : t ∈ successors block.terminator := by
      simpa [BasicBlock.flow] using ht
    have hsame : (justifyingAnalysis function).through
        (elaborateBlock function (inputs b) block).flow.body state =
        dropAnalysis.through block.actions state := by
      rw [hinput]
      exact through_elaborateBlock (ne_nil_of_mem hsuccessor)
    have hblock' : function.graph.blocks[b]? = some block.flow := by
      simp [MirFunction.graph, hblock]
    rw [hsame]
    exact solution.edge hblock' hinput hsuccessor
  quiet {b flow state i action} hflow hinput haction := by
    obtain ⟨block, hblock, rfl⟩ := elaborateBlocks_block hflow
    rw [hinput] at haction ⊢
    exact (passes_elaborateBlock (hfree block (mem_of_getElem? hblock))).quiet haction

theorem dropSolver_computes : dropSolver.Computes dropAnalysis (fun _ => True) where
  transfer _ _ _ := rfl
  report _ _ _ _ := ⟨trivial, trivial⟩
  le_refl _ := ⟨fun _ h => h, fun _ h => h⟩
  le_trans h₁ h₂ := ⟨fun slot h => h₁.1 slot (h₂.1 slot h),
    fun place h => h₂.2 place (h₁.2 place h)⟩
  le_join_left _ _ :=
    ⟨fun _ h => (mem_inter.mp h).1, fun _ h => mem_union.mpr (.inl h)⟩
  le_join_right _ _ :=
    ⟨fun _ h => (mem_inter.mp h).2, fun _ h => mem_union.mpr (.inr h)⟩

/-! ## Elaborated functions -/

theorem dropFree_materializeReturn (hfree : function.DropFree) (b : BasicBlockId) :
    (materializeReturn function b).DropFree := by
  unfold materializeReturn
  split
  · rename_i statements operand accesses span hblock
    split
    · exact hfree
    · have hold := hfree _ (mem_of_getElem? hblock)
      intro block hmem statement hstatement
      rcases mem_or_eq_of_mem_set hmem with hmem | rfl
      · exact hfree block hmem statement hstatement
      · simp only [mem_append] at hstatement
        rcases hstatement with (htake | hnew) | hdrop
        · exact hold statement (mem_of_mem_take htake)
        · unfold materialization at hnew
          split at hnew <;> simp only [mem_cons, not_mem_nil, or_false] at hnew <;>
            rcases hnew with rfl | rfl <;> rfl
        · exact hold statement (mem_of_mem_drop hdrop)
  · exact hfree

theorem dropFree_materializeFunctionReturns (hfree : function.DropFree) :
    (materializeFunctionReturns function).DropFree := by
  unfold materializeFunctionReturns
  generalize range function.blocks.length = blocks
  induction blocks generalizing function with
  | nil => exact hfree
  | cons b rest ih => exact ih (dropFree_materializeReturn hfree b)

variable {fuel : ℕ} {elaborated : MirFunction}

/-- What the elaboration of a function without drops is: drops inserted into its
blocks, by the facts the solver computed. -/
theorem elaborateFunctionDrops_cases (hfree : function.DropFree)
    (h : elaborateFunctionDrops fuel function = some elaborated) :
    (function.blocks = [] ∧ elaborated = function) ∨
      ∃ work, dropSolver.solve function.graph fuel
          (Flow.Solver.initial function.graph (entryDropState function) ()) = some work ∧
        elaborated = elaborateBlocks function work.input ∧
        Flow.IsSolution dropAnalysis function.graph (entryDropState function) work.input := by
  unfold elaborateFunctionDrops at h
  split at h
  · rename_i hskip
    rcases hskip with hdrop | hnil
    · obtain ⟨block, hblock, hany⟩ := any_eq_true.mp hdrop
      obtain ⟨statement, hstatement, hisDrop⟩ := any_eq_true.mp hany
      rw [hfree block hblock statement hstatement] at hisDrop
      cases hisDrop
    · exact .inl ⟨hnil, (Option.some.inj h).symm⟩
  · rename_i hskip
    obtain ⟨work, hsolve, rfl⟩ := Option.map_eq_some_iff.mp h
    have hentry := MirFunction.graph_blocks_pos fun hnil => hskip (.inr hnil)
    exact .inr ⟨work, hsolve, rfl,
      Flow.Solver.isSolution_of_solve dropSolver_computes hentry hsolve trivial⟩

theorem locals_elaborateFunctionDrops (hfree : function.DropFree)
    (h : elaborateFunctionDrops fuel function = some elaborated) :
    elaborated.locals = function.locals := by
  rcases elaborateFunctionDrops_cases hfree h with ⟨-, rfl⟩ | ⟨work, -, rfl, -⟩ <;> rfl

/-- Where something is executed, the elaborated function has facts that justify its drops. -/
theorem exists_justifyingSolution (hfree : function.DropFree)
    (h : elaborateFunctionDrops fuel function = some elaborated)
    (hblocks : elaborated.blocks ≠ []) :
    ∃ inputs, Flow.IsSolution (justifyingAnalysis function) elaborated.graph
      (entryDropState function) inputs := by
  rcases elaborateFunctionDrops_cases hfree h with ⟨hnil, rfl⟩ | ⟨work, -, rfl, solution⟩
  · exact absurd hnil hblocks
  · exact ⟨work.input, isSolution_elaborateBlocks hfree solution⟩

/-! ## The elaboration ends -/

/-- The position of a projection's constructor. -/
def Projection.rank : Projection → ℕ
  | .field _ => 0
  | .index => 1
  | .dereference => 2

def Projection.name : Projection → String
  | .field name => name
  | _ => ""

theorem compare_projection : (compare : Projection → Projection → Ordering) =
    compareLex (compareOn Projection.rank) (compareOn Projection.name) := by
  funext projection other
  cases projection <;> cases other
  case field.field name name' =>
    show (compare name name').then .eq = compare name name'
    exact Ordering.then_eq
  all_goals rfl

theorem compare_place : (compare : Place → Place → Ordering) =
    compareLex (compareOn Place.root) (compareOn Place.projection) := by
  funext place other
  show (compare place.root other.root).then ((compare place.projection other.projection).then .eq) =
    (compare place.root other.root).then (compare place.projection other.projection)
  rw [Ordering.then_eq]

instance : Std.TransOrd Projection := by
  rw [Std.TransOrd, compare_projection]
  infer_instance

instance : Std.LawfulEqOrd Projection where
  compare_self := by rw [compare_projection]; exact Std.ReflCmp.compare_self
  eq_of_compare {projection other} h := by
    rw [compare_projection, compareLex, Ordering.then_eq_eq] at h
    have hrank := Std.compare_eq_iff_eq.mp h.1
    have hname := Std.compare_eq_iff_eq.mp h.2
    cases projection <;> cases other <;> simp_all [Projection.rank, Projection.name]

instance : Std.TransOrd Place := by
  rw [Std.TransOrd, compare_place]
  infer_instance

instance : Std.LawfulEqOrd Place where
  compare_self := by rw [compare_place]; exact Std.ReflCmp.compare_self
  eq_of_compare h := by
    rw [compare_place, compareLex, Ordering.then_eq_eq] at h
    exact Place.ext (Std.compare_eq_iff_eq.mp h.1) (Std.compare_eq_iff_eq.mp h.2)

def MirFunction.accessedPlaces (function : MirFunction) : List Place :=
  function.graph.collect fun action => action.accesses.map PlaceAccess.place

section

abbrev placeOrder : LinearOrder Place := linearOrderOfOrd

attribute [local instance] placeOrder

variable {places : List Place}

theorem sortedIn_applyDropAccesses (h : SortedIn places state.moved) {accesses : List PlaceAccess}
    (hplaces : ∀ access ∈ accesses, access.place ∈ places) :
    SortedIn places (applyDropAccesses accesses state).moved := by
  refine h.extend fun place hplace => ?_
  obtain ⟨access, haccess, rfl⟩ := mem_map.mp hplace
  exact hplaces access (mem_filter.mp haccess).1

/-- The places that may be moved out stay sorted, and are among those that actions access. -/
theorem sortedIn_dropAnalysis (h : SortedIn places state.moved) {action : Action}
    (hplaces : ∀ access ∈ action.accesses, access.place ∈ places) :
    SortedIn places (dropAnalysis.transfer action state).moved := by
  cases action with
  | terminator => exact sortedIn_applyDropAccesses h hplaces
  | statement statement =>
      cases statement with
      | storageLive | storageDead | regionEnter | regionExit => exact h.retain _
      | assign | borrow => exact (sortedIn_applyDropAccesses h hplaces).retain _
      | drop place span => exact h.insert (hplaces ⟨place, .move, span⟩ (mem_singleton_self _))
      | evaluate => exact sortedIn_applyDropAccesses h hplaces

/-- A join that changes the facts at a block loses an initialized local or adds a moved place. -/
theorem dropSolver_decreases (function : MirFunction) :
    Flow.Solver.Decreases dropSolver function.graph
      (fun state => SortedIn function.accessedPlaces state.moved)
      fun state => state.initialized.elems.length +
        (function.accessedPlaces.filter (· ∉ state.moved)).length where
  visit block hblock action haction _ _ valid := sortedIn_dropAnalysis valid fun access haccess =>
    Flow.Graph.mem_collect hblock haction (mem_map_of_mem haccess)
  join valid valid' := valid.extend valid'.within
  rank {old out} valid valid' hne := by
    have hinter := length_filter_le (fun slot => decide (slot ∈ out.initialized))
      old.initialized.elems
    by_cases hmoved : old.moved.union out.moved = old.moved
    · have hinitialized : old.initialized.inter out.initialized ≠ old.initialized := fun hsame =>
        hne (by simp only [dropSolver, DropState.join, hsame, hmoved])
      have := length_inter_lt hinitialized
      simp only [dropSolver, DropState.join, hmoved]
      omega
    · have := valid.length_filter_union_lt valid' hmoved
      simp only [dropSolver, DropState.join]
      exact Nat.add_lt_add_of_le_of_lt hinter this

theorem closed_materializeReturn (hclosed : function.Closed) (b : BasicBlockId) :
    (materializeReturn function b).Closed := by
  unfold materializeReturn
  split
  · split
    · exact hclosed
    · intro block hblock target htarget
      obtain hold | rfl := mem_or_eq_of_mem_set hblock
      · simpa using hclosed block hold target htarget
      · cases htarget
  · exact hclosed

theorem closed_materializeFunctionReturns (hclosed : function.Closed) :
    (materializeFunctionReturns function).Closed := by
  unfold materializeFunctionReturns
  generalize range function.blocks.length = blocks
  induction blocks generalizing function with
  | nil => exact hclosed
  | cons b rest ih => exact ih (closed_materializeReturn hclosed b)

/-- Drop elaboration ends on every function whose edges lead to blocks. -/
theorem exists_elaborateDrops (hclosed : function.Closed) :
    ∃ enough elaborated, ∀ fuel ≥ enough, elaborateDrops fuel function = some elaborated := by
  unfold elaborateDrops elaborateFunctionDrops
  split
  · exact ⟨0, _, fun _ _ => rfl⟩
  · rename_i hskip
    have hblocks := MirFunction.graph_blocks_pos fun hnil => hskip (.inr hnil)
    generalize hfunction : materializeFunctionReturns function = materialized at hblocks ⊢
    have hclosed' : materialized.Closed := hfunction ▸ closed_materializeFunctionReturns hclosed
    have ready : Flow.Solver.Ready materialized.graph
        (fun state => SortedIn materialized.accessedPlaces state.moved)
        (Flow.Solver.initial materialized.graph (entryDropState materialized) ()) :=
      Flow.Solver.ready_initial hblocks (sortedIn_empty _)
    obtain ⟨enough, final, hfinal⟩ := Flow.Solver.exists_solve (dropSolver_decreases materialized)
      (MirFunction.graph_closed hclosed') ready
    refine ⟨enough, elaborateBlocks materialized final.input, fun fuel hfuel => ?_⟩
    rw [hfinal fuel hfuel]
    rfl

end

end Jadren.Mir
