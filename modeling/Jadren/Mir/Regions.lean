import Jadren.Mir.Syntax
import Jadren.Library.Exactness

/-!
# Region cleanup

`elaborateFunctionRegionCleanup` inserts exits before each return, for the regions
that may be active there.  It knows only a set, joined by union where paths meet, and
exits the regions in reverse order of declaration.

A path enters and exits regions; `regionPath` keeps the stack of the entered ones and
gives it up when a region is exited that is not the innermost.  A `Nesting` assigns
each block the stack with which every path reaches it.  Where a function has one, the
set computed for a block is that stack, and cleanup makes every path end with no
region left (`balancesRegions_of_nesting`).
-/

namespace Jadren.Mir

open List OrderedSet Flow.Solver MirFunction Option

/-! ## The cleanup -/

def transferRegionActivity (statement : MirStatement) (active : OrderedSet LocalId) :
    OrderedSet LocalId :=
  match statement with
  | .regionEnter region _ => active.insert region
  | .regionExit region _ => active.erase region
  | _ => active

/-- The regions that may be active, as a forward analysis; it objects to nothing. -/
def regionAnalysis : Flow.Analysis Action (OrderedSet LocalId) where
  transfer action active :=
    match action with
    | .statement statement => transferRegionActivity statement active
    | .terminator _ => active
  le active other := ∀ region ∈ active, region ∈ other
  quiet _ _ := True

def regionSolver : Flow.Solver Action (OrderedSet LocalId) Unit :=
  ⟨fun action current => (regionAnalysis.transfer action current.1, ()), union⟩

/-- The exits before a return, the region declared last first. -/
def regionExits (span : Span) (active : OrderedSet LocalId) : List MirStatement :=
  active.elems.reverse.flatMap fun region =>
    [.regionExit region span, .storageDead region span]

def elaborateReturnCleanup (input : Option (OrderedSet LocalId)) (block : BasicBlock) :
    BasicBlock :=
  match input, block.terminator with
  | some active, .return _ _ span =>
      let active := block.statements.foldl
        (fun current statement => transferRegionActivity statement current) active
      { block with statements := block.statements ++ regionExits span active }
  | _, _ => block

/-- The blocks with exits inserted, given the sets at the block entries. -/
def insertRegionExits (function : MirFunction)
    (inputs : BasicBlockId → Option (OrderedSet LocalId)) : MirFunction :=
  { function with
    blocks := function.blocks.mapIdx fun b block => elaborateReturnCleanup (inputs b) block }

def elaborateFunctionRegionCleanup (fuel : ℕ) (function : MirFunction) : Option MirFunction :=
  if function.blocks = [] then some function
  else
    (regionSolver.solve function.graph fuel
      (initial function.graph ∅ ())).map fun work =>
        insertRegionExits function work.input

/-! ## Regions on a path -/

/-- One region operation. -/
inductive RegionEvent
  | enter (region : LocalId)
  | exit (region : LocalId)
  deriving DecidableEq

def MirStatement.regionEvents : MirStatement → List RegionEvent
  | .regionEnter region _ => [.enter region]
  | .regionExit region _ => [.exit region]
  | _ => []

/-- The entered regions after an operation, innermost first; `none` once a region has been
exited that was not the innermost. -/
def matchRegion : Option (List LocalId) → RegionEvent → Option (List LocalId)
  | some stack, .enter region => some (region :: stack)
  | some (innermost :: stack), .exit region => if innermost = region then some stack else none
  | _, _ => none

def matchRegions (events : List RegionEvent) (stack : Option (List LocalId)) :
    Option (List LocalId) :=
  events.foldl matchRegion stack

def Action.regionEvents : Action → List RegionEvent
  | .statement s => MirStatement.regionEvents s
  | .terminator _ => []

/-- A path and the regions it has entered and not exited. -/
def regionPath : Flow.PathSemantics Action where
  State := Option (List LocalId)
  Label := Action
  action := id
  step action s s' := s' = matchRegions action.regionEvents s

/-- On every path to a return each entered region was exited once, in reverse order of entry,
and nothing else was exited. -/
def BalancesRegions (function : MirFunction) : Prop :=
  ∀ {trace b i s value accesses span},
    Flow.Run function.graph regionPath (some []) trace b i s →
    function.graph.At b i (.terminator (.return value accesses span)) → s = some []

/-! ## Nestings -/

/-- From one stack to another: regions are entered in increasing order, and the innermost is
exited. -/
inductive Nests : List RegionEvent → List LocalId → List LocalId → Prop
  | nil {stack : List LocalId} : Nests [] stack stack
  | enter {events : List RegionEvent} {region : LocalId} {stack out : List LocalId}
      (later : ∀ outer ∈ stack, outer < region) (rest : Nests events (region :: stack) out) :
      Nests (.enter region :: events) stack out
  | exit {events : List RegionEvent} {region : LocalId} {stack out : List LocalId}
      (rest : Nests events stack out) : Nests (.exit region :: events) (region :: stack) out

variable {stack out : List LocalId}

theorem Nests.append {first second : List RegionEvent} {middle : List LocalId}
    (h : Nests first stack middle) (h' : Nests second middle out) :
    Nests (first ++ second) stack out := by
  induction h with
  | nil => exact h'
  | enter later _ ih => exact .enter later (ih h')
  | exit _ ih => exact .exit (ih h')

variable {events : List RegionEvent}

theorem Nests.matchRegions (h : Nests events stack out) :
    matchRegions events (some stack) = some out := by
  induction h with
  | nil => rfl
  | enter _ _ ih => exact ih
  | exit _ ih =>
      show Mir.matchRegions _ (matchRegion _ _) = _
      simpa [matchRegion] using ih

/-- Exiting every region of a stack. -/
theorem matchRegions_exits (stack : List LocalId) :
    matchRegions (stack.map .exit) (some stack) = some [] := by
  induction stack with
  | nil => rfl
  | cons region rest ih =>
      show matchRegions _ (matchRegion _ _) = _
      simpa [matchRegion] using ih

def BasicBlock.regionEvents (block : BasicBlock) : List RegionEvent :=
  block.statements.flatMap MirStatement.regionEvents

/-- The stack with which every path reaches each block. -/
structure Nesting (function : MirFunction) (entries : List (List LocalId)) : Prop where
  entry : entries[0]? = some []
  sorted : ∀ stack ∈ entries, stack.Pairwise (· > ·)
  block : ∀ {b : BasicBlockId} {block : BasicBlock} {stack : List LocalId},
    function.blocks[b]? = some block → entries[b]? = some stack →
    ∃ out, Nests block.regionEvents stack out ∧
      ∀ t ∈ successors block.terminator, entries[t]? = some out

/-! ## The computed sets are the entries -/

def applyRegionEvent (active : OrderedSet LocalId) : RegionEvent → OrderedSet LocalId
  | .enter region => active.insert region
  | .exit region => active.erase region

theorem transferRegionActivity_eq (statement : MirStatement) (active : OrderedSet LocalId) :
    transferRegionActivity statement active =
      statement.regionEvents.foldl applyRegionEvent active := by
  cases statement <;> rfl

theorem foldl_transferRegionActivity (statements : List MirStatement)
    (active : OrderedSet LocalId) :
    statements.foldl (fun current statement => transferRegionActivity statement current) active =
      (statements.flatMap MirStatement.regionEvents).foldl applyRegionEvent active := by
  induction statements generalizing active with
  | nil => rfl
  | cons statement rest ih =>
      rw [foldl_cons, ih, transferRegionActivity_eq, flatMap_cons, foldl_append]

theorem sorted_of_nests (h : Nests events stack out) (hsorted : stack.Pairwise (· > ·)) :
    out.Pairwise (· > ·) := by
  induction h with
  | nil => exact hsorted
  | enter later _ ih => exact ih (pairwise_cons.mpr ⟨later, hsorted⟩)
  | exit _ ih => exact ih (pairwise_cons.mp hsorted).2

variable {active : OrderedSet LocalId}

/-- A set that is a stack stays the stack. -/
theorem foldl_applyRegionEvent (h : Nests events stack out) (hsorted : stack.Pairwise (· > ·))
    (hactive : active.elems = stack.reverse) :
    (events.foldl applyRegionEvent active).elems = out.reverse := by
  induction h generalizing active with
  | nil => exact hactive
  | @enter events region stack out later _ ih =>
      apply ih (pairwise_cons.mpr ⟨later, hsorted⟩)
      show insertSorted region active.elems = _
      rw [hactive, insertSorted_of_forall_lt fun outer h =>
        later outer (mem_reverse.mp h), reverse_cons]
  | @exit events region stack out _ ih =>
      obtain ⟨hbelow, hrest⟩ := pairwise_cons.mp hsorted
      apply ih hrest
      show active.elems.filter _ = _
      have hkeep : stack.reverse.filter (fun outer => decide (outer ≠ region)) = stack.reverse :=
        filter_eq_self.mpr fun outer h =>
          decide_eq_true (hbelow outer (mem_reverse.mp h)).ne
      rw [hactive, reverse_cons, filter_append, hkeep]
      simp

theorem regionSolver_computes : regionSolver.Computes regionAnalysis (fun _ => True) where
  transfer _ _ _ := rfl
  report _ _ _ _ := ⟨trivial, trivial⟩
  le_refl _ _ h := h
  le_trans h h' region hmem := h' region (h region hmem)
  le_join_left _ _ _ h := mem_union.mpr (.inl h)
  le_join_right _ _ _ h := mem_union.mpr (.inr h)

theorem through_flow (block : BasicBlock) (active : OrderedSet LocalId) :
    regionAnalysis.through block.flow.body active =
      block.regionEvents.foldl applyRegionEvent active := by
  have hstatements : ∀ statements : List MirStatement, ∀ active,
      regionAnalysis.through (statements.map Action.statement) active =
        statements.foldl (fun current statement => transferRegionActivity statement current)
          active := by
    intro statements active
    induction statements generalizing active with
    | nil => rfl
    | cons statement rest ih => exact ih _
  rw [BasicBlock.flow, BasicBlock.actions, Flow.Analysis.through_append, hstatements,
    foldl_transferRegionActivity]
  rfl

variable {function : MirFunction} {entries : List (List LocalId)} {fuel : ℕ}
  {final : Flow.Work (OrderedSet LocalId) Unit} {b : BasicBlockId}

/-- The set computed for a block is its stack. -/
theorem input_eq_stack (nesting : Nesting function entries)
    (h : regionSolver.solve function.graph fuel (initial function.graph ∅ ()) =
      some final) (hinput : final.input b = some active) :
    ∃ stack, entries[b]? = some stack ∧ active.elems = stack.reverse := by
  refine input_of_solve (Q := fun b active =>
    ∃ stack, entries[b]? = some stack ∧ active.elems = stack.reverse)
    ⟨[], nesting.entry, rfl⟩ ?_ ?_ h hinput
  · rintro b flow active report t hflow ⟨stack, hstack, hactive⟩ ht
    obtain ⟨block, hblock, rfl⟩ : ∃ block, function.blocks[b]? = some block ∧
      block.flow = flow := by
      simpa [graph] using hflow
    obtain ⟨out, hnests, hout⟩ := nesting.block hblock hstack
    refine ⟨out, hout t ht, ?_⟩
    rw [regionSolver_computes.runBlock_fst, through_flow]
    exact foldl_applyRegionEvent hnests (nesting.sorted stack (mem_of_getElem? hstack)) hactive
  · rintro t old out ⟨stack, hstack, hold⟩ ⟨stack', hstack', hout⟩
    obtain rfl := some.inj (hstack.symm.trans hstack')
    obtain rfl : out = old := congrArg OrderedSet.mk (hout.trans hold.symm)
    have hsorted : out.elems.Pairwise (· < ·) := by
      rw [hout]
      exact pairwise_reverse.mpr (nesting.sorted stack (mem_of_getElem? hstack))
    refine ⟨stack, hstack, ?_⟩
    show (out.union out).elems = _
    rw [union, extend_of_subset hsorted fun _ h => h, hout]

/-! ## The cleanup ends -/

/-- The region an action enters. -/
def Action.enteredRegions : Action → List LocalId
  | .statement (.regionEnter region _) => [region]
  | _ => []

/-- The computed sets are sorted sets of regions that the function enters, and a union that
changes such a set leaves fewer of these regions out. -/
theorem regionSolver_decreases (function : MirFunction) :
    Decreases regionSolver function.graph (SortedIn (function.graph.collect Action.enteredRegions))
      fun active => ((function.graph.collect Action.enteredRegions).filter (· ∉ active)).length
        where
  visit block hblock action haction {active} report valid := by
    have hentered := fun region => Flow.Graph.mem_collect (f := Action.enteredRegions)
      (x := region) hblock haction
    cases action with
    | terminator => exact valid
    | statement statement =>
        cases statement with
        | regionEnter region => exact valid.insert (hentered region (mem_singleton_self _))
        | regionExit => exact valid.retain _
        | _ => exact valid
  join valid valid' := valid.extend valid'.within
  rank valid valid' hne := valid.length_filter_union_lt valid' hne

/-- Cleanup ends on every function whose edges lead to blocks. -/
theorem exists_elaborateFunctionRegionCleanup (hclosed : function.Closed) :
    ∃ enough elaborated, ∀ fuel ≥ enough,
      elaborateFunctionRegionCleanup fuel function = some elaborated := by
  by_cases hblocks : function.blocks = []
  · exact ⟨0, function, fun _ _ => if_pos hblocks⟩
  · have ready : Ready function.graph (SortedIn (function.graph.collect Action.enteredRegions))
        (initial function.graph ∅ ()) := ready_initial (graph_blocks_pos hblocks) (sortedIn_empty _)
    obtain ⟨enough, final, hfinal⟩ :=
      exists_solve (regionSolver_decreases function) (graph_closed hclosed) ready
    refine ⟨enough, insertRegionExits function final.input, fun fuel hfuel => ?_⟩
    rw [elaborateFunctionRegionCleanup, if_neg hblocks, hfinal fuel hfuel]
    rfl

/-! ## Cleanup of a nesting -/

variable {elaborated : MirFunction}

theorem elaborateFunctionRegionCleanup_cases
    (h : elaborateFunctionRegionCleanup fuel function = some elaborated)
    (hblocks : elaborated.blocks ≠ []) :
    ∃ final, regionSolver.solve function.graph fuel (initial function.graph ∅ ()) =
      some final ∧ function.blocks ≠ [] ∧ elaborated = insertRegionExits function final.input := by
  unfold elaborateFunctionRegionCleanup at h
  split at h
  · rename_i hempty
    obtain rfl := some.inj h
    exact absurd hempty hblocks
  · rename_i hne
    obtain ⟨final, hsolve, rfl⟩ := Option.map_eq_some_iff.mp h
    exact ⟨final, hsolve, hne, rfl⟩

variable {inputs : BasicBlockId → Option (OrderedSet LocalId)} {block : BasicBlock}

theorem insertRegionExits_block :
    (insertRegionExits function inputs).blocks[b]? = some block ↔
      ∃ original, function.blocks[b]? = some original ∧
        block = elaborateReturnCleanup (inputs b) original := by
  simp only [insertRegionExits, getElem?_mapIdx, Option.map_eq_some_iff]
  exact exists_congr fun original => and_congr_right fun _ => eq_comm

theorem elaborateReturnCleanup_of_successors {input : Option (OrderedSet LocalId)}
    {t : BasicBlockId} (ht : t ∈ successors (elaborateReturnCleanup input block).terminator) :
    elaborateReturnCleanup input block = block := by
  unfold elaborateReturnCleanup at ht ⊢
  split
  · rename_i hreturn
    simp only [hreturn, successors] at ht
    cases ht
  · rfl

theorem elaborateReturnCleanup_return {value : Option MirOperand} {accesses : List PlaceAccess}
    {span : Span}
    (hreturn : (elaborateReturnCleanup (some active) block).terminator =
      .return value accesses span) :
    (elaborateReturnCleanup (some active) block).regionEvents = block.regionEvents ++
      (block.regionEvents.foldl applyRegionEvent active).elems.reverse.map .exit := by
  have hblock : block.terminator = .return value accesses span := by
    unfold elaborateReturnCleanup at hreturn
    split at hreturn <;> exact hreturn
  have hexits : ∀ regions : List LocalId, (regions.flatMap fun region =>
      [MirStatement.regionExit region span, .storageDead region span]).flatMap
        MirStatement.regionEvents = regions.map .exit := by
    intro regions
    induction regions with
    | nil => rfl
    | cons region rest ih => simpa [MirStatement.regionEvents] using ih
  unfold elaborateReturnCleanup
  rw [hblock]
  simp only [BasicBlock.regionEvents, flatMap_append, regionExits, hexits,
    foldl_transferRegionActivity]

theorem matchRegions_append (first second : List RegionEvent) (stack : Option (List LocalId)) :
    matchRegions (first ++ second) stack = matchRegions second (matchRegions first stack) :=
  foldl_append ..

/-- The operations of a block's actions are those of its statements. -/
theorem flatMap_actions (block : BasicBlock) :
    block.actions.flatMap Action.regionEvents = block.regionEvents := by
  simp [BasicBlock.actions, BasicBlock.regionEvents, flatMap_map, Action.regionEvents]

theorem insertRegionExits_graph {flow : Flow.Block Action}
    (hflow : (insertRegionExits function inputs).graph.blocks[b]? = some flow) :
    ∃ original, function.blocks[b]? = some original ∧
      flow = (elaborateReturnCleanup (inputs b) original).flow := by
  obtain ⟨block, hblock, rfl⟩ : ∃ block,
      (insertRegionExits function inputs).blocks[b]? = some block ∧ block.flow = flow := by
    simpa [graph] using hflow
  obtain ⟨original, horiginal, rfl⟩ := insertRegionExits_block.mp hblock
  exact ⟨original, horiginal, rfl⟩

/-- A path of the elaborated function reaches a block with the block's stack, and the region
operations since are those of the actions before its position. -/
theorem reaches_stack (nesting : Nesting function entries) (hblocks : function.blocks ≠ [])
    (hsolve : regionSolver.solve function.graph fuel
      (initial function.graph ∅ ()) = some final)
    {trace : List (Flow.Event regionPath)} {b i : ℕ} {s : Option (List LocalId)}
    (run : Flow.Run (insertRegionExits function final.input).graph regionPath (some [])
      trace b i s) :
    ∃ active stack, final.input b = some active ∧ entries[b]? = some stack ∧
      active.elems = stack.reverse ∧
      ∀ original, function.blocks[b]? = some original →
        s = matchRegions
          (((elaborateReturnCleanup (some active) original).actions.take i).flatMap
            Action.regionEvents) (some stack) := by
  have hlength := graph_blocks_pos hblocks
  have solution := isSolution_of_solve regionSolver_computes hlength hsolve trivial
  induction run with
  | start =>
      obtain ⟨active, hinput, -⟩ := solution.entry
      obtain ⟨stack, hstack, hactive⟩ := input_eq_stack nesting hsolve hinput
      obtain rfl := some.inj (nesting.entry.symm.trans hstack)
      exact ⟨active, [], hinput, hstack, hactive, fun _ _ => rfl⟩
  | @step trace b i s s' flow action run hflow haction hstep ih =>
      obtain ⟨active, stack, hinput, hstack, hactive, hstate⟩ := ih
      refine ⟨active, stack, hinput, hstack, hactive, fun original horiginal => ?_⟩
      obtain ⟨original', horiginal', rfl⟩ := insertRegionExits_graph hflow
      obtain rfl := some.inj (horiginal.symm.trans horiginal')
      rw [hinput] at haction
      have hnext : (elaborateReturnCleanup (some active) original).actions[i]? = some action :=
        haction
      have hdone : s' = matchRegions action.regionEvents s := hstep
      have hone : (some action).toList.flatMap Action.regionEvents = action.regionEvents :=
        append_nil _
      rw [hdone, hstate original horiginal, take_add_one, hnext, flatMap_append,
        matchRegions_append]
      exact congrArg (fun events => matchRegions events _) hone.symm
  | @edge trace b t s flow run hflow ht ih =>
      obtain ⟨active, stack, hinput, hstack, hactive, hstate⟩ := ih
      obtain ⟨original, horiginal, rfl⟩ := insertRegionExits_graph hflow
      have hsame := elaborateReturnCleanup_of_successors ht
      have hflow : function.graph.blocks[b]? = some original.flow := by
        simp [graph, horiginal]
      have hend := hstate original horiginal
      -- the block does not return, so it was not changed
      rw [← hinput, hsame] at hend
      rw [hsame] at ht
      obtain ⟨active', hinput', -⟩ := solution.edge hflow hinput ht
      obtain ⟨stack', hstack', hactive'⟩ := input_eq_stack nesting hsolve hinput'
      obtain ⟨out, hnests, hout⟩ := nesting.block horiginal hstack
      obtain rfl := some.inj (hstack'.symm.trans (hout t ht))
      refine ⟨active', stack', hinput', hstack', hactive', fun _ _ => ?_⟩
      have hactions : original.actions.take original.flow.body.length = original.actions :=
        take_length
      rw [hactions, flatMap_actions, hnests.matchRegions] at hend
      exact hend

/-- **Cleanup of a nested function balances its regions.** -/
theorem balancesRegions_of_nesting (nesting : Nesting function entries)
    (h : elaborateFunctionRegionCleanup fuel function = some elaborated) :
    BalancesRegions elaborated := by
  intro trace b i s value accesses span run hreturn
  obtain ⟨final, hsolve, hblocks, rfl⟩ :=
    elaborateFunctionRegionCleanup_cases h (blocks_ne_nil_of_at hreturn)
  obtain ⟨active, stack, hinput, hstack, hactive, hstate⟩ :=
    reaches_stack nesting hblocks hsolve run
  obtain ⟨flow, hflow, haction⟩ := hreturn
  obtain ⟨original, horiginal, rfl⟩ := insertRegionExits_graph hflow
  rw [hinput] at haction
  obtain ⟨rfl, hterminator⟩ := BasicBlock.actions_terminator.mp haction
  obtain ⟨out, hnests, -⟩ := nesting.block horiginal hstack
  have hsorted := nesting.sorted stack (mem_of_getElem? hstack)
  have hbody : ((elaborateReturnCleanup (some active) original).actions.take
      (elaborateReturnCleanup (some active) original).statements.length).flatMap
        Action.regionEvents = original.regionEvents ++ out.map .exit := by
    rw [← reverse_reverse out, ← foldl_applyRegionEvent hnests hsorted hactive,
      ← elaborateReturnCleanup_return hterminator.symm]
    simp [BasicBlock.actions, BasicBlock.regionEvents, flatMap_map, Action.regionEvents]
  rw [hstate original horiginal, hbody, matchRegions_append, hnests.matchRegions,
    matchRegions_exits]

end Jadren.Mir
