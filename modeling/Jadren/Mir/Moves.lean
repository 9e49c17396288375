import Jadren.Mir.Paths
import Jadren.Library.Worklist

/-!
# Use after move

`analyzeFunctionMoves` is the move analysis: a forward may-analysis whose state
is the set of places moved out on some path (`moved`), with the part of them
that stays drop-managed (`moveOrDrop`).  Its soundness is stated against
`movePaths`, where a path keeps its own list of moved-out places.

The analysis forgets a moved place as soon as an assignment's destination
overlaps it, in either direction.  Assigning `a.x` after moving `a` therefore
makes all of `a` usable again, and so does assigning one element after moving
another (`Projection.index` is one place for all of them).  What is proved is
that this is the only gap: on every run that restores no place by halves
(`RestoresWhole`), an accepted function uses no moved place.

The relation that carries the proof is inclusion: each place the path has moved
out is, with its indices forgotten, in the analysis's set.
-/

namespace Jadren.Mir

open OrderedSet List

/-! ## The analysis -/

/-- The places moved out on some path, and those of them a runtime move left
drop-managed. -/
structure MoveState where
  moved : OrderedSet Place
  moveOrDrop : OrderedSet Place
  deriving DecidableEq, Repr

namespace MoveState

def empty : MoveState := ⟨∅, ∅⟩

/-- Forgets the places that fail a test. -/
def retain (keep : Place → Bool) (state : MoveState) : MoveState :=
  ⟨state.moved.retain keep, state.moveOrDrop.retain keep⟩

def join (existing incoming : MoveState) : MoveState :=
  ⟨existing.moved.union incoming.moved, existing.moveOrDrop.union incoming.moveOrDrop⟩

def le (state other : MoveState) : Prop :=
  (∀ place ∈ state.moved, place ∈ other.moved) ∧
    ∀ place ∈ state.moveOrDrop, place ∈ other.moveOrDrop

end MoveState

/-- Checks one access against the moved places; a consuming access moves its place. -/
def applyMoveAccess (current : MoveState × Diagnostics) (access : PlaceAccess) :
    MoveState × Diagnostics :=
  if current.1.moved.any fun place => place.overlaps access.place then
    (current.1, current.2.report "J0501" access.span access.place.root
      "use of a place after its value was moved")
  else
    match access.kind with
    | .move => ({ current.1 with moved := current.1.moved.insert access.place }, current.2)
    | .moveOrDrop =>
        (⟨current.1.moved.insert access.place, current.1.moveOrDrop.insert access.place⟩, current.2)
    | _ => current

def applyMoveAccesses (accesses : List PlaceAccess) (current : MoveState × Diagnostics) :
    MoveState × Diagnostics :=
  accesses.foldl applyMoveAccess current

/-- One statement or terminator of the move analysis. -/
def visitMoves (action : Action) (current : MoveState × Diagnostics) : MoveState × Diagnostics :=
  match action with
  | .statement (.storageLive slot _) | .statement (.storageDead slot _) =>
      (current.1.retain fun place => place.root ≠ slot, current.2)
  | .statement (.regionEnter region _) | .statement (.regionExit region _) =>
      (current.1.retain fun place => place.root ≠ region, current.2)
  | .statement (.assign destination _ _ accesses _) =>
      let after := applyMoveAccesses accesses current
      (after.1.retain fun place => !place.overlaps destination, after.2)
  | .statement (.borrow destination source _ _ span) =>
      let after := applyMoveAccesses [⟨source, .borrowRead, span⟩] current
      ({ after.1 with moved := after.1.moved.retain fun place => place.root ≠ destination },
        after.2)
  | .statement (.drop place span) =>
      -- A drop-managed place is consumed for this analysis but still dropped:
      -- its native operation may have failed.
      if current.1.moveOrDrop.any fun moved => moved.overlaps place then
        ({ current.1 with
          moveOrDrop := current.1.moveOrDrop.retain fun moved => !moved.overlaps place }, current.2)
      else applyMoveAccesses [⟨place, .move, span⟩] current
  | .statement (.evaluate _ accesses _) => applyMoveAccesses accesses current
  | .terminator last => applyMoveAccesses (terminatorAccesses last) current

def moveSolver : Flow.Solver Action MoveState Diagnostics := ⟨visitMoves, MoveState.join⟩

/-- The move analysis of one function, run for at most `fuel` blocks taken from
the queue. -/
def analyzeFunctionMoves (fuel : ℕ) (function : MirFunction) : Option (List MirError) :=
  if function.blocks = [] then some []
  else
    (moveSolver.solve function.graph fuel
      (Flow.Solver.initial function.graph .empty .empty)).map fun work => work.report.errors

/-! ## The analysis as a dataflow problem -/

/-- The transfer functions of the analysis; an action is quiet if it reports nothing. -/
def moveAnalysis : Flow.Analysis Action MoveState where
  transfer action state := (visitMoves action (state, .empty)).1
  le := MoveState.le
  quiet action state := (visitMoves action (state, .empty)).2.Clean

variable {current current' : MoveState × Diagnostics}

/-- What is moved does not depend on what was reported. -/
theorem applyMoveAccess_fst (access : PlaceAccess) (h : current.1 = current'.1) :
    (applyMoveAccess current access).1 = (applyMoveAccess current' access).1 := by
  unfold applyMoveAccess
  rw [h]
  split
  · rfl
  · cases access.kind <;> first | rfl | exact h

theorem applyMoveAccesses_fst (accesses : List PlaceAccess) (h : current.1 = current'.1) :
    (applyMoveAccesses accesses current).1 = (applyMoveAccesses accesses current').1 := by
  unfold applyMoveAccesses
  induction accesses generalizing current current' with
  | nil => exact h
  | cons access rest ih => exact ih (applyMoveAccess_fst access h)

theorem visitMoves_fst (action : Action) (h : current.1 = current'.1) :
    (visitMoves action current).1 = (visitMoves action current').1 := by
  cases action with
  | terminator => exact applyMoveAccesses_fst _ h
  | statement statement =>
      cases statement with
      | storageLive | storageDead | regionEnter | regionExit => simp only [visitMoves, h]
      | assign | borrow => simp only [visitMoves, applyMoveAccesses_fst _ h]
      | drop =>
          simp only [visitMoves, h]
          split
          · rfl
          · exact applyMoveAccesses_fst _ h
      | evaluate => exact applyMoveAccesses_fst _ h

theorem clean_of_applyMoveAccess {access : PlaceAccess}
    (h : (applyMoveAccess current access).2.Clean) :
    current.2.Clean ∧ ∀ place ∈ current.1.moved, place.overlaps access.place = false := by
  unfold applyMoveAccess at h
  split at h
  · exact absurd h (Diagnostics.not_clean_report _ _ _ _ _)
  · rename_i hnone
    refine ⟨?_, any_eq_false.mp (by simpa using hnone)⟩
    revert h
    cases access.kind <;> exact id

theorem clean_of_applyMoveAccesses {accesses : List PlaceAccess}
    (h : (applyMoveAccesses accesses current).2.Clean) : current.2.Clean := by
  unfold applyMoveAccesses at h
  induction accesses generalizing current with
  | nil => exact h
  | cons access rest ih => exact (clean_of_applyMoveAccess (ih h)).1

theorem clean_of_visitMoves {action : Action} (h : (visitMoves action current).2.Clean) :
    current.2.Clean := by
  cases action with
  | terminator => exact clean_of_applyMoveAccesses h
  | statement statement =>
      cases statement with
      | storageLive | storageDead | regionEnter | regionExit => exact h
      | assign | borrow | evaluate => exact clean_of_applyMoveAccesses h
      | drop =>
          simp only [visitMoves] at h
          split at h
          · exact h
          · exact clean_of_applyMoveAccesses h

theorem moveSolver_computes :
    moveSolver.Computes moveAnalysis Diagnostics.Clean where
  transfer action state report := visitMoves_fst action rfl
  report action state report h := by
    have hclean : report.Clean := clean_of_visitMoves h
    refine ⟨hclean, ?_⟩
    rw [hclean.eq_empty] at h
    exact h
  le_refl _ := ⟨fun _ h => h, fun _ h => h⟩
  le_trans h₁ h₂ := ⟨fun p h => h₂.1 p (h₁.1 p h), fun p h => h₂.2 p (h₁.2 p h)⟩
  le_join_left _ _ :=
    ⟨fun _ h => mem_union.mpr (.inl h), fun _ h => mem_union.mpr (.inl h)⟩
  le_join_right _ _ :=
    ⟨fun _ h => mem_union.mpr (.inr h), fun _ h => mem_union.mpr (.inr h)⟩

/-- An accepted function has a solution of the move analysis. -/
theorem exists_moveSolution {fuel : ℕ} {function : MirFunction}
    (haccept : analyzeFunctionMoves fuel function = some []) (hblocks : function.blocks ≠ []) :
    ∃ inputs, Flow.IsSolution moveAnalysis function.graph .empty inputs := by
  rw [analyzeFunctionMoves, if_neg hblocks] at haccept
  obtain ⟨work, hsolve, hclean⟩ := Option.map_eq_some_iff.mp haccept
  have hentry := MirFunction.graph_blocks_pos hblocks
  exact ⟨_, Flow.Solver.isSolution_of_solve moveSolver_computes hentry hsolve hclean⟩

/-! ## Soundness -/

/-- Both consuming accesses move a place out. -/
def AccessKind.movesOut : AccessKind → Bool
  | .move | .moveOrDrop => true
  | _ => false

/-- The path semantics of moves: the places moved out so far. -/
abbrev movePaths : Flow.PathSemantics Action where
  State := List ConcretePlace
  Label := Execution
  action := Execution.action
  step x moved moved' := x.Resolves ∧ moved' = movedAfter AccessKind.movesOut x moved

/-- An execution uses a place that overlaps one moved out before and not restored. -/
def UsesMovedPlace (x : Execution) (moved : List ConcretePlace) : Prop :=
  UsesMoved AccessKind.movesOut x.accesses moved

instance (x : Execution) (moved : List ConcretePlace) : Decidable (UsesMovedPlace x moved) :=
  inferInstanceAs (Decidable (UsesMoved _ _ _))

/-- The analysis knows of every place the path has moved out. -/
def KnowsMoved (state : MoveState) (moved : List ConcretePlace) : Prop :=
  ∀ place ∈ moved, place.place ∈ state.moved

variable {moved : List ConcretePlace}

theorem knowsMoved_applyMoveAccess {access : PlaceAccess × ConcretePlace}
    (hplace : access.2.place = access.1.place) (hknows : KnowsMoved current.1 moved)
    (hclean : (applyMoveAccess current access.1).2.Clean) :
    KnowsMoved (applyMoveAccess current access.1).1
      (takeOut AccessKind.movesOut [access] moved) := by
  have hquiet : (current.1.moved.any fun place => place.overlaps access.1.place) = false :=
    any_eq_false.mpr (clean_of_applyMoveAccess hclean).2
  unfold applyMoveAccess
  rw [hquiet]
  intro place hmem
  simp only [takeOut, foldl_cons, foldl_nil] at hmem
  cases hkind : access.1.kind <;> simp only [hkind, AccessKind.movesOut] at hmem ⊢
  case move | moveOrDrop =>
    rcases mem_cons.mp hmem with rfl | hold
    · simp [hplace]
    · simp [hknows place hold]
  all_goals exact hknows place (by simpa using hmem)

/-- Accesses the analysis passes use no place the path has moved out. -/
theorem knowsMoved_applyMoveAccesses (accesses : List (PlaceAccess × ConcretePlace))
    (hplaces : ∀ access ∈ accesses, access.2.place = access.1.place)
    (hknows : KnowsMoved current.1 moved)
    (hclean : (applyMoveAccesses (accesses.map Prod.fst) current).2.Clean) :
    ¬ UsesMoved AccessKind.movesOut accesses moved ∧
      KnowsMoved (applyMoveAccesses (accesses.map Prod.fst) current).1
        (takeOut AccessKind.movesOut accesses moved) := by
  induction accesses generalizing current moved with
  | nil => exact ⟨id, hknows⟩
  | cons access rest ih =>
      have hrest : (applyMoveAccesses (rest.map Prod.fst)
          (applyMoveAccess current access.1)).2.Clean := hclean
      have hfirst := clean_of_applyMoveAccesses hrest
      obtain ⟨hunused, hknows'⟩ := ih
        (fun other hother => hplaces other (mem_cons_of_mem _ hother))
        (knowsMoved_applyMoveAccess (hplaces access (mem_cons_self ..)) hknows hfirst) hrest
      refine ⟨?_, hknows'⟩
      rintro (⟨place, hmem, hoverlap⟩ | hlater)
      · have hstatic := ConcretePlace.overlaps_place hoverlap
        rw [hplaces access (mem_cons_self ..),
          (clean_of_applyMoveAccess hfirst).2 _ (hknows place hmem)] at hstatic
        exact Bool.false_ne_true hstatic
      · exact hunused hlater

variable {state : MoveState}

/-- The same for the operands of an execution. -/
theorem knowsMoved_operands {x : Execution} (resolves : x.Resolves) (accesses : List PlaceAccess)
    (haccesses : x.action.operandAccesses = accesses) (hknows : KnowsMoved state moved)
    (hclean : (applyMoveAccesses accesses (state, .empty)).2.Clean) :
    ¬ UsesMovedPlace x moved ∧ KnowsMoved (applyMoveAccesses accesses (state, .empty)).1
      (takeOut AccessKind.movesOut x.accesses moved) := by
  rw [← haccesses, ← resolves.map_fst] at hclean ⊢
  exact knowsMoved_applyMoveAccesses x.accesses resolves.place_eq hknows hclean

/-- A borrow is checked as a shared access whatever its kind; neither kind moves. -/
theorem knowsMoved_borrow {c : ConcretePlace} {source : Place} {span : Span} (kind : BorrowKind)
    (hplace : c.place = source) (hknows : KnowsMoved state moved)
    (hclean : (applyMoveAccesses [⟨source, .borrowRead, span⟩] (state, .empty)).2.Clean) :
    ¬ UsesMoved AccessKind.movesOut [(⟨source, kind.access, span⟩, c)] moved ∧
      takeOut AccessKind.movesOut [(⟨source, kind.access, span⟩, c)] moved = moved ∧
      KnowsMoved (applyMoveAccesses [⟨source, .borrowRead, span⟩] (state, .empty)).1 moved := by
  obtain ⟨hunused, hknows'⟩ :=
    knowsMoved_applyMoveAccesses [(⟨source, .borrowRead, span⟩, c)]
      (by simpa using hplace) hknows hclean
  have hkind : kind.access.movesOut = false := by cases kind <;> rfl
  refine ⟨?_, takeOut_eq_self (by simpa using hkind), hknows'⟩
  rintro (hused | hnone)
  · exact hunused (.inl hused)
  · exact hnone

/-- What one action does: an action the analysis passes uses no moved place, and
if it restores no place by halves, the analysis still knows every moved one. -/
theorem knowsMoved_step {x : Execution} (resolves : x.Resolves) (hknows : KnowsMoved state moved)
    (hquiet : moveAnalysis.quiet x.action state) :
    ¬ UsesMovedPlace x moved ∧
      (RestoresWhole AccessKind.movesOut x moved →
        KnowsMoved (moveAnalysis.transfer x.action state)
          (movedAfter AccessKind.movesOut x moved)) := by
  have operands := fun accesses haccesses =>
    knowsMoved_operands resolves accesses haccesses hknows
  simp only [movedAfter, RestoresWhole, moveAnalysis] at hquiet ⊢
  cases haction : x.action with
  | terminator =>
      rw [haction] at operands hquiet
      exact (operands _ rfl hquiet).imp id fun hknows' _ => hknows'
  | statement statement =>
      rw [haction] at operands hquiet
      cases statement with
      | storageLive slot span | storageDead slot span | regionEnter slot span
      | regionExit =>
          rw [UsesMovedPlace, Execution.accesses_eq_nil (by rw [haction]; rfl)]
          refine ⟨id, fun _ place hmem => ?_⟩
          obtain ⟨hmem, hroot⟩ := mem_filter.mp hmem
          exact mem_retain.mpr ⟨hknows place hmem, hroot⟩
      | assign destination =>
          obtain ⟨hunused, hknows'⟩ := operands _ rfl hquiet
          refine ⟨hunused, fun hwhole place hmem => ?_⟩
          obtain ⟨hmem, hcovers⟩ := mem_filter.mp hmem
          refine mem_retain.mpr ⟨hknows' place hmem, ?_⟩
          -- an overlapping place would be covered, and then it is not moved any more
          cases hoverlap : place.place.overlaps destination with
          | false => rfl
          | true => simp [hwhole place hmem hoverlap] at hcovers
      | borrow destination source kind preserveValue =>
          obtain ⟨c, haccesses, hsource⟩ := resolves.borrow_accesses haction
          obtain ⟨hunused, htake, hknows'⟩ := knowsMoved_borrow kind hsource hknows hquiet
          rw [UsesMovedPlace, haccesses, htake]
          refine ⟨hunused, fun hwhole place hmem => ?_⟩
          have hkept : place ∈ moved ∧ place.root ≠ destination := by
            cases preserveValue with
            | true => exact ⟨hmem, hwhole place hmem⟩
            | false => simpa using hmem
          exact mem_retain.mpr ⟨hknows' place hkept.1, decide_eq_true hkept.2⟩
      | drop =>
          rw [UsesMovedPlace, Execution.accesses_eq_nil (by rw [haction]; rfl)]
          refine ⟨id, fun _ => ?_⟩
          simp only [visitMoves] at hquiet ⊢
          split
          · exact hknows
          · rename_i hmanaged
            rw [if_neg hmanaged] at hquiet
            intro other hother
            have hkept := hknows other hother
            simp only [applyMoveAccesses, applyMoveAccess, foldl_cons, foldl_nil]
            split
            · exact hkept
            · exact mem_insert.mpr (.inr hkept)
      | evaluate =>
          exact (operands _ rfl hquiet).imp id fun hknows' _ => hknows'

/-- No path uses a place moved out before and not restored completely since. -/
def MoveSafe (function : MirFunction) : Prop :=
  ∀ {trace b i moved}, Flow.Run function.graph movePaths [] trace b i moved →
    ∀ x : Execution, x.Resolves → function.graph.At b i x.action → ¬ UsesMovedPlace x moved

/-- Every action can be executed with all its indices zero. -/
def moveStrategy : Flow.Strategy movePaths where
  label := Action.atZero
  next action moved := movedAfter AccessKind.movesOut action.atZero moved
  action_label _ := rfl
  step action _ := ⟨action.atZero_resolves, rfl⟩

/-- `fn f(r: R) { let b = r; r.x = 1; print(r.data) }`, with a move-only `R`. -/
def assignFieldOfMoved : MirFunction where
  locals := [⟨"r", .nominal 0, true, true, false, none, none, .point 0⟩,
    ⟨"b", .nominal 0, false, false, false, none, none, .point 1⟩]
  blocks := [
    { statements := [
        .storageLive 1 (.point 1),
        .assign (.ofLocal 1) [] (some ⟨.nominal 0, .place (.ofLocal 0), .point 2⟩)
          [⟨.ofLocal 0, .move, .point 2⟩] (.point 1),
        .assign ⟨0, [.field "x"]⟩ [] (some ⟨.integer, .other, .point 4⟩) [] (.point 3),
        .evaluate none [⟨⟨0, [.field "data"]⟩, .move, .point 5⟩] (.point 5),
        .storageDead 1 (.point 6)]
      terminator := .return none [] (.point 6) }]

/-- Assigning `r.x` makes the analysis forget that all of `r` was moved out. -/
theorem not_moveSafe_assignFieldOfMoved :
    analyzeFunctionMoves 1 assignFieldOfMoved = some [] ∧ ¬ MoveSafe assignFieldOfMoved := by
  refine ⟨by decide +kernel, fun hsafe => ?_⟩
  have run := moveStrategy.follow (G := assignFieldOfMoved.graph) (b := 0) (s := []) rfl .start
    (List.take_prefix 3 _)
  exact hsafe run _ (Action.atZero_resolves _) ⟨_, rfl, rfl⟩ (by decide)

/-- **Accepted functions use no moved place, on runs that restore none by halves.**
On such a run every way to execute the next action is safe. -/
theorem usesMovedPlace_of_accepted {fuel : ℕ} {function : MirFunction}
    (haccept : analyzeFunctionMoves fuel function = some [])
    {trace : List (Flow.Event movePaths)} {b i : ℕ} {moved : List ConcretePlace}
    (run : Flow.Run function.graph movePaths [] trace b i moved)
    (hwhole : ∀ event ∈ trace, RestoresWhole AccessKind.movesOut event.label event.before)
    {x : Execution} (resolves : x.Resolves) (hat : function.graph.At b i x.action) :
    ¬ UsesMovedPlace x moved := by
  obtain ⟨inputs, solution⟩ := exists_moveSolution haccept (MirFunction.blocks_ne_nil_of_at hat)
  obtain ⟨block, state, -, -, hknows, hquiet⟩ :=
    solution.covers_next KnowsMoved
      (fun event => RestoresWhole AccessKind.movesOut event.label event.before)
        (fun hrel hle place hmem => hle.1 _ (hrel place hmem))
      (by intro place hmem; simp at hmem)
      (fun event state _ hknows hstep hevent hquiet => by
        obtain ⟨resolves, rfl⟩ := hstep
        exact (knowsMoved_step resolves hknows hquiet).2 hevent)
      run hwhole hat
  exact (knowsMoved_step resolves hknows hquiet).1

/-- `fn replace(first, second) { var data = first; let old = data; data = second; print(data) }`
on two buffers. -/
def replaceMoved : MirFunction where
  locals := [⟨"first", .buffer .integer, false, true, false, none, none, .point 0⟩,
    ⟨"second", .buffer .integer, false, true, false, none, none, .point 1⟩,
    ⟨"data", .buffer .integer, true, false, false, none, none, .point 2⟩,
    ⟨"old", .buffer .integer, false, false, false, none, none, .point 3⟩]
  blocks := [
    { statements := [
        .storageLive 2 (.point 2),
        .assign (.ofLocal 2) [] none [⟨.ofLocal 0, .move, .point 4⟩] (.point 2),
        .storageLive 3 (.point 3),
        .assign (.ofLocal 3) [] none [⟨.ofLocal 2, .move, .point 5⟩] (.point 3),
        .assign (.ofLocal 2) [] none [⟨.ofLocal 1, .move, .point 7⟩] (.point 6),
        .evaluate none [⟨.ofLocal 2, .move, .point 8⟩] (.point 8)]
      terminator := .return none [] (.point 9) }]

/-- After `data = second` the buffer may be printed. -/
theorem not_usesMovedPlace_replaceMoved :
    ¬ UsesMovedPlace (Action.atZero (.statement (.evaluate none
        [⟨.ofLocal 2, .move, .point 8⟩] (.point 8)))) [.ofLocal 1, .ofLocal 0] :=
  have run := moveStrategy.follow (G := replaceMoved.graph) (b := 0) (s := []) rfl .start
    (List.take_prefix 5 _)
  usesMovedPlace_of_accepted (show analyzeFunctionMoves 1 replaceMoved = some [] by decide +kernel)
    run (by decide) (Action.atZero_resolves _) ⟨_, rfl, rfl⟩

end Jadren.Mir
