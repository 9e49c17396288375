import Jadren.Mir.Drops

/-!
# Drops of whole values

A path keeps the locals that hold a value and the places moved out of them
(`OwnState`).  A drop is safe where its local holds a value no part of which is
moved out (`DropSafe`), and since it ends the local, the local has to be stored
into again before the next drop (`stored_between_drops`).

The drop facts make the same shortcut as the move analysis: an assignment to a
part of a moved place clears the fact for the whole place, while the local stays
initialized.  On the runs that restore no place by halves (`RestoresWhole`) every
inserted drop is safe.
-/

namespace Jadren.Mir

/-- The locals that hold a value, and the places moved out of them. -/
structure OwnState where
  initialized : List LocalId
  moved : List ConcretePlace
  deriving DecidableEq, Repr

/-- The locals that hold a value after an action. -/
def initializedAfter (action : Action) (initialized : List LocalId) : List LocalId :=
  match action with
  | .statement (.storageLive slot _) | .statement (.storageDead slot _)
  | .statement (.regionExit slot _) => initialized.filter fun other => other ≠ slot
  | .statement (.regionEnter region _) => region :: initialized
  | .statement (.assign destination _ _ _ _) =>
      if destination.projection = [] then destination.root :: initialized else initialized
  | .statement (.borrow destination _ _ _ _) => destination :: initialized
  | .statement (.drop place _) => initialized.filter fun other => other ≠ place.root
  | _ => initialized

def ownAfter (x : Execution) (state : OwnState) : OwnState :=
  ⟨initializedAfter x.action state.initialized, movedAfter AccessKind.consumes x state.moved⟩

/-- The path semantics of ownership. -/
abbrev ownPaths : Flow.PathSemantics Action where
  State := OwnState
  Label := Execution
  action := Execution.action
  step x state state' := x.Resolves ∧ state' = ownAfter x state

/-- At the entry the parameters hold values. -/
def entryOwnState (function : MirFunction) : OwnState := ⟨function.parameters, []⟩

/-- The local holds a value no part of which is moved out. -/
def OwnState.Whole (state : OwnState) (slot : LocalId) : Prop :=
  slot ∈ state.initialized ∧ ∀ place ∈ state.moved, place.root ≠ slot

instance (state : OwnState) (slot : LocalId) : Decidable (state.Whole slot) :=
  inferInstanceAs (Decidable (_ ∧ _))

/-- A drop destroys a whole value. -/
def DropSafe (action : Action) (state : OwnState) : Prop :=
  match action with
  | .statement (.drop place _) => place.projection = [] ∧ state.Whole place.root
  | _ => True

/-- The facts describe the path. -/
structure Describes (facts : DropState) (state : OwnState) : Prop where
  initialized : ∀ slot ∈ facts.initialized, slot ∈ state.initialized
  moved : ∀ place ∈ state.moved, place.place ∈ facts.moved

variable {facts : DropState}

theorem mem_applyDropAccesses {accesses : List PlaceAccess} {place : Place} :
    place ∈ (applyDropAccesses accesses facts).moved ↔ place ∈ facts.moved ∨
      ∃ access ∈ accesses, access.kind.consumes = true ∧ access.place = place := by
  simp [applyDropAccesses, and_assoc]

variable {moved : List ConcretePlace}

/-- The places moved out by resolved accesses. -/
theorem mem_takeOut {consumes : AccessKind → Bool} {accesses : List (PlaceAccess × ConcretePlace)}
    {place : ConcretePlace} :
    place ∈ takeOut consumes accesses moved ↔
      place ∈ moved ∨ ∃ access ∈ accesses, consumes access.1.kind = true ∧ access.2 = place := by
  induction accesses generalizing moved with
  | nil => simp
  | cons access rest ih =>
      rw [takeOut_cons, ih]
      cases hkind : consumes access.1.kind
      · simp [takeOut, hkind]
      · simp only [takeOut, List.foldl_cons, List.foldl_nil, hkind, if_true, List.mem_cons]
        constructor
        · rintro ((rfl | h) | ⟨other, hmem, h⟩)
          · exact .inr ⟨access, .inl rfl, hkind, rfl⟩
          · exact .inl h
          · exact .inr ⟨other, .inr hmem, h⟩
        · rintro (h | ⟨other, rfl | hmem, h⟩)
          · exact .inl (.inr h)
          · exact .inl (.inl h.2.symm)
          · exact .inr ⟨other, hmem, h⟩

variable {x : Execution}

/-- What an execution moves out is moved out for the facts. -/
theorem moved_applyDropAccesses (resolves : x.Resolves)
    (hmoved : ∀ place ∈ moved, place.place ∈ facts.moved) :
    ∀ place ∈ takeOut AccessKind.consumes x.accesses moved,
      place.place ∈ (applyDropAccesses x.action.operandAccesses facts).moved := by
  intro place hmem
  rcases mem_takeOut.mp hmem with hold | ⟨access, haccess, hkind, rfl⟩
  · exact mem_applyDropAccesses.mpr (.inl (hmoved place hold))
  · refine mem_applyDropAccesses.mpr (.inr ⟨access.1, ?_, hkind, ?_⟩)
    · rw [← resolves.map_fst]
      exact List.mem_map_of_mem haccess
    · exact (resolves.place_eq access haccess).symm

/-- Whether a local is initialized after an action, given whether it was before: the
same on a path and for the facts. -/
def InitializedNext (action : Action) (slot : LocalId) (before : Prop) : Prop :=
  match action with
  | .statement (.storageLive ended _) | .statement (.storageDead ended _)
  | .statement (.regionExit ended _) => before ∧ slot ≠ ended
  | .statement (.regionEnter region _) => slot = region ∨ before
  | .statement (.assign destination _ _ _ _) =>
      (destination.projection = [] ∧ slot = destination.root) ∨ before
  | .statement (.borrow destination _ _ _ _) => slot = destination ∨ before
  | .statement (.drop place _) => before ∧ slot ≠ place.root
  | _ => before

variable {action : Action} {slot : LocalId}

theorem mem_initializedAfter {initialized : List LocalId} :
    slot ∈ initializedAfter action initialized ↔
      InitializedNext action slot (slot ∈ initialized) := by
  cases action with
  | terminator => rfl
  | statement statement =>
      cases statement with
      | assign destination => by_cases hwhole : destination.projection = [] <;>
          simp [initializedAfter, InitializedNext, hwhole]
      | _ => simp [initializedAfter, InitializedNext]

theorem mem_transfer_initialized :
    slot ∈ (dropAnalysis.transfer action facts).initialized ↔
      InitializedNext action slot (slot ∈ facts.initialized) := by
  cases action with
  | terminator => rfl
  | statement statement =>
      cases statement with
      | assign destination => by_cases hwhole : destination.projection = [] <;>
          simp [dropAnalysis, transferDropStatement, applyDropAccesses, InitializedNext, hwhole]
      | _ => simp [dropAnalysis, transferDropStatement, DropState.forget, applyDropAccesses,
          InitializedNext]

variable {before : Prop}

/-- An action initializes a local whatever held before, or leaves it so. -/
theorem initializedNext_iff :
    InitializedNext action slot before ↔
      InitializedNext action slot False ∨ (before ∧ InitializedNext action slot True) := by
  cases action with
  | terminator => simp [InitializedNext]
  | statement statement => cases statement <;> simp [InitializedNext]

theorem InitializedNext.mono {before' : Prop} (h : before → before')
    (hnext : InitializedNext action slot before) : InitializedNext action slot before' :=
  initializedNext_iff.mpr ((initializedNext_iff.mp hnext).imp id (And.imp_left h))

theorem takeOut_borrow (resolves : x.Resolves) {destination : LocalId} {source : Place}
    {kind : BorrowKind} {preserveValue : Bool} {span : Span}
    (haction : x.action = .statement (.borrow destination source kind preserveValue span))
    (moved : List ConcretePlace) : takeOut AccessKind.consumes x.accesses moved = moved := by
  obtain ⟨c, haccesses, -⟩ := resolves.borrow_accesses haction
  refine takeOut_eq_self fun access haccess => ?_
  obtain rfl : access = _ := by simpa [haccesses] using haccess
  cases kind <;> rfl

theorem applyDropAccesses_borrow (source : Place) (span : Span) (facts : DropState) :
    applyDropAccesses [⟨source, .borrowRead, span⟩] facts = facts := by
  simp [applyDropAccesses, AccessKind.consumes, OrderedSet.extend]

/-- Where no place is restored by halves, the facts know the places moved out. -/
theorem moved_step (resolves : x.Resolves) (hmoved : ∀ place ∈ moved, place.place ∈ facts.moved)
    (hwhole : RestoresWhole AccessKind.consumes x moved) :
    ∀ place ∈ movedAfter AccessKind.consumes x moved,
      place.place ∈ (dropAnalysis.transfer x.action facts).moved := by
  have hoperands := moved_applyDropAccesses resolves hmoved
  have hended : ∀ ended, ∀ place ∈ moved.filter fun place => place.root ≠ ended,
      place.place ∈ facts.moved.retain fun place => place.root ≠ ended := by
    intro ended place hmem
    obtain ⟨hmem, hroot⟩ := List.mem_filter.mp hmem
    exact OrderedSet.mem_retain.mpr ⟨hmoved place hmem, hroot⟩
  simp only [movedAfter, RestoresWhole, dropAnalysis] at hwhole ⊢
  cases haction : x.action with
  | terminator =>
      rw [haction] at hoperands
      exact hoperands
  | statement statement =>
      rw [haction] at hoperands hwhole
      cases statement with
      | storageLive ended | storageDead ended | regionEnter ended | regionExit ended =>
          exact hended ended
      | assign destination =>
          -- the facts restore whatever overlaps, the path what is covered
          intro place hmem
          obtain ⟨hmem, hcovers⟩ := List.mem_filter.mp hmem
          refine OrderedSet.mem_retain.mpr ⟨hoperands place hmem, ?_⟩
          cases hoverlap : place.place.overlaps destination with
          | false => rfl
          | true => simp [hwhole place hmem hoverlap] at hcovers
      | borrow destination source kind preserveValue =>
          simp only [transferDropStatement, takeOut_borrow resolves haction,
            applyDropAccesses_borrow]
          cases preserveValue with
          | false => exact hended destination
          | true =>
              intro place hmem
              exact OrderedSet.mem_retain.mpr
                ⟨hmoved place hmem, decide_eq_true (hwhole place hmem)⟩
      | drop =>
          rw [Execution.accesses_eq_nil (by rw [haction]; rfl)]
          exact fun other hother => OrderedSet.mem_insert.mpr (.inr (hmoved other hother))
      | evaluate => exact hoperands

/-- A drop the facts justify is safe on a path they describe. -/
theorem dropSafe_of_justified {function : MirFunction} {state : OwnState}
    (describes : Describes facts state) (justified : DropJustified function action facts) :
    DropSafe action state := by
  unfold DropJustified at justified
  unfold DropSafe
  split
  · rename_i place span
    obtain ⟨slot, rfl, -, havailable⟩ := justified
    rw [DropState.available, Bool.and_eq_true, decide_eq_true_eq] at havailable
    refine ⟨rfl, describes.initialized slot havailable.1, fun other hother hroot => ?_⟩
    have hnone := havailable.2
    rw [Bool.not_eq_true', OrderedSet.any_eq_false] at hnone
    have hapart := hnone _ (describes.moved other hother)
    simp only [Place.overlaps_ofLocal, ConcretePlace.place_root, beq_eq_false_iff_ne] at hapart
    exact hapart hroot
  · trivial

/-! ## No local is dropped twice -/

/-- The action stores a value into a local. -/
def Stores (action : Action) (slot : LocalId) : Prop :=
  match action with
  | .statement (.regionEnter region _) => region = slot
  | .statement (.assign destination _ _ _ _) => destination = .ofLocal slot
  | .statement (.borrow destination _ _ _ _) => destination = slot
  | _ => False

/-- The action drops a local. -/
def Drops (action : Action) (slot : LocalId) : Prop :=
  ∃ place span, action = .statement (.drop place span) ∧ place.root = slot

/-- Only storing into a local initializes it. -/
theorem stores_of_initializedNext (h : InitializedNext action slot False) : Stores action slot := by
  cases action with
  | terminator => exact h.elim
  | statement statement =>
      cases statement with
      | regionEnter region | borrow destination => simpa [InitializedNext, Stores, eq_comm] using h
      | assign destination =>
          obtain ⟨hwhole, rfl⟩ : destination.projection = [] ∧ slot = destination.root := by
            simpa [InitializedNext] using h
          exact Place.ext rfl hwhole
      | storageLive | storageDead | regionExit | drop => exact h.1.elim
      | evaluate => exact h.elim

theorem not_initializedNext_of_drops (h : Drops action slot) :
    ¬ InitializedNext action slot before := by
  obtain ⟨place, span, rfl, rfl⟩ := h
  exact fun hnext => hnext.2 rfl

/-- A dropped local that holds a value again was stored into in between. -/
theorem stored_between_drops {G : Flow.Graph Action} {start state : OwnState}
    {trace : List (Flow.Event ownPaths)} {b i : ℕ}
    (run : Flow.Run G ownPaths start trace b i state) (hslot : slot ∈ state.initialized) :
    ∀ {earlier event middle}, trace = earlier ++ event :: middle → Drops event.label.action slot →
      ∃ other ∈ middle, Stores other.label.action slot := by
  induction run with
  | start => intro earlier event middle htrace; simp at htrace
  | @step trace b i state state' block x run hblock haction hstep ih =>
      obtain ⟨-, rfl⟩ := hstep
      intro earlier event middle htrace hdrops
      rcases Flow.Run.append_singleton_cases htrace with ⟨rfl, rfl⟩ | ⟨front, rfl, hfront⟩
      · -- the last step is the drop itself
        exact absurd (mem_initializedAfter.mp hslot) (not_initializedNext_of_drops hdrops)
      · rcases initializedNext_iff.mp (mem_initializedAfter.mp hslot) with hstored | ⟨hbefore, -⟩
        · exact ⟨_, List.mem_append_right _ (List.mem_singleton_self _),
            stores_of_initializedNext hstored⟩
        · obtain ⟨other, hother, hstored⟩ := ih hbefore hfront hdrops
          exact ⟨other, List.mem_append_left _ hother, hstored⟩
  | edge run hblock htarget ih => exact ih hslot

/-! ## Elaborated functions drop whole values -/

/-- Every action of every path drops, if anything, a whole value. -/
def DropsSafely (function : MirFunction) : Prop :=
  ∀ {trace b i state}, Flow.Run function.graph ownPaths (entryOwnState function) trace b i state →
    ∀ {action}, function.graph.At b i action → DropSafe action state

/-- Every action can be executed with all its indices zero. -/
def ownStrategy : Flow.Strategy ownPaths where
  label := Action.atZero
  next action state := ownAfter action.atZero state
  action_label _ := rfl
  step action _ := ⟨action.atZero_resolves, rfl⟩

/-- `fn f(r: R) { let b = r; r.x = 1 }`, with a move-only `R`. -/
def overwriteFieldOfMoved : MirFunction where
  locals := [⟨"r", .nominal 0, true, true, false, none, none, .point 0⟩,
    ⟨"b", .nominal 0, false, false, false, none, none, .point 1⟩]
  blocks := [
    { statements := [
        .storageLive 1 (.point 1),
        .assign (.ofLocal 1) [] none [⟨.ofLocal 0, .move, .point 2⟩] (.point 1),
        .assign ⟨0, [.field "x"]⟩ [] none [] (.point 3)]
      terminator := .return none [] (.point 5) }]

/-- Its elaboration: the facts say that `r` holds a value again. -/
def overwriteFieldOfMovedElaborated : MirFunction :=
  { overwriteFieldOfMoved with
    blocks := [
      { statements := [
          .storageLive 1 (.point 1),
          .assign (.ofLocal 1) [] none [⟨.ofLocal 0, .move, .point 2⟩] (.point 1),
          .assign ⟨0, [.field "x"]⟩ [] none [] (.point 3),
          .drop (.ofLocal 1) (.point 5),
          .drop (.ofLocal 0) (.point 5)]
        terminator := .return none [] (.point 5) }] }

/-- Both `b` and the moved-out `r` are dropped at the return. -/
theorem not_dropsSafely_overwriteFieldOfMoved :
    elaborateDrops 1 overwriteFieldOfMoved = some overwriteFieldOfMovedElaborated ∧
      ¬ DropsSafely overwriteFieldOfMovedElaborated := by
  refine ⟨by decide +kernel, fun hsafe => ?_⟩
  have run := ownStrategy.follow (G := overwriteFieldOfMovedElaborated.graph) (b := 0)
    (s := entryOwnState overwriteFieldOfMovedElaborated) rfl .start (List.take_prefix 4 _)
  have hdrop : DropSafe (.statement (.drop (.ofLocal 0) (.point 5))) _ := hsafe run ⟨_, rfl, rfl⟩
  exact absurd hdrop.2 (by decide)

/-- **Elaborated functions drop whole values, each once**, on runs that restore no
moved-out place by halves: every drop is of a whole value, and a local dropped
before was stored into since. -/
theorem dropSafe_of_elaborated {fuel : ℕ} {function elaborated : MirFunction}
    (hfree : function.DropFree) (helaborated : elaborateDrops fuel function = some elaborated)
    {trace : List (Flow.Event ownPaths)} {b i : ℕ} {state : OwnState}
    (run : Flow.Run elaborated.graph ownPaths (entryOwnState elaborated) trace b i state)
    (hwhole : ∀ event ∈ trace, RestoresWhole AccessKind.consumes event.label event.before.moved)
    {action : Action} (hat : elaborated.graph.At b i action) :
    DropSafe action state ∧ ∀ slot, Drops action slot → ∀ earlier event middle,
      trace = earlier ++ event :: middle → Drops event.label.action slot →
        ∃ other ∈ middle, Stores other.label.action slot := by
  have hfree' := dropFree_materializeFunctionReturns hfree
  obtain ⟨inputs, solution⟩ := exists_justifyingSolution hfree' helaborated
    (MirFunction.blocks_ne_nil_of_at hat)
  have hlocals := locals_elaborateFunctionDrops hfree' helaborated
  obtain ⟨block, facts, -, -, describes, justified⟩ :=
    solution.covers_next Describes
      (fun event : Flow.Event ownPaths =>
        RestoresWhole AccessKind.consumes event.label event.before.moved)
      (fun describes hle => ⟨fun slot h => describes.initialized slot (hle.1 slot h),
        fun place h => hle.2 _ (describes.moved place h)⟩)
      ⟨fun slot h => by
        simpa [entryDropState, entryOwnState, MirFunction.parameters, hlocals] using h,
        fun place h => by simp [entryOwnState] at h⟩
      (fun event facts _ describes hstep hevent _ => by
        obtain ⟨resolves, rfl⟩ := hstep
        exact ⟨fun slot h => mem_initializedAfter.mpr
            ((mem_transfer_initialized.mp h).mono (describes.initialized slot)),
          moved_step resolves describes.moved hevent⟩)
      run hwhole hat
  have hsafe := dropSafe_of_justified describes justified
  refine ⟨hsafe, fun slot hdrops earlier event middle htrace hevent => ?_⟩
  obtain ⟨place, span, rfl, rfl⟩ := hdrops
  exact stored_between_drops run hsafe.2.1 htrace hevent

/-- `fn g(data) { let first = data }`, on a buffer. -/
def moveParameter : MirFunction where
  locals := [⟨"data", .buffer .integer, false, true, false, none, none, .point 0⟩,
    ⟨"first", .buffer .integer, false, false, false, none, none, .point 1⟩]
  blocks := [
    { statements := [
        .storageLive 1 (.point 1),
        .assign (.ofLocal 1) [] none [⟨.ofLocal 0, .move, .point 2⟩] (.point 1)]
      terminator := .return none [] (.point 3) }]

def moveParameterElaborated : MirFunction :=
  { moveParameter with
    blocks := [
      { statements := [
          .storageLive 1 (.point 1),
          .assign (.ofLocal 1) [] none [⟨.ofLocal 0, .move, .point 2⟩] (.point 1),
          .drop (.ofLocal 1) (.point 3)]
        terminator := .return none [] (.point 3) }] }

/-- Only `first` is dropped, and it holds a whole value. -/
theorem dropSafe_moveParameter :
    DropSafe (.statement (.drop (.ofLocal 1) (.point 3))) ⟨[1, 0], [.ofLocal 0]⟩ :=
  have run := ownStrategy.follow (G := moveParameterElaborated.graph) (b := 0)
    (s := entryOwnState moveParameterElaborated) rfl .start (List.take_prefix 2 _)
  (dropSafe_of_elaborated (show moveParameter.DropFree by unfold MirFunction.DropFree; decide)
    (show elaborateDrops 1 moveParameter = some moveParameterElaborated by decide +kernel)
    run (by decide) ⟨_, rfl, rfl⟩).1

end Jadren.Mir
