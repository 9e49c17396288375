import Jadren.Mir.Borrows
import Jadren.Mir.Moves
import Jadren.Mir.Regions

/-!
# Values owned by regions

`analyzeFunctionRegions` computes the regions that are active on all paths, and compares each access
with the region that owns the accessed local (`MirLocal.ownedRegion`).  A local gets its owner once,
when it is declared; a move out of it is let pass into a local declared in the region's scope.

A path keeps the regions whose memory each local's value lies in (`RegionState.held`): a computed
value may lie in a region whose handle it was given, and in those of its operands.  So it may come
into a local that the region does not own: through an assignment, as a part of an aggregate, or in
the local of a materialized return.  To the analysis such a local is like any other.

What the analysis does see is enough for two things.  A local that a region owns is accessed only
while the region is active, and what is moved out of such a local goes to one declared in the
region's scope (`clean_of_visitRegions`).  What it does not see is left to the condition: values
given in any other way go to locals that their regions own or declare in their scope
(`TracksRegions`), and the locals declared in a region's scope that it does not own are touched, and
parts of those it owns are written, only while it is active (`InScope`).  With both, each value
lies in regions that own its local or declare it in their scope (`Confined`), step by step, and an
accepted function uses and returns values only while their regions are active.
-/

namespace Jadren.Mir

open OrderedSet

/-! ## The analysis -/

/-- The region that owns a local's value. -/
def MirFunction.regionOf (function : MirFunction) (slot : LocalId) : Option LocalId :=
  function.locals[slot]?.bind MirLocal.ownedRegion

/-- The region in whose scope a local is declared. -/
def MirFunction.scopeOf (function : MirFunction) (slot : LocalId) : Option LocalId :=
  function.locals[slot]?.bind MirLocal.scopeRegion

/-- One access, with the local that what it yields goes to. -/
def checkRegionAccess (function : MirFunction) (destination : Option LocalId)
    (active : OrderedSet LocalId) (diagnostics : Diagnostics) (access : PlaceAccess) :
    Diagnostics :=
  match function.regionOf access.place.root with
  | none => diagnostics
  | some owner =>
      if owner ∈ active then
        if access.kind.movesOut ∧ destination.bind function.scopeOf ≠ some owner then
          diagnostics.report "J0507" access.span access.place.root
            "region-owned value cannot escape its owning region"
        else diagnostics
      else if access.kind.movesOut then
        diagnostics.report "J0507" access.span access.place.root
          "region-owned value cannot escape its owning region"
      else
        diagnostics.report "J0509" access.span access.place.root
          "region-owned value used after its region exited"

def checkRegionAccesses (function : MirFunction) (accesses : List PlaceAccess)
    (destination : Option LocalId) (active : OrderedSet LocalId) (diagnostics : Diagnostics) :
    Diagnostics :=
  accesses.foldl (checkRegionAccess function destination active) diagnostics

/-- One statement or terminator of the region analysis. -/
def visitRegions (function : MirFunction) (action : Action)
    (current : OrderedSet LocalId × Diagnostics) : OrderedSet LocalId × Diagnostics :=
  match action with
  | .statement (.regionEnter region _) => (current.1.insert region, current.2)
  | .statement (.regionExit region _) => (current.1.erase region, current.2)
  | .statement (.assign destination _ _ accesses _) =>
      (current.1,
        checkRegionAccesses function accesses (some destination.root) current.1 current.2)
  | .statement (.borrow destination source _ _ span) =>
      (current.1, checkRegionAccesses function [⟨source, .borrowRead, span⟩] (some destination)
        current.1 current.2)
  | .statement (.evaluate _ accesses _) =>
      (current.1, checkRegionAccesses function accesses none current.1 current.2)
  | .statement (.drop place span) =>
      (current.1,
        if function.regionOf place.root = none then current.2
        else current.2.report "J0509" span place.root
          "region-owned value must be released by RegionExit, not Drop")
  | .statement (.storageLive _ _) | .statement (.storageDead _ _) => current
  | .terminator last =>
      (current.1,
        checkRegionAccesses function (terminatorAccesses last) none current.1 current.2)

def ownershipSolver (function : MirFunction) :
    Flow.Solver Action (OrderedSet LocalId) Diagnostics :=
  ⟨visitRegions function, inter⟩

/-- The region analysis of one function, run for at most `fuel` blocks taken from the queue. -/
def analyzeFunctionRegions (fuel : ℕ) (function : MirFunction) : Option (List MirError) :=
  if function.blocks = [] then some []
  else
    ((ownershipSolver function).solve function.graph fuel
      (Flow.Solver.initial function.graph ∅ .empty)).map fun work => work.report.errors

/-! ## Region memory along a path -/

/-- The regions entered and not exited, and the regions in whose memory each local's value lies. -/
structure RegionState where
  active : OrderedSet LocalId
  held : LocalId → List LocalId

/-- Whether values of a type can lie in the memory of a region. -/
def TypeKind.holdsMemory : TypeKind → Bool
  | .bool | .char | .unit | .never | .integer | .float | .vector _ => false
  | .array element _ => element.holdsMemory
  | .option payload => payload.holdsMemory
  | .result ok failure => ok.holdsMemory || failure.holdsMemory
  | _ => true

namespace RegionState

def empty : RegionState := ⟨∅, fun _ => []⟩

def hold (s : RegionState) (slot : LocalId) (regions : List LocalId) : RegionState :=
  { s with held := fun other => if other = slot then regions else s.held other }

/-- The regions a computed value may lie in: those it was given the handle of, and those of its
operands. -/
def reached (s : RegionState) (accesses : List PlaceAccess) : List LocalId :=
  accesses.flatMap fun access =>
    if access.place.root ∈ s.active then access.place.root :: s.held access.place.root
    else s.held access.place.root

/-- The regions of an assigned value: of a copied or moved place those of its local, of a computed
value some of those it may lie in. -/
def handed (s : RegionState) (value : Option MirOperand) (accesses : List PlaceAccess)
    (keeps : LocalId → Bool) : List LocalId :=
  match value with
  | none => (s.reached accesses).filter keeps
  | some operand =>
      if operand.ty.holdsMemory then
        match operand.kind with
        | .place place => s.held place.root
        | .other => (s.reached accesses).filter keeps
      else []

/-- The regions of what an action gives a local. -/
def given (s : RegionState) (action : Action) (keeps : LocalId → Bool) : List LocalId :=
  match action with
  | .statement (.assign _ _ value accesses _) => s.handed value accesses keeps
  | .statement (.borrow _ source _ _ _) => s.held source.root
  | _ => []

/-- The state after an action. -/
def after (s : RegionState) (action : Action) (keeps : LocalId → Bool) : RegionState :=
  match action with
  | .statement (.regionEnter region _) => { s with active := s.active.insert region }
  | .statement (.regionExit region _) => { s with active := s.active.erase region }
  | .statement (.storageLive slot _) | .statement (.storageDead slot _) => s.hold slot []
  | .statement (.assign destination _ _ _ _) =>
      if destination.projection = [] then s.hold destination.root (s.given action keeps)
      else s.hold destination.root (s.given action keeps ++ s.held destination.root)
  | .statement (.borrow destination _ _ preserveValue _) =>
      if preserveValue then s.hold destination (s.given action keeps ++ s.held destination)
      else s.hold destination (s.given action keeps)
  | _ => s

end RegionState

/-- An action, and the regions in which a value it computes does lie. -/
structure AllocatingStep where
  action : Action
  keeps : LocalId → Bool

/-- The path semantics of region memory. -/
abbrev memoryPaths : Flow.PathSemantics Action where
  State := RegionState
  Label := AllocatingStep
  action := AllocatingStep.action
  step label s s' := s' = s.after label.action label.keeps

/-- The local of which an action writes a part. -/
def Action.writtenPart (action : Action) : Option LocalId :=
  match action with
  | .statement (.assign destination _ _ _ _) =>
      if destination.projection = [] then none else some destination.root
  | _ => none

/-- The locals whose values an action uses, returns, drops or writes a part of. -/
def Action.touched (action : Action) : List LocalId :=
  (action.checkedAccesses.map fun access => access.place.root) ++ action.writtenPart.toList

/-- The action touches no value that lies in the memory of a region that is not active. -/
def RegionsActive (action : Action) (s : RegionState) : Prop :=
  ∀ slot ∈ action.touched, ∀ region ∈ s.held slot, region ∈ s.active

/-- On every path values are used and returned only while the regions they lie in are active. -/
def RegionsConfine (function : MirFunction) : Prop :=
  ∀ {trace b i s}, Flow.Run function.graph memoryPaths RegionState.empty trace b i s →
    ∀ action, function.graph.At b i action → RegionsActive action s

/-- The local an action gives a value to. -/
def Action.receiver : Action → Option LocalId
  | .statement (.assign destination _ _ _ _) => some destination.root
  | .statement (.borrow destination _ _ _ _) => some destination
  | _ => none

/-- The action moves something out of a local that the region owns. -/
def Action.MovesOwned (function : MirFunction) (action : Action) (region : LocalId) : Prop :=
  ∃ access ∈ action.checkedAccesses, access.kind.movesOut = true ∧
    function.regionOf access.place.root = some region

/-- Each region of what a local is given owns the local, or the local is declared in its scope,
unless what is given was moved out of a local that the region owns. -/
def TracksRegions (function : MirFunction) (label : AllocatingStep) (s : RegionState) : Prop :=
  ∀ slot ∈ label.action.receiver, ∀ region ∈ s.given label.action label.keeps,
    label.action.MovesOwned function region ∨ function.regionOf slot = some region ∨
      function.scopeOf slot = some region

instance (function : MirFunction) (action : Action) (region : LocalId) :
    Decidable (action.MovesOwned function region) :=
  inferInstanceAs (Decidable (∃ access ∈ action.checkedAccesses, _))

instance (function : MirFunction) (label : AllocatingStep) (s : RegionState) :
    Decidable (TracksRegions function label s) :=
  inferInstanceAs (Decidable (∀ slot ∈ label.action.receiver, _))

/-- The action keeps the scopes of regions where the analysis does not look: a local declared in one
but not owned by it is touched, and a part of a local owned by one is written, only while it is
active. -/
structure InScope (function : MirFunction) (action : Action) (active : OrderedSet LocalId) :
    Prop where
  declared : ∀ slot ∈ action.touched, ∀ region, function.scopeOf slot = some region →
    function.regionOf slot ≠ some region → region ∈ active
  written : ∀ slot ∈ action.writtenPart, ∀ region, function.regionOf slot = some region →
    region ∈ active

/-! ## The analysis as a dataflow problem -/

/-- The transfer functions of the analysis; a smaller set covers more. -/
def ownershipAnalysis (function : MirFunction) : Flow.Analysis Action (OrderedSet LocalId) where
  transfer action active := (visitRegions function action (active, .empty)).1
  le active other := ∀ region ∈ other, region ∈ active
  quiet action active := (visitRegions function action (active, .empty)).2.Clean

theorem visitRegions_fst (function : MirFunction) (action : Action) (active : OrderedSet LocalId)
    (diagnostics diagnostics' : Diagnostics) :
    (visitRegions function action (active, diagnostics)).1 =
      (visitRegions function action (active, diagnostics')).1 := by
  cases action with
  | terminator => rfl
  | statement statement => cases statement <;> rfl

variable {function : MirFunction} {destination : Option LocalId} {active : OrderedSet LocalId}
  {diagnostics : Diagnostics}

/-- An access without an error goes to a local that is not owned, or owned by an active region; what
is moved out of an owned local goes to one declared in the region's scope. -/
theorem clean_of_checkRegionAccess {access : PlaceAccess}
    (h : (checkRegionAccess function destination active diagnostics access).Clean) :
    diagnostics.Clean ∧ ∀ region, function.regionOf access.place.root = some region →
      region ∈ active ∧
        (access.kind.movesOut = true → destination.bind function.scopeOf = some region) := by
  unfold checkRegionAccess at h
  split at h
  · rename_i hnone
    exact ⟨h, fun region hregion => by rw [hnone] at hregion; cases hregion⟩
  · rename_i owner howner
    split at h
    · rename_i hactive
      split at h
      · exact absurd h (Diagnostics.not_clean_report _ _ _ _ _)
      · rename_i hremains
        refine ⟨h, fun region hregion => ?_⟩
        obtain rfl : owner = region := Option.some.inj (howner.symm.trans hregion)
        exact ⟨hactive, fun hmoves => not_not.mp fun hne => hremains ⟨hmoves, hne⟩⟩
    · split at h <;> exact absurd h (Diagnostics.not_clean_report _ _ _ _ _)

theorem clean_of_checkRegionAccesses {accesses : List PlaceAccess}
    (h : (checkRegionAccesses function accesses destination active diagnostics).Clean) :
    diagnostics.Clean ∧ ∀ access ∈ accesses, ∀ region,
      function.regionOf access.place.root = some region → region ∈ active ∧
        (access.kind.movesOut = true → destination.bind function.scopeOf = some region) := by
  unfold checkRegionAccesses at h
  induction accesses generalizing diagnostics with
  | nil => exact ⟨h, by simp⟩
  | cons access rest ih =>
      obtain ⟨hfirst, hrest⟩ := ih h
      obtain ⟨hclean, hactive⟩ := clean_of_checkRegionAccess hfirst
      exact ⟨hclean, List.forall_mem_cons.mpr ⟨hactive, hrest⟩⟩

/-- What an action without an error satisfies: all it accesses is owned by active regions, if by
any, and what it moves out of an owned local it gives to one in the region's scope. -/
theorem clean_of_visitRegions {action : Action} {current : OrderedSet LocalId × Diagnostics}
    (h : (visitRegions function action current).2.Clean) :
    current.2.Clean ∧
      (∀ access ∈ action.checkedAccesses, ∀ region,
        function.regionOf access.place.root = some region → region ∈ current.1) ∧
      ∀ slot ∈ action.receiver, ∀ region, action.MovesOwned function region →
        function.scopeOf slot = some region := by
  cases action with
  | terminator =>
      obtain ⟨hclean, haccesses⟩ := clean_of_checkRegionAccesses h
      exact ⟨hclean, fun access haccess region hregion =>
        (haccesses access haccess region hregion).1,
        nofun⟩
  | statement statement =>
      cases statement with
      | evaluate =>
          obtain ⟨hclean, haccesses⟩ := clean_of_checkRegionAccesses h
          exact ⟨hclean, fun access haccess region hregion =>
            (haccesses access haccess region hregion).1, nofun⟩
      | assign destination =>
          obtain ⟨hclean, haccesses⟩ := clean_of_checkRegionAccesses h
          refine ⟨hclean, fun access haccess region hregion =>
            (haccesses access haccess region hregion).1, ?_⟩
          rintro slot hslot region ⟨access, haccess, hmoves, hregion⟩
          obtain rfl : destination.root = slot := Option.some.inj hslot
          exact (haccesses access haccess region hregion).2 hmoves
      | borrow destination source kind preserveValue span =>
          obtain ⟨hclean, hactive⟩ := clean_of_checkRegionAccesses h
          refine ⟨hclean, fun access haccess region hregion => ?_, ?_⟩
          · obtain rfl : access = ⟨source, kind.access, span⟩ := List.mem_singleton.mp haccess
            exact (hactive ⟨source, .borrowRead, span⟩ (List.mem_singleton_self _) region hregion).1
          · -- a borrow moves nothing
            rintro slot hslot region ⟨access, haccess, hmoves, hregion⟩
            obtain rfl : access = ⟨source, kind.access, span⟩ := List.mem_singleton.mp haccess
            cases kind <;> cases hmoves
      | drop place span =>
          simp only [visitRegions] at h
          split at h
          · rename_i hnone
            refine ⟨h, fun access haccess region hregion => ?_, nofun⟩
            obtain rfl : access = ⟨place, .move, span⟩ := List.mem_singleton.mp haccess
            rw [hnone] at hregion
            cases hregion
          · exact absurd h (Diagnostics.not_clean_report _ _ _ _ _)
      | storageLive | storageDead | regionEnter | regionExit =>
          exact ⟨h, (fun access haccess => nomatch haccess), nofun⟩

theorem ownershipSolver_computes (function : MirFunction) :
    (ownershipSolver function).Computes (ownershipAnalysis function) Diagnostics.Clean where
  transfer action active report := visitRegions_fst function action active report .empty
  report action active report h := by
    have hclean : report.Clean := (clean_of_visitRegions h).1
    refine ⟨hclean, ?_⟩
    rw [hclean.eq_empty] at h
    exact h
  le_refl _ _ h := h
  le_trans h h' region hregion := h region (h' region hregion)
  le_join_left _ _ _ h := (mem_inter.mp h).1
  le_join_right _ _ _ h := (mem_inter.mp h).2

/-! ## Soundness -/

/-- The analysis's regions are active on the path, and each local's value lies in regions that own
the local or declare it in their scope. -/
structure Confined (function : MirFunction) (active : OrderedSet LocalId) (s : RegionState) :
    Prop where
  active : ∀ region ∈ active, region ∈ s.active
  held : ∀ slot, ∀ region ∈ s.held slot,
    function.regionOf slot = some region ∨ function.scopeOf slot = some region

section

variable {function : MirFunction} {active : OrderedSet LocalId} {s : RegionState}

theorem confined_empty (function : MirFunction) : Confined function ∅ RegionState.empty where
  active _ h := h
  held _ _ h := nomatch h

/-- A local may be given a value that lies in its own regions. -/
theorem Confined.hold (h : Confined function active s) {slot : LocalId} {regions : List LocalId}
    (hregions : ∀ region ∈ regions,
      function.regionOf slot = some region ∨ function.scopeOf slot = some region) :
    Confined function active (s.hold slot regions) where
  active := h.active
  held other region hregion := by
    simp only [RegionState.hold] at hregion
    split at hregion
    · rename_i heq
      exact heq ▸ hregions region hregion
    · exact h.held other region hregion

/-- What one step that tracks the regions does, if the analysis has no objection to it. -/
theorem confined_step {label : AllocatingStep} (h : Confined function active s)
    (htracks : TracksRegions function label s)
    (hquiet : (ownershipAnalysis function).quiet label.action active) :
    Confined function ((ownershipAnalysis function).transfer label.action active)
      (s.after label.action label.keeps) := by
  obtain ⟨action, keeps⟩ := label
  have hmoved := (clean_of_visitRegions hquiet).2.2
  have hgiven : ∀ slot ∈ action.receiver, ∀ region ∈ s.given action keeps,
      function.regionOf slot = some region ∨ function.scopeOf slot = some region :=
    fun slot hslot region hregion => (htracks slot hslot region hregion).elim
      (fun hmoves => .inr (hmoved slot hslot region hmoves)) id
  have both {slot : LocalId} {first : List LocalId}
      (hfirst : ∀ region ∈ first,
        function.regionOf slot = some region ∨ function.scopeOf slot = some region) :
      ∀ region ∈ first ++ s.held slot,
        function.regionOf slot = some region ∨ function.scopeOf slot = some region :=
    List.forall_mem_append.mpr ⟨hfirst, h.held slot⟩
  -- locals only receive regions that they are declared in, or that the check compared
  cases action with
  | terminator => exact h
  | statement statement =>
      cases statement with
      | storageLive slot span | storageDead slot span => exact h.hold fun _ hmem => nomatch hmem
      | regionEnter =>
          refine ⟨fun other hother => ?_, h.held⟩
          rcases mem_insert.mp hother with rfl | hold
          · exact mem_insert.mpr (Or.inl rfl)
          · exact mem_insert.mpr (Or.inr (h.active other hold))
      | regionExit =>
          refine ⟨fun other hother => ?_, h.held⟩
          obtain ⟨hactive, hne⟩ := mem_erase.mp hother
          exact mem_erase.mpr ⟨h.active other hactive, hne⟩
      | assign destination =>
          simp only [RegionState.after]
          split
          · exact h.hold (hgiven destination.root rfl)
          · exact h.hold (both (hgiven destination.root rfl))
      | borrow destination =>
          simp only [RegionState.after]
          split
          · exact h.hold (both (hgiven destination rfl))
          · exact h.hold (hgiven destination rfl)
      | drop | evaluate => exact h

/-- What an action without an error touches, where scopes are kept. -/
theorem regionsActive_of_quiet {action : Action} (h : Confined function active s)
    (hscope : InScope function action s.active)
    (hquiet : (ownershipAnalysis function).quiet action active) : RegionsActive action s := by
  have haccesses := (clean_of_visitRegions hquiet).2.1
  intro slot hslot region hregion
  by_cases howned : function.regionOf slot = some region
  · rcases List.mem_append.mp hslot with hroot | hpart
    · obtain ⟨access, haccess, rfl⟩ := List.mem_map.mp hroot
      exact h.active region (haccesses access haccess region howned)
    · exact hscope.written slot (Option.mem_toList.mp hpart) region howned
  · have hdeclared := (h.held slot region hregion).resolve_left howned
    exact hscope.declared slot hslot region hdeclared howned

end

/-- `fn leak() -> Option<Buffer<Int32>> { region frame { let values = frame.allocate(4);
let packed = Some(values); return packed } }`, with its return materialized and the region exited
there. -/
def returnPacked : MirFunction where
  locals := [⟨"frame", .nominal 0, false, false, false, none, none, .point 0⟩,
    ⟨"values", .buffer .integer, false, false, false, some 0, some 0, .point 1⟩,
    ⟨"packed", .option (.buffer .integer), false, false, false, some 0, none, .point 2⟩,
    ⟨"$return3", .option (.buffer .integer), false, false, true, none, none, .point 3⟩]
  blocks := [
    { statements := [
        .storageLive 0 (.point 0),
        .regionEnter 0 (.point 0),
        .storageLive 1 (.point 1),
        .assign (.ofLocal 1) [] (some ⟨.buffer .integer, .other, .point 1⟩)
          [⟨.ofLocal 0, .read, .point 1⟩] (.point 1),
        .storageLive 2 (.point 2),
        .assign (.ofLocal 2) [] (some ⟨.option (.buffer .integer), .other, .point 2⟩)
          [⟨.ofLocal 1, .move, .point 2⟩] (.point 2),
        .storageLive 3 (.point 3),
        .assign (.ofLocal 3) []
          (some ⟨.option (.buffer .integer), .place (.ofLocal 2), .point 3⟩)
          [⟨.ofLocal 2, .move, .point 3⟩] (.point 3),
        .regionExit 0 (.point 3),
        .storageDead 0 (.point 3)]
      terminator := .return
        (some ⟨.option (.buffer .integer), .place (.ofLocal 3), .point 3⟩)
        [⟨.ofLocal 3, .move, .point 3⟩] (.point 3) }]

/-- A path on which computed values lie in all the regions they may lie in. -/
def memoryStrategy : Flow.Strategy memoryPaths where
  label action := ⟨action, fun _ => true⟩
  next action s := s.after action fun _ => true
  action_label _ := rfl
  step _ _ := rfl

/-- The analysis accepts a function that returns memory of a region it has exited. -/
theorem not_regionsConfine_of_accepted :
    analyzeFunctionRegions 1 returnPacked = some [] ∧ ¬ RegionsConfine returnPacked := by
  refine ⟨by decide +kernel, fun hconfine => ?_⟩
  have run := memoryStrategy.follow (G := returnPacked.graph) (b := 0) (s := RegionState.empty) rfl
    .start (List.take_prefix 10 _)
  have hreturned := hconfine run _ ⟨_, rfl, rfl⟩ 3 (by decide) 0 (by decide)
  exact absurd hreturned (by decide)

/-- **Accepted functions use and return region memory only while its region is active, on runs that
track the regions of values** where the analysis does not, and where the next action keeps the
scopes of locals that it does not look at. -/
theorem regionsActive_of_accepted {fuel : ℕ} {function : MirFunction}
    (haccept : analyzeFunctionRegions fuel function = some [])
    {trace : List (Flow.Event memoryPaths)} {b i : ℕ} {s : RegionState}
    (run : Flow.Run function.graph memoryPaths RegionState.empty trace b i s)
    (htracks : ∀ event ∈ trace, TracksRegions function event.label event.before)
    {action : Action} (hat : function.graph.At b i action)
    (hscope : InScope function action s.active) : RegionsActive action s := by
  have hblocks := MirFunction.blocks_ne_nil_of_at hat
  rw [analyzeFunctionRegions, if_neg hblocks] at haccept
  obtain ⟨work, hsolve, hclean⟩ := Option.map_eq_some_iff.mp haccept
  have hentry := MirFunction.graph_blocks_pos hblocks
  have solution := Flow.Solver.isSolution_of_solve (ownershipSolver_computes function) hentry hsolve
    hclean
  obtain ⟨block, active, hblock, hinput, confined, hquiet⟩ :=
    solution.covers_next (Confined function)
      (fun event => TracksRegions function event.label event.before)
      (fun confined hle => ⟨fun region hregion => confined.active region (hle region hregion),
        confined.held⟩)
      (confined_empty function)
      (fun event active _ confined hstep htracks hquiet =>
        hstep ▸ confined_step confined htracks hquiet)
      run htracks hat
  exact regionsActive_of_quiet confined hscope hquiet

/-- `fn run() { region frame { let values = frame.allocate(4); let replacement = values;
let packed = Some(replacement); inspect(packed) } }`. -/
def moveInRegion : MirFunction where
  locals := [⟨"frame", .nominal 0, false, false, false, none, none, .point 0⟩,
    ⟨"values", .buffer .integer, false, false, false, some 0, some 0, .point 1⟩,
    ⟨"replacement", .buffer .integer, false, false, false, some 0, some 0, .point 2⟩,
    ⟨"packed", .option (.buffer .integer), false, false, false, some 0, none, .point 3⟩]
  blocks := [
    { statements := [
        .storageLive 0 (.point 0),
        .regionEnter 0 (.point 0),
        .storageLive 1 (.point 1),
        .assign (.ofLocal 1) [] (some ⟨.buffer .integer, .other, .point 1⟩)
          [⟨.ofLocal 0, .read, .point 1⟩] (.point 1),
        .storageLive 2 (.point 2),
        .assign (.ofLocal 2) [] (some ⟨.buffer .integer, .place (.ofLocal 1), .point 2⟩)
          [⟨.ofLocal 1, .move, .point 2⟩] (.point 2),
        .storageLive 3 (.point 3),
        .assign (.ofLocal 3) [] (some ⟨.option (.buffer .integer), .other, .point 3⟩)
          [⟨.ofLocal 2, .move, .point 3⟩] (.point 3),
        .evaluate none [⟨.ofLocal 3, .borrowRead, .point 4⟩] (.point 4),
        .regionExit 0 (.point 5),
        .storageDead 0 (.point 5)]
      terminator := .return none [] (.point 6) }]

/-- What `moveInRegion` has moved, wrapped and inspects lies in a region that is active. -/
theorem regionsActive_moveInRegion :
    ∃ (action : Action) (s : RegionState), moveInRegion.graph.At 0 8 action ∧
      action.touched = [3] ∧ s.held 3 = [0] ∧ RegionsActive action s := by
  have run := memoryStrategy.follow (G := moveInRegion.graph) (b := 0) (s := RegionState.empty) rfl
    .start (List.take_prefix 8 _)
  have hactive := regionsActive_of_accepted
    (show analyzeFunctionRegions 1 moveInRegion = some [] by decide +kernel) run (by decide)
    ⟨_, rfl, rfl⟩ ⟨by decide, nofun⟩
  exact ⟨_, _, ⟨_, rfl, rfl⟩, rfl, rfl, hactive⟩

end Jadren.Mir
