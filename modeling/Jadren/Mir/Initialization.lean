import Jadren.Mir.DropSafety
import Jadren.Library.Exactness

/-!
# Use before initialization

`analyzeInitialization` is a forward must-analysis: the locals initialized on
every path.  It reports each access, other than a plain write, to a local that
is not among them; of the accesses that start at one place of the source and go
to one local it reports the first.

On a path, a local holds a value once it was stored into as a whole, until its
storage begins or ends or the value is dropped (`HoldsValue`).  The analysis is
exact for this (`analyzeInitialization_exact`): joins intersect, so a local is
missing from a computed input only if some path to the block misses it, and the
inputs only shrink while the loop is running.
-/

namespace Jadren.Mir

open Flow.Solver List OrderedSet MirFunction

/-! ## The analysis -/

/-- The diagnostic of an access to a local that may hold no value. -/
def uninitializedUse (access : PlaceAccess) : MirError :=
  ⟨"J0500", access.span, "use of a place that is not definitely initialized"⟩

/-- What makes the report of an access a repetition. -/
def PlaceAccess.reportKey (access : PlaceAccess) : ReportKey :=
  ⟨access.span.source, access.span.start, access.place.root⟩

/-- Checks one access against the initialized locals. -/
def checkAccess (initialized : OrderedSet LocalId) (diagnostics : Diagnostics)
    (access : PlaceAccess) : Diagnostics :=
  if access.kind ≠ .write ∧ access.place.root ∉ initialized then
    diagnostics.report "J0500" access.span access.place.root
      "use of a place that is not definitely initialized"
  else diagnostics

def checkInitialized (accesses : List PlaceAccess) (initialized : OrderedSet LocalId)
    (diagnostics : Diagnostics) : Diagnostics :=
  accesses.foldl (checkAccess initialized) diagnostics

/-- One statement or terminator of the initialization analysis. -/
def visitInitialization (action : Action) (current : OrderedSet LocalId × Diagnostics) :
    OrderedSet LocalId × Diagnostics :=
  match action with
  | .statement (.storageLive slot _) | .statement (.storageDead slot _) =>
      (current.1.erase slot, current.2)
  | .statement (.regionEnter region _) => (current.1.insert region, current.2)
  | .statement (.regionExit region _) => (current.1.erase region, current.2)
  | .statement (.assign destination _ _ accesses _) =>
      (if destination.projection = [] then current.1.insert destination.root else current.1,
        checkInitialized accesses current.1 current.2)
  | .statement (.borrow destination source _ _ span) =>
      (current.1.insert destination,
        checkInitialized [⟨source, .borrowRead, span⟩] current.1 current.2)
  | .statement (.drop place span) =>
      (if place.projection = [] then current.1.erase place.root else current.1,
        checkInitialized [⟨place, .move, span⟩] current.1 current.2)
  | .statement (.evaluate _ accesses _) =>
      (current.1, checkInitialized accesses current.1 current.2)
  | .terminator last => (current.1, checkInitialized (terminatorAccesses last) current.1 current.2)

def initializationSolver : Flow.Solver Action (OrderedSet LocalId) Diagnostics :=
  ⟨visitInitialization, inter⟩

/-- The parameters are initialized at the entry. -/
def entryInitialized (function : MirFunction) : OrderedSet LocalId := .ofList function.parameters

/-- The initialization analysis of one function, run for at most `fuel` blocks
taken from the queue; `span` is the range of the function in the source. -/
def analyzeInitialization (fuel : ℕ) (span : Span) (function : MirFunction) :
    Option (List MirError) :=
  if function.blocks = [] then some [⟨"J0502", span, "MIR function has no entry block"⟩]
  else
    (initializationSolver.solve function.graph fuel
      (initial function.graph (entryInitialized function) .empty)).map
        fun work => work.report.errors

/-! ## Values on a path -/

/-- The paths of a function, each with the actions executed so far. -/
abbrev historyPaths : Flow.PathSemantics Action where
  State := List Action
  Label := Action
  action := id
  step := fun action history history' => history' = history ++ [action]

/-- The action begins or ends the storage of a local, or drops the local as a whole. -/
def Clears (action : Action) (slot : LocalId) : Prop :=
  match action with
  | .statement (.storageLive cleared _) | .statement (.storageDead cleared _)
  | .statement (.regionExit cleared _) => cleared = slot
  | .statement (.drop place _) => place = .ofLocal slot
  | _ => False

/-- After these actions a local holds a value: it is a parameter, or it was stored
into, and it was not cleared since. -/
def HoldsValue (function : MirFunction) (history : List Action) (slot : LocalId) : Prop :=
  (slot ∈ function.parameters ∧ ∀ action ∈ history, ¬ Clears action slot) ∨
    ∃ earlier action later, history = earlier ++ action :: later ∧ Stores action slot ∧
      ∀ other ∈ later, ¬ Clears other slot

/-- The accesses that need a value: all but plain writes. -/
def Action.uses (action : Action) : List PlaceAccess :=
  action.accesses.filter fun access => access.kind ≠ .write

/-- Some path from the entry reaches the access while its local holds no value. -/
def ReachesUninitialized (function : MirFunction) (access : PlaceAccess) : Prop :=
  ∃ trace b i history action, Flow.Run function.graph historyPaths [] trace b i history ∧
    function.graph.At b i action ∧ access ∈ action.uses ∧
      ¬ HoldsValue function history access.place.root

/-! ## The analysis as a dataflow problem -/

/-- The transfer functions of the analysis; an action is quiet about a key if no
access with that key is reported. -/
def initializationAnalysis (key : ReportKey) : Flow.Analysis Action (OrderedSet LocalId) where
  transfer action initialized := (visitInitialization action (initialized, .empty)).1
  le initialized other := ∀ slot ∈ other, slot ∈ initialized
  quiet action initialized :=
    ∀ access ∈ action.uses, access.reportKey = key → access.place.root ∈ initialized

theorem visitInitialization_snd (action : Action) (initialized : OrderedSet LocalId)
    (diagnostics : Diagnostics) : (visitInitialization action (initialized, diagnostics)).2 =
      checkInitialized action.accesses initialized diagnostics := by
  cases action with
  | terminator => rfl
  | statement statement => cases statement <;> rfl

variable {slot : LocalId}

theorem eq_ofLocal_iff {place : Place} :
    place = .ofLocal slot ↔ place.projection = [] ∧ slot = place.root := by
  constructor
  · rintro rfl
    exact ⟨rfl, rfl⟩
  · rintro ⟨hwhole, rfl⟩
    exact Place.ext rfl hwhole

variable {action : Action}

/-- A local is initialized after an action that stores into it, and stays so until
it is cleared. -/
theorem mem_visitInitialization {current : OrderedSet LocalId × Diagnostics} :
    slot ∈ (visitInitialization action current).1 ↔
      Stores action slot ∨ slot ∈ current.1 ∧ ¬ Clears action slot := by
  cases action with
  | terminator => simp [visitInitialization, Stores, Clears]
  | statement statement =>
      cases statement with
      | storageLive ended span | storageDead ended span | regionExit ended span
      | regionEnter stored span | borrow stored source kind preserveValue span =>
          simp [visitInitialization, Stores, Clears, eq_comm]
      | assign destination =>
          by_cases hwhole : destination.projection = []
          · simp [visitInitialization, Stores, Clears, eq_ofLocal_iff, hwhole]
          · simp [visitInitialization, Stores, Clears, eq_ofLocal_iff, hwhole]
      | drop place =>
          by_cases hwhole : place.projection = []
          · simp [visitInitialization, Stores, Clears, eq_ofLocal_iff, hwhole]
          · simp [visitInitialization, Stores, Clears, eq_ofLocal_iff, hwhole]
      | evaluate => simp [visitInitialization, Stores, Clears]

/-! ## What is reported -/

variable {diagnostics : Diagnostics} {key : ReportKey}

theorem mem_reported_report {code message : String} {span : Span} {root : LocalId} :
    key ∈ (diagnostics.report code span root message).reported ↔
      key = ⟨span.source, span.start, root⟩ ∨ key ∈ diagnostics.reported := by
  unfold Diagnostics.report
  split
  · rename_i hold
    constructor
    · exact .inr
    · rintro (rfl | hkey)
      · exact hold
      · exact hkey
  · exact mem_insert

/-- The diagnostics are about justified accesses: each error is one's, and each
key reported is one's whose error is there. -/
structure ReportsJustified (justified : PlaceAccess → Prop) (diagnostics : Diagnostics) : Prop where
  error : ∀ error ∈ diagnostics.errors, ∃ use, justified use ∧ error = uninitializedUse use
  reported : ∀ key ∈ diagnostics.reported,
    ∃ use, justified use ∧ use.reportKey = key ∧ uninitializedUse use ∈ diagnostics.errors

variable {justified : PlaceAccess → Prop} {access : PlaceAccess}

theorem ReportsJustified.report (h : ReportsJustified justified diagnostics)
    (haccess : justified access) :
    ReportsJustified justified (diagnostics.report "J0500" access.span access.place.root
      "use of a place that is not definitely initialized") := by
  unfold Diagnostics.report
  split
  · exact h
  · constructor
    · intro error herror
      obtain hold | hnew := mem_append.mp herror
      · exact h.error error hold
      · exact ⟨access, haccess, mem_singleton.mp hnew⟩
    · intro key hkey
      obtain rfl | hold := mem_insert.mp hkey
      · exact ⟨access, haccess, rfl, mem_append_right _ (mem_singleton_self _)⟩
      · obtain ⟨use, huse, hsame, herror⟩ := h.reported key hold
        exact ⟨use, huse, hsame, mem_append_left _ herror⟩

variable {initialized : OrderedSet LocalId}

theorem ReportsJustified.checkInitialized (h : ReportsJustified justified diagnostics)
    {accesses : List PlaceAccess}
    (haccesses : ∀ access ∈ accesses, access.kind ≠ .write → access.place.root ∉ initialized →
      justified access) :
    ReportsJustified justified (checkInitialized accesses initialized diagnostics) := by
  unfold Mir.checkInitialized
  induction accesses generalizing diagnostics with
  | nil => exact h
  | cons access rest ih =>
      rw [foldl_cons]
      apply ih ?_ fun other hother => haccesses other (mem_cons_of_mem _ hother)
      unfold checkAccess
      split
      · rename_i hmissing
        exact h.report (haccesses access (mem_cons_self ..) hmissing.1 hmissing.2)
      · exact h

theorem mem_reported_checkAccess :
    key ∈ (checkAccess initialized diagnostics access).reported ↔ key ∈ diagnostics.reported ∨
      access.kind ≠ .write ∧ access.place.root ∉ initialized ∧ access.reportKey = key := by
  unfold checkAccess
  split
  · rename_i hmissing
    rw [mem_reported_report, or_comm, ← and_assoc, and_iff_right hmissing]
    exact or_congr_right eq_comm
  · rename_i hpresent
    rw [← and_assoc, or_iff_left (fun h => hpresent h.1)]

/-- The keys reported: those before, and those of the uses of uninitialized locals. -/
theorem mem_reported_checkInitialized {accesses : List PlaceAccess} :
    key ∈ (checkInitialized accesses initialized diagnostics).reported ↔
      key ∈ diagnostics.reported ∨ ∃ access ∈ accesses, access.kind ≠ .write ∧
        access.place.root ∉ initialized ∧ access.reportKey = key := by
  unfold checkInitialized
  induction accesses generalizing diagnostics with
  | nil => simp
  | cons access rest ih =>
      rw [foldl_cons, ih, mem_reported_checkAccess, or_assoc]
      simp only [mem_cons, exists_eq_or_imp]

theorem mem_transfer_initialization :
    slot ∈ (initializationAnalysis key).transfer action initialized ↔
      Stores action slot ∨ slot ∈ initialized ∧ ¬ Clears action slot := mem_visitInitialization

theorem initializationSolver_computes (key : ReportKey) :
    initializationSolver.Computes (initializationAnalysis key) (fun report => key ∉ report.reported)
    where
  transfer action initialized report := by
    cases action with
    | terminator => rfl
    | statement statement => cases statement <;> rfl
  report action initialized report h := by
    rw [show (initializationSolver.visit action (initialized, report)).2 = _ from
      visitInitialization_snd action initialized report, mem_reported_checkInitialized, not_or] at h
    refine ⟨h.1, fun access haccess hkey => ?_⟩
    obtain ⟨haccess, hkind⟩ := mem_filter.mp haccess
    by_contra hmissing
    exact h.2 ⟨access, haccess, by simpa using hkind, hmissing, hkey⟩
  le_refl _ := fun _ h => h
  le_trans h₁ h₂ := fun slot h => h₁ slot (h₂ slot h)
  le_join_left _ _ := fun _ h => (mem_inter.mp h).1
  le_join_right _ _ := fun _ h => (mem_inter.mp h).2

/-- The fact that a local may hold no value comes from one path. -/
theorem initializationSolver_distributive (key : ReportKey) :
    initializationSolver.Distributive (initializationAnalysis key)
      (fun slot initialized => slot ∉ initialized) where
  transfer {action initialized slot} h := by
    rw [mem_transfer_initialization, not_or, not_and_or, not_not] at h
    obtain ⟨hstores, hbefore | hclears⟩ := h
    · refine .inr ⟨slot, hbefore, fun initialized' hbefore' => ?_⟩
      rw [mem_transfer_initialization, not_or]
      exact ⟨hstores, fun hkept => hbefore' hkept.1⟩
    · refine .inl fun initialized' => ?_
      rw [mem_transfer_initialization, not_or]
      exact ⟨hstores, fun hkept => hkept.2 hclears⟩
  join {initialized other slot} h := by
    rw [← not_and_or]
    exact fun hboth => h (mem_inter.mpr hboth)

/-! ## Histories and states -/

variable {function : MirFunction}

theorem holdsValue_nil : HoldsValue function [] slot ↔ slot ∈ entryInitialized function := by
  simp [HoldsValue, entryInitialized]

theorem holdsValue_append {history : List Action} : HoldsValue function (history ++ [action]) slot ↔
      Stores action slot ∨ HoldsValue function history slot ∧ ¬ Clears action slot := by
  constructor
  · rintro (⟨hparameter, hkept⟩ | ⟨earlier, stored, later, hsplit, hstores, hkept⟩)
    · refine .inr ⟨.inl ⟨hparameter, fun other hother => ?_⟩, ?_⟩
      · exact hkept other (mem_append_left _ hother)
      · exact hkept action (mem_append_right _ (mem_singleton_self _))
    · obtain rfl | ⟨front, last, rfl⟩ := eq_nil_or_concat later
      · obtain rfl : action = stored := by simpa using (append_inj' hsplit rfl).2
        exact .inl hstores
      · rw [concat_eq_append, ← cons_append, ← append_assoc] at hsplit
        obtain ⟨rfl, hlast⟩ := append_inj' hsplit rfl
        obtain rfl : action = last := by simpa using hlast
        rw [concat_eq_append] at hkept
        refine .inr ⟨.inr ⟨earlier, stored, front, rfl, hstores, fun other hother => ?_⟩, ?_⟩
        · exact hkept other (mem_append_left _ hother)
        · exact hkept action (mem_append_right _ (mem_singleton_self _))
  · rintro (hstores | ⟨⟨hparameter, hkept⟩ | ⟨earlier, stored, later, rfl, hstores, hkept⟩,
      hclears⟩)
    · exact .inr ⟨history, action, [], rfl, hstores, by simp⟩
    · refine .inl ⟨hparameter, fun other hother => ?_⟩
      obtain hold | hlast := mem_append.mp hother
      · exact hkept other hold
      · rwa [mem_singleton.mp hlast]
    · refine .inr ⟨earlier, stored, later ++ [action], by simp, hstores, fun other hother => ?_⟩
      obtain hold | hlast := mem_append.mp hother
      · exact hkept other hold
      · rwa [mem_singleton.mp hlast]

/-- The state of the analysis on one path says which locals hold a value there. -/
def Tells (function : MirFunction) (initialized : OrderedSet LocalId) (history : List Action) :
    Prop :=
  ∀ slot, slot ∈ initialized ↔ HoldsValue function history slot

theorem Tells.step {function : MirFunction} {initialized : OrderedSet LocalId}
    {history : List Action} (tells : Tells function initialized history) (key : ReportKey)
    (action : Action) :
    Tells function ((initializationAnalysis key).transfer action initialized)
    (history ++ [action]) := by
  intro slot
  rw [mem_transfer_initialization, holdsValue_append, tells slot]

/-- Some path of the analysis misses a local where some path leaves it without a value. -/
theorem onSomePath_iff {b i : ℕ} :
    OnSomePath (initializationAnalysis key) function.graph (entryInitialized function)
        b i (fun initialized => slot ∉ initialized) ↔
      ∃ trace history, Flow.Run function.graph historyPaths [] trace b i history ∧
        ¬ HoldsValue function history slot := by
  have hstart : Tells function (entryInitialized function) [] := fun slot => holdsValue_nil.symm
  constructor
  · rintro ⟨trace, initialized, run, hmissing⟩
    obtain ⟨trace', history, run', tells⟩ := run.simulate (Q := historyPaths)
      (R := Tells function) hstart <| by
        rintro _ _ action _ _ history - tells rfl
        exact ⟨action, history ++ [action], rfl, rfl, tells.step key action⟩
    exact ⟨trace', history, run', fun hholds => hmissing ((tells slot).mpr hholds)⟩
  · rintro ⟨trace, history, run, hmissing⟩
    obtain ⟨trace', initialized, run', tells⟩ := run.simulate
      (Q := (initializationAnalysis key).path)
      (R := fun history initialized => Tells function initialized history) hstart <| by
        rintro _ _ action _ _ initialized - tells rfl
        exact ⟨action, _, rfl, rfl, tells.step key action⟩
    exact ⟨trace', initialized, run', fun hmem => hmissing ((tells slot).mp hmem)⟩

/-! ## Exactness -/

/-- The analysis of a function with blocks and edges between them ends. -/
theorem exists_solve_initialization (hclosed : function.Closed) (hblocks : function.blocks ≠ []) :
    ∃ enough final, ∀ fuel ≥ enough,
      initializationSolver.solve function.graph fuel
        (initial function.graph (entryInitialized function) .empty) = some final := by
  have decreases : Decreases initializationSolver function.graph (fun _ => True)
      fun initialized => initialized.elems.length :=
    ⟨fun _ _ _ _ _ _ _ => trivial, fun _ _ => trivial, fun _ _ h => length_inter_lt h⟩
  exact exists_solve decreases (graph_closed hclosed)
    (ready_initial (graph_blocks_pos hblocks) trivial)

section

variable {function : MirFunction} {fuel : ℕ} {final : Flow.Work (OrderedSet LocalId) Diagnostics}
  (h : initializationSolver.solve function.graph fuel
    (initial function.graph (entryInitialized function) .empty) = some final)

include h

/-- Whatever is reported reaches its local uninitialized. -/
theorem reportsJustified_of_solve :
    ReportsJustified (ReachesUninitialized function) final.report := by
  apply report_of_solve (initializationSolver_computes ⟨0, 0, 0⟩)
    (initializationSolver_distributive ⟨0, 0, 0⟩) ?_ h
  · exact ⟨by simp [Diagnostics.empty], by simp [Diagnostics.empty]⟩
  · intro b i action initialized report hat hpath hreport
    rw [show (initializationSolver.visit action (initialized, report)).2 = _ from
      visitInitialization_snd action initialized report]
    apply hreport.checkInitialized
    intro access haccess hkind hmissing
    obtain ⟨trace, history, run, hholds⟩ := onSomePath_iff.mp (hpath access.place.root hmissing)
    have huse : access ∈ action.uses := mem_filter.mpr ⟨haccess, by simpa using hkind⟩
    exact ⟨trace, b, i, history, action, run, hat, huse, hholds⟩

/-- Whatever reaches its local uninitialized is reported. -/
theorem reported_of_reachesUninitialized {access : PlaceAccess}
    (haccess : ReachesUninitialized function access) :
    access.reportKey ∈ final.report.reported := by
  obtain ⟨trace, b, i, history, action, run, hat, huse, hholds⟩ := haccess
  by_contra hquiet
  have hentry := graph_blocks_pos (blocks_ne_nil_of_at hat)
  have solution := isSolution_of_solve
    (initializationSolver_computes access.reportKey) hentry h hquiet
  obtain ⟨initialized, hmissing, hpresent⟩ := solution.quiet_on_path
    (initializationSolver_distributive access.reportKey) (fun hle hx hmem => hx (hle _ hmem))
    (onSomePath_iff.mpr ⟨trace, history, run, hholds⟩) hat
  exact hmissing (hpresent access huse rfl)

end

/-- **The analysis is exact.**  It ends; each error is at an access that some path
reaches with its local holding no value; and for each such access an error is
reported at the first such access at the same place to the same local. -/
theorem analyzeInitialization_exact (span : Span) (function : MirFunction)
    (hclosed : function.Closed) :
    ∃ enough errors, (∀ fuel ≥ enough, analyzeInitialization fuel span function = some errors) ∧
      (∀ error ∈ errors, error.code = "J0500" →
        ∃ access, ReachesUninitialized function access ∧ error = uninitializedUse access) ∧
      ∀ access, ReachesUninitialized function access →
        ∃ other, ReachesUninitialized function other ∧ other.reportKey = access.reportKey ∧
          uninitializedUse other ∈ errors := by
  by_cases hblocks : function.blocks = []
  · refine ⟨0, [⟨"J0502", span, "MIR function has no entry block"⟩], fun fuel _ => ?_, ?_, ?_⟩
    · rw [analyzeInitialization, if_pos hblocks]
    · rintro error herror hcode
      rw [mem_singleton.mp herror] at hcode
      simp at hcode
    · rintro access ⟨trace, b, i, history, action, run, hat, -⟩
      exact absurd hblocks (blocks_ne_nil_of_at hat)
  · obtain ⟨enough, final, hfinal⟩ := exists_solve_initialization hclosed hblocks
    have hsolve := hfinal enough le_rfl
    have justified := reportsJustified_of_solve hsolve
    refine ⟨enough, final.report.errors, fun fuel hfuel => ?_, fun error herror _ => ?_,
      fun access haccess => ?_⟩
    · rw [analyzeInitialization, if_neg hblocks, hfinal fuel hfuel]
      rfl
    · exact justified.error error herror
    · exact justified.reported _ (reported_of_reachesUninitialized hsolve haccess)

/-- `fn main() { let value: Int32; if .. { value = 1 }; print(value) }`, with the
declaration's storage left out. -/
def joinsBranches : MirFunction where
  locals := [⟨"value", .integer, true, false, false, none, none, .point 0⟩]
  blocks := [
    { statements := []
      terminator := .switch none [] [1] 2 (.point 1) },
    { statements := [.assign (.ofLocal 0) [] none [] (.point 2)]
      terminator := .goto 3 (.point 2) },
    { statements := []
      terminator := .goto 3 (.point 1) },
    { statements := [.evaluate none [⟨.ofLocal 0, .read, .point 3⟩] (.point 3)]
      terminator := .return none [] (.point 4) }]

/-- The branch that does not store leads to the use. -/
theorem analyzeInitialization_joinsBranches :
    ∃ enough errors, (∀ fuel ≥ enough,
      analyzeInitialization fuel (.point 0) joinsBranches = some errors) ∧
      ∃ access, ReachesUninitialized joinsBranches access ∧ uninitializedUse access ∈ errors := by
  obtain ⟨enough, errors, hends, -, hcomplete⟩ :=
    analyzeInitialization_exact (.point 0) joinsBranches (by decide)
  let first : Action := .terminator (.switch none [] [1] 2 (.point 1))
  let second : Action := .terminator (.goto 3 (.point 1))
  obtain ⟨trace, hbranch⟩ : ∃ trace,
    Flow.Run joinsBranches.graph historyPaths [] trace 2 0 [first] :=
    ⟨_, @Flow.Run.edge _ _ _ _ _ 0 2 _ ⟨[first], [1, 2]⟩
      (@Flow.Run.step _ _ _ _ _ _ _ _ _ _ first .start rfl rfl rfl) rfl (by decide)⟩
  obtain ⟨trace, huse⟩ :
      ∃ trace, Flow.Run joinsBranches.graph historyPaths [] trace 3 0 [first, second] :=
    ⟨_, @Flow.Run.edge _ _ _ _ _ 2 3 _ ⟨[second], [3]⟩
      (@Flow.Run.step _ _ _ _ _ _ _ _ _ _ second hbranch rfl rfl rfl) rfl (by decide)⟩
  have hreaches : ReachesUninitialized joinsBranches ⟨.ofLocal 0, .read, .point 3⟩ := by
    refine ⟨_, 3, 0, _, _, huse, ⟨_, rfl, rfl⟩, by decide, ?_⟩
    rw [show [first, second] = [] ++ [first] ++ [second] from rfl, holdsValue_append,
      holdsValue_append, holdsValue_nil]
    simp [first, second, Stores, entryInitialized, joinsBranches, parameters]
  obtain ⟨other, hother, -, herror⟩ := hcomplete _ hreaches
  exact ⟨enough, errors, hends, other, hother, herror⟩

end Jadren.Mir
