import Jadren.Concurrency.WorkerPool
import Jadren.Library.Folds

/-!
# The orders of a graph

A task order of a graph is a linear extension of its edges.  The search for a topological order
takes the first ready task in each round, so it finds the least task order, and the deterministic
scheduler executes the tasks in it.  The pools complete the tasks in some task order, because the
job of a task only starts once its dependencies are complete.
-/

namespace Jadren.Concurrency

namespace DependencyGraph

variable {graph : DependencyGraph}

/-- Every task once, after the tasks that it depends on. -/
abbrev TaskOrder (graph : DependencyGraph) (order : List TaskId) : Prop :=
  LinearExtension graph.edges.Has graph.taskIds.elems order

/-! ## The search takes the least ready task -/

/-- The ready tasks are sorted, and the least of them was taken in each round. -/
structure Sweep.Least (graph : DependencyGraph) (sweep : Sweep) : Prop where
  sorted : sweep.ready.elems.Pairwise (· < ·)
  greedy : Greedy graph.edges.Has graph.taskIds.elems sweep.order

namespace Sweep.Least

variable {sweep next : Sweep} {task : TaskId}

theorem release (h : sweep.Least graph) (hrelease : sweep.release task = some next) :
    next.Least graph := by
  unfold Sweep.release at hrelease
  split at hrelease
  · cases hrelease
  · cases hrelease
  · cases hrelease
    refine ⟨?_, h.greedy⟩
    show (if _ then sweep.ready.insert task else sweep.ready).elems.Pairwise (· < ·)
    split_ifs
    · exact OrderedSet.sorted_insertSorted h.sorted
    · exact h.sorted

theorem visit (h : sweep.Least graph) (visited : sweep.Visited graph []) {rest : List TaskId}
    (hready : sweep.ready.elems = task :: rest) (hvisit : sweep.visit graph task rest = some next) :
    next.Least graph := by
  have hsorted := h.sorted
  rw [hready, List.pairwise_cons] at hsorted
  refine Folds.foldlM_invariant (Sweep.Least graph) hvisit ⟨hsorted.2, ?_⟩
    fun _ _ _ _ hleast hrelease => hleast.release hrelease
  intro earlier a later hsplit b hb hnew hdependencies
  rcases append_singleton_eq hsplit with ⟨later', hbefore⟩ | ⟨rfl, rfl⟩
  · exact h.greedy earlier a later' hbefore b hb hnew hdependencies
  · -- a task that could be next is ready, and the first ready task is the least
    have hmem : b ∈ sweep.ready :=
      (visited.mem_ready b).mpr ⟨hb, hnew, List.not_mem_nil, hdependencies⟩
    rw [OrderedSet.mem_def, hready] at hmem
    rcases List.mem_cons.mp hmem with rfl | hmem
    · exact le_rfl
    · exact (hsorted.1 b hmem).le

theorem run (closed : graph.Closed) (rounds : ℕ) (h : sweep.Least graph)
    (visited : sweep.Visited graph []) {final : Sweep}
    (hrun : Sweep.run graph rounds sweep = some final) : final.Least graph := by
  induction rounds generalizing sweep with
  | zero =>
      cases hrun
      exact h
  | succ rounds ih =>
      unfold Sweep.run at hrun
      split at hrun
      · cases hrun
        exact h
      · rename_i task rest hready
        obtain ⟨next, hvisit, -, hvisited⟩ := visited.visit closed hready
        rw [hvisit, Option.bind_some] at hrun
        exact ih (h.visit visited hready hvisit) hvisited hrun

theorem start (graph : DependencyGraph) : (Sweep.start graph).Least graph where
  sorted := by
    have hkeys := (graph.tasks.mapValues fun task _ =>
      (graph.dependenciesOf task).elems.length).sorted
    exact List.pairwise_map.mpr (hkeys.sublist List.filter_sublist)
  greedy earlier a later hsplit := by
    simp [Sweep.start] at hsplit

end Sweep.Least

/-- **The search finds the least task order.** -/
theorem topologicalOrder_least (closed : graph.Closed) {order : List TaskId}
    (h : graph.topologicalOrder = some (.ok order)) :
    graph.TaskOrder order ∧ ∀ other, graph.TaskOrder other → order ≤ other := by
  obtain ⟨final, hrun, hfinal, -⟩ :=
    (Sweep.Visited.start graph).run closed graph.tasks.entries.length
  have hleast := (Sweep.Least.start graph).run closed _ (Sweep.Visited.start graph) hrun
  rw [topologicalOrder, hrun, Option.map_some] at h
  split_ifs at h with hlength
  · cases h
  · cases h
    have hcount : graph.taskIds.elems.length = graph.tasks.entries.length := by
      simp [taskIds, OrderedMap.keys]
    have hperm : final.order.Perm graph.taskIds.elems := by
      have hsubperm := List.subperm_of_subset hfinal.order_nodup hfinal.order_tasks
      exact hsubperm.perm_of_length_le (by omega)
    have horder : graph.TaskOrder final.order := ⟨hperm, hfinal.ordered⟩
    exact ⟨horder, fun other hother =>
      horder.le_of_greedy hleast.greedy taskIds_nodup hother⟩

end DependencyGraph

/-! ## The order in which tasks are completed -/

/-- The tasks whose completion was recorded, in the order of the records. -/
def completions (trace : List Event) : List TaskId :=
  trace.filterMap fun
    | .complete task => some task
    | _ => none

@[simp] theorem completions_append (trace later : List Event) :
    completions (trace ++ later) = completions trace ++ completions later :=
  List.filterMap_append ..

theorem mem_completions {trace : List Event} {task : TaskId} :
    task ∈ completions trace ↔ .complete task ∈ trace := by
  rw [completions, List.mem_filterMap]
  constructor
  · rintro ⟨event, hevent, heq⟩
    cases event <;> cases heq
    exact hevent
  · exact fun h => ⟨_, h, rfl⟩

namespace Schedule

variable {graph : DependencyGraph} {trace : List Event} {phase : TaskId → Phase}

/-- Completions are recorded after those of the dependencies. -/
def InOrder (graph : DependencyGraph) (trace : List Event) : Prop :=
  ∀ earlier task later, completions trace = earlier ++ task :: later →
    ∀ dependency, graph.edges.Has dependency task → dependency ∈ earlier

theorem InOrder.step (h : InOrder graph trace) (recorded : Recorded graph trace phase)
    {phase' : TaskId → Phase} {event : Option Event} (hstep : Step graph phase event phase') :
    InOrder graph (trace ++ event.toList) := by
  intro earlier task later hsplit dependency hedge
  rw [completions_append] at hsplit
  cases hstep with
  | submit _ _ _ | start _ | finish _ _ | fail _ =>
      exact h earlier task later ((List.append_nil _).symm.trans hsplit) dependency hedge
  | @complete moved hphase =>
      rcases append_singleton_eq hsplit with ⟨later', hbefore⟩ | ⟨rfl, rfl⟩
      · exact h earlier task later' hbefore dependency hedge
      · -- what the task depends on was complete when it was submitted
        have hwaiting : phase task ≠ .waiting := by simp [hphase]
        have hcompleted := (recorded.submitted task hwaiting).2 dependency hedge
        have hcount := recorded.completes dependency
        rw [if_pos hcompleted] at hcount
        exact mem_completions.mpr (List.count_pos_iff.mp (by omega))

theorem inOrder (run : (system graph).Run trace phase) : InOrder graph trace := by
  suffices h : Recorded graph trace phase ∧ InOrder graph trace from h.2
  have hinitial : ∀ phase, (system graph).initial phase →
      Recorded graph [] phase ∧ InOrder graph [] := by
    intro phase hinitial
    refine ⟨recorded (.start hinitial), fun earlier task later hsplit => ?_⟩
    simp [completions] at hsplit
  refine System.Run.invariant (P := fun trace phase => Recorded graph trace phase ∧
    InOrder graph trace) run hinitial ?_
  rintro trace phase event phase' ⟨hrecorded, horder⟩ hstep
  exact ⟨hrecorded.step hstep, horder.step hrecorded hstep⟩

end Schedule

/-- The books list the completions that the coordinator has recorded, and so does its report. -/
structure Booked (trace : List Event) (ledger : Ledger) (outcome : Option Outcome) : Prop where
  ledger : ledger.completedOrder = completions trace
  report : ∀ report, outcome = some (.ok report) → report.completedOrder = completions trace

namespace Booked

variable {trace : List Event} {ledger ledger' : Ledger} {outcome outcome' : Option Outcome}

theorem congr (h : Booked trace ledger outcome) {event : Option Event}
    (hevent : ∀ task, event ≠ some (.complete task))
    (hledger : ledger'.completedOrder = ledger.completedOrder)
    (houtcome : ∀ report, outcome' = some (.ok report) →
      outcome = some (.ok report) ∨ report.completedOrder = ledger.completedOrder) :
    Booked (trace ++ event.toList) ledger' outcome' := by
  have hsame : completions (trace ++ event.toList) = completions trace := by
    rw [completions_append]
    cases event with
    | none => exact List.append_nil _
    | some event =>
        cases event with
        | complete task => exact absurd rfl (hevent task)
        | start | finish | fail => exact List.append_nil _
  refine ⟨by rw [hledger, hsame, h.ledger], fun report hreport => ?_⟩
  rw [hsame]
  rcases houtcome report hreport with hbefore | hnow
  · exact h.report report hbefore
  · exact hnow.trans h.ledger

theorem complete (h : Booked trace ledger outcome) (task : TaskId) (running : ℕ) :
    Booked (trace ++ (some (Event.complete task)).toList) (ledger.complete task running) none where
  ledger := by
    rw [completions_append, ← h.ledger]
    rfl
  report _ hreport := by cases hreport

/-- The verdict reports what is in the books. -/
theorem of_verdict {graph : DependencyGraph} {workerCount : ℕ} {report : ExecutionReport}
    (h : ledger.verdict graph workerCount = some (.ok report)) :
    report.completedOrder = ledger.completedOrder := by
  unfold Ledger.verdict at h
  split_ifs at h <;> cases h
  rfl

end Booked

namespace WorkStealingPool

variable {pool : WorkStealingPool} {graph : DependencyGraph} {jobs : OrderedSet TaskId}

/-- How the coordinator has left its loop. -/
def Control.outcome? : Control → Option Outcome
  | .stop outcome | .stopping outcome | .drop outcome | .join outcome | .returned outcome =>
      some outcome
  | .dispatch _ | .submitting _ _ | .check | .receive | .panicked => none

variable {trace : List Event}

theorem booked_step {s s' : Execution pool} {event : Option Event}
    (h : Booked trace s.ledger s.control.outcome?) (hstep : Step graph s event s') :
    Booked (trace ++ event.toList) s'.ledger s'.control.outcome? := by
  cases hstep with
  | worker w hstep =>
      refine h.congr (fun task heq => ?_) rfl fun report hreport => .inl hreport
      subst heq
      cases hstep
  | complete => exact h.complete _ _
  | leave hcontrol hverdict =>
      refine h.congr (fun _ heq => by cases heq) rfl fun report hreport => .inr ?_
      cases hreport
      exact Booked.of_verdict hverdict
  | requestShutdown hcontrol | requested hcontrol _ | dropReceiver hcontrol | join hcontrol _ =>
      refine h.congr (fun _ heq => by cases heq) rfl fun report hreport => .inl ?_
      rw [hcontrol]
      exact hreport
  | call => exact h.congr (fun _ heq => by cases heq) rfl fun report hreport => .inl hreport
  | skip | enqueue | noJob | enqueued | dispatched | await | fail | underflow | disconnected =>
      exact h.congr (fun _ heq => by cases heq) rfl fun report hreport => by cases hreport

/-- A coordinator that starts has completed nothing, or has failed. -/
theorem booked_start (pool : WorkStealingPool) (graph : DependencyGraph)
    (jobs : OrderedSet TaskId) :
    Booked [] (Execution.start pool graph jobs).ledger
      (Execution.start pool graph jobs).control.outcome? where
  ledger := rfl
  report report hreport := by
    unfold Execution.start at hreport
    cases hjobs : jobSetMismatch graph jobs with
    | some | none =>
        rw [hjobs] at hreport
        cases hreport

theorem booked {s : (system pool graph jobs).State} (run : (system pool graph jobs).Run trace s) :
    Booked trace s.ledger s.control.outcome? := by
  let P := fun trace (s : (system pool graph jobs).State) =>
    Booked trace s.ledger s.control.outcome?
  refine System.Run.invariant (P := P) run ?_ fun _ _ _ _ h hstep => booked_step h hstep
  rintro s rfl
  exact booked_start pool graph jobs

/-- **The pool completes the tasks in a task order.** -/
theorem taskOrder_of_run (pool : WorkStealingPool) {builder : TaskGraphBuilder}
    (hbuild : builder.build = some (.ok graph)) {s : (system pool graph jobs).State}
    (run : (system pool graph jobs).Run trace s) {report : ExecutionReport}
    (hreturned : s.control = .returned (.ok report)) : graph.TaskOrder report.completedOrder := by
  obtain ⟨-, closed, acyclic⟩ := TaskGraphBuilder.of_build hbuild
  obtain ⟨phase, hschedule, -⟩ := (simulation pool closed acyclic jobs).run run
  have hreport := (booked run).report report (by rw [hreturned]; rfl)
  have hperm := ((executes_graph pool hbuild jobs).all_completed trace s run report hreturned).1
  refine ⟨hperm, ?_⟩
  rw [hreport]
  exact Schedule.inOrder hschedule

end WorkStealingPool

namespace WorkerPool

variable {pool : WorkerPool} {graph : DependencyGraph} {jobs : OrderedSet TaskId}

/-- How the coordinator has left its loop. -/
def Control.outcome? : Control → Option Outcome
  | .stop _ outcome | .join outcome | .returned outcome => some outcome
  | .dispatch _ | .check | .receive | .panicked => none

variable {trace : List Event}

theorem booked_step {s s' : Execution pool} {event : Option Event}
    (h : Booked trace s.ledger s.control.outcome?) (hstep : Step graph s event s') :
    Booked (trace ++ event.toList) s'.ledger s'.control.outcome? := by
  cases hstep with
  | worker w hstep =>
      have hevent : ∀ task, event ≠ some (.complete task) := by
        intro task heq
        subst heq
        cases hstep
      cases hstep <;> exact h.congr hevent rfl fun report hreport => .inl hreport
  | complete => exact h.complete _ _
  | leave hcontrol hverdict =>
      refine h.congr (fun _ heq => by cases heq) rfl fun report hreport => .inr ?_
      cases hreport
      exact Booked.of_verdict hverdict
  | sendShutdown hcontrol _ | shutdownFails hcontrol _ | dropSender hcontrol | join hcontrol _ =>
      refine h.congr (fun _ heq => by cases heq) rfl fun report hreport => .inl ?_
      rw [hcontrol]
      exact hreport
  | full | skip | send | sendFails | noJob | dispatched | await | fail | underflow
  | disconnected =>
      exact h.congr (fun _ heq => by cases heq) rfl fun report hreport => by cases hreport

theorem booked_start (pool : WorkerPool) (graph : DependencyGraph) (jobs : OrderedSet TaskId) :
    Booked [] (Execution.start pool graph jobs).ledger
      (Execution.start pool graph jobs).control.outcome? where
  ledger := rfl
  report report hreport := by
    unfold Execution.start at hreport
    cases hjobs : jobSetMismatch graph jobs with
    | some | none =>
        rw [hjobs] at hreport
        cases hreport

theorem booked {s : (system pool graph jobs).State} (run : (system pool graph jobs).Run trace s) :
    Booked trace s.ledger s.control.outcome? := by
  let P := fun trace (s : (system pool graph jobs).State) =>
    Booked trace s.ledger s.control.outcome?
  refine System.Run.invariant (P := P) run ?_ fun _ _ _ _ h hstep => booked_step h hstep
  rintro s rfl
  exact booked_start pool graph jobs

/-- **The pool completes the tasks in a task order.** -/
theorem taskOrder_of_run (pool : WorkerPool) {builder : TaskGraphBuilder}
    (hbuild : builder.build = some (.ok graph)) {s : (system pool graph jobs).State}
    (run : (system pool graph jobs).Run trace s) {report : ExecutionReport}
    (hreturned : s.control = .returned (.ok report)) : graph.TaskOrder report.completedOrder := by
  obtain ⟨-, closed, acyclic⟩ := TaskGraphBuilder.of_build hbuild
  obtain ⟨phase, hschedule, -⟩ := (simulation pool closed acyclic jobs).run run
  have hreport := (booked run).report report (by rw [hreturned]; rfl)
  have hperm := ((executes_graph pool hbuild jobs).all_completed trace s run report hreturned).1
  refine ⟨hperm, ?_⟩
  rw [hreport]
  exact Schedule.inOrder hschedule

end WorkerPool

/-! ## The deterministic scheduler -/

namespace DeterministicScheduler

/-- Runs the jobs in order; `returns` says which of them return.  `none` is a panic of the caller:
there is no job for a task. -/
def runJobs (returns : TaskId → Bool) :
    OrderedSet TaskId → List TaskId → List TaskId → Option Outcome
  | _, completedOrder, [] => some (.ok ⟨completedOrder, 1⟩)
  | jobs, completedOrder, task :: rest =>
      if task ∈ jobs then
        if returns task then runJobs returns (jobs.erase task) (completedOrder ++ [task]) rest
        else some (.error (.taskFailed task))
      else none

/-- Executes every graph task in stable topological order. -/
def execute (graph : DependencyGraph) (jobs : OrderedSet TaskId) (returns : TaskId → Bool) :
    Option Outcome :=
  match jobSetMismatch graph jobs with
  | some error => some (.error error)
  | none =>
      match graph.topologicalOrder with
      | some (.ok order) => runJobs returns jobs [] order
      | _ => none

variable {returns : TaskId → Bool} {jobs : OrderedSet TaskId} {order : List TaskId}
  {report : ExecutionReport}

/-- Where every task has a job, the jobs run in order up to the first that does not return. -/
theorem runJobs_eq {completedOrder : List TaskId} (hnodup : order.Nodup)
    (hjobs : ∀ task ∈ order, task ∈ jobs) :
    runJobs returns jobs completedOrder order = some
      (match order.find? fun task => !returns task with
        | none => .ok ⟨completedOrder ++ order, 1⟩
        | some task => .error (.taskFailed task)) := by
  induction order generalizing jobs completedOrder with
  | nil => simp [runJobs]
  | cons task rest ih =>
      obtain ⟨hnew, hrest⟩ := List.nodup_cons.mp hnodup
      obtain ⟨hjob, hothers⟩ := List.forall_mem_cons.mp hjobs
      rw [runJobs, if_pos hjob, List.find?_cons]
      cases hreturns : returns task with
      | false => simp
      | true =>
          have hleft : ∀ other ∈ rest, other ∈ jobs.erase task := fun other hother =>
            OrderedSet.mem_erase.mpr ⟨hothers other hother, fun heq => hnew (heq ▸ hother)⟩
          simp [ih hrest hleft]

variable {graph : DependencyGraph}

/-- With a job for each task the scheduler runs the jobs in the order that the search finds. -/
theorem execute_eq (closed : graph.Closed) (acyclic : Acyclic graph.edges.Has)
    (hjobs : graph.taskIds = jobs) :
    ∃ order, graph.topologicalOrder = some (.ok order) ∧ execute graph jobs returns = some
      (match order.find? fun task => !returns task with
        | none => .ok ⟨order, 1⟩
        | some task => .error (.taskFailed task)) := by
  rcases DependencyGraph.topologicalOrder_eq closed with ⟨-, order, horder⟩ | ⟨cyclic, -⟩
  · have hmatch : jobSetMismatch graph jobs = none := if_pos hjobs
    have hperm := (DependencyGraph.topologicalOrder_least closed horder).1.perm
    refine ⟨order, horder, ?_⟩
    unfold execute
    rw [hmatch, horder]
    refine (runJobs_eq (hperm.nodup_iff.mpr DependencyGraph.taskIds_nodup) ?_).trans rfl
    intro task htask
    rw [← hjobs]
    exact hperm.mem_iff.mp htask
  · exact absurd acyclic cyclic

/-- With other jobs it runs none. -/
theorem execute_of_mismatch {error : PoolError} (h : jobSetMismatch graph jobs = some error) :
    execute graph jobs returns = some (.error error) := by
  unfold execute
  rw [h]

end DeterministicScheduler

/-! ## Graphs that are built -/

/-- **Task orders.**  Where every dependency is a task, the search succeeds exactly if the explicit
and the conflict edges are acyclic together; it then finds the least task order.  A graph that was
built orders conflicting tasks by its edges, every execution of it by a pool completes the tasks in
some task order, and the deterministic scheduler runs the matching jobs in the least one: it reports
that order when all of them return, and else the first in it that does not. -/
theorem topologicalOrder_exact (builder : TaskGraphBuilder) :
    (¬ builder.Known → ∃ error, builder.unknownDependency = some error ∧
      builder.build = some (.error error)) ∧
    (builder.Known →
      ((∃ order, builder.graph.topologicalOrder = some (.ok order)) ↔
        Acyclic fun first second => builder.Explicit first second ∨
          (first < second ∧ builder.Conflicting first second)) ∧
      ∀ order, builder.graph.topologicalOrder = some (.ok order) →
        builder.graph.TaskOrder order ∧ ∀ other, builder.graph.TaskOrder other → order ≤ other) ∧
    ∀ graph, builder.build = some (.ok graph) →
      (∀ first second, first ≠ second → builder.Conflicting first second →
        graph.edges.Has first second ∨ graph.edges.Has second first) ∧
      (∀ (pool : WorkStealingPool) jobs trace
        (s : (WorkStealingPool.system pool graph jobs).State) report,
        (WorkStealingPool.system pool graph jobs).Run trace s →
        s.control = .returned (.ok report) → graph.TaskOrder report.completedOrder) ∧
      (∀ (pool : WorkerPool) jobs trace (s : (WorkerPool.system pool graph jobs).State) report,
        (WorkerPool.system pool graph jobs).Run trace s →
        s.control = .returned (.ok report) → graph.TaskOrder report.completedOrder) ∧
      ∃ least, graph.TaskOrder least ∧ (∀ other, graph.TaskOrder other → least ≤ other) ∧
        ∀ jobs returns,
          (graph.taskIds = jobs → (∀ task ∈ least, returns task = true) →
            DeterministicScheduler.execute graph jobs returns = some (.ok ⟨least, 1⟩)) ∧
          (graph.taskIds = jobs → ∀ done task rest, least = done ++ task :: rest →
            (∀ before ∈ done, returns before = true) → returns task = false →
            DeterministicScheduler.execute graph jobs returns =
              some (.error (.taskFailed task))) ∧
          ∀ error, jobSetMismatch graph jobs = some error →
            DeterministicScheduler.execute graph jobs returns = some (.error error) := by
  refine ⟨fun unknown => ?_, fun known => ?_, fun graph hbuild => ?_⟩
  · cases herror : builder.unknownDependency with
    | none => exact absurd (TaskGraphBuilder.unknownDependency_eq_none.mp herror) unknown
    | some error => exact ⟨error, rfl, by rw [TaskGraphBuilder.build, herror]⟩
  · have closed := TaskGraphBuilder.closed_graph known
    have hedges : builder.graph.edges.Has = fun first second =>
        builder.Explicit first second ∨ (first < second ∧ builder.Conflicting first second) := by
      funext first second
      exact propext TaskGraphBuilder.has_graph
    -- the search ends with an order exactly if the edges are acyclic
    rw [← hedges]
    refine ⟨?_, fun order horder => DependencyGraph.topologicalOrder_least closed horder⟩
    rcases DependencyGraph.topologicalOrder_eq closed with
      ⟨acyclic, order, horder⟩ | ⟨cyclic, tasks, hcycle⟩
    · exact iff_of_true ⟨order, horder⟩ acyclic
    · refine iff_of_false ?_ cyclic
      rintro ⟨order, horder⟩
      cases hcycle.symm.trans horder
  · obtain ⟨hgraph, closed, acyclic⟩ := TaskGraphBuilder.of_build hbuild
    refine ⟨fun first second hne hconflict => ?_, ?_, ?_, ?_⟩
    · rw [hgraph]
      exact TaskGraphBuilder.has_of_conflicting hne hconflict
    · exact fun pool jobs trace s report run hreturned =>
        pool.taskOrder_of_run hbuild run hreturned
    · exact fun pool jobs trace s report run hreturned =>
        pool.taskOrder_of_run hbuild run hreturned
    · have hexecute := fun jobs returns =>
        @DeterministicScheduler.execute_eq returns jobs graph closed acyclic
      obtain ⟨least, hleast, -⟩ := hexecute graph.taskIds (fun _ => true) rfl
      have hsearch := DependencyGraph.topologicalOrder_least closed hleast
      -- the scheduler follows the order of the search up to a job that does not return
      have hruns : ∀ jobs returns, graph.taskIds = jobs →
          DeterministicScheduler.execute graph jobs returns = some
            (match least.find? fun task => !returns task with
              | none => .ok ⟨least, 1⟩
              | some task => .error (.taskFailed task)) := by
        intro jobs returns hjobs
        obtain ⟨order, horder, hresult⟩ := hexecute jobs returns hjobs
        cases hleast.symm.trans horder
        exact hresult
      refine ⟨least, hsearch.1, hsearch.2, fun jobs returns => ⟨?_, ?_, ?_⟩⟩
      · intro hjobs hall
        have hnone : least.find? (fun task => !returns task) = none := by simpa using hall
        rw [hruns jobs returns hjobs, hnone]
      · intro hjobs done task rest hsplit hbefore hfails
        have hfirst : least.find? (fun task => !returns task) = some task := by
          rw [hsplit, List.find?_append, List.find?_eq_none.mpr (by simpa using hbefore)]
          simp [hfails]
        rw [hruns jobs returns hjobs, hfirst]
      · exact fun error hmismatch => DeterministicScheduler.execute_of_mismatch hmismatch

end Jadren.Concurrency
