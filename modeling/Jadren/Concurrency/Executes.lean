import Jadren.Concurrency.Coordinator

/-!
# What an execution guarantees

`Executes` is what a pool promises of the executions of a graph that `build` has
returned, over every run of its system.  A pool that follows the schedules of the
graph keeps the promise (`executes_of_simulation`): what is left to say of it is
how its states show what is running, what its coordinator has booked and what it
has returned.
-/

namespace Jadren.Concurrency

open Schedule

/-- What an observer sees of the states of a pool. -/
structure View (S : System Event) where
  /-- Some worker is running the job of the task. -/
  running : S.State → TaskId → Prop
  /-- The coordinator is in its loop. -/
  looping : S.State → Prop
  ledger : S.State → Ledger
  returned : S.State → Outcome → Prop

/-- Some task has not completed, none is running, and none is ready: no task at all, or, while the
coordinator is in its loop, no task that it has not submitted before. -/
def View.Stuck {S : System Event} (view : View S) (graph : DependencyGraph) (s : S.State) : Prop :=
  (∃ task, task ∈ graph.taskIds ∧ task ∉ (view.ledger s).completed) ∧ (view.ledger s).running = 0 ∧
    ((∀ task, task ∉ graph.readyTasks (view.ledger s).completed) ∨
      (view.looping s ∧ ∀ task, task ∈ graph.readyTasks (view.ledger s).completed →
        task ∈ (view.ledger s).submitted))

/-- The executions of the graph of a builder, as they should be. -/
structure Executes (builder : TaskGraphBuilder) (graph : DependencyGraph) (S : System Event)
    (view : View S) : Prop where
  starts_once : ∀ trace s, S.Run trace s → ∀ task, trace.count (.start task) ≤ 1
  after_dependencies : ∀ trace s, S.Run trace s → ∀ earlier task later,
    trace = earlier ++ .start task :: later → ∀ dependency, graph.edges.Has dependency task →
      .finish dependency true ∈ earlier ∧ .complete dependency ∈ earlier
  not_conflicting : ∀ s, S.Reachable s → ∀ first second, first ≠ second → view.running s first →
    view.running s second → ¬ builder.Conflicting first second
  all_completed : ∀ trace s, S.Run trace s → ∀ report, view.returned s (.ok report) →
    report.completedOrder.Perm graph.taskIds.elems ∧ ∀ task, task ∈ graph.taskIds →
      trace.count (.start task) = 1 ∧ trace.count (.finish task true) = 1 ∧
        trace.count (.complete task) = 1
  never_stuck : ∀ s, S.Reachable s → ¬ view.Stuck graph s

theorem accessesConflict_comm (left right : List ResourceAccess) :
    accessesConflict left right = accessesConflict right left := by
  have hmode : ∀ a b : AccessMode, a.conflicts b = b.conflicts a := by
    intro a b
    cases a <;> cases b <;> rfl
  rw [Bool.eq_iff_iff]
  simp only [accessesConflict, List.any_eq_true, Bool.and_eq_true, decide_eq_true_eq]
  constructor <;>
  · rintro ⟨a, ha, b, hb, hresource, hconflict⟩
    exact ⟨b, hb, a, ha, hresource.symm, by rw [hmode]; exact hconflict⟩

/-- Two tasks with conflicting accesses are joined by an edge, one way or the other. -/
theorem TaskGraphBuilder.has_of_conflicting {builder : TaskGraphBuilder} {first second : TaskId}
    (hne : first ≠ second) (h : builder.Conflicting first second) :
    builder.graph.edges.Has first second ∨ builder.graph.edges.Has second first := by
  obtain ⟨left, right, hleft, hright, hconflict⟩ := h
  rcases Nat.lt_or_gt_of_ne hne with hlt | hgt
  · exact .inl (has_graph.mpr (.inr ⟨hlt, left, right, hleft, hright, hconflict⟩))
  · rw [accessesConflict_comm] at hconflict
    exact .inr (has_graph.mpr (.inr ⟨hgt, right, left, hright, hleft, hconflict⟩))

/-- A task that is finished well had its job return. -/
private theorem returned_of_completed {phase : Phase} (h : phase = .completed) :
    phase.Started = true ∧ phase.Returned = true := by
  subst h
  exact ⟨rfl, rfl⟩

/-- While the coordinator is in its loop and nothing is running, there is a task to submit. -/
theorem Looping.exists_unsubmitted {graph : DependencyGraph} {ledger : Ledger}
    {phase : TaskId → Phase} {hand : Option TaskId} {todo : List TaskId}
    (h : Looping graph ledger phase hand todo) (closed : graph.Closed)
    (acyclic : Acyclic graph.edges.Has)
    (hhand : ∀ task, hand = some task → task ∈ graph.readyTasks ledger.completed)
    {task : TaskId} (htask : task ∈ graph.taskIds) (hmissing : task ∉ ledger.completed)
    (hrunning : ledger.running = 0) :
    ∃ ready, ready ∈ graph.readyTasks ledger.completed ∧ ready ∉ ledger.submitted := by
  cases hand with
  | some other =>
      exact ⟨other, hhand other rfl, fun hmem => (h.books.submitted other hmem).2.2 rfl⟩
  | none =>
      obtain ⟨ready, hready⟩ := exists_ready closed acyclic htask hmissing
      refine ⟨ready, hready, fun hsubmitted => ?_⟩
      have hcompleted := h.books.submitted_completed hrunning hsubmitted
      exact (DependencyGraph.mem_readyTasks.mp hready).2.1 hcompleted

/-- A pool that follows the schedules of a graph executes it as promised. -/
theorem executes_of_simulation {builder : TaskGraphBuilder} {graph : DependencyGraph}
    (hbuild : builder.build = some (.ok graph)) {S : System Event} {view : View S}
    (sim : System.Simulation S (Schedule.system graph))
    (hrunning : ∀ s phase, sim.rel s phase → ∀ task, view.running s task → phase task = .running)
    (hreturned : ∀ s phase, sim.rel s phase → ∀ report, view.returned s (.ok report) →
      Sound graph phase (.ok report))
    (hlooping : ∀ s phase, sim.rel s phase → view.looping s →
      ∃ hand todo, Looping graph (view.ledger s) phase hand todo ∧
        ∀ task, hand = some task → task ∈ graph.readyTasks (view.ledger s).completed) :
    Executes builder graph S view := by
  obtain ⟨hgraph, closed, acyclic⟩ := TaskGraphBuilder.of_build hbuild
  refine
    { starts_once := ?_
      after_dependencies := ?_
      not_conflicting := ?_
      all_completed := ?_
      never_stuck := ?_ }
  · intro trace s run task
    obtain ⟨phase, hschedule, -⟩ := sim.run run
    rw [(recorded hschedule).starts task]
    split <;> omega
  · intro trace s run earlier task later htrace dependency hedge
    obtain ⟨phase, hschedule, -⟩ := sim.run run
    have hcomplete := (recorded hschedule).ordered earlier task later htrace dependency hedge
    refine ⟨?_, hcomplete⟩
    -- what was recorded before the start had finished before
    obtain ⟨phase', hearlier⟩ := System.Run.earlier (htrace ▸ hschedule)
    have hphase : phase' dependency = .completed := by
      by_contra hne
      have hcount := (recorded hearlier).completes dependency
      rw [if_neg hne] at hcount
      exact List.count_eq_zero.mp hcount hcomplete
    have hcount := (recorded hearlier).returns dependency
    rw [if_pos (returned_of_completed hphase).2] at hcount
    exact List.count_pos_iff.mp (by omega)
  · rintro s ⟨trace, run⟩ first second hne hfirst hsecond hconflict
    obtain ⟨phase, hschedule, hrel⟩ := sim.run run
    have hrecorded := recorded hschedule
    subst hgraph
    rcases TaskGraphBuilder.has_of_conflicting hne hconflict with hedge | hedge
    · exact hrecorded.not_both_started hedge (hrunning s phase hrel first hfirst)
        (hrunning s phase hrel second hsecond)
    · exact hrecorded.not_both_started hedge (hrunning s phase hrel second hsecond)
        (hrunning s phase hrel first hfirst)
  · intro trace s run report hreport
    obtain ⟨phase, hschedule, hrel⟩ := sim.run run
    have hrecorded := recorded hschedule
    obtain ⟨hperm, hcompleted⟩ := hreturned s phase hrel report hreport
    refine ⟨hperm, ?_⟩
    intro task htask
    have hphase := hcompleted task htask
    obtain ⟨hstarted, hreturned'⟩ := returned_of_completed hphase
    rw [hrecorded.starts, hrecorded.returns, hrecorded.completes, if_pos hstarted,
      if_pos hreturned', if_pos hphase]
    exact ⟨rfl, rfl, rfl⟩
  · rintro s ⟨trace, run⟩ ⟨⟨task, htask, hmissing⟩, hzero, hready⟩
    obtain ⟨phase, -, hrel⟩ := sim.run run
    rcases hready with hnone | ⟨hloop, hall⟩
    · obtain ⟨ready, hmem⟩ := exists_ready closed acyclic htask hmissing
      exact hnone ready hmem
    · obtain ⟨hand, todo, hlooping', hhand⟩ := hlooping s phase hrel hloop
      obtain ⟨ready, hmem, hnew⟩ :=
        hlooping'.exists_unsubmitted closed acyclic hhand htask hmissing hzero
      exact hnew (hall ready hmem)

end Jadren.Concurrency
