import Jadren.Library.LinearExtension
import Jadren.Library.Transition
import Jadren.Concurrency.Order

/-!
# Schedules

What an execution of a task graph is meant to be, without workers or queues: a
task is submitted once all its dependencies have completed, then started, then
it finishes, and its completion or its failure is recorded.  The two pools are
shown to be implementations of this system; what follows from it is proved here
once for both.

`Recorded` connects the phase of every task with the events so far.  The tasks of
a graph with acyclic edges are never stuck (`exists_ready`), and no two tasks
joined by an edge are ever under way at the same time (`not_both_started`).
-/

namespace Jadren.Concurrency

open Function List

/-- What is observable of an execution. -/
inductive Event
  /-- A worker starts the job of a task. -/
  | start (task : TaskId)
  /-- The job returns (`true`) or panics. -/
  | finish (task : TaskId) (ok : Bool)
  /-- The coordinator records the completion of a task. -/
  | complete (task : TaskId)
  /-- The coordinator learns that the job of a task has panicked. -/
  | fail (task : TaskId)
  deriving DecidableEq, Repr

namespace Schedule

/-- How far a task has come. -/
inductive Phase
  | waiting
  | queued
  | running
  | finished (ok : Bool)
  | completed
  | failed
  deriving DecidableEq, Repr

/-- The job of the task has been started. -/
def Phase.Started : Phase → Bool
  | .waiting | .queued => false
  | .running | .finished _ | .completed | .failed => true

/-- The job of the task has returned. -/
def Phase.Returned : Phase → Bool
  | .finished true | .completed => true
  | .waiting | .queued | .running | .finished false | .failed => false

inductive Step (graph : DependencyGraph) :
    (TaskId → Phase) → Option Event → (TaskId → Phase) → Prop
  | submit {phase : TaskId → Phase} {task : TaskId} (htask : task ∈ graph.taskIds)
      (hphase : phase task = .waiting)
      (hready : ∀ dependency, graph.edges.Has dependency task → phase dependency = .completed) :
      Step graph phase none (update phase task .queued)
  | start {phase : TaskId → Phase} {task : TaskId} (hphase : phase task = .queued) :
      Step graph phase (some (.start task)) (update phase task .running)
  | finish {phase : TaskId → Phase} {task : TaskId} (ok : Bool) (hphase : phase task = .running) :
      Step graph phase (some (.finish task ok)) (update phase task (.finished ok))
  | complete {phase : TaskId → Phase} {task : TaskId} (hphase : phase task = .finished true) :
      Step graph phase (some (.complete task)) (update phase task .completed)
  | fail {phase : TaskId → Phase} {task : TaskId} (hphase : phase task = .finished false) :
      Step graph phase (some (.fail task)) (update phase task .failed)

/-- The schedules of a graph. -/
def system (graph : DependencyGraph) : System Event where
  State := TaskId → Phase
  initial phase := ∀ task, phase task = .waiting
  step := Step graph

/-- The events so far say how far every task has come. -/
structure Recorded (graph : DependencyGraph) (trace : List Event) (phase : TaskId → Phase) :
    Prop where
  submitted : ∀ task, phase task ≠ .waiting → task ∈ graph.taskIds ∧
    ∀ dependency, graph.edges.Has dependency task → phase dependency = .completed
  starts : ∀ task, trace.count (.start task) = if (phase task).Started then 1 else 0
  returns : ∀ task, trace.count (.finish task true) = if (phase task).Returned then 1 else 0
  completes : ∀ task, trace.count (.complete task) = if phase task = .completed then 1 else 0
  ordered : ∀ earlier task later, trace = earlier ++ .start task :: later →
    ∀ dependency, graph.edges.Has dependency task → .complete dependency ∈ earlier

variable {graph : DependencyGraph} {trace : List Event} {phase : TaskId → Phase}

/-- A step moves one task on; nothing that has completed changes. -/
private theorem Step.completed {phase' : TaskId → Phase} {event : Option Event}
    (h : Step graph phase event phase') {task : TaskId} (htask : phase task = .completed) :
    phase' task = .completed := by
  cases h with
  | submit _ hphase _ | start hphase | finish _ hphase | complete hphase | fail hphase =>
      rw [update_of_ne ?_]
      · exact htask
      · rintro rfl
        rw [htask] at hphase
        cases hphase

/-- Completions recorded before stay recorded; only a new start asks for anything. -/
private theorem Recorded.ordered_append (h : Recorded graph trace phase) {added : Event}
    (hnew : ∀ task, added = .start task → ∀ dependency, graph.edges.Has dependency task →
      phase dependency = .completed) :
    ∀ earlier task later, trace ++ [added] = earlier ++ .start task :: later →
      ∀ dependency, graph.edges.Has dependency task → .complete dependency ∈ earlier := by
  intro earlier task later hsplit dependency hedge
  rcases append_singleton_eq hsplit with ⟨rest, htrace⟩ | ⟨rfl, hadded⟩
  · exact h.ordered earlier task rest htrace dependency hedge
  · have hcompleted := h.completes dependency
    rw [if_pos (hnew task hadded.symm dependency hedge)] at hcompleted
    exact count_pos_iff.mp (by omega)

theorem Recorded.step (h : Recorded graph trace phase) {phase' : TaskId → Phase}
    {event : Option Event} (hstep : Step graph phase event phase') :
    Recorded graph (trace ++ event.toList) phase' := by
  have hkeep : ∀ task, phase task = .completed → phase' task = .completed :=
    fun task => hstep.completed
  -- the dependencies of a task that was submitted before are still complete
  have hsubmitted : ∀ task, phase task ≠ .waiting → task ∈ graph.taskIds ∧
      ∀ dependency, graph.edges.Has dependency task → phase' dependency = .completed :=
    fun task htask => ⟨(h.submitted task htask).1, fun dependency hedge =>
      hkeep dependency ((h.submitted task htask).2 dependency hedge)⟩
  cases hstep with
  | @submit moved htask hphase hready =>
      rw [Option.toList_none, append_nil]
      refine ⟨?_, ?_, ?_, ?_, h.ordered⟩
      · intro task hwaiting
        by_cases heq : task = moved
        · subst heq
          exact ⟨htask, fun dependency hedge => hkeep dependency (hready dependency hedge)⟩
        · rw [update_of_ne heq] at hwaiting
          exact hsubmitted task hwaiting
      all_goals
        intro task
        by_cases heq : task = moved
        · subst heq
          simp [h.starts, h.returns, h.completes, hphase, Phase.Started, Phase.Returned]
        · rw [update_of_ne heq]
          simp only [h.starts, h.returns, h.completes]
  | @start moved hphase | @finish moved ok hphase | @complete moved hphase
  | @fail moved hphase =>
      have hmoved : phase moved ≠ .waiting := by simp [hphase]
      refine ⟨?_, ?_, ?_, ?_, h.ordered_append ?_⟩
      · intro task hwaiting
        by_cases heq : task = moved
        · exact heq ▸ hsubmitted moved hmoved
        · rw [update_of_ne heq] at hwaiting
          exact hsubmitted task hwaiting
      · intro task
        have hcount := h.starts task
        by_cases heq : task = moved
        · subst heq
          rw [hphase] at hcount
          simpa [count_append, Phase.Started] using hcount
        · rw [update_of_ne heq, Option.toList_some, count_append, hcount]
          simp [Ne.symm heq]
      · intro task
        have hcount := h.returns task
        by_cases heq : task = moved
        · subst heq
          rw [hphase] at hcount
          first
          | simpa [count_append, Phase.Returned] using hcount
          | cases ok <;> simpa [count_append, Phase.Returned] using hcount
        · rw [update_of_ne heq, Option.toList_some, count_append, hcount]
          simp [Ne.symm heq]
      · intro task
        have hcount := h.completes task
        by_cases heq : task = moved
        · subst heq
          rw [hphase] at hcount
          simpa [count_append] using hcount
        · rw [update_of_ne heq, Option.toList_some, count_append, hcount]
          simp [Ne.symm heq]
      · intro task hadded dependency hedge
        cases hadded <;> exact (h.submitted _ hmoved).2 dependency hedge

/-- The events of a schedule say how far every task has come. -/
theorem recorded (run : (system graph).Run trace phase) : Recorded graph trace phase := by
  refine run.invariant ?_ ?_
  · intro phase hinitial
    exact
      { submitted := fun task htask => absurd (hinitial task) htask
        starts := fun task => by simp [hinitial task, Phase.Started]
        returns := fun task => by simp [hinitial task, Phase.Returned]
        completes := fun task => by simp [hinitial task]
        ordered := fun earlier task later h => by simp at h }
  · intro trace phase event phase' h hstep
    exact h.step hstep

/-- Only a job that panicked lets its task fail. -/
def FailuresSeen (trace : List Event) (phase : TaskId → Phase) : Prop :=
  ∀ task, phase task = .failed ∨ phase task = .finished false → .finish task false ∈ trace

theorem FailuresSeen.step (h : FailuresSeen trace phase) {phase' : TaskId → Phase}
    {event : Option Event} (hstep : Step graph phase event phase') :
    FailuresSeen (trace ++ event.toList) phase' := by
  intro task hfailed
  rw [mem_append]
  cases hstep with
  | @submit moved _ _ _ | @start moved _ | @complete moved _ =>
      by_cases heq : task = moved
      · subst heq
        simp at hfailed
      · rw [update_of_ne heq] at hfailed
        exact .inl (h task hfailed)
  | @finish moved ok _ =>
      by_cases heq : task = moved
      · subst heq
        obtain rfl : ok = false := by simpa using hfailed
        exact .inr (mem_singleton_self _)
      · rw [update_of_ne heq] at hfailed
        exact .inl (h task hfailed)
  | @fail moved hphase =>
      by_cases heq : task = moved
      · exact .inl (h task (.inr (heq ▸ hphase)))
      · rw [update_of_ne heq] at hfailed
        exact .inl (h task hfailed)

theorem failuresSeen (run : (system graph).Run trace phase) : FailuresSeen trace phase := by
  refine run.invariant ?_ ?_
  · intro phase hinitial task h
    rw [hinitial task] at h
    rcases h with h | h <;> cases h
  · intro trace phase event phase' h hstep
    exact h.step hstep

/-- A task starts after what it depends on is done, so it is not under way together with it. -/
theorem Recorded.not_both_started (h : Recorded graph trace phase) {first second : TaskId}
    (hedge : graph.edges.Has first second) (hfirst : phase first = .running) :
    phase second ≠ .running := by
  intro hsecond
  have hdone := (h.submitted second (by simp [hsecond])).2 first hedge
  rw [hfirst] at hdone
  cases hdone

/-- If the edges are acyclic then some task is ready as long as some task has not completed: the
first one in the order of the edges. -/
theorem exists_ready (closed : graph.Closed) (acyclic : Acyclic graph.edges.Has)
    {completed : OrderedSet TaskId} {task : TaskId} (htask : task ∈ graph.taskIds)
    (hmissing : task ∉ completed) : ∃ ready, ready ∈ graph.readyTasks completed := by
  let missing := graph.taskIds.elems.filter fun other => decide (other ∉ completed)
  have hmem : ∀ other, other ∈ missing ↔ other ∈ graph.taskIds ∧ other ∉ completed := by
    intro other
    simp [missing, OrderedSet.mem_def]
  obtain ⟨first, hfirst, hnone⟩ := acyclic.exists_first
    (ne_nil_of_mem ((hmem task).mpr ⟨htask, hmissing⟩))
  obtain ⟨hfirstTask, hfirstMissing⟩ := (hmem first).mp hfirst
  refine ⟨first, DependencyGraph.mem_readyTasks.mpr ⟨hfirstTask, hfirstMissing, ?_⟩⟩
  intro dependency hedge
  by_contra hdependency
  exact hnone dependency ((hmem dependency).mpr ⟨(closed _ _ hedge).1, hdependency⟩) hedge

end Schedule

end Jadren.Concurrency
