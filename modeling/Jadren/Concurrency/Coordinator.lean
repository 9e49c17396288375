import Jadren.Concurrency.Places

/-!
# The coordinator's books

Both pools run the same loop on the calling thread: submit the jobs of ready
tasks that were not submitted yet, stop when every task has completed, otherwise
wait for a completion and record it.  `Ledger` holds the variables of that loop.

`Ledger.Matches` relates them to a schedule.  The task `hand` is one whose job has
been taken out of the job map but that is not recorded as submitted yet; its job
may already be under way.  The results are what the loop relies on: it never
underflows its counter (`running_pos`), and it never finds itself with work left
but nothing running (`running_pos_of_check`).

`Looping` is what holds while the coordinator is in its loop, with one lemma for
each thing the loop does.
-/

namespace Jadren.Concurrency

open Schedule Function List DependencyGraph Option

/-- Scheduler execution failures. -/
inductive PoolError
  | invalidWorkerCount
  | jobSetMismatch (missing extra : OrderedSet TaskId)
  | taskFailed (task : TaskId)
  | workerChannelClosed
  | workerPanicked
  deriving DecidableEq, Repr

structure ExecutionReport where
  completedOrder : List TaskId
  workerCount : ℕ
  deriving DecidableEq, Repr

abbrev Outcome := Except PoolError ExecutionReport

/-- The variables of the coordinator's loop; of the job map only the keys. -/
structure Ledger where
  jobs : OrderedSet TaskId
  submitted : OrderedSet TaskId
  completed : OrderedSet TaskId
  running : ℕ
  completedOrder : List TaskId

/-- The jobs that are missing and those that belong to no task, if there are any. -/
def jobSetMismatch (graph : DependencyGraph) (jobs : OrderedSet TaskId) : Option PoolError :=
  if graph.taskIds = jobs then none
  else
    some
      (.jobSetMismatch (graph.taskIds.retain fun task => decide (task ∉ jobs))
        (jobs.retain fun task => decide (task ∉ graph.taskIds)))

namespace Ledger

def start (jobs : OrderedSet TaskId) : Ledger :=
  { jobs := jobs, submitted := ∅, completed := ∅, running := 0, completedOrder := [] }

/-- The job of a task is taken out of the job map. -/
def removeJob (ledger : Ledger) (task : TaskId) : Ledger :=
  { ledger with jobs := ledger.jobs.erase task }

def submit (ledger : Ledger) (task : TaskId) : Ledger :=
  { ledger with submitted := ledger.submitted.insert task, running := ledger.running + 1 }

/-- A completion is recorded; `running` is what is left of the counter. -/
def complete (ledger : Ledger) (task : TaskId) (running : ℕ) : Ledger :=
  { ledger with
    completed := ledger.completed.insert task
    running := running
    completedOrder := ledger.completedOrder ++ [task] }

/-- Whether the loop ends once everything ready is submitted, and how. -/
def verdict (ledger : Ledger) (graph : DependencyGraph) (workerCount : ℕ) : Option Outcome :=
  if ledger.completed.elems.length = graph.taskIds.elems.length then
    some (.ok ⟨ledger.completedOrder, workerCount⟩)
  else if ledger.running = 0 then some (.error .workerChannelClosed)
  else none

/-- The books agree with the phases of the tasks. -/
structure Matches (graph : DependencyGraph) (ledger : Ledger) (phase : TaskId → Phase)
    (hand : Option TaskId) : Prop where
  submitted_nodup : ledger.submitted.elems.Nodup
  submitted : ∀ task, task ∈ ledger.submitted →
    task ∈ graph.taskIds ∧ phase task ≠ .waiting ∧ hand ≠ some task
  waiting : ∀ task, phase task ≠ .waiting → task ∈ ledger.submitted ∨ hand = some task
  inHand : ∀ task, hand = some task → task ∈ graph.taskIds ∧ phase task ≠ .completed
  completed : ∀ task, task ∈ ledger.completed ↔ phase task = .completed
  completed_nodup : ledger.completed.elems.Nodup
  order : ledger.completedOrder.Perm ledger.completed.elems
  jobs : ∀ task, task ∈ ledger.jobs ↔
    task ∈ graph.taskIds ∧ task ∉ ledger.submitted ∧ hand ≠ some task
  running : ledger.submitted.elems.length = ledger.running + ledger.completed.elems.length
  unfailed : ∀ task, phase task ≠ .failed

namespace Matches

variable {graph : DependencyGraph} {ledger : Ledger} {phase phase' : TaskId → Phase}
  {hand : Option TaskId} {task : TaskId}

theorem start {jobs : OrderedSet TaskId} (hjobs : graph.taskIds = jobs)
    (hphase : ∀ task, phase task = .waiting) : (Ledger.start jobs).Matches graph phase none where
  submitted_nodup := nodup_nil
  submitted := fun task htask => absurd htask (OrderedSet.not_mem_empty task)
  waiting := fun task htask => absurd (hphase task) htask
  inHand := by simp
  completed := by simp [Ledger.start, hphase]
  completed_nodup := nodup_nil
  order := List.Perm.refl _
  jobs := by simp [Ledger.start, ← hjobs]
  running := rfl
  unfailed := by simp [hphase]

/-- The books do not see how far a job under way has come. -/
theorem congr (h : ledger.Matches graph phase hand)
    (hwaiting : ∀ task, phase' task = .waiting ↔ phase task = .waiting)
    (hcompleted : ∀ task, phase' task = .completed ↔ phase task = .completed)
    (hfailed : ∀ task, phase' task ≠ .failed) : ledger.Matches graph phase' hand :=
  { h with
    submitted := fun task htask => by
      simpa only [ne_eq, hwaiting] using h.submitted task htask
    waiting := fun task htask => h.waiting task (by simpa only [ne_eq, hwaiting] using htask)
    inHand := fun task htask => by simpa only [ne_eq, hcompleted] using h.inHand task htask
    completed := fun task => by rw [h.completed, hcompleted]
    unfailed := hfailed }

theorem removeJob (h : ledger.Matches graph phase none) (htask : task ∈ ledger.jobs) :
    (ledger.removeJob task).Matches graph phase (some task) ∧ phase task = .waiting := by
  obtain ⟨hmember, hnew, -⟩ := (h.jobs task).mp htask
  have hwaiting : phase task = .waiting := by
    by_contra hstarted
    rcases h.waiting task hstarted with hsubmitted | hnone
    · exact hnew hsubmitted
    · cases hnone
  refine ⟨{ h with
      submitted := ?_
      waiting := ?_
      inHand := ?_
      jobs := ?_ }, hwaiting⟩
  · intro other hother
    obtain ⟨h₁, h₂, -⟩ := h.submitted other hother
    refine ⟨h₁, h₂, ?_⟩
    rintro heq
    exact hnew (some.inj heq ▸ hother)
  · intro other hother
    rcases h.waiting other hother with hsubmitted | hnone
    · exact .inl hsubmitted
    · cases hnone
  · intro other heq
    obtain rfl := some.inj heq
    exact ⟨hmember, by simp [hwaiting]⟩
  · intro other
    rw [Ledger.removeJob, OrderedSet.mem_erase, h.jobs other]
    simp only [reduceCtorEq, ne_eq, not_false_eq_true, and_true, Option.some.injEq]
    constructor
    · rintro ⟨⟨h₁, h₂⟩, h₃⟩
      exact ⟨h₁, h₂, Ne.symm h₃⟩
    · rintro ⟨h₁, h₂, h₃⟩
      exact ⟨⟨h₁, h₂⟩, Ne.symm h₃⟩

theorem push (h : ledger.Matches graph phase (some task)) (hphase : phase task = .waiting) :
    ledger.Matches graph (update phase task .queued) (some task) := by
  have hother : ∀ {other : TaskId}, other ∈ ledger.submitted → other ≠ task := by
    rintro other hmem rfl
    exact (h.submitted other hmem).2.2 rfl
  refine { h with submitted := ?_, waiting := ?_, inHand := ?_, completed := ?_, unfailed := ?_ }
  · intro other hmem
    rw [update_of_ne (hother hmem)]
    exact h.submitted other hmem
  · intro other hwaiting
    by_cases heq : other = task
    · exact .inr (by rw [heq])
    · rw [update_of_ne heq] at hwaiting
      exact h.waiting other hwaiting
  · intro other heq
    obtain rfl := some.inj heq
    exact ⟨(h.inHand task rfl).1, by simp⟩
  · intro other
    by_cases heq : other = task
    · subst heq
      simp [h.completed, hphase]
    · rw [update_of_ne heq]
      exact h.completed other
  · intro other
    by_cases heq : other = task
    · simp [heq]
    · rw [update_of_ne heq]
      exact h.unfailed other

theorem submit (h : ledger.Matches graph phase (some task)) (hphase : phase task ≠ .waiting) :
    (ledger.submit task).Matches graph phase none := by
  have hnew : task ∉ ledger.submitted := fun hmem => (h.submitted task hmem).2.2 rfl
  have hperm := OrderedSet.perm_insertSorted hnew
  refine
    { h with
      submitted_nodup := hperm.nodup_iff.mpr (nodup_cons.mpr ⟨hnew, h.submitted_nodup⟩)
      submitted := ?_
      waiting := ?_
      inHand := by simp
      jobs := ?_
      running := ?_ }
  · intro other hmem
    rw [Ledger.submit, OrderedSet.mem_insert] at hmem
    rcases hmem with rfl | hmem
    · exact ⟨(h.inHand other rfl).1, hphase, by simp⟩
    · obtain ⟨h₁, h₂, -⟩ := h.submitted other hmem
      exact ⟨h₁, h₂, by simp⟩
  · intro other hother
    rw [Ledger.submit, OrderedSet.mem_insert]
    rcases h.waiting other hother with hmem | heq
    · exact .inl (.inr hmem)
    · exact .inl (.inl (some.inj heq).symm)
  · intro other
    rw [Ledger.submit, OrderedSet.mem_insert]
    change other ∈ ledger.jobs ↔ _
    rw [h.jobs other]
    simp only [ne_eq, Option.some.injEq, not_or, reduceCtorEq, not_false_eq_true, and_true]
    constructor
    · rintro ⟨h₁, h₂, h₃⟩
      exact ⟨h₁, Ne.symm h₃, h₂⟩
    · rintro ⟨h₁, h₂, h₃⟩
      exact ⟨h₁, h₃, Ne.symm h₂⟩
  · have hlength := hperm.length_eq
    have hrunning := h.running
    simp only [Ledger.submit, OrderedSet.insert, length_cons] at hlength ⊢
    omega

theorem completed_subset (h : ledger.Matches graph phase hand) :
    ledger.completed.elems ⊆ ledger.submitted.elems := by
  intro other hmem
  have hphase := (h.completed other).mp hmem
  rcases h.waiting other (by simp [hphase]) with hsubmitted | hhand
  · exact hsubmitted
  · exact absurd hphase (h.inHand other hhand).2

/-- With nothing running, what was submitted has completed. -/
theorem submitted_completed (h : ledger.Matches graph phase hand) (hzero : ledger.running = 0)
    (htask : task ∈ ledger.submitted) : task ∈ ledger.completed := by
  have hrunning := h.running
  have hperm := (subperm_of_subset h.completed_nodup h.completed_subset).perm_of_length_le
    (by omega)
  exact hperm.mem_iff.mpr htask

theorem complete (h : ledger.Matches graph phase none) (hphase : phase task = .finished true)
    {running : ℕ} (hrunning : ledger.running = running + 1) :
    (ledger.complete task running).Matches graph (update phase task .completed) none := by
  have hnew : task ∉ ledger.completed := by
    rw [h.completed, hphase]
    simp
  -- only `task` changes its phase, and it was not among the completed ones
  have hperm := OrderedSet.perm_insertSorted hnew
  refine
    { h with
      submitted := ?_
      waiting := ?_
      inHand := by simp
      completed := ?_
      completed_nodup := hperm.nodup_iff.mpr (nodup_cons.mpr ⟨hnew, h.completed_nodup⟩)
      order := ?_
      running := ?_
      unfailed := ?_ }
  · intro other hmem
    obtain ⟨h₁, h₂, h₃⟩ := h.submitted other hmem
    refine ⟨h₁, ?_, h₃⟩
    by_cases heq : other = task
    · simp [heq]
    · rw [update_of_ne heq]
      exact h₂
  · intro other hwaiting
    by_cases heq : other = task
    · exact h.waiting other (by simp [heq, hphase])
    · rw [update_of_ne heq] at hwaiting
      exact h.waiting other hwaiting
  · intro other
    rw [Ledger.complete, OrderedSet.mem_insert, h.completed]
    by_cases heq : other = task
    · simp [heq]
    · simp [heq, update_of_ne]
  · refine List.Perm.trans ?_ hperm.symm
    exact perm_append_comm.trans (h.order.cons task)
  · have hlength := hperm.length_eq
    have hcount := h.running
    simp only [Ledger.complete, OrderedSet.insert, length_cons] at hlength ⊢
    omega
  · intro other
    by_cases heq : other = task
    · simp [heq]
    · rw [update_of_ne heq]
      exact h.unfailed other

/-- The report of a loop that ends well lists every task once, and every task has completed. -/
theorem of_length_eq (h : ledger.Matches graph phase hand)
    (hlength : ledger.completed.elems.length = graph.taskIds.elems.length) :
    ledger.completedOrder.Perm graph.taskIds.elems ∧
      ∀ task, task ∈ graph.taskIds → phase task = .completed := by
  have hsub : ledger.completed.elems ⊆ graph.taskIds.elems :=
    fun other hmem => (h.submitted other (h.completed_subset hmem)).1
  have hperm := (subperm_of_subset h.completed_nodup hsub).perm_of_length_le (by omega)
  refine ⟨h.order.trans hperm, ?_⟩
  intro other hother
  exact (h.completed other).mp (hperm.mem_iff.mpr hother)

/-- Once everything ready is submitted, some task is running or all have completed. -/
theorem running_pos_of_check (h : ledger.Matches graph phase none) (closed : graph.Closed)
    (acyclic : Acyclic graph.edges.Has)
    (hready : ∀ task, task ∈ graph.readyTasks ledger.completed → task ∈ ledger.submitted)
    (hlength : ledger.completed.elems.length ≠ graph.taskIds.elems.length) :
    0 < ledger.running := by
  by_contra hzero
  have hrunning : ledger.running = 0 := by omega
  refine hlength (Nat.le_antisymm ?_ ?_)
  · have hsub : ledger.completed.elems ⊆ graph.taskIds.elems :=
      fun other hmem => (h.submitted other (h.completed_subset hmem)).1
    exact (subperm_of_subset h.completed_nodup hsub).length_le
  · refine (subperm_of_subset taskIds_nodup ?_).length_le
    intro other hother
    by_contra hmissing
    -- some task is ready, so it was submitted, so it has completed
    obtain ⟨ready, hmem⟩ := exists_ready closed acyclic hother hmissing
    have hcompleted := h.submitted_completed hrunning (hready ready hmem)
    exact (mem_readyTasks.mp hmem).2.1 hcompleted

end Matches

end Ledger

/-! ## The loop -/

/-- What holds while the coordinator is in its loop: its books agree with the phases, and every
ready task is submitted, in hand, or still to be looked at. -/
structure Looping (graph : DependencyGraph) (ledger : Ledger) (phase : TaskId → Phase)
    (hand : Option TaskId) (todo : List TaskId) : Prop where
  books : ledger.Matches graph phase hand
  ready : ∀ task ∈ todo, task ∈ graph.readyTasks ledger.completed
  covered : ∀ task, task ∈ graph.readyTasks ledger.completed →
    task ∈ ledger.submitted ∨ hand = some task ∨ task ∈ todo

/-- What the loop may end with. -/
def Sound (graph : DependencyGraph) (phase : TaskId → Phase) : Outcome → Prop
  | .ok report => report.completedOrder.Perm graph.taskIds.elems ∧
      ∀ task, task ∈ graph.taskIds → phase task = .completed
  | .error error => ∃ task, error = .taskFailed task ∧ phase task = .failed

section Loop

variable {graph : DependencyGraph} {ledger : Ledger} {phase phase' : TaskId → Phase}
  {hand : Option TaskId} {task : TaskId} {todo : List TaskId}

theorem Sound.congr {outcome : Outcome} (h : Sound graph phase outcome)
    (hphase : SameEnds phase phase') : Sound graph phase' outcome := by
  cases outcome with
  | ok => exact ⟨h.1, fun task htask => hphase.completed.mpr (h.2 task htask)⟩
  | error =>
      obtain ⟨task, herror, hfailed⟩ := h
      exact ⟨task, herror, hphase.failed.mpr hfailed⟩

namespace Looping

/-- The steps of the workers do not disturb the loop. -/
theorem congr (h : Looping graph ledger phase hand todo) (hphase : SameEnds phase phase') :
    Looping graph ledger phase' hand todo := by
  refine { h with books := h.books.congr (fun _ => hphase.waiting) (fun _ => hphase.completed) ?_ }
  intro task
  rw [ne_eq, hphase.failed]
  exact h.books.unfailed task

theorem start {jobs : OrderedSet TaskId} (hjobs : jobSetMismatch graph jobs = none)
    (hphase : ∀ task, phase task = .waiting) :
    Looping graph (Ledger.start jobs) phase none (graph.readyTasks ∅).elems := by
  have hsame : graph.taskIds = jobs := by
    by_contra hne
    simp [jobSetMismatch, hne] at hjobs
  exact ⟨.start hsame hphase, fun _ hmem => hmem, fun _ hmem => .inr (.inr hmem)⟩

variable (h : Looping graph ledger phase none (task :: todo))
include h

theorem skip (htask : task ∈ ledger.submitted) :
    Looping graph ledger phase none todo := by
  refine { h with
    ready := fun other hother => h.ready other (mem_cons_of_mem _ hother)
    covered := ?_ }
  intro other hother
  rcases h.covered other hother with hdone | hnone | htodo
  · exact .inl hdone
  · cases hnone
  · rcases mem_cons.mp htodo with rfl | htodo
    · exact .inl htask
    · exact .inr (.inr htodo)

/-- A ready task that was not submitted still has its job. -/
theorem mem_jobs
    (htask : task ∉ ledger.submitted) : task ∈ ledger.jobs := by
  have hready := h.ready task mem_cons_self
  exact (h.books.jobs task).mpr
    ⟨(mem_readyTasks.mp hready).1, htask, by simp⟩

theorem removeJob (htask : task ∈ ledger.jobs) :
    Looping graph (ledger.removeJob task) phase (some task) todo ∧ phase task = .waiting := by
  obtain ⟨hbooks, hwaiting⟩ := h.books.removeJob htask
  refine ⟨⟨hbooks, fun other hother => h.ready other (mem_cons_of_mem _ hother), ?_⟩, hwaiting⟩
  intro other hother
  rcases h.covered other hother with hdone | hnone | htodo
  · exact .inl hdone
  · cases hnone
  · rcases mem_cons.mp htodo with rfl | htodo
    · exact .inr (.inl rfl)
    · exact .inr (.inr htodo)

omit h

/-- The job in hand may be queued: all its dependencies have completed. -/
theorem push (h : Looping graph ledger phase (some task) todo)
    (hready : task ∈ graph.readyTasks ledger.completed) (hphase : phase task = .waiting) :
    Schedule.Step graph phase none (update phase task .queued) ∧
      Looping graph ledger (update phase task .queued) (some task) todo := by
  obtain ⟨htask, -, hdependencies⟩ := mem_readyTasks.mp hready
  refine ⟨.submit htask hphase ?_, { h with books := h.books.push hphase }⟩
  intro dependency hedge
  exact (h.books.completed dependency).mp (hdependencies dependency hedge)

theorem submit (h : Looping graph ledger phase (some task) todo) (hphase : phase task ≠ .waiting) :
    Looping graph (ledger.submit task) phase none todo := by
  refine ⟨h.books.submit hphase, h.ready, ?_⟩
  intro other hother
  simp only [Ledger.submit, OrderedSet.mem_insert]
  rcases h.covered other hother with hdone | hhand | htodo
  · exact .inl (.inr hdone)
  · exact .inl (.inl (some.inj hhand).symm)
  · exact .inr (.inr htodo)

/-- The loop ends with a report of every task: it never runs out of running tasks before. -/
theorem verdict (h : ledger.Matches graph phase none) (closed : graph.Closed)
    (acyclic : Acyclic graph.edges.Has) {workerCount : ℕ} {outcome : Outcome}
    (hready : (∀ task, task ∈ graph.readyTasks ledger.completed → task ∈ ledger.submitted) ∨
      0 < ledger.running)
    (hverdict : ledger.verdict graph workerCount = some outcome) : Sound graph phase outcome := by
  by_cases hlength : ledger.completed.elems.length = graph.taskIds.elems.length
  · simp only [Ledger.verdict, hlength, if_true, Option.some.injEq] at hverdict
    subst hverdict
    exact h.of_length_eq hlength
  · have hrunning : 0 < ledger.running := by
      rcases hready with hready | hrunning
      · exact h.running_pos_of_check closed acyclic hready hlength
      · exact hrunning
    simp [Ledger.verdict, hlength, Nat.ne_of_gt hrunning] at hverdict

/-- The coordinator waits only while something is running. -/
theorem running_pos {workerCount : ℕ} (hverdict : ledger.verdict graph workerCount = none) :
    0 < ledger.running := by
  by_contra hzero
  have hrunning : ledger.running = 0 := by omega
  simp only [Ledger.verdict, hrunning, if_true] at hverdict
  split at hverdict <;> cases hverdict

theorem complete (h : ledger.Matches graph phase none) (hphase : phase task = .finished true)
    {running : ℕ} (hrunning : ledger.running = running + 1) :
    Looping graph (ledger.complete task running) (update phase task .completed) none
      (graph.readyTasks (ledger.complete task running).completed).elems :=
  ⟨h.complete hphase hrunning, fun _ hmem => hmem, fun _ hmem => .inr (.inr hmem)⟩

end Looping

end Loop

end Jadren.Concurrency
