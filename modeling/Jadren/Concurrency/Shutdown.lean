import Jadren.Concurrency.WorkStealing

/-!
# Jobs after the shutdown request

A worker looks for a message before it reads the shutdown flag, so a job that is still queued when
the shutdown is requested may be taken and started afterwards.  `DropsQueued` is what the pool's
documentation says instead: queued jobs that have not started are dropped.

It holds in the runs in which every worker that looks at a deque once the flag is up finds that
deque empty (`FindsEmpty`): a queued job then stays where it is, because only a worker that looks
takes it away (`worker_kept`), and a job in a deque is with no worker that could start it.  The
condition is exact: a worker that finds a message instead can start its job in the next step
(`starts_of_look`).  Jobs are queued in such runs too, namely those that were enqueued after every
worker had looked and before it read the flag (`dropsQueued_independent`).
-/

namespace Jadren.Concurrency

namespace WorkStealingPool

open StealQueue Schedule State Function

/-- After the shutdown was requested, no job that is still queued begins to run: in every run whose
steps meet a condition. -/
def DropsQueued (pool : WorkStealingPool) (graph : DependencyGraph) (jobs : OrderedSet TaskId)
    (allowed : Execution pool → Option Event → Execution pool → Prop) : Prop :=
  ∀ s : Execution pool, ((system pool graph jobs).restrict allowed).Reachable s →
    s.queue.shutdown = true → ∀ q task, .run task ∈ s.queue.queues q → ∀ trace s',
      ((system pool graph jobs).restrict allowed).Path s trace s' → .start task ∉ trace

variable {pool : WorkStealingPool} {graph : DependencyGraph} {jobs : OrderedSet TaskId}
  {s s' : Execution pool} {event : Option Event}

/-- Once the shutdown was requested, a worker that looks at a deque finds it empty. -/
def FindsEmpty (s : Execution pool) (_event : Option Event) (s' : Execution pool) : Prop :=
  s.queue.shutdown = true → ∀ w offset, s.queue.workers w = .take offset →
    offset < pool.workerCount → s'.queue.workers w ≠ s.queue.workers w →
      s.queue.queues (victim w offset) = []

/-- A worker's step leaves the messages in the deques, unless the worker looks at one. -/
theorem worker_kept {n : ℕ} {ι : Type} {s s' : State n ι} {w : Fin n}
    (h : WorkerStep s w event s') :
    (∀ q message, message ∈ s.queues q → message ∈ s'.queues q) ∨
      ∃ offset message, s.workers w = .take offset ∧ offset < n ∧
        s.queues (victim w offset) ≠ [] ∧ s'.workers w = .holding message := by
  cases h with
  | @takeOwn init message hworker hqueue =>
      have hown : victim w 0 = w := Fin.ext (by simp [victim, Nat.mod_eq_of_lt w.isLt])
      exact .inr ⟨0, message, hworker, w.pos, by simp [hown, hqueue], by simp [setWorker]⟩
  | @steal offset rest message _ hlt hworker hqueue =>
      exact .inr ⟨offset, message, hworker, hlt, by simp [hqueue], by simp [setWorker]⟩
  | _ => exact .inl fun _ _ hmem => hmem

/-- The flag stays up. -/
theorem Step.shutdown (h : Step graph s event s') (hshutdown : s.queue.shutdown = true) :
    s'.queue.shutdown = true := by
  cases h with
  | worker w hstep => exact hstep.frame.shutdown.trans hshutdown
  | call _ hstep => cases hstep <;> first | exact hshutdown | rfl
  | _ => exact hshutdown

/-- Under the condition a queued job stays queued once the flag is up. -/
theorem Step.kept (h : Step graph s event s') (hshutdown : s.queue.shutdown = true)
    (hfinds : FindsEmpty s event s') {q : Fin pool.workerCount} {message : WorkMessage}
    (hmem : message ∈ s.queue.queues q) : message ∈ s'.queue.queues q := by
  cases h with
  | worker w hstep =>
      rcases worker_kept hstep with hkept | ⟨offset, taken, hworker, hlt, hqueue, hholding⟩
      · exact hkept q message hmem
      · exact absurd (hfinds hshutdown w offset hworker hlt (by simp [hworker, hholding])) hqueue
  | call _ hstep =>
      cases hstep with
      | @push queue =>
          by_cases hq : q = queue
          · subst hq
            simpa [setQueue, setClient] using .inl hmem
          · simpa [setQueue, setClient, update_of_ne hq] using hmem
      | _ => exact hmem
  | _ => exact hmem

variable {builder : TaskGraphBuilder}

variable (hbuild : builder.build = some (.ok graph))
include hbuild

variable (h : (system pool graph jobs).Reachable s)
include h

/-- A reachable state is related to a schedule. -/
theorem exists_agrees :
    ∃ trace place, (Schedule.system graph).Run trace (phases place) ∧ Wakeful s.queue ∧
      Located (jobsOf s.queue) place ∧ Agrees graph jobs s (phases place) := by
  obtain ⟨-, closed, acyclic⟩ := TaskGraphBuilder.of_build hbuild
  obtain ⟨trace, run⟩ := h
  obtain ⟨phase, hschedule, hwakeful, place, hlocated, rfl, hagrees⟩ :=
    (simulation pool closed acyclic jobs).run run
  exact ⟨trace, place, hschedule, hwakeful, hlocated, hagrees⟩

/-- A job that is queued is with no worker, so it is not started. -/
theorem not_start_of_queued (hstep : Step graph s event s')
    {q : Fin pool.workerCount} {task : TaskId} (hmem : .run task ∈ s.queue.queues q) :
    event ≠ some (.start task) := by
  rintro rfl
  obtain ⟨_, place, -, -, hlocated, -⟩ := exists_agrees hbuild h
  have hplace : place task = .queue q :=
    (hlocated.queue q task).mp (List.mem_filterMap.mpr ⟨_, hmem, rfl⟩)
  cases hstep with
  | worker w hworker =>
      cases hworker with
      | start hholding =>
          have hwith := (hlocated.worker w task .queued).mp (by simp [jobsOf, hholding, load])
          rw [hplace] at hwith
          cases hwith

/-- In the runs in which workers find the deques empty once the flag is up, the jobs that are still
queued are dropped. -/
private theorem not_mem_of_path (hshutdown : s.queue.shutdown = true)
    {q : Fin pool.workerCount} {task : TaskId} (hmem : .run task ∈ s.queue.queues q)
    {trace : List Event}
    (path : ((system pool graph jobs).restrict FindsEmpty).Path s trace s') :
    .start task ∉ trace := by
  have hkept := path.invariant_trace (P := fun trace (s : Execution pool) =>
      .start task ∉ trace ∧ (system pool graph jobs).Reachable s ∧ s.queue.shutdown = true ∧
        .run task ∈ s.queue.queues q) ⟨List.not_mem_nil, h, hshutdown, hmem⟩ (by
    rintro trace s event s' ⟨hnot, ⟨before, hrun⟩, hraised, hqueued⟩ ⟨hstep, hfinds⟩
    refine ⟨?_, ⟨_, hrun.step hstep⟩, Step.shutdown hstep hraised,
      Step.kept hstep hraised hfinds hqueued⟩
    have hevent := not_start_of_queued hbuild ⟨before, hrun⟩ hstep hqueued
    rw [List.mem_append, Option.mem_toList]
    exact fun hmem => hmem.elim hnot hevent)
  exact hkept.1

/-- A worker that finds a message once the flag is up can start the job in the next step. -/
theorem starts_of_look {w : Fin pool.workerCount} {offset : ℕ}
    (hworker : s.queue.workers w = .take offset) (hlt : offset < pool.workerCount)
    (hqueue : s.queue.queues (victim w offset) ≠ []) :
    ∃ task s', .run task ∈ s.queue.queues (victim w offset) ∧
      (system pool graph jobs).Path s [.start task] s' := by
  obtain ⟨_, _, -, hwakeful, -, -⟩ := exists_agrees hbuild h
  have htaken : ∃ task rest, .run task ∈ s.queue.queues (victim w offset) ∧
      WorkerStep s.queue w none
        ((s.queue.setQueue (victim w offset) rest).setWorker w (.holding (.run task))) := by
    rcases Nat.eq_zero_or_pos offset with rfl | hpos
    · have hown : victim w 0 = w := Fin.ext (by simp [victim, Nat.mod_eq_of_lt w.isLt])
      rw [hown] at hqueue ⊢
      obtain ⟨init, message, hsplit⟩ := List.eq_nil_or_concat' (s.queue.queues w)
        |>.resolve_left hqueue
      have hmem : message ∈ s.queue.queues w := by simp [hsplit]
      obtain ⟨task, rfl⟩ := hwakeful.queued w message hmem
      exact ⟨task, init, hmem, .takeOwn hworker hsplit⟩
    · obtain ⟨message, rest, hsplit⟩ := List.exists_cons_of_ne_nil hqueue
      have hmem : message ∈ s.queue.queues (victim w offset) := by simp [hsplit]
      obtain ⟨task, rfl⟩ := hwakeful.queued _ message hmem
      exact ⟨task, rest, hmem, .steal hpos hlt hworker hsplit⟩
  obtain ⟨task, rest, hmem, htake⟩ := htaken
  have hstart : WorkerStep
      ((s.queue.setQueue (victim w offset) rest).setWorker w (.holding (.run task))) w
      (some (.start task)) _ := .start (by simp [setWorker])
  exact ⟨task, _, hmem,
    ((@System.Path.refl Event (system pool graph jobs) s).step (.worker w htake)).step
      (.worker w hstart)⟩

omit h

omit hbuild

/-- **Queued jobs are dropped** in the runs in which a worker that looks for a message once the
flag is up finds none; wherever a worker finds one instead, a queued job can begin to run. -/
theorem dropsQueued_of_findsEmpty (pool : WorkStealingPool) {builder : TaskGraphBuilder}
    (hbuild : builder.build = some (.ok graph)) (jobs : OrderedSet TaskId) :
    DropsQueued pool graph jobs FindsEmpty ∧
      ∀ s : Execution pool, (system pool graph jobs).Reachable s → s.queue.shutdown = true →
        ∀ w offset, s.queue.workers w = .take offset → offset < pool.workerCount →
          s.queue.queues (victim w offset) ≠ [] → ∃ q task trace s',
            .run task ∈ s.queue.queues q ∧ (system pool graph jobs).Path s trace s' ∧
              .start task ∈ trace := by
  constructor
  · intro s hreach hshutdown q task hmem trace s' path
    exact not_mem_of_path hbuild hreach.of_restrict hshutdown hmem path
  · intro s hreach _ w offset hworker hlt hqueue
    obtain ⟨task, s', hmem, path⟩ := starts_of_look hbuild hreach hworker hlt hqueue
    exact ⟨_, task, _, s', hmem, path, List.mem_singleton_self _⟩

/-! ## A job that starts late -/

/-- Two tasks that have nothing to do with each other. -/
def independent : TaskGraphBuilder where
  tasks := ⟨[(1, ⟨1, "first", [], []⟩), (2, ⟨2, "second", [], []⟩)], by simp⟩
  keyed := by
    intro id task hlookup
    rw [OrderedMap.lookup_iff_mem] at hlookup
    simp only [List.mem_cons, Prod.mk.injEq, List.not_mem_nil, or_false] at hlookup
    rcases hlookup with ⟨rfl, rfl⟩ | ⟨rfl, rfl⟩ <;> rfl

/-- A pool with one worker. -/
abbrev single : WorkStealingPool := ⟨1, Nat.one_pos⟩

/-- The executions of the two tasks by the one worker. -/
abbrev independentSystem : System Event := system single independent.graph ⟨[1, 2]⟩

/-- A state of the one worker and the coordinator. -/
def stateAt (control : Control) (ledger : Ledger) (client : Client 1)
    (queue : List WorkMessage) (worker : Worker) (channel : List (TaskId × Bool))
    (shutdown : Bool) (lock : Option (Holder 1 Unit)) : Execution single :=
  { queue :=
      { queues := const _ queue
        shutdown := shutdown
        wakeLock := lock
        workers := const _ worker
        clients := const _ client
        channel := channel
        receiver := true }
    ledger := ledger
    nextWorker := 0
    control := control }

/-- The books when no job is handed out, the first is, and both are. -/
abbrev noneOut : Ledger := Ledger.start ⟨[1, 2]⟩
abbrev firstOut : Ledger := (noneOut.removeJob 1).submit 1
abbrev bothOut : Ledger := (firstOut.removeJob 2).submit 2

/-- The books when the first job is out and the coordinator has received its failure. -/
abbrev firstFailed : Ledger := { bothOut with running := 1 }

/-- The flag was raised after the second task failed; the job of the first is still queued, and the
worker is about to look for it. -/
def raised : Execution single :=
  stateAt (.stopping (.error (.taskFailed 2))) firstFailed .notify [.run 1]
    (.take 0) [] true (some (.inr ()))

/-- The worker has started the first job. -/
def startedLate : Execution single :=
  stateAt (.stopping (.error (.taskFailed 2))) firstFailed .notify []
    (.running 1) [] true (some (.inr ()))

/-- The flag was raised after the first task failed; the job of the second was queued after the
worker had looked, and the worker is about to read the flag. -/
def raisedUnseen : Execution single :=
  stateAt (.stopping (.error (.taskFailed 1))) firstFailed .notify [.run 2] .missed [] true
    (some (.inr ()))

/-- The worker has left, and the job of the second task is still queued. -/
def left : Execution single :=
  stateAt (.stopping (.error (.taskFailed 1))) firstFailed .notify [.run 2] .exited [] true
    (some (.inr ()))

/-- The executions in which workers find the deques empty once the flag is up. -/
abbrev findingSystem : System Event := independentSystem.restrict FindsEmpty

variable {trace : List Event} {s'' : Execution single}

/-- A silent step of the one worker or the coordinator, before the flag is raised. -/
theorem run_silent {s s' : Execution single} (run : findingSystem.Run trace s)
    (hflag : s.queue.shutdown = false) (hstep : Step independent.graph s none s')
    (hsame : s' = s'') : findingSystem.Run trace s'' := by
  subst hsame
  simpa using run.step ⟨hstep, fun hraised => absurd (hflag.symm.trans hraised) (by decide)⟩

/-- An event of the one worker or the coordinator, before the flag is raised. -/
theorem run_event {s s' : Execution single} {event : Event} (run : findingSystem.Run trace s)
    (hflag : s.queue.shutdown = false) (hstep : Step independent.graph s (some event) s')
    (hsame : s' = s'') : findingSystem.Run (trace ++ [event]) s'' := by
  subst hsame
  exact run.step ⟨hstep, fun hraised => absurd (hflag.symm.trans hraised) (by decide)⟩

variable {queue : List WorkMessage} {worker : Worker} {channel : List (TaskId × Bool)}

/-- The coordinator enqueues the job of a task, whatever the worker is about to do. -/
theorem run_enqueue {task : TaskId} {todo : List TaskId} {ledger : Ledger}
    (run : findingSystem.Run trace
      (stateAt (.dispatch (task :: todo)) ledger .idle queue worker channel false none))
    (hsubmitted : task ∉ ledger.submitted) (hjob : task ∈ ledger.jobs)
    (hawake : worker ≠ .asleep) :
    findingSystem.Run trace
      (stateAt (.dispatch todo) ((ledger.removeJob task).submit task) .idle
        (queue ++ [.run task]) worker channel false none) := by
  -- take the job, lock, push, notify, unlock; nobody else moves meanwhile
  have run₁ : findingSystem.Run trace
      (stateAt (.submitting task todo) (ledger.removeJob task) (.lockEnqueue 0 (.run task)) queue
        worker channel false none) := by
    refine run_silent run rfl (.enqueue rfl hsubmitted hjob) ?_
    simp [stateAt, setClient, update_eq_const_of_subsingleton]
  have run₂ : findingSystem.Run trace
      (stateAt (.submitting task todo) (ledger.removeJob task) (.push 0 (.run task)) queue
        worker channel false (some (.inr ()))) := by
    refine run_silent run₁ rfl (.call (by simp [stateAt, Execution.client])
      (.lockEnqueue rfl rfl)) ?_
    simp [stateAt, setClient, update_eq_const_of_subsingleton]
  have run₃ : findingSystem.Run trace
      (stateAt (.submitting task todo) (ledger.removeJob task) .notify (queue ++ [.run task])
        worker channel false (some (.inr ()))) := by
    refine run_silent run₂ rfl (.call (by simp [stateAt, Execution.client]) (.push rfl)) ?_
    simp [stateAt, setClient, setQueue, update_eq_const_of_subsingleton]
  have run₄ : findingSystem.Run trace
      (stateAt (.submitting task todo) (ledger.removeJob task) .unlock (queue ++ [.run task])
        worker channel false (some (.inr ()))) := by
    refine run_silent run₃ rfl (.call (by simp [stateAt, Execution.client]) (.notify rfl)) ?_
    simp only [stateAt, setClient, notifyAll, const_apply, hawake, if_false,
      update_eq_const_of_subsingleton]
    rfl
  have run₅ : findingSystem.Run trace
      (stateAt (.submitting task todo) (ledger.removeJob task) .idle (queue ++ [.run task])
        worker channel false none) := by
    refine run_silent run₄ rfl (.call (by simp [stateAt, Execution.client]) (.unlock rfl)) ?_
    simp [stateAt, setClient, update_eq_const_of_subsingleton]
  refine run_silent run₅ rfl (.enqueued rfl rfl) ?_
  simp [stateAt, victim]

/-- The worker takes its newest job, which panics, and reports that. -/
theorem run_panic {task : TaskId} {control : Control} {ledger : Ledger}
    (run : findingSystem.Run trace
      (stateAt control ledger .idle (queue ++ [.run task]) (.take 0) [] false none)) :
    findingSystem.Run (trace ++ [.start task] ++ [.finish task false])
      (stateAt control ledger .idle queue (.take 0) [(task, false)] false none) := by
  have run₁ : findingSystem.Run trace
      (stateAt control ledger .idle queue (.holding (.run task)) [] false none) := by
    refine run_silent run rfl (.worker 0 (.takeOwn rfl
      (show queue ++ [WorkMessage.run task] = queue ++ [.run task] from rfl))) ?_
    simp [stateAt, setWorker, setQueue, update_eq_const_of_subsingleton]
  have run₂ : findingSystem.Run (trace ++ [.start task])
      (stateAt control ledger .idle queue (.running task) [] false none) := by
    refine run_event run₁ rfl (.worker 0 (.start rfl)) ?_
    simp [stateAt, setWorker, update_eq_const_of_subsingleton]
  have run₃ : findingSystem.Run (trace ++ [.start task] ++ [.finish task false])
      (stateAt control ledger .idle queue (.finished task false) [] false none) := by
    refine run_event run₂ rfl (.worker 0 (.finish false rfl)) ?_
    simp [stateAt, setWorker, update_eq_const_of_subsingleton]
  refine run_silent run₃ rfl (.worker 0 (.send rfl rfl)) ?_
  simp [stateAt, setWorker, update_eq_const_of_subsingleton]

/-- The coordinator has handed out both jobs, receives the failure and requests the shutdown. -/
theorem run_fail {task : TaskId}
    (run : findingSystem.Run trace
      (stateAt (.dispatch []) bothOut .idle queue worker [(task, false)] false none)) :
    findingSystem.Run (trace ++ [.fail task])
      (stateAt (.stopping (.error (.taskFailed task))) firstFailed .notify queue worker [] true
        (some (.inr ()))) := by
  have run₁ : findingSystem.Run trace
      (stateAt .check bothOut .idle queue worker [(task, false)] false none) :=
    run_silent run rfl (.dispatched rfl) rfl
  have run₂ : findingSystem.Run trace
      (stateAt .receive bothOut .idle queue worker [(task, false)] false none) :=
    run_silent run₁ rfl (.await rfl rfl) rfl
  have run₃ : findingSystem.Run (trace ++ [.fail task])
      (stateAt (.stop (.error (.taskFailed task))) firstFailed .idle queue worker [] false none) :=
    run_event run₂ rfl (.fail rfl rfl rfl) rfl
  have run₄ : findingSystem.Run (trace ++ [.fail task])
      (stateAt (.stopping (.error (.taskFailed task))) firstFailed .lockShutdown queue worker []
        false none) := by
    refine run_silent run₃ rfl (.requestShutdown rfl) ?_
    simp [stateAt, setClient, update_eq_const_of_subsingleton]
  have run₅ : findingSystem.Run (trace ++ [.fail task])
      (stateAt (.stopping (.error (.taskFailed task))) firstFailed .storeShutdown queue worker []
        false (some (.inr ()))) := by
    refine run_silent run₄ rfl (.call (by simp [stateAt, Execution.client])
      (.lockShutdown rfl rfl)) ?_
    simp [stateAt, setClient, update_eq_const_of_subsingleton]
  refine run_silent run₅ rfl (.call (by simp [stateAt, Execution.client]) (.storeShutdown rfl)) ?_
  simp [stateAt, setClient, update_eq_const_of_subsingleton]

/-- Nothing is handed out yet. -/
theorem run_start : findingSystem.Run []
    (stateAt (.dispatch [1, 2]) noneOut .idle [] (.take 0) [] false none) := .start rfl

/-- Both jobs are enqueued before the worker takes the newer one. -/
theorem run_raised : findingSystem.Run [.start 2, .finish 2 false, .fail 2] raised := by
  have run₁ : findingSystem.Run []
      (stateAt (.dispatch []) bothOut .idle ([.run 1] ++ [.run 2]) (.take 0) [] false none) :=
    run_enqueue (run_enqueue run_start (by decide) (by decide) (by decide)) (by decide)
      (by decide) (by decide)
  exact run_fail (run_panic run₁)

/-- The worker takes the first job and looks again before the second is enqueued. -/
theorem run_raisedUnseen :
    findingSystem.Run [.start 1, .finish 1 false, .fail 1] raisedUnseen := by
  have run₀ : findingSystem.Run []
      (stateAt (.dispatch [2]) firstOut .idle ([] ++ [.run 1]) (.take 0) [] false none) :=
    run_enqueue run_start (by decide) (by decide) (by decide)
  have run₁ := run_panic run₀
  have run₂ : findingSystem.Run [.start 1, .finish 1 false]
      (stateAt (.dispatch [2]) firstOut .idle [] (.take 1) [(1, false)] false none) := by
    refine run_silent run₁ rfl (.worker 0 (.missOwn rfl rfl)) ?_
    simp [stateAt, setWorker, update_eq_const_of_subsingleton]
  have run₃ : findingSystem.Run [.start 1, .finish 1 false]
      (stateAt (.dispatch [2]) firstOut .idle [] .missed [(1, false)] false none) := by
    refine run_silent run₂ rfl (.worker 0 (.missAll Nat.one_pos le_rfl rfl)) ?_
    simp [stateAt, setWorker, update_eq_const_of_subsingleton]
  exact run_fail (run_enqueue run₃ (by decide) (by decide) (by decide))

/-- The worker reads the flag and leaves. -/
theorem path_raisedUnseen : findingSystem.Path raisedUnseen [] left := by
  have hstep : Step independent.graph raisedUnseen none _ := .worker 0 (.stop rfl rfl)
  have hleft : Step independent.graph raisedUnseen none left := by
    simpa [raisedUnseen, left, stateAt, setWorker,
      update_eq_const_of_subsingleton] using hstep
  exact (@System.Path.refl Event findingSystem raisedUnseen).step
    ⟨hleft, fun _ _ _ htake => by cases htake⟩

/-- The job of the second task is queued when the flag is up, and is dropped. -/
theorem dropsQueued_independent :
    (∃ trace, findingSystem.Run trace raisedUnseen) ∧ raisedUnseen.queue.shutdown = true ∧
      .run 2 ∈ raisedUnseen.queue.queues 0 ∧ findingSystem.Path raisedUnseen [] left ∧
      .run 2 ∈ left.queue.queues 0 ∧ (∀ w, left.queue.workers w = .exited) ∧
      ∀ trace s, findingSystem.Path raisedUnseen trace s → .start 2 ∉ trace := by
  have hdrops := (dropsQueued_of_findsEmpty single
    (show independent.build = some (.ok independent.graph) from rfl) ⟨[1, 2]⟩).1
  exact ⟨⟨_, run_raisedUnseen⟩, rfl, List.mem_cons_self, path_raisedUnseen, List.mem_cons_self,
    fun _ => rfl, hdrops raisedUnseen ⟨_, run_raisedUnseen⟩ rfl 0 2 List.mem_cons_self⟩

/-- The worker looks at its deque before it reads the flag. -/
theorem path_raised : independentSystem.Path raised [.start 1] startedLate := by
  have htake : Step independent.graph raised none
      (stateAt (.stopping (.error (.taskFailed 2))) firstFailed .notify []
        (.holding (.run 1)) [] true (some (.inr ()))) := by
    have hstep : Step independent.graph raised none _ :=
      .worker 0 (.takeOwn rfl (show [WorkMessage.run 1] = [] ++ [.run 1] from rfl))
    simpa [raised, stateAt, setWorker, setQueue,
      update_eq_const_of_subsingleton] using hstep
  have hstart : Step independent.graph
      (stateAt (.stopping (.error (.taskFailed 2))) firstFailed .notify []
        (.holding (.run 1)) [] true (some (.inr ()))) (some (.start 1)) startedLate := by
    have hstep : Step independent.graph
        (stateAt (.stopping (.error (.taskFailed 2))) firstFailed .notify []
          (.holding (.run 1)) [] true (some (.inr ()))) (some (.start 1)) _ :=
      .worker 0 (.start rfl)
    simpa [startedLate, stateAt, setWorker,
      update_eq_const_of_subsingleton] using hstep
  exact ((@System.Path.refl Event independentSystem raised).step htake).step hstart

/-- With no condition on the steps, the job that was queued begins to run. -/
theorem not_dropsQueued_independent :
    independent.build = some (.ok independent.graph) ∧
      ¬ DropsQueued single independent.graph ⟨[1, 2]⟩ fun _ _ _ => True := by
  refine ⟨rfl, fun hdrops => ?_⟩
  obtain ⟨start, hstart, path⟩ := run_raised
  have hall : ∀ (s : Execution single) (event : Option Event) (s' : Execution single), True :=
    fun _ _ _ => trivial
  exact hdrops raised ⟨_, start, hstart, path.of_restrict.to_restrict hall⟩ rfl 0 1
    List.mem_cons_self _ _ (path_raised.to_restrict hall) List.mem_cons_self

end WorkStealingPool

end Jadren.Concurrency
