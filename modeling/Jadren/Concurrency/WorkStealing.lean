import Jadren.Concurrency.Executes
import Jadren.Concurrency.StealQueue

/-!
# The work-stealing pool

`WorkStealingPool::execute`: the coordinator is the one client of the queues.  It
enqueues the jobs of ready tasks round robin, receives completions, and once its
loop ends it requests the shutdown, drops the receiver and joins the workers.

`Agrees` says what the coordinator's variables mean at each point of its code.
Every step keeps it and is a step of a schedule of the graph, or silent.
-/

namespace Jadren.Concurrency

open Schedule Function

/-- Fixed-size work-stealing pool. -/
structure WorkStealingPool where
  workerCount : ℕ
  pos : 0 < workerCount

namespace WorkStealingPool

open StealQueue

/-- Creates a pool with a fixed positive worker count. -/
def new (workerCount : ℕ) : Except PoolError WorkStealingPool :=
  if h : 0 < workerCount then .ok ⟨workerCount, h⟩ else .error .invalidWorkerCount

/-- Where the coordinator is. -/
inductive Control
  /-- In the loop over ready tasks; the list is what is left of them. -/
  | dispatch (todo : List TaskId)
  /-- Enqueues the job of a task. -/
  | submitting (task : TaskId) (todo : List TaskId)
  /-- Everything ready is submitted. -/
  | check
  /-- Waits for a completion. -/
  | receive
  /-- Left the loop. -/
  | stop (outcome : Outcome)
  /-- Requests the shutdown. -/
  | stopping (outcome : Outcome)
  /-- About to drop the receiver of the completion channel. -/
  | drop (outcome : Outcome)
  /-- Waits for the workers to exit. -/
  | join (outcome : Outcome)
  | returned (outcome : Outcome)
  | panicked
  deriving DecidableEq

/-- The queues and threads, and the coordinator's variables. -/
structure Execution (pool : WorkStealingPool) where
  queue : StealQueue.State pool.workerCount Unit
  ledger : Ledger
  nextWorker : Fin pool.workerCount
  control : Control

variable {pool : WorkStealingPool} {graph : DependencyGraph}

/-- The coordinator's own state as a client. -/
def Execution.client (s : Execution pool) : Client pool.workerCount := s.queue.clients ()

/-- How an execution starts: at once with an error unless there is one job for every task. -/
def Execution.start (pool : WorkStealingPool) (graph : DependencyGraph)
    (jobs : OrderedSet TaskId) : Execution pool :=
  { queue := State.start pool.workerCount Unit
    ledger := Ledger.start jobs
    nextWorker := ⟨0, pool.pos⟩
    control :=
      match jobSetMismatch graph jobs with
      | some error => .returned (.error error)
      | none => .dispatch (graph.readyTasks ∅).elems }

/-- One step of a worker or of the coordinator. -/
inductive Step (graph : DependencyGraph) (s : Execution pool) :
    Option Event → Execution pool → Prop
  | worker {event : Option Event} {queue : State pool.workerCount Unit} (w : Fin pool.workerCount)
      (hstep : WorkerStep s.queue w event queue) : Step graph s event { s with queue := queue }
  /-- Inside `enqueue` or `request_shutdown`. -/
  | call {queue : State pool.workerCount Unit} (hcall : s.client ≠ .idle)
      (hstep : ClientStep s.queue () queue) : Step graph s none { s with queue := queue }
  | skip {task : TaskId} {todo : List TaskId} (hcontrol : s.control = .dispatch (task :: todo))
      (hsubmitted : task ∈ s.ledger.submitted) :
      Step graph s none { s with control := .dispatch todo }
  | enqueue {task : TaskId} {todo : List TaskId} (hcontrol : s.control = .dispatch (task :: todo))
      (hsubmitted : task ∉ s.ledger.submitted) (hjob : task ∈ s.ledger.jobs) :
      Step graph s none
        { s with
          queue := s.queue.setClient () (.lockEnqueue s.nextWorker (.run task))
          ledger := s.ledger.removeJob task
          control := .submitting task todo }
  | noJob {task : TaskId} {todo : List TaskId} (hcontrol : s.control = .dispatch (task :: todo))
      (hsubmitted : task ∉ s.ledger.submitted) (hjob : task ∉ s.ledger.jobs) :
      Step graph s none { s with control := .panicked }
  | enqueued {task : TaskId} {todo : List TaskId} (hcontrol : s.control = .submitting task todo)
      (hclient : s.client = .idle) :
      Step graph s none
        { s with
          ledger := s.ledger.submit task
          nextWorker := victim s.nextWorker 1
          control := .dispatch todo }
  | dispatched (hcontrol : s.control = .dispatch []) :
      Step graph s none { s with control := .check }
  | leave {outcome : Outcome} (hcontrol : s.control = .check)
      (hverdict : s.ledger.verdict graph pool.workerCount = some outcome) :
      Step graph s none { s with control := .stop outcome }
  | await (hcontrol : s.control = .check)
      (hverdict : s.ledger.verdict graph pool.workerCount = none) :
      Step graph s none { s with control := .receive }
  | complete {task : TaskId} {rest : List (TaskId × Bool)} {running : ℕ}
      (hcontrol : s.control = .receive) (hchannel : s.queue.channel = (task, true) :: rest)
      (hrunning : s.ledger.running = running + 1) :
      Step graph s (some (.complete task))
        { s with
          queue := { s.queue with channel := rest }
          ledger := s.ledger.complete task running
          control :=
            .dispatch (graph.readyTasks (s.ledger.complete task running).completed).elems }
  | fail {task : TaskId} {rest : List (TaskId × Bool)} {running : ℕ}
      (hcontrol : s.control = .receive) (hchannel : s.queue.channel = (task, false) :: rest)
      (hrunning : s.ledger.running = running + 1) :
      Step graph s (some (.fail task))
        { s with
          queue := { s.queue with channel := rest }
          ledger := { s.ledger with running := running }
          control := .stop (.error (.taskFailed task)) }
  | underflow {completion : TaskId × Bool} {rest : List (TaskId × Bool)}
      (hcontrol : s.control = .receive) (hchannel : s.queue.channel = completion :: rest)
      (hrunning : s.ledger.running = 0) : Step graph s none { s with control := .panicked }
  /-- Nothing can be received any more. -/
  | disconnected (hcontrol : s.control = .receive) (hchannel : s.queue.channel = [])
      (hworkers : ∀ w, s.queue.workers w = .exited) :
      Step graph s none { s with control := .stop (.error .workerChannelClosed) }
  | requestShutdown {outcome : Outcome} (hcontrol : s.control = .stop outcome) :
      Step graph s none
        { s with
          queue := s.queue.setClient () .lockShutdown
          control := .stopping outcome }
  | requested {outcome : Outcome} (hcontrol : s.control = .stopping outcome)
      (hclient : s.client = .idle) : Step graph s none { s with control := .drop outcome }
  | dropReceiver {outcome : Outcome} (hcontrol : s.control = .drop outcome) :
      Step graph s none
        { s with queue := { s.queue with receiver := false }, control := .join outcome }
  | join {outcome : Outcome} (hcontrol : s.control = .join outcome)
      (hworkers : ∀ w, s.queue.workers w = .exited) :
      Step graph s none { s with control := .returned outcome }

/-- The executions of a graph by a pool, for a map with the given jobs. -/
def system (pool : WorkStealingPool) (graph : DependencyGraph) (jobs : OrderedSet TaskId) :
    System Event where
  State := Execution pool
  initial s := s = Execution.start pool graph jobs
  step := Step graph

/-! ## Where the jobs are -/

/-- The task whose job a message is. -/
def message? : WorkMessage → Option TaskId
  | .run task => some task
  | .shutdown => none

/-- The job a worker has, and how far it has come. -/
def load : Worker → Option (TaskId × Phase)
  | .holding (.run task) => some (task, .queued)
  | .running task => some (task, .running)
  | .finished task ok => some (task, .finished ok)
  | _ => none

/-- The jobs in the queues and with the threads. -/
def jobsOf {n : ℕ} (s : State n Unit) : Jobs (Fin n) (Fin n) :=
  { queue := fun q => (s.queues q).filterMap message?
    load := fun w => load (s.workers w)
    channel := s.channel }

section JobsOf

variable {n : ℕ} (s : State n Unit) (w q : Fin n)

theorem jobsOf_setWorker (worker : Worker) :
    jobsOf (s.setWorker w worker) =
      { jobsOf s with load := update (jobsOf s).load w (load worker) } := by
  simp only [jobsOf, State.setWorker, Jobs.mk.injEq, true_and, and_true]
  funext v
  by_cases hv : v = w
  · subst hv
    simp
  · simp [update_of_ne hv]

theorem jobsOf_setQueue (queue : List WorkMessage) :
    jobsOf (s.setQueue q queue) =
      { jobsOf s with queue := update (jobsOf s).queue q (queue.filterMap message?) } := by
  simp only [jobsOf, State.setQueue, Jobs.mk.injEq, and_true]
  funext q'
  by_cases hq : q' = q
  · subst hq
    simp
  · simp [update_of_ne hq]

/-- A worker that has no job before and after. -/
theorem jobsOf_setWorker_idle {worker : Worker} (hbefore : load (s.workers w) = none)
    (hafter : load worker = none) : jobsOf (s.setWorker w worker) = jobsOf s := by
  rw [jobsOf_setWorker, hafter, show update (jobsOf s).load w none = (jobsOf s).load from
    update_eq_self_iff.mpr hbefore.symm]

end JobsOf

theorem workerMove {n : ℕ} {s s' : State n Unit} {w : Fin n} {event : Option Event}
    (hs : Wakeful s) (hstep : WorkerStep s w event s') :
    WorkerMove (jobsOf s) event (jobsOf s') := by
  have hidle : ∀ {worker : Worker}, load (s.workers w) = none → load worker = none →
      WorkerMove (jobsOf s) none (jobsOf (s.setWorker w worker)) := by
    intro worker hbefore hafter
    rw [jobsOf_setWorker_idle s w hbefore hafter]
    exact .keep
  have htake : ∀ {q : Fin n} {rest : List WorkMessage} {message : WorkMessage},
      (s.queues q).Perm (message :: rest) → load (s.workers w) = none →
      WorkerMove (jobsOf s) none
        (jobsOf ((s.setQueue q rest).setWorker w (.holding message))) := by
    intro q rest message hperm hload
    obtain ⟨task, rfl⟩ := hs.queued q message (hperm.mem_iff.mpr List.mem_cons_self)
    rw [jobsOf_setWorker, jobsOf_setQueue]
    exact .take (hperm.filterMap message?) hload
  -- `hidle` covers the steps without a job, `htake` the two ways to get one
  cases hstep with
  | takeOwn hworker hqueue =>
      exact htake (hqueue ▸ List.perm_append_comm) (by simp [hworker, load])
  | steal _ _ hworker hqueue => exact htake (List.Perm.of_eq hqueue) (by simp [hworker, load])
  | start hworker =>
      rw [jobsOf_setWorker]
      exact .start (by simp [jobsOf, hworker, load])
  | finish ok hworker =>
      rw [jobsOf_setWorker]
      exact .finish ok (by simp [jobsOf, hworker, load])
  | @send task ok hworker =>
      have hmove : WorkerMove (jobsOf s) none
          { jobsOf (s.setWorker w (.take 0)) with channel := s.channel ++ [(task, ok)] } := by
        rw [jobsOf_setWorker]
        exact .send (by simp [jobsOf, hworker, load])
      exact hmove
  | @sendFails task ok hworker =>
      have hload : (jobsOf s).load w = some (task, .finished ok) := by simp [jobsOf, hworker, load]
      rw [jobsOf_setWorker]
      exact .lose hload
  | lock hworker =>
      refine hidle ?_ rfl
      rcases hworker with hworker | hworker <;> simp [hworker, load]
  | missOwn hworker | missOther _ _ hworker | missAll _ _ hworker | stop hworker | wait hworker
  | seeShutdown hworker | noShutdown hworker | seePending _ hworker | nonePending _ hworker
  | sleep _ hworker | spurious hworker | unlock hworker | leave hworker =>
      exact hidle (by simp [hworker, load]) rfl

/-! ## The coordinator -/

/-- What holds of the coordinator's variables, by where it is. -/
def Agrees (graph : DependencyGraph) (jobs : OrderedSet TaskId) (s : Execution pool)
    (phase : TaskId → Phase) : Prop :=
  match s.control with
  | .dispatch todo => Looping graph s.ledger phase none todo ∧ s.queue.shutdown = false ∧
      s.client = .idle
  | .submitting task todo => Looping graph s.ledger phase (some task) todo ∧
      s.queue.shutdown = false ∧ task ∈ graph.readyTasks s.ledger.completed ∧
      ((phase task = .waiting ∧
          ∃ q, s.client = .lockEnqueue q (.run task) ∨ s.client = .push q (.run task)) ∨
        (phase task ≠ .waiting ∧
          (s.client = .notify ∨ s.client = .unlock ∨ s.client = .idle)))
  | .check => Looping graph s.ledger phase none [] ∧ s.queue.shutdown = false ∧ s.client = .idle
  | .receive => Looping graph s.ledger phase none [] ∧ s.queue.shutdown = false ∧
      s.client = .idle ∧ 0 < s.ledger.running
  | .stop outcome => Sound graph phase outcome ∧ s.client = .idle
  | .stopping outcome => Sound graph phase outcome ∧
      (s.client = .lockShutdown ∨ s.client = .storeShutdown ∨
        (s.queue.shutdown = true ∧
          (s.client = .notify ∨ s.client = .unlock ∨ s.client = .idle)))
  | .drop outcome => Sound graph phase outcome ∧ s.client = .idle ∧ s.queue.shutdown = true
  | .join outcome => Sound graph phase outcome ∧ s.client = .idle
  | .returned outcome => s.client = .idle ∧
      (Sound graph phase outcome ∨
        ∃ error, jobSetMismatch graph jobs = some error ∧ outcome = .error error)
  | .panicked => False

variable {jobs : OrderedSet TaskId} {s s' : Execution pool} {phase phase' : TaskId → Phase}

/-- The steps of the workers do not disturb what the coordinator knows. -/
theorem Agrees.congr {queue : State pool.workerCount Unit} (h : Agrees graph jobs s phase)
    (hclients : queue.clients = s.queue.clients) (hshutdown : queue.shutdown = s.queue.shutdown)
    (hphase : SameEnds phase phase') : Agrees graph jobs { s with queue := queue } phase' := by
  have hclient : (Execution.client { s with queue := queue }) = s.client := by
    simp [Execution.client, hclients]
  unfold Agrees at h ⊢
  simp only [hclient, hshutdown]
  cases hcontrol : s.control with
  | dispatch | check | receive | stop | stopping | drop | join =>
      simp only [hcontrol] at h ⊢
      exact ⟨h.1.congr hphase, h.2⟩
  | submitting =>
      simp only [hcontrol] at h ⊢
      simp only [ne_eq, hphase.waiting]
      exact ⟨h.1.congr hphase, h.2⟩
  | returned =>
      simp only [hcontrol] at h ⊢
      exact ⟨h.1, h.2.imp (fun hsound => hsound.congr hphase) id⟩
  | panicked => simp only [hcontrol] at h

/-- Only two places of the coordinator are inside a call of the queues. -/
theorem Agrees.calling (h : Agrees graph jobs s phase) (hcall : s.client ≠ .idle) :
    (∃ task todo, s.control = .submitting task todo ∧
      Looping graph s.ledger phase (some task) todo ∧ s.queue.shutdown = false ∧
      task ∈ graph.readyTasks s.ledger.completed ∧
      ((phase task = .waiting ∧
          ∃ q, s.client = .lockEnqueue q (.run task) ∨ s.client = .push q (.run task)) ∨
        (phase task ≠ .waiting ∧ (s.client = .notify ∨ s.client = .unlock)))) ∨
      ∃ outcome, s.control = .stopping outcome ∧ Sound graph phase outcome ∧
        (s.client = .lockShutdown ∨ s.client = .storeShutdown ∨
          (s.queue.shutdown = true ∧ (s.client = .notify ∨ s.client = .unlock))) := by
  unfold Agrees at h
  cases hcontrol : s.control with
  | submitting task todo =>
      simp only [hcontrol, hcall, or_false] at h
      exact .inl ⟨task, todo, rfl, h⟩
  | stopping outcome =>
      simp only [hcontrol, hcall, or_false] at h
      exact .inr ⟨outcome, rfl, h⟩
  | dispatch | check =>
      simp only [hcontrol] at h
      exact absurd h.2.2 hcall
  | stop | join =>
      simp only [hcontrol] at h
      exact absurd h.2 hcall
  | drop =>
      simp only [hcontrol] at h
      exact absurd h.2.1 hcall
  | receive =>
      simp only [hcontrol] at h
      exact absurd h.2.2.1 hcall
  | returned =>
      simp only [hcontrol] at h
      exact absurd h.1 hcall
  | panicked => simp only [hcontrol] at h

/-- A step inside a call: the job in hand is queued, or nothing changes for the schedule. -/
theorem Agrees.call {queue : State pool.workerCount Unit}
    {place : TaskId → Place (Fin pool.workerCount) (Fin pool.workerCount)}
    (h : Agrees graph jobs s (phases place)) (hlocated : Located (jobsOf s.queue) place)
    (hcall : s.client ≠ .idle) (hstep : ClientStep s.queue () queue) :
    ∃ place', Located (jobsOf queue) place' ∧
      (phases place' = phases place ∨
        Schedule.Step graph (phases place) none (phases place')) ∧
      Agrees graph jobs { s with queue := queue } (phases place') := by
  have hclient : ∀ (t : State pool.workerCount Unit) (client : Client pool.workerCount),
      (t.setClient () client).clients () = client := fun t client => by simp [State.setClient]
  have hidle : ∀ client, s.queue.clients () = client → s.client = client := fun _ heq => heq
  -- a call is an enqueue or the shutdown; `Agrees.calling` says which, and how far it is
  cases hstep with
  | enqueue _ _ heq | requestShutdown heq | receive heq | dropReceiver heq =>
      exact absurd heq hcall
  | @lockEnqueue q message heq =>
      refine ⟨place, hlocated, .inl rfl, ?_⟩
      rcases h.calling hcall with ⟨task, todo, hcontrol, hloop, hflag, hready, hphase⟩ |
        ⟨outcome, -, -, hshutdown⟩
      · simp only [hidle _ heq, Client.lockEnqueue.injEq, reduceCtorEq, or_false, and_false]
          at hphase
        obtain ⟨hwaiting, q', rfl, rfl⟩ := hphase
        simp only [Agrees, hcontrol]
        exact ⟨hloop, hflag, hready, .inl ⟨hwaiting, q, .inr (hclient s.queue _)⟩⟩
      · simp [hidle _ heq] at hshutdown
  | @push q message heq =>
      rcases h.calling hcall with ⟨task, todo, hcontrol, hloop, hflag, hready, hphase⟩ |
        ⟨outcome, -, -, hshutdown⟩
      · simp only [hidle _ heq, Client.push.injEq, reduceCtorEq, false_or, or_false,
          and_false] at hphase
        obtain ⟨hwaiting, q', rfl, rfl⟩ := hphase
        have hphases : phases (update place task (.queue q)) =
            update (phases place) task .queued := phases_update place task (.queue q)
        have hpushed := hlocated.push q (hlocated.of_waiting hwaiting)
        obtain ⟨hschedule, hloop'⟩ := hloop.push hready hwaiting
        refine ⟨_, ?_, .inr (hphases ▸ hschedule), ?_⟩
        · change Located (jobsOf (s.queue.setQueue q (s.queue.queues q ++ [.run task]))) _
          rw [jobsOf_setQueue, List.filterMap_append]
          exact hpushed
        · rw [hphases]
          simp only [Agrees, hcontrol]
          exact ⟨hloop', hflag, hready, .inr ⟨by simp, .inl (hclient _ _)⟩⟩
      · simp [hidle _ heq] at hshutdown
  | lockShutdown heq =>
      refine ⟨place, hlocated, .inl rfl, ?_⟩
      rcases h.calling hcall with ⟨task, todo, -, -, -, -, hphase⟩ |
        ⟨outcome, hcontrol, hsound, -⟩
      · simp [hidle _ heq] at hphase
      · simp only [Agrees, hcontrol]
        exact ⟨hsound, .inr (.inl (hclient s.queue _))⟩
  | storeShutdown heq =>
      refine ⟨place, hlocated, .inl rfl, ?_⟩
      rcases h.calling hcall with ⟨task, todo, -, -, -, -, hphase⟩ |
        ⟨outcome, hcontrol, hsound, -⟩
      · simp [hidle _ heq] at hphase
      · simp only [Agrees, hcontrol]
        exact ⟨hsound, .inr (.inr ⟨trivial, .inl (hclient s.queue _)⟩)⟩
  | notify heq =>
      have hjobs : jobsOf (s.queue.notifyAll.setClient () .unlock) = jobsOf s.queue := by
        simp only [jobsOf, State.setClient, State.notifyAll, Jobs.mk.injEq, true_and, and_true]
        funext w
        by_cases hasleep : s.queue.workers w = .asleep <;> simp [hasleep, load]
      refine ⟨place, hjobs ▸ hlocated, .inl rfl, ?_⟩
      rcases h.calling hcall with ⟨task, todo, hcontrol, hloop, hflag, hready, hphase⟩ |
        ⟨outcome, hcontrol, hsound, hshutdown⟩
      · simp only [hidle _ heq, reduceCtorEq, or_self, exists_false, and_false, true_or,
          and_true, false_or] at hphase
        simp only [Agrees, hcontrol]
        exact ⟨hloop, hflag, hready, .inr ⟨hphase, .inr (.inl (hclient _ _))⟩⟩
      · simp only [hidle _ heq, reduceCtorEq, true_or, and_true, false_or] at hshutdown
        simp only [Agrees, hcontrol]
        exact ⟨hsound, .inr (.inr ⟨hshutdown, .inr (.inl (hclient _ _))⟩)⟩
  | unlock heq =>
      refine ⟨place, hlocated, .inl rfl, ?_⟩
      rcases h.calling hcall with ⟨task, todo, hcontrol, hloop, hflag, hready, hphase⟩ |
        ⟨outcome, hcontrol, hsound, hshutdown⟩
      · simp only [hidle _ heq, reduceCtorEq, or_self, exists_false, and_false, or_true,
          and_true, false_or] at hphase
        simp only [Agrees, hcontrol]
        exact ⟨hloop, hflag, hready, .inr ⟨hphase, .inr (.inr (hclient s.queue _))⟩⟩
      · simp only [hidle _ heq, reduceCtorEq, or_true, and_true, false_or] at hshutdown
        simp only [Agrees, hcontrol]
        exact ⟨hsound, .inr (.inr ⟨hshutdown, .inr (.inr (hclient s.queue _))⟩)⟩

/-- Every step keeps what the coordinator relies on, and is a step of the schedule or silent. -/
theorem Agrees.step {place : TaskId → Place (Fin pool.workerCount) (Fin pool.workerCount)}
    {event : Option Event} (closed : graph.Closed) (acyclic : Acyclic graph.edges.Has)
    (h : Agrees graph jobs s (phases place)) (hlocated : Located (jobsOf s.queue) place)
    (hwakeful : Wakeful s.queue) (hstep : Step graph s event s') :
    Wakeful s'.queue ∧ ∃ place', Located (jobsOf s'.queue) place' ∧
      ((event = none ∧ phases place' = phases place) ∨
        Schedule.Step graph (phases place) event (phases place')) ∧
      Agrees graph jobs s' (phases place') := by
  cases hstep with
  | worker w hstep =>
      obtain ⟨place', hlocated', hschedule, hphases⟩ :=
        hlocated.workerMove (workerMove hwakeful hstep)
      have hframe := hstep.frame
      exact ⟨hwakeful.workerStep hstep, place', hlocated', hschedule,
        h.congr hframe.clients hframe.shutdown hphases⟩
  | call hcall hstep =>
      obtain ⟨place', hlocated', hphases, hagrees⟩ := h.call hlocated hcall hstep
      exact ⟨hwakeful.clientStep hstep, place', hlocated',
        hphases.imp (fun heq => ⟨rfl, heq⟩) id, hagrees⟩
  | skip hcontrol hsubmitted =>
      refine ⟨hwakeful, place, hlocated, .inl ⟨rfl, rfl⟩, ?_⟩
      simp only [Agrees, hcontrol] at h
      exact ⟨h.1.skip hsubmitted, h.2⟩
  | @enqueue task todo hcontrol hsubmitted hjob =>
      simp only [Agrees, hcontrol] at h
      obtain ⟨hloop, hflag, hidle⟩ := h
      obtain ⟨hloop', hwaiting⟩ := hloop.removeJob hjob
      refine ⟨hwakeful.clientStep (.enqueue s.nextWorker task hidle), place, hlocated,
        .inl ⟨rfl, rfl⟩, hloop', hflag, hloop.ready task List.mem_cons_self,
        .inl ⟨hwaiting, s.nextWorker, .inl ?_⟩⟩
      simp [Execution.client, State.setClient]
  | noJob hcontrol hsubmitted hjob =>
      simp only [Agrees, hcontrol] at h
      exact absurd (h.1.mem_jobs hsubmitted) hjob
  | enqueued hcontrol hclient =>
      refine ⟨hwakeful, place, hlocated, .inl ⟨rfl, rfl⟩, ?_⟩
      simp only [Agrees, hcontrol, hclient, reduceCtorEq, or_self, exists_false, and_false,
        or_true, and_true, false_or] at h
      exact ⟨h.1.submit h.2.2.2, h.2.1, hclient⟩
  | dispatched hcontrol =>
      refine ⟨hwakeful, place, hlocated, .inl ⟨rfl, rfl⟩, ?_⟩
      simp only [Agrees, hcontrol] at h
      exact h
  | leave hcontrol hverdict =>
      refine ⟨hwakeful, place, hlocated, .inl ⟨rfl, rfl⟩, ?_⟩
      simp only [Agrees, hcontrol] at h
      obtain ⟨hloop, -, hidle⟩ := h
      refine ⟨Looping.verdict hloop.books closed acyclic (.inl ?_) hverdict, hidle⟩
      intro task htask
      rcases hloop.covered task htask with hdone | hnone | htodo
      · exact hdone
      · cases hnone
      · cases htodo
  | await hcontrol hverdict =>
      refine ⟨hwakeful, place, hlocated, .inl ⟨rfl, rfl⟩, ?_⟩
      simp only [Agrees, hcontrol] at h
      exact ⟨h.1, h.2.1, h.2.2, Looping.running_pos hverdict⟩
  | @complete task rest running hcontrol hchannel hrunning =>
      simp only [Agrees, hcontrol] at h
      obtain ⟨hloop, hflag, hidle, -⟩ := h
      obtain ⟨hphase, hreceived⟩ := hlocated.receive hchannel
      have hphases : phases (update place task (.recorded true)) =
          update (phases place) task .completed := phases_update place task _
      refine ⟨hwakeful.clientStep (.receive hidle hchannel), _, hreceived, .inr ?_, ?_⟩
      · rw [hphases]
        exact .complete hphase
      · rw [hphases]
        exact ⟨Looping.complete hloop.books hphase hrunning, hflag, hidle⟩
  | @fail task rest running hcontrol hchannel hrunning =>
      simp only [Agrees, hcontrol] at h
      obtain ⟨hphase, hreceived⟩ := hlocated.receive hchannel
      have hphases : phases (update place task (.recorded false)) =
          update (phases place) task .failed := phases_update place task _
      refine ⟨hwakeful.clientStep (.receive h.2.2.1 hchannel), _, hreceived, .inr ?_, ?_⟩
      · rw [hphases]
        exact .fail hphase
      · rw [hphases]
        exact ⟨⟨task, rfl, update_self _ _ _⟩, h.2.2.1⟩
  | underflow hcontrol =>
      simp only [Agrees, hcontrol] at h
      omega
  | disconnected hcontrol _ hworkers =>
      -- a worker has left only if the shutdown was requested
      simp only [Agrees, hcontrol] at h
      have hexited := hwakeful.exited ⟨0, pool.pos⟩ (hworkers _)
      rw [h.2.1] at hexited
      cases hexited
  | requestShutdown hcontrol =>
      simp only [Agrees, hcontrol] at h
      refine ⟨hwakeful.clientStep (.requestShutdown h.2), place, hlocated, .inl ⟨rfl, rfl⟩,
        h.1, .inl ?_⟩
      simp [Execution.client, State.setClient]
  | requested hcontrol hclient =>
      refine ⟨hwakeful, place, hlocated, .inl ⟨rfl, rfl⟩, ?_⟩
      simp only [Agrees, hcontrol, hclient, reduceCtorEq, false_or, or_true, and_true] at h
      exact ⟨h.1, hclient, h.2⟩
  | dropReceiver hcontrol =>
      simp only [Agrees, hcontrol] at h
      exact ⟨hwakeful.clientStep (.dropReceiver h.2.1 h.2.2), place, hlocated,
        .inl ⟨rfl, rfl⟩, h.1, h.2.1⟩
  | join hcontrol _ =>
      refine ⟨hwakeful, place, hlocated, .inl ⟨rfl, rfl⟩, ?_⟩
      simp only [Agrees, hcontrol] at h
      exact ⟨h.2, .inl h.1⟩

/-- An execution follows a schedule of the graph. -/
def simulation (pool : WorkStealingPool) (closed : graph.Closed)
    (acyclic : Acyclic graph.edges.Has) (jobs : OrderedSet TaskId) :
    System.Simulation (system pool graph jobs) (Schedule.system graph) where
  rel s phase := Wakeful s.queue ∧ ∃ place, Located (jobsOf s.queue) place ∧
    phases place = phase ∧ Agrees graph jobs s phase
  initial := by
    rintro s rfl
    refine ⟨fun _ => .waiting, fun _ => rfl, wakeful_start, _, Located.start, rfl, ?_⟩
    unfold Agrees Execution.start
    cases hjobs : jobSetMismatch graph jobs with
    | some error => exact ⟨rfl, .inr ⟨error, rfl, rfl⟩⟩
    | none => exact ⟨.start hjobs fun _ => rfl, rfl, rfl⟩
  step := by
    rintro s event s' phase ⟨hwakeful, place, hlocated, rfl, hagrees⟩ hstep
    obtain ⟨hwakeful', place', hlocated', hschedule, hagrees'⟩ :=
      hagrees.step closed acyclic hlocated hwakeful hstep
    rcases hschedule with ⟨hevent, hphases⟩ | hschedule
    · exact .inl ⟨hevent, hwakeful', place', hlocated', hphases, hphases ▸ hagrees'⟩
    · exact .inr ⟨_, hschedule, hwakeful', place', hlocated', rfl, hagrees'⟩

/-- The coordinator does not panic, and what it returns is true of the schedule. -/
theorem sound_of_run (pool : WorkStealingPool) (closed : graph.Closed)
    (acyclic : Acyclic graph.edges.Has) {jobs : OrderedSet TaskId}
    (hjobs : jobSetMismatch graph jobs = none) {trace : List Event}
    {s : (system pool graph jobs).State} (run : (system pool graph jobs).Run trace s) :
    s.control ≠ .panicked ∧ ∀ outcome, s.control = .returned outcome →
      ∃ phase, (Schedule.system graph).Run trace phase ∧ Sound graph phase outcome := by
  obtain ⟨phase, hschedule, -, place, -, rfl, hagrees⟩ :=
    (simulation pool closed acyclic jobs).run run
  refine ⟨fun hpanicked => ?_, fun outcome hreturned => ⟨_, hschedule, ?_⟩⟩
  · simp only [Agrees, hpanicked] at hagrees
  · simp only [Agrees, hreturned] at hagrees
    rcases hagrees.2 with hsound | ⟨error, hmismatch, -⟩
    · exact hsound
    · cases hjobs.symm.trans hmismatch

/-! ## What an execution guarantees -/

/-- The coordinator is in its loop. -/
def Control.Looping : Control → Prop
  | .dispatch _ | .submitting _ _ | .check | .receive => True
  | .stop _ | .stopping _ | .drop _ | .join _ | .returned _ | .panicked => False

def view (pool : WorkStealingPool) (graph : DependencyGraph) (jobs : OrderedSet TaskId) :
    View (system pool graph jobs) where
  running s task := ∃ w, s.queue.workers w = .running task
  looping s := s.control.Looping
  ledger s := s.ledger
  returned s outcome := s.control = .returned outcome

/-- The pool executes a graph as promised. -/
theorem executes_graph (pool : WorkStealingPool) {builder : TaskGraphBuilder}
    (hbuild : builder.build = some (.ok graph)) (jobs : OrderedSet TaskId) :
    Executes builder graph (system pool graph jobs) (view pool graph jobs) := by
  obtain ⟨-, closed, acyclic⟩ := TaskGraphBuilder.of_build hbuild
  refine executes_of_simulation hbuild (simulation pool closed acyclic jobs) ?_ ?_ ?_
  · rintro s phase ⟨-, place, hlocated, rfl, -⟩ task ⟨w, hworker⟩
    have hplace := (hlocated.worker w task .running).mp (by simp [jobsOf, hworker, load])
    simp [phases, hplace, Place.phase]
  · rintro s phase ⟨-, place, -, rfl, hagrees⟩ report hreturned
    change s.control = _ at hreturned
    simp only [Agrees, hreturned] at hagrees
    rcases hagrees.2 with hsound | ⟨error, -, herror⟩
    · exact hsound
    · cases herror
  · rintro s phase ⟨-, place, -, rfl, hagrees⟩ hlooping
    change s.control.Looping at hlooping
    cases hcontrol : s.control with
    | dispatch todo =>
        simp only [Agrees, hcontrol] at hagrees
        exact ⟨none, todo, hagrees.1, by simp⟩
    | submitting task todo =>
        simp only [Agrees, hcontrol] at hagrees
        refine ⟨some task, todo, hagrees.1, ?_⟩
        rintro other heq
        exact Option.some.inj heq ▸ hagrees.2.2.1
    | check | receive =>
        simp only [Agrees, hcontrol] at hagrees
        exact ⟨none, [], hagrees.1, by simp⟩
    | stop | stopping | drop | join | returned | panicked =>
        simp only [hcontrol, Control.Looping] at hlooping

end WorkStealingPool

end Jadren.Concurrency
