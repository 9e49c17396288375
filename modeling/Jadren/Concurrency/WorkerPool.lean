import Jadren.Concurrency.WorkStealing

/-!
# The fixed worker pool

`WorkerPool::execute`: the workers take messages in order from one channel whose
receiver they share under a lock.  The coordinator sends at most as many jobs as
there are workers, and once its loop ends it sends a shutdown message for every
worker, drops the sender and joins them.

No shutdown message is sent and no worker leaves while the coordinator is in its
loop (`Serving`), so a job that is sent will be taken.  The rest is as for the
work-stealing pool: `Agrees` says what the coordinator's variables mean, and every
step is a step of a schedule of the graph, or silent.
-/

namespace Jadren.Concurrency

open Schedule TaskGraphBuilder WorkStealingPool Function

/-- Fixed worker pool. -/
structure WorkerPool where
  workerCount : ℕ
  pos : 0 < workerCount

namespace WorkerPool

/-- Creates a pool with a fixed positive worker count. -/
def new (workerCount : ℕ) : Except PoolError WorkerPool :=
  if h : 0 < workerCount then .ok ⟨workerCount, h⟩ else .error .invalidWorkerCount

/-- Where a worker thread is in its loop. -/
inductive Worker
  /-- About to lock the shared receiver. -/
  | lockReceiver
  /-- Holds the lock and waits for a message. -/
  | receiving
  /-- Holds the lock and has a message, or none because the channel is closed. -/
  | received (message : Option WorkMessage)
  /-- Has dropped the lock. -/
  | holding (message : Option WorkMessage)
  | running (task : TaskId)
  /-- About to send the completion. -/
  | finished (task : TaskId) (ok : Bool)
  /-- Left the loop. -/
  | exited
  deriving DecidableEq, Repr

/-- Where the coordinator is. -/
inductive Control
  /-- In the loop over ready tasks; the list is what is left of them. -/
  | dispatch (todo : List TaskId)
  /-- Nothing more is dispatched now. -/
  | check
  /-- Waits for a completion. -/
  | receive
  /-- Left the loop; so many shutdown messages are still to be sent. -/
  | stop (left : ℕ) (outcome : Outcome)
  /-- Waits for the workers to exit. -/
  | join (outcome : Outcome)
  | returned (outcome : Outcome)
  | panicked
  deriving DecidableEq

/-- The channels, the threads and the coordinator's variables. -/
structure Execution (pool : WorkerPool) where
  work : List WorkMessage
  /-- Whether the sender of the work channel is still there. -/
  sender : Bool
  receiverLock : Option (Fin pool.workerCount)
  workers : Fin pool.workerCount → Worker
  /-- The completion channel. -/
  completions : List (TaskId × Bool)
  ledger : Ledger
  control : Control

variable {pool : WorkerPool} {graph : DependencyGraph}

/-- How an execution starts: at once with an error unless there is one job for every task. -/
def Execution.start (pool : WorkerPool) (graph : DependencyGraph) (jobs : OrderedSet TaskId) :
    Execution pool :=
  { work := []
    sender := true
    receiverLock := none
    workers := fun _ => .lockReceiver
    completions := []
    ledger := Ledger.start jobs
    control :=
      match jobSetMismatch graph jobs with
      | some error => .returned (.error error)
      | none => .dispatch (graph.readyTasks ∅).elems }

def Execution.setWorker (s : Execution pool) (w : Fin pool.workerCount) (worker : Worker) :
    Execution pool :=
  { s with workers := update s.workers w worker }

/-- The receiver of the work channel is gone when every worker has left. -/
def Execution.Closed (s : Execution pool) : Prop := ∀ w, s.workers w = .exited

/-- One step of a worker. -/
inductive WorkerStep (s : Execution pool) (w : Fin pool.workerCount) :
    Option Event → Execution pool → Prop
  | lock (hworker : s.workers w = .lockReceiver) (hlock : s.receiverLock = none) :
      WorkerStep s w none { s.setWorker w .receiving with receiverLock := some w }
  | recv {message : WorkMessage} {rest : List WorkMessage} (hworker : s.workers w = .receiving)
      (hwork : s.work = message :: rest) :
      WorkerStep s w none { s.setWorker w (.received (some message)) with work := rest }
  | recvClosed (hworker : s.workers w = .receiving) (hwork : s.work = [])
      (hsender : s.sender = false) : WorkerStep s w none (s.setWorker w (.received none))
  | unlock {message : Option WorkMessage} (hworker : s.workers w = .received message) :
      WorkerStep s w none { s.setWorker w (.holding message) with receiverLock := none }
  | start {task : TaskId} (hworker : s.workers w = .holding (some (.run task))) :
      WorkerStep s w (some (.start task)) (s.setWorker w (.running task))
  | leave (hworker : s.workers w = .holding (some .shutdown) ∨ s.workers w = .holding none) :
      WorkerStep s w none (s.setWorker w .exited)
  | finish {task : TaskId} (ok : Bool) (hworker : s.workers w = .running task) :
      WorkerStep s w (some (.finish task ok)) (s.setWorker w (.finished task ok))
  /-- The receiver of completions lives as long as the workers. -/
  | send {task : TaskId} {ok : Bool} (hworker : s.workers w = .finished task ok) :
      WorkerStep s w none
        { s.setWorker w .lockReceiver with completions := s.completions ++ [(task, ok)] }

/-- One step of a worker or of the coordinator. -/
inductive Step (graph : DependencyGraph) (s : Execution pool) :
    Option Event → Execution pool → Prop
  | worker {event : Option Event} {s' : Execution pool} (w : Fin pool.workerCount)
      (hstep : WorkerStep s w event s') : Step graph s event s'
  | full {task : TaskId} {todo : List TaskId} (hcontrol : s.control = .dispatch (task :: todo))
      (hrunning : pool.workerCount ≤ s.ledger.running) :
      Step graph s none { s with control := .check }
  | skip {task : TaskId} {todo : List TaskId} (hcontrol : s.control = .dispatch (task :: todo))
      (hrunning : s.ledger.running < pool.workerCount) (hsubmitted : task ∈ s.ledger.submitted) :
      Step graph s none { s with control := .dispatch todo }
  | send {task : TaskId} {todo : List TaskId} (hcontrol : s.control = .dispatch (task :: todo))
      (hrunning : s.ledger.running < pool.workerCount) (hsubmitted : task ∉ s.ledger.submitted)
      (hjob : task ∈ s.ledger.jobs) (hopen : ¬ s.Closed) :
      Step graph s none
        { s with
          work := s.work ++ [.run task]
          ledger := (s.ledger.removeJob task).submit task
          control := .dispatch todo }
  | sendFails {task : TaskId} {todo : List TaskId}
      (hcontrol : s.control = .dispatch (task :: todo))
      (hrunning : s.ledger.running < pool.workerCount) (hsubmitted : task ∉ s.ledger.submitted)
      (hjob : task ∈ s.ledger.jobs) (hclosed : s.Closed) :
      Step graph s none
        { s with
          ledger := s.ledger.removeJob task
          control := .stop pool.workerCount (.error .workerChannelClosed) }
  | noJob {task : TaskId} {todo : List TaskId} (hcontrol : s.control = .dispatch (task :: todo))
      (hrunning : s.ledger.running < pool.workerCount) (hsubmitted : task ∉ s.ledger.submitted)
      (hjob : task ∉ s.ledger.jobs) : Step graph s none { s with control := .panicked }
  | dispatched (hcontrol : s.control = .dispatch []) :
      Step graph s none { s with control := .check }
  | leave {outcome : Outcome} (hcontrol : s.control = .check)
      (hverdict : s.ledger.verdict graph pool.workerCount = some outcome) :
      Step graph s none { s with control := .stop pool.workerCount outcome }
  | await (hcontrol : s.control = .check)
      (hverdict : s.ledger.verdict graph pool.workerCount = none) :
      Step graph s none { s with control := .receive }
  | complete {task : TaskId} {rest : List (TaskId × Bool)} {running : ℕ}
      (hcontrol : s.control = .receive) (hcompletions : s.completions = (task, true) :: rest)
      (hrunning : s.ledger.running = running + 1) :
      Step graph s (some (.complete task))
        { s with
          completions := rest
          ledger := s.ledger.complete task running
          control :=
            .dispatch (graph.readyTasks (s.ledger.complete task running).completed).elems }
  | fail {task : TaskId} {rest : List (TaskId × Bool)} {running : ℕ}
      (hcontrol : s.control = .receive) (hcompletions : s.completions = (task, false) :: rest)
      (hrunning : s.ledger.running = running + 1) :
      Step graph s (some (.fail task))
        { s with
          completions := rest
          ledger := { s.ledger with running := running }
          control := .stop pool.workerCount (.error (.taskFailed task)) }
  | underflow {completion : TaskId × Bool} {rest : List (TaskId × Bool)}
      (hcontrol : s.control = .receive) (hcompletions : s.completions = completion :: rest)
      (hrunning : s.ledger.running = 0) : Step graph s none { s with control := .panicked }
  /-- Nothing can be received any more. -/
  | disconnected (hcontrol : s.control = .receive) (hcompletions : s.completions = [])
      (hclosed : s.Closed) :
      Step graph s none
        { s with control := .stop pool.workerCount (.error .workerChannelClosed) }
  | sendShutdown {left : ℕ} {outcome : Outcome} (hcontrol : s.control = .stop (left + 1) outcome)
      (hopen : ¬ s.Closed) :
      Step graph s none
        { s with work := s.work ++ [.shutdown], control := .stop left outcome }
  /-- The message is dropped when no receiver is left. -/
  | shutdownFails {left : ℕ} {outcome : Outcome}
      (hcontrol : s.control = .stop (left + 1) outcome) (hclosed : s.Closed) :
      Step graph s none { s with control := .stop left outcome }
  | dropSender {outcome : Outcome} (hcontrol : s.control = .stop 0 outcome) :
      Step graph s none { s with sender := false, control := .join outcome }
  | join {outcome : Outcome} (hcontrol : s.control = .join outcome) (hclosed : s.Closed) :
      Step graph s none { s with control := .returned outcome }

/-- The executions of a graph by a pool, for a map with the given jobs. -/
def system (pool : WorkerPool) (graph : DependencyGraph) (jobs : OrderedSet TaskId) :
    System Event where
  State := Execution pool
  initial s := s = Execution.start pool graph jobs
  step := Step graph

/-! ## Where the jobs are -/

/-- The job a worker has, and how far it has come. -/
def load : Worker → Option (TaskId × Phase)
  | .received (some (.run task)) | .holding (some (.run task)) => some (task, .queued)
  | .running task => some (task, .running)
  | .finished task ok => some (task, .finished ok)
  | _ => none

/-- The jobs in the channels and with the threads; the one queue is the work channel. -/
def jobsOf (s : Execution pool) : Jobs Unit (Fin pool.workerCount) :=
  { queue := fun _ => s.work.filterMap message?
    load := fun w => load (s.workers w)
    channel := s.completions }

/-- The jobs after a step in which one worker moves on. -/
theorem jobsOf_eq {s s' : Execution pool} {w : Fin pool.workerCount} {worker : Worker}
    (hworkers : s'.workers = update s.workers w worker) :
    jobsOf s' =
      { queue := fun _ => s'.work.filterMap message?
        load := update (jobsOf s).load w (load worker)
        channel := s'.completions } := by
  simp only [jobsOf, Jobs.mk.injEq, hworkers, true_and, and_true]
  funext v
  by_cases hv : v = w
  · subst hv
    simp
  · simp [update_of_ne hv]

variable {w : Fin pool.workerCount} {event : Option Event}

theorem workerMove {s s' : Execution pool} (hstep : WorkerStep s w event s') :
    WorkerMove (jobsOf s) event (jobsOf s') := by
  have hkeep : ∀ {t : Execution pool} {worker : Worker},
      t.workers = update s.workers w worker → load worker = load (s.workers w) →
      t.work.filterMap message? = s.work.filterMap message? →
      t.completions = s.completions → WorkerMove (jobsOf s) none (jobsOf t) := by
    intro t worker hworkers hload hwork hcompletions
    have hjobs : jobsOf t = jobsOf s := by
      rw [jobsOf_eq hworkers, hwork, hcompletions, hload,
        show update (jobsOf s).load w (load (s.workers w)) = (jobsOf s).load from
          update_eq_self w (jobsOf s).load]
      rfl
    exact hjobs ▸ .keep
  have hload : ∀ {worker : Worker} {job : Option (TaskId × Phase)}, s.workers w = worker →
      load worker = job → (jobsOf s).load w = job := by
    rintro worker job rfl hjob
    exact hjob
  cases hstep with
  | lock hworker | recvClosed hworker => exact hkeep rfl (by simp [hworker, load]) rfl rfl
  | @unlock message hworker =>
      refine hkeep rfl ?_ rfl rfl
      rw [hworker]
      rcases message with _ | _ | _ <;> rfl
  | @recv message rest hworker hwork =>
      cases message with
      | shutdown =>
          exact hkeep rfl (by simp [hworker, load])
            (by simp [hwork, List.filterMap_cons, message?]) rfl
      | run task =>
          have hqueue : ((jobsOf s).queue ()).Perm
              (task :: rest.filterMap message?) := by
            simp [jobsOf, hwork, message?]
          have htake := WorkerMove.take hqueue (hload hworker rfl)
          have hjobs : jobsOf { s.setWorker w (.received (some (.run task))) with work := rest } =
              { queue := update (jobsOf s).queue ()
                  (rest.filterMap message?)
                load := update (jobsOf s).load w (some (task, .queued))
                channel := s.completions } := by
            rw [@jobsOf_eq pool s _ w _ rfl]
            simp only [load, Jobs.mk.injEq, true_and]
            refine ⟨?_, rfl⟩
            funext q
            simp
          exact hjobs ▸ htake
  | @start task hworker =>
      have hjobs := @jobsOf_eq pool s (s.setWorker w (.running task)) w (.running task) rfl
      exact hjobs ▸ .start (hload hworker rfl)
  | leave hworker => exact hkeep rfl (by rcases hworker with h | h <;> simp [h, load]) rfl rfl
  | @finish task ok hworker =>
      have hjobs := @jobsOf_eq pool s (s.setWorker w (.finished task ok)) w (.finished task ok) rfl
      exact hjobs ▸ .finish ok (hload hworker rfl)
  | @send task ok hworker =>
      have hjobs := @jobsOf_eq pool s
        { s.setWorker w .lockReceiver with completions := s.completions ++ [(task, ok)] } w
        .lockReceiver rfl
      exact hjobs ▸ .send (hload hworker rfl)

/-! ## The coordinator -/

/-- The channel is open, and no worker has been told to leave. -/
structure Serving {n : ℕ} (sender : Bool) (work : List WorkMessage) (workers : Fin n → Worker) :
    Prop where
  sender_eq : sender = true
  work_ne : WorkMessage.shutdown ∉ work
  workers_ne : ∀ w, workers w ≠ .exited ∧ workers w ≠ .received none ∧ workers w ≠ .holding none ∧
    workers w ≠ .received (some .shutdown) ∧ workers w ≠ .holding (some .shutdown)

/-- What holds of the coordinator's variables, by where it is. -/
def Agrees (graph : DependencyGraph) (jobs : OrderedSet TaskId) (s : Execution pool)
    (phase : TaskId → Phase) : Prop :=
  match s.control with
  | .dispatch todo => Looping graph s.ledger phase none todo ∧ Serving s.sender s.work s.workers
  | .check => (∃ todo, Looping graph s.ledger phase none todo ∧
      (todo = [] ∨ pool.workerCount ≤ s.ledger.running)) ∧ Serving s.sender s.work s.workers
  | .receive => (∃ todo, Looping graph s.ledger phase none todo) ∧
      Serving s.sender s.work s.workers ∧
      0 < s.ledger.running
  | .stop _ outcome | .join outcome => Sound graph phase outcome
  | .returned outcome => Sound graph phase outcome ∨
      ∃ error, jobSetMismatch graph jobs = some error ∧ outcome = .error error
  | .panicked => False

variable {jobs : OrderedSet TaskId} {s s' : Execution pool} {phase phase' : TaskId → Phase}

/-- A worker's step changes neither the coordinator's variables nor that the pool is serving. -/
theorem WorkerStep.frame (hstep : WorkerStep s w event s') :
    s'.control = s.control ∧ s'.ledger = s.ledger ∧
    (Serving s.sender s.work s.workers → Serving s'.sender s'.work s'.workers) := by
  have hworkers : ∀ {worker : Worker}, Serving s.sender s.work s.workers →
      (worker ≠ .exited ∧ worker ≠ .received none ∧ worker ≠ .holding none ∧
        worker ≠ .received (some .shutdown) ∧ worker ≠ .holding (some .shutdown)) →
      ∀ v, update s.workers w worker v ≠ .exited ∧
        update s.workers w worker v ≠ .received none ∧
        update s.workers w worker v ≠ .holding none ∧
        update s.workers w worker v ≠ .received (some .shutdown) ∧
        update s.workers w worker v ≠ .holding (some .shutdown) := by
    intro worker hs hworker v
    by_cases hv : v = w
    · subst hv
      simpa using hworker
    · simpa [update_of_ne hv] using hs.workers_ne v
  -- a worker leaves only if the channel is closed or a shutdown message came
  cases hstep with
  | lock | start | finish | send =>
      exact ⟨rfl, rfl, fun hs => ⟨hs.sender_eq, hs.work_ne, hworkers hs (by simp)⟩⟩
  | @recv message rest hworker hwork =>
      refine ⟨rfl, rfl, fun hs => ⟨hs.sender_eq, ?_, hworkers hs ?_⟩⟩
      · exact fun hmem => hs.work_ne (hwork ▸ List.mem_cons_of_mem _ hmem)
      · have hmessage : message ≠ .shutdown := by
          rintro rfl
          exact hs.work_ne (hwork ▸ List.mem_cons_self)
        simpa using hmessage
  | recvClosed _ _ hsender =>
      refine ⟨rfl, rfl, fun hs => ?_⟩
      rw [hs.sender_eq] at hsender
      cases hsender
  | @unlock message hworker =>
      refine ⟨rfl, rfl, fun hs => ⟨hs.sender_eq, hs.work_ne, hworkers hs ?_⟩⟩
      obtain ⟨-, hnone, -, hshutdown, -⟩ := hs.workers_ne w
      rw [hworker] at hnone hshutdown
      simp only [ne_eq, Worker.received.injEq] at hnone hshutdown
      simp [hnone, hshutdown]
  | leave hworker =>
      refine ⟨rfl, rfl, fun hs => ?_⟩
      obtain ⟨-, -, hnone, -, hshutdown⟩ := hs.workers_ne w
      rcases hworker with h | h
      · exact absurd h hshutdown
      · exact absurd h hnone

theorem Serving.not_closed (h : Serving s.sender s.work s.workers) : ¬ s.Closed :=
  fun hclosed => (h.workers_ne ⟨0, pool.pos⟩).1 (hclosed _)

theorem Agrees.worker (h : Agrees graph jobs s phase) (hstep : WorkerStep s w event s')
    (hphase : SameEnds phase phase') : Agrees graph jobs s' phase' := by
  obtain ⟨hcontrol, hledger, hserving⟩ := hstep.frame
  unfold Agrees at h ⊢
  rw [hcontrol, hledger]
  cases hc : s.control with
  | dispatch =>
      simp only [hc] at h ⊢
      exact ⟨h.1.congr hphase, hserving h.2⟩
  | check =>
      simp only [hc] at h ⊢
      obtain ⟨⟨todo, hloop, hfull⟩, hs⟩ := h
      exact ⟨⟨todo, hloop.congr hphase, hfull⟩, hserving hs⟩
  | receive =>
      simp only [hc] at h ⊢
      obtain ⟨⟨todo, hloop⟩, hs, hrunning⟩ := h
      exact ⟨⟨todo, hloop.congr hphase⟩, hserving hs, hrunning⟩
  | stop | join =>
      simp only [hc] at h ⊢
      exact h.congr hphase
  | returned =>
      simp only [hc] at h ⊢
      exact h.imp (fun hsound => hsound.congr hphase) id
  | panicked => simp only [hc] at h

/-- Every step keeps what the coordinator relies on, and is a step of the schedule or silent. -/
theorem Agrees.step {place : TaskId → Place Unit (Fin pool.workerCount)} {event : Option Event}
    (closed : graph.Closed) (acyclic : Acyclic graph.edges.Has)
    (h : Agrees graph jobs s (phases place)) (hlocated : Located (jobsOf s) place)
    (hstep : Step graph s event s') :
    ∃ place', Located (jobsOf s') place' ∧
      ((event = none ∧ phases place' = phases place) ∨
        Schedule.Step graph (phases place) event (phases place')) ∧
      Agrees graph jobs s' (phases place') := by
  cases hstep with
  | worker w hstep =>
      obtain ⟨place', hlocated', hschedule, hphases⟩ := hlocated.workerMove (workerMove hstep)
      exact ⟨place', hlocated', hschedule, h.worker hstep hphases⟩
  | full hcontrol hrunning =>
      refine ⟨place, hlocated, .inl ⟨rfl, rfl⟩, ?_⟩
      simp only [Agrees, hcontrol] at h
      exact ⟨⟨_, h.1, .inr hrunning⟩, h.2⟩
  | skip hcontrol _ hsubmitted =>
      refine ⟨place, hlocated, .inl ⟨rfl, rfl⟩, ?_⟩
      simp only [Agrees, hcontrol] at h
      exact ⟨h.1.skip hsubmitted, h.2⟩
  | @send task todo hcontrol _ hsubmitted hjob _ =>
      simp only [Agrees, hcontrol] at h
      obtain ⟨hloop, hserving⟩ := h
      obtain ⟨hloop', hwaiting⟩ := hloop.removeJob hjob
      obtain ⟨hschedule, hpushed⟩ := hloop'.push (hloop.ready task List.mem_cons_self) hwaiting
      -- the job in hand moves into the channel of work: a step of the schedule
      have hphases : phases (update place task (.queue ())) =
          update (phases place) task .queued := phases_update place task (.queue ())
      have hqueue : (fun _ : Unit =>
          (s.work ++ [WorkMessage.run task]).filterMap message?) =
          update (jobsOf s).queue () ((jobsOf s).queue () ++ [task]) := by
        funext q
        simp [jobsOf, List.filterMap_append, message?]
      have hplaced := hlocated.push () (hlocated.of_waiting hwaiting)
      rw [← hqueue] at hplaced
      refine ⟨_, hplaced, .inr (hphases ▸ hschedule), ?_⟩
      rw [hphases]
      refine ⟨hpushed.submit (by simp), hserving.sender_eq, ?_, hserving.workers_ne⟩
      simpa using hserving.work_ne
  | sendFails hcontrol _ _ _ hclosed =>
      simp only [Agrees, hcontrol] at h
      exact absurd hclosed h.2.not_closed
  | noJob hcontrol _ hsubmitted hjob =>
      simp only [Agrees, hcontrol] at h
      exact absurd (h.1.mem_jobs hsubmitted) hjob
  | dispatched hcontrol =>
      refine ⟨place, hlocated, .inl ⟨rfl, rfl⟩, ?_⟩
      simp only [Agrees, hcontrol] at h
      exact ⟨⟨[], h.1, .inl rfl⟩, h.2⟩
  | leave hcontrol hverdict =>
      refine ⟨place, hlocated, .inl ⟨rfl, rfl⟩, ?_⟩
      simp only [Agrees, hcontrol] at h
      obtain ⟨⟨todo, hloop, hfull⟩, -⟩ := h
      -- all that is ready has been submitted, or the pool is full and something runs
      refine Looping.verdict hloop.books closed acyclic ?_ hverdict
      rcases hfull with rfl | hfull
      · refine .inl fun task htask => ?_
        rcases hloop.covered task htask with hdone | hnone | htodo
        · exact hdone
        · cases hnone
        · cases htodo
      · exact .inr (lt_of_lt_of_le pool.pos hfull)
  | await hcontrol hverdict =>
      refine ⟨place, hlocated, .inl ⟨rfl, rfl⟩, ?_⟩
      simp only [Agrees, hcontrol] at h
      obtain ⟨⟨todo, hloop, -⟩, hserving⟩ := h
      exact ⟨⟨todo, hloop⟩, hserving, Looping.running_pos hverdict⟩
  | @complete task rest running hcontrol hcompletions hrunning =>
      simp only [Agrees, hcontrol] at h
      obtain ⟨⟨todo, hloop⟩, hserving, -⟩ := h
      obtain ⟨hphase, hreceived⟩ := hlocated.receive hcompletions
      -- the completion leaves the channel: the task is recorded
      have hphases : phases (update place task (.recorded true)) =
          update (phases place) task .completed := phases_update place task _
      refine ⟨_, hreceived, .inr ?_, ?_⟩
      · rw [hphases]
        exact .complete hphase
      · rw [hphases]
        exact ⟨Looping.complete hloop.books hphase hrunning, hserving⟩
  | @fail task rest running hcontrol hcompletions hrunning =>
      obtain ⟨hphase, hreceived⟩ := hlocated.receive hcompletions
      have hphases : phases (update place task (.recorded false)) =
          update (phases place) task .failed := phases_update place task _
      refine ⟨_, hreceived, .inr ?_, ?_⟩
      · rw [hphases]
        exact .fail hphase
      · rw [hphases]
        exact ⟨task, rfl, update_self _ _ _⟩
  | underflow hcontrol =>
      simp only [Agrees, hcontrol] at h
      omega
  | disconnected hcontrol _ hclosed =>
      simp only [Agrees, hcontrol] at h
      exact absurd hclosed h.2.1.not_closed
  | @sendShutdown left outcome hcontrol _ =>
      -- a shutdown message is no job, so the queued jobs are the same
      have hjobs : (s.work ++ [WorkMessage.shutdown]).filterMap message? =
          s.work.filterMap message? := by
        simp [List.filterMap_append, message?]
      refine ⟨place, ?_, .inl ⟨rfl, rfl⟩, ?_⟩
      · simpa only [jobsOf, hjobs] using hlocated
      · simp only [Agrees, hcontrol] at h
        exact h
  | shutdownFails hcontrol _ | dropSender hcontrol =>
      refine ⟨place, hlocated, .inl ⟨rfl, rfl⟩, ?_⟩
      simp only [Agrees, hcontrol] at h
      exact h
  | join hcontrol _ =>
      refine ⟨place, hlocated, .inl ⟨rfl, rfl⟩, ?_⟩
      simp only [Agrees, hcontrol] at h
      exact .inl h

/-- An execution follows a schedule of the graph. -/
def simulation (pool : WorkerPool) (closed : graph.Closed) (acyclic : Acyclic graph.edges.Has)
    (jobs : OrderedSet TaskId) :
    System.Simulation (system pool graph jobs) (Schedule.system graph) where
  rel s phase := ∃ place, Located (jobsOf s) place ∧ phases place = phase ∧
    Agrees graph jobs s phase
  initial := by
    rintro s rfl
    refine ⟨fun _ => .waiting, fun _ => rfl, _, Located.start, rfl, ?_⟩
    unfold Agrees Execution.start
    cases hjobs : jobSetMismatch graph jobs with
    | some error => exact .inr ⟨error, rfl, rfl⟩
    | none => exact ⟨.start hjobs fun _ => rfl, rfl, by simp, by simp⟩
  step := by
    rintro s event s' phase ⟨place, hlocated, rfl, hagrees⟩ hstep
    obtain ⟨place', hlocated', hschedule, hagrees'⟩ := hagrees.step closed acyclic hlocated hstep
    rcases hschedule with ⟨hevent, hphases⟩ | hschedule
    · exact .inl ⟨hevent, place', hlocated', hphases, hphases ▸ hagrees'⟩
    · exact .inr ⟨_, hschedule, place', hlocated', rfl, hagrees'⟩

/-! ## What an execution guarantees -/

/-- The coordinator is in its loop. -/
def Control.Looping : Control → Prop
  | .dispatch _ | .check | .receive => True
  | .stop _ _ | .join _ | .returned _ | .panicked => False

def view (pool : WorkerPool) (graph : DependencyGraph) (jobs : OrderedSet TaskId) :
    View (system pool graph jobs) where
  running s task := ∃ w, s.workers w = .running task
  looping s := s.control.Looping
  ledger s := s.ledger
  returned s outcome := s.control = .returned outcome

/-- The pool executes a graph as promised. -/
theorem executes_graph (pool : WorkerPool) {builder : TaskGraphBuilder}
    (hbuild : builder.build = some (.ok graph)) (jobs : OrderedSet TaskId) :
    Executes builder graph (system pool graph jobs) (view pool graph jobs) := by
  obtain ⟨-, closed, acyclic⟩ := of_build hbuild
  refine executes_of_simulation hbuild (simulation pool closed acyclic jobs) ?_ ?_ ?_
  · rintro s phase ⟨place, hlocated, rfl, -⟩ task ⟨w, hworker⟩
    have hplace := (hlocated.worker w task .running).mp (by simp [jobsOf, hworker, load])
    simp [phases, hplace, Place.phase]
  · rintro s phase ⟨place, -, rfl, hagrees⟩ report hreturned
    change s.control = _ at hreturned
    simp only [Agrees, hreturned] at hagrees
    rcases hagrees with hsound | ⟨error, -, herror⟩
    · exact hsound
    · cases herror
  · rintro s phase ⟨place, -, rfl, hagrees⟩ hlooping
    change s.control.Looping at hlooping
    cases hcontrol : s.control with
    | dispatch todo =>
        simp only [Agrees, hcontrol] at hagrees
        exact ⟨none, todo, hagrees.1, by simp⟩
    | check =>
        simp only [Agrees, hcontrol] at hagrees
        obtain ⟨⟨todo, hloop, -⟩, -⟩ := hagrees
        exact ⟨none, todo, hloop, by simp⟩
    | receive =>
        simp only [Agrees, hcontrol] at hagrees
        obtain ⟨⟨todo, hloop⟩, -⟩ := hagrees
        exact ⟨none, todo, hloop, by simp⟩
    | stop | join | returned | panicked => simp only [hcontrol, Control.Looping] at hlooping

end WorkerPool

/-- Both pools execute every graph that was built as promised, with any number of workers, whatever
the order of their steps and the coordinator's. -/
theorem pools_execute {builder : TaskGraphBuilder} {graph : DependencyGraph}
    (hbuild : builder.build = some (.ok graph)) (jobs : OrderedSet TaskId) (fixed : WorkerPool)
    (stealing : WorkStealingPool) :
    Executes builder graph (WorkerPool.system fixed graph jobs)
        (WorkerPool.view fixed graph jobs) ∧
      Executes builder graph (WorkStealingPool.system stealing graph jobs)
        (WorkStealingPool.view stealing graph jobs) :=
  ⟨fixed.executes_graph hbuild jobs, stealing.executes_graph hbuild jobs⟩

theorem pools_execute_writers :
    Executes (writers [] [1]) (writers [] [1]).graph
        (WorkerPool.system ⟨2, by decide⟩ (writers [] [1]).graph ⟨[1, 2]⟩)
        (WorkerPool.view ⟨2, by decide⟩ (writers [] [1]).graph ⟨[1, 2]⟩) ∧
      Executes (writers [] [1]) (writers [] [1]).graph
        (WorkStealingPool.system ⟨3, by decide⟩ (writers [] [1]).graph ⟨[1, 2]⟩)
        (WorkStealingPool.view ⟨3, by decide⟩ (writers [] [1]).graph ⟨[1, 2]⟩) :=
  pools_execute rfl ⟨[1, 2]⟩ ⟨2, by decide⟩ ⟨3, by decide⟩

end Jadren.Concurrency
