import Jadren.Concurrency.Schedule

/-!
# The work-stealing queues

The shared state of a work-stealing pool and the threads that use it.  Every
worker owns a deque; it takes its own newest message, else the oldest of another
worker, and a worker that finds nothing sleeps on the condition variable.  A
client is a thread that enqueues messages or requests the shutdown.

A step is one access to the shared state: one critical section of a deque's lock,
one read or write of the flag, taking or dropping the wake lock, one operation of
the condition variable or of the completion channel.  A sleeping worker may also
wake up spontaneously.  A job is known by its task; whether it returns or panics
is left open.

`Wakeful` is the lost wake-up argument: a worker sleeps un-notified only while the
deques are empty and the flag is down, or while the client that has just changed
that still holds the wake lock and is about to notify.
-/

namespace Jadren.Concurrency

open Function

inductive WorkMessage
  | run (task : TaskId)
  | shutdown
  deriving DecidableEq, Repr

namespace StealQueue

/-- Where a worker thread is in its loop. -/
inductive Worker
  /-- In `take`, about to look at the deque so many places after its own. -/
  | take (offset : ℕ)
  /-- `take` found nothing: about to read the shutdown flag. -/
  | missed
  /-- In `wait_for_work`, about to take the wake lock. -/
  | lockWake
  /-- Holds the wake lock, about to read the shutdown flag. -/
  | readShutdown
  /-- Holds the wake lock, about to see whether a deque is empty. -/
  | readPending (index : ℕ)
  /-- Waits on the condition variable. -/
  | asleep
  /-- Was woken and is about to take the wake lock again. -/
  | notified
  /-- Holds the wake lock and is about to drop it, to look for work again. -/
  | unlockWake
  /-- Took a message. -/
  | holding (message : WorkMessage)
  | running (task : TaskId)
  /-- About to send the completion. -/
  | finished (task : TaskId) (ok : Bool)
  /-- Left the loop. -/
  | exited
  deriving DecidableEq, Repr

/-- Where a client is. -/
inductive Client (n : ℕ)
  | idle
  /-- In `enqueue`, about to take the wake lock. -/
  | lockEnqueue (queue : Fin n) (message : WorkMessage)
  /-- Holds the wake lock, about to push. -/
  | push (queue : Fin n) (message : WorkMessage)
  /-- In `request_shutdown`, about to take the wake lock. -/
  | lockShutdown
  /-- Holds the wake lock, about to raise the flag. -/
  | storeShutdown
  /-- Holds the wake lock, about to notify all. -/
  | notify
  /-- Holds the wake lock, about to drop it. -/
  | unlock
  deriving DecidableEq, Repr

/-- The holder of the wake lock: a worker or a client. -/
abbrev Holder (n : ℕ) (ι : Type) := Fin n ⊕ ι

/-- The shared state and the threads. -/
structure State (n : ℕ) (ι : Type) where
  queues : Fin n → List WorkMessage
  shutdown : Bool
  wakeLock : Option (Holder n ι)
  workers : Fin n → Worker
  clients : ι → Client n
  /-- The completion channel. -/
  channel : List (TaskId × Bool)
  /-- Whether the receiver of the completion channel is still there. -/
  receiver : Bool

variable {n : ℕ} {ι : Type}

/-- The state a pool starts in. -/
def State.start (n : ℕ) (ι : Type) : State n ι :=
  { queues := fun _ => []
    shutdown := false
    wakeLock := none
    workers := fun _ => .take 0
    clients := fun _ => .idle
    channel := []
    receiver := true }

/-- The deque that a worker looks at in the given place: its own first, then the next ones. -/
def victim (w : Fin n) (offset : ℕ) : Fin n := ⟨(w.val + offset) % n, Nat.mod_lt _ w.pos⟩

namespace State

def setWorker (s : State n ι) (w : Fin n) (worker : Worker) : State n ι :=
  { s with workers := update s.workers w worker }

def setQueue (s : State n ι) (q : Fin n) (queue : List WorkMessage) : State n ι :=
  { s with queues := update s.queues q queue }

def setClient [DecidableEq ι] (s : State n ι) (c : ι) (client : Client n) : State n ι :=
  { s with clients := update s.clients c client }

/-- Every sleeping worker is woken. -/
def notifyAll (s : State n ι) : State n ι :=
  { s with workers := fun w => if s.workers w = .asleep then .notified else s.workers w }

end State

/-- One step of a worker. -/
inductive WorkerStep (s : State n ι) (w : Fin n) : Option Event → State n ι → Prop
  | takeOwn {init : List WorkMessage} {message : WorkMessage} (hworker : s.workers w = .take 0)
      (hqueue : s.queues w = init ++ [message]) :
      WorkerStep s w none ((s.setQueue w init).setWorker w (.holding message))
  | missOwn (hworker : s.workers w = .take 0) (hqueue : s.queues w = []) :
      WorkerStep s w none (s.setWorker w (.take 1))
  | steal {offset : ℕ} {rest : List WorkMessage} {message : WorkMessage} (hpos : 0 < offset)
      (hlt : offset < n) (hworker : s.workers w = .take offset)
      (hqueue : s.queues (victim w offset) = message :: rest) :
      WorkerStep s w none ((s.setQueue (victim w offset) rest).setWorker w (.holding message))
  | missOther {offset : ℕ} (hpos : 0 < offset) (hlt : offset < n)
      (hworker : s.workers w = .take offset) (hqueue : s.queues (victim w offset) = []) :
      WorkerStep s w none (s.setWorker w (.take (offset + 1)))
  | missAll {offset : ℕ} (hpos : 0 < offset) (hle : n ≤ offset)
      (hworker : s.workers w = .take offset) :
      WorkerStep s w none (s.setWorker w .missed)
  | stop (hworker : s.workers w = .missed) (hshutdown : s.shutdown = true) :
      WorkerStep s w none (s.setWorker w .exited)
  | wait (hworker : s.workers w = .missed) (hshutdown : s.shutdown = false) :
      WorkerStep s w none (s.setWorker w .lockWake)
  | lock (hworker : s.workers w = .lockWake ∨ s.workers w = .notified) (hlock : s.wakeLock = none) :
      WorkerStep s w none { s.setWorker w .readShutdown with wakeLock := some (.inl w) }
  | seeShutdown (hworker : s.workers w = .readShutdown) (hshutdown : s.shutdown = true) :
      WorkerStep s w none (s.setWorker w .unlockWake)
  | noShutdown (hworker : s.workers w = .readShutdown) (hshutdown : s.shutdown = false) :
      WorkerStep s w none (s.setWorker w (.readPending 0))
  | seePending {index : ℕ} (hlt : index < n) (hworker : s.workers w = .readPending index)
      (hqueue : s.queues ⟨index, hlt⟩ ≠ []) :
      WorkerStep s w none (s.setWorker w .unlockWake)
  | nonePending {index : ℕ} (hlt : index < n) (hworker : s.workers w = .readPending index)
      (hqueue : s.queues ⟨index, hlt⟩ = []) :
      WorkerStep s w none (s.setWorker w (.readPending (index + 1)))
  | sleep {index : ℕ} (hle : n ≤ index) (hworker : s.workers w = .readPending index) :
      WorkerStep s w none { s.setWorker w .asleep with wakeLock := none }
  | spurious (hworker : s.workers w = .asleep) :
      WorkerStep s w none (s.setWorker w .notified)
  | unlock (hworker : s.workers w = .unlockWake) :
      WorkerStep s w none { s.setWorker w (.take 0) with wakeLock := none }
  | start {task : TaskId} (hworker : s.workers w = .holding (.run task)) :
      WorkerStep s w (some (.start task)) (s.setWorker w (.running task))
  | leave (hworker : s.workers w = .holding .shutdown) :
      WorkerStep s w none (s.setWorker w .exited)
  | finish {task : TaskId} (ok : Bool) (hworker : s.workers w = .running task) :
      WorkerStep s w (some (.finish task ok)) (s.setWorker w (.finished task ok))
  | send {task : TaskId} {ok : Bool} (hworker : s.workers w = .finished task ok)
      (hreceiver : s.receiver = true) :
      WorkerStep s w none { s.setWorker w (.take 0) with channel := s.channel ++ [(task, ok)] }
  | sendFails {task : TaskId} {ok : Bool} (hworker : s.workers w = .finished task ok)
      (hreceiver : s.receiver = false) :
      WorkerStep s w none (s.setWorker w .exited)

/-- One step of a client. -/
inductive ClientStep [DecidableEq ι] (s : State n ι) (c : ι) : State n ι → Prop
  | enqueue (queue : Fin n) (task : TaskId) (hclient : s.clients c = .idle) :
      ClientStep s c (s.setClient c (.lockEnqueue queue (.run task)))
  | requestShutdown (hclient : s.clients c = .idle) :
      ClientStep s c (s.setClient c .lockShutdown)
  | lockEnqueue {queue : Fin n} {message : WorkMessage}
      (hclient : s.clients c = .lockEnqueue queue message) (hlock : s.wakeLock = none) :
      ClientStep s c { s.setClient c (.push queue message) with wakeLock := some (.inr c) }
  | push {queue : Fin n} {message : WorkMessage} (hclient : s.clients c = .push queue message) :
      ClientStep s c ((s.setQueue queue (s.queues queue ++ [message])).setClient c .notify)
  | lockShutdown (hclient : s.clients c = .lockShutdown) (hlock : s.wakeLock = none) :
      ClientStep s c { s.setClient c .storeShutdown with wakeLock := some (.inr c) }
  | storeShutdown (hclient : s.clients c = .storeShutdown) :
      ClientStep s c { s.setClient c .notify with shutdown := true }
  | notify (hclient : s.clients c = .notify) :
      ClientStep s c (s.notifyAll.setClient c .unlock)
  | unlock (hclient : s.clients c = .unlock) :
      ClientStep s c { s.setClient c .idle with wakeLock := none }
  | receive {completion : TaskId × Bool} {rest : List (TaskId × Bool)}
      (hclient : s.clients c = .idle) (hchannel : s.channel = completion :: rest) :
      ClientStep s c { s with channel := rest }
  | dropReceiver (hclient : s.clients c = .idle) (hshutdown : s.shutdown = true) :
      ClientStep s c { s with receiver := false }

/-- The protocol: any number of workers and clients, in any order of steps. -/
def system (n : ℕ) (ι : Type) [DecidableEq ι] : System Event where
  State := State n ι
  initial s := s = State.start n ι
  step s event s' :=
    (∃ w, WorkerStep s w event s') ∨ (event = none ∧ ∃ c, ClientStep s c s')

/-! ## The wake lock -/

/-- The worker holds the wake lock. -/
def Worker.Locked : Worker → Bool
  | .readShutdown | .readPending _ | .unlockWake => true
  | _ => false

/-- The client holds the wake lock. -/
def Client.Locked : Client n → Bool
  | .push _ _ | .storeShutdown | .notify | .unlock => true
  | _ => false

/-- The wake lock is held by the thread that is inside a critical section. -/
structure Exclusive (s : State n ι) : Prop where
  worker : ∀ w, (s.workers w).Locked = true ↔ s.wakeLock = some (.inl w)
  client : ∀ c, (s.clients c).Locked = true ↔ s.wakeLock = some (.inr c)

variable {s s' : State n ι} {w : Fin n} {c : ι} {event : Option Event}

/-- What a worker's step leaves alone; deques only become shorter. -/
structure WorkerStep.Frame (s s' : State n ι) (w : Fin n) : Prop where
  shutdown : s'.shutdown = s.shutdown
  receiver : s'.receiver = s.receiver
  clients : s'.clients = s.clients
  others : ∀ v, v ≠ w → s'.workers v = s.workers v
  queues : ∀ q message, message ∈ s'.queues q → message ∈ s.queues q

variable (h : WorkerStep s w event s')
include h

theorem WorkerStep.frame : WorkerStep.Frame s s' w := by
  have hothers : ∀ (t : State n ι) (worker : Worker) v, v ≠ w →
      (t.setWorker w worker).workers v = t.workers v :=
    fun t worker v hv => update_of_ne hv _ _
  have hqueues : ∀ (q : Fin n) (queue : List WorkMessage), (∀ m ∈ queue, m ∈ s.queues q) →
      ∀ q' message, message ∈ (s.setQueue q queue).queues q' → message ∈ s.queues q' := by
    intro q queue hsub q' message hmem
    by_cases hq : q' = q
    · subst hq
      simp only [State.setQueue, update_self] at hmem
      exact hsub message hmem
    · simpa only [State.setQueue, update_of_ne hq] using hmem
  cases h with
  | takeOwn _ hqueue =>
      refine ⟨rfl, rfl, rfl, hothers _ _, hqueues _ _ ?_⟩
      intro m hm
      rw [hqueue]
      exact List.mem_append_left _ hm
  | steal _ _ _ hqueue =>
      refine ⟨rfl, rfl, rfl, hothers _ _, hqueues _ _ ?_⟩
      intro m hm
      rw [hqueue]
      exact List.mem_cons_of_mem _ hm
  | _ => exact ⟨rfl, rfl, rfl, hothers _ _, fun _ _ hmem => hmem⟩

/-- How a worker's step changes the wake lock: not at all, or it is taken, or it is dropped. -/
theorem WorkerStep.wakeLock :
    ((s'.workers w).Locked = (s.workers w).Locked ∧ s'.wakeLock = s.wakeLock) ∨
      (s.wakeLock = none ∧ (s'.workers w).Locked = true ∧ s'.wakeLock = some (.inl w)) ∨
      ((s.workers w).Locked = true ∧ (s'.workers w).Locked = false ∧ s'.wakeLock = none) := by
  cases h with
  | lock _ hlock => exact .inr (.inl ⟨hlock, by simp [State.setWorker, Worker.Locked], rfl⟩)
  | sleep _ hworker | unlock hworker =>
      exact .inr (.inr ⟨by simp [hworker, Worker.Locked], by simp [State.setWorker, Worker.Locked],
        rfl⟩)
  | takeOwn hworker | missOwn hworker | steal _ _ hworker | missOther _ _ hworker
  | missAll _ _ hworker | stop hworker | wait hworker | seeShutdown hworker | noShutdown hworker
  | seePending _ hworker | nonePending _ hworker | spurious hworker | start hworker | leave hworker
  | finish _ hworker | send hworker | sendFails hworker =>
      exact .inl ⟨by simp [State.setWorker, hworker, Worker.Locked], rfl⟩

/-- A thread that a step does not concern cannot hold the lock while it is taken or dropped. -/
theorem WorkerStep.exclusive (hs : Exclusive s) : Exclusive s' := by
  have hframe := h.frame
  rcases h.wakeLock with ⟨hsame, hlock⟩ | ⟨hnone, hlocked, hlock⟩ | ⟨hlocked, hfree, hlock⟩
  · refine ⟨?_, ?_⟩
    · intro v
      by_cases hv : v = w
      · rw [hv, hsame, hlock]
        exact hs.worker w
      · rw [hframe.others v hv, hlock]
        exact hs.worker v
    · intro c
      rw [hframe.clients, hlock]
      exact hs.client c
  · refine ⟨?_, ?_⟩
    · intro v
      by_cases hv : v = w
      · simp [hv, hlocked, hlock]
      · rw [hframe.others v hv, hs.worker v, hnone, hlock]
        simp [Ne.symm hv]
    · intro c
      rw [hframe.clients, hs.client c, hnone, hlock]
      simp
  · have hheld := (hs.worker w).mp hlocked
    refine ⟨?_, ?_⟩
    · intro v
      by_cases hv : v = w
      · simp [hv, hfree, hlock]
      · rw [hframe.others v hv, hs.worker v, hheld, hlock]
        simp [Ne.symm hv]
    · intro c
      rw [hframe.clients, hs.client c, hheld, hlock]
      simp

omit h

/-- What a client's step leaves alone, and how it changes the wake lock. -/
structure ClientStep.Frame (s s' : State n ι) (c : ι) : Prop where
  workers : ∀ w, s'.workers w = s.workers w ∨ (s.workers w = .asleep ∧ s'.workers w = .notified)
  others : ∀ d, d ≠ c → s'.clients d = s.clients d
  wakeLock : ((s'.clients c).Locked = (s.clients c).Locked ∧ s'.wakeLock = s.wakeLock) ∨
    (s.wakeLock = none ∧ (s'.clients c).Locked = true ∧ s'.wakeLock = some (.inr c)) ∨
    ((s.clients c).Locked = true ∧ (s'.clients c).Locked = false ∧ s'.wakeLock = none)

/-- A woken worker holds the lock no more than a sleeping one. -/
theorem ClientStep.Frame.locked (h : ClientStep.Frame s s' c) (w : Fin n) :
    (s'.workers w).Locked = (s.workers w).Locked := by
  rcases h.workers w with hsame | ⟨hasleep, hnotified⟩
  · rw [hsame]
  · rw [hasleep, hnotified]
    rfl

section Client

variable [DecidableEq ι]

theorem ClientStep.frame (h : ClientStep s c s') : ClientStep.Frame s s' c := by
  have hothers : ∀ (t : State n ι) (client : Client n) d, d ≠ c →
      (t.setClient c client).clients d = t.clients d :=
    fun t client d hd => update_of_ne hd _ _
  cases h with
  | lockEnqueue _ hlock | lockShutdown _ hlock =>
      exact ⟨fun _ => .inl rfl, hothers _ _,
        .inr (.inl ⟨hlock, by simp [State.setClient, Client.Locked], rfl⟩)⟩
  | unlock hclient =>
      exact ⟨fun _ => .inl rfl, hothers _ _, .inr (.inr ⟨by simp [hclient, Client.Locked],
        by simp [State.setClient, Client.Locked], rfl⟩)⟩
  | enqueue _ _ hclient | requestShutdown hclient | push hclient | storeShutdown hclient =>
      exact ⟨fun _ => .inl rfl, hothers _ _,
        .inl ⟨by simp [State.setClient, hclient, Client.Locked], rfl⟩⟩
  | notify hclient =>
      refine ⟨?_, hothers _ _, .inl ⟨by simp [State.setClient, hclient, Client.Locked], rfl⟩⟩
      intro w
      by_cases hasleep : s.workers w = .asleep
      · exact .inr ⟨hasleep, by simp [State.setClient, State.notifyAll, hasleep]⟩
      · exact .inl (by simp [State.setClient, State.notifyAll, hasleep])
  | receive | dropReceiver => exact ⟨fun _ => .inl rfl, fun _ _ => rfl, .inl ⟨rfl, rfl⟩⟩

theorem ClientStep.exclusive (h : ClientStep s c s') (hs : Exclusive s) : Exclusive s' := by
  have hframe := h.frame
  rcases hframe.wakeLock with ⟨hsame, hlock⟩ | ⟨hnone, hlocked, hlock⟩ | ⟨hlocked, hfree, hlock⟩
  · refine ⟨?_, ?_⟩
    · intro w
      rw [hframe.locked w, hlock]
      exact hs.worker w
    · intro d
      by_cases hd : d = c
      · rw [hd, hsame, hlock]
        exact hs.client c
      · rw [hframe.others d hd, hlock]
        exact hs.client d
  · refine ⟨?_, ?_⟩
    · intro w
      rw [hframe.locked w, hs.worker w, hnone, hlock]
      simp
    · intro d
      by_cases hd : d = c
      · simp [hd, hlocked, hlock]
      · rw [hframe.others d hd, hs.client d, hnone, hlock]
        simp [Ne.symm hd]
  · have hheld := (hs.client c).mp hlocked
    refine ⟨?_, ?_⟩
    · intro w
      rw [hframe.locked w, hs.worker w, hheld, hlock]
      simp
    · intro d
      by_cases hd : d = c
      · simp [hd, hfree, hlock]
      · rw [hframe.others d hd, hs.client d, hheld, hlock]
        simp [Ne.symm hd]

end Client

/-! ## No lost wake-up -/

/-- A worker sleeps un-notified only while there is nothing to do, or while the client that has just
changed that is about to notify. -/
structure Wakeful (s : State n ι) : Prop where
  exclusive : Exclusive s
  checked : ∀ w index, s.workers w = .readPending index →
    s.shutdown = false ∧ ∀ q : Fin n, q.val < index → s.queues q = []
  quiet : ∀ w, s.workers w = .asleep →
    (∃ c, s.clients c = .notify) ∨ (s.shutdown = false ∧ ∀ q, s.queues q = [])
  queued : ∀ q message, message ∈ s.queues q → ∃ task, message = .run task
  held : ∀ w message, s.workers w = .holding message → ∃ task, message = .run task
  pushed : ∀ c q message, (s.clients c = .lockEnqueue q message ∨ s.clients c = .push q message) →
    ∃ task, message = .run task
  receiver : s.receiver = false → s.shutdown = true
  exited : ∀ w, s.workers w = .exited → s.shutdown = true

include h

theorem WorkerStep.readPending {index : ℕ}
    (hworker : s'.workers w = .readPending index) :
    (index = 0 ∧ s.shutdown = false) ∨
      ∃ seen, index = seen + 1 ∧ s.workers w = .readPending seen ∧
        ∀ q : Fin n, q.val = seen → s.queues q = [] := by
  cases h with
  | noShutdown _ hshutdown =>
      obtain rfl : 0 = index := by simpa [State.setWorker] using hworker
      exact .inl ⟨rfl, hshutdown⟩
  | @nonePending seen hlt hbefore hqueue =>
      obtain rfl : seen + 1 = index := by simpa [State.setWorker] using hworker
      refine .inr ⟨seen, rfl, hbefore, ?_⟩
      rintro q rfl
      exact hqueue
  | _ => simp [State.setWorker] at hworker

theorem WorkerStep.asleep (hworker : s'.workers w = .asleep) :
    ∃ index, n ≤ index ∧ s.workers w = .readPending index := by
  cases h with
  | sleep hle hbefore => exact ⟨_, hle, hbefore⟩
  | _ => simp [State.setWorker] at hworker

theorem WorkerStep.holding {message : WorkMessage}
    (hworker : s'.workers w = .holding message) : ∃ q, message ∈ s.queues q := by
  cases h with
  | takeOwn _ hqueue =>
      simp only [State.setWorker, update_self, Worker.holding.injEq] at hworker
      exact ⟨w, by simp [hqueue, hworker]⟩
  | steal _ _ _ hqueue =>
      simp only [State.setWorker, update_self, Worker.holding.injEq] at hworker
      exact ⟨_, by rw [hqueue, hworker]; exact List.mem_cons_self⟩
  | _ => simp [State.setWorker] at hworker

theorem WorkerStep.exited (hworker : s'.workers w = .exited) :
    s.shutdown = true ∨ s.workers w = .holding .shutdown ∨ s.receiver = false := by
  cases h with
  | stop _ hshutdown => exact .inl hshutdown
  | leave hbefore => exact .inr (.inl hbefore)
  | sendFails _ hreceiver => exact .inr (.inr hreceiver)
  | _ => simp [State.setWorker] at hworker

omit h

theorem Wakeful.workerStep (hs : Wakeful s) (h : WorkerStep s w event s') : Wakeful s' := by
  have hframe := h.frame
  have hempty : ∀ q, s.queues q = [] → s'.queues q = [] := by
    intro q hq
    rw [List.eq_nil_iff_forall_not_mem]
    intro message hmem
    simpa [hq] using hframe.queues q message hmem
  refine
    { exclusive := h.exclusive hs.exclusive
      checked := ?_
      quiet := ?_
      queued := fun q message hmem => hs.queued q message (hframe.queues q message hmem)
      held := ?_
      pushed := by rw [hframe.clients]; exact hs.pushed
      receiver := by rw [hframe.receiver, hframe.shutdown]; exact hs.receiver
      exited := ?_ }
  · intro v index hworker
    rw [hframe.shutdown]
    by_cases hv : v = w
    · subst hv
      -- the worker is at the first deque, or has found the one before empty
      rcases h.readPending hworker with ⟨rfl, hshutdown⟩ | ⟨seen, rfl, hbefore, hseen⟩
      · exact ⟨hshutdown, fun q hq => absurd hq (Nat.not_lt_zero _)⟩
      · obtain ⟨hshutdown, hearlier⟩ := hs.checked v seen hbefore
        refine ⟨hshutdown, ?_⟩
        intro q hq
        rcases Nat.lt_succ_iff_lt_or_eq.mp hq with hlt | heq
        · exact hempty q (hearlier q hlt)
        · exact hempty q (hseen q heq)
    · rw [hframe.others v hv] at hworker
      obtain ⟨hshutdown, hearlier⟩ := hs.checked v index hworker
      exact ⟨hshutdown, fun q hq => hempty q (hearlier q hq)⟩
  · intro v hworker
    rw [hframe.shutdown, hframe.clients]
    by_cases hv : v = w
    · -- the worker goes to sleep after it has seen every deque empty
      subst hv
      obtain ⟨index, hle, hbefore⟩ := h.asleep hworker
      obtain ⟨hshutdown, hearlier⟩ := hs.checked v index hbefore
      exact .inr ⟨hshutdown, fun q => hempty q (hearlier q (lt_of_lt_of_le q.isLt hle))⟩
    · rw [hframe.others v hv] at hworker
      refine (hs.quiet v hworker).imp id ?_
      rintro ⟨hshutdown, hqueues⟩
      exact ⟨hshutdown, fun q => hempty q (hqueues q)⟩
  · intro v message hworker
    by_cases hv : v = w
    · subst hv
      obtain ⟨q, hmem⟩ := h.holding hworker
      exact hs.queued q message hmem
    · rw [hframe.others v hv] at hworker
      exact hs.held v message hworker
  · intro v hworker
    rw [hframe.shutdown]
    by_cases hv : v = w
    · subst hv
      -- workers exit on the flag; shutdown messages are never queued
      rcases h.exited hworker with hshutdown | hmessage | hreceiver
      · exact hshutdown
      · obtain ⟨task, htask⟩ := hs.held v _ hmessage
        cases htask
      · exact hs.receiver hreceiver
    · rw [hframe.others v hv] at hworker
      exact hs.exited v hworker

theorem wakeful_start : Wakeful (State.start n ι) :=
  { exclusive := ⟨by simp [State.start, Worker.Locked], by simp [State.start, Client.Locked]⟩
    checked := by simp [State.start]
    quiet := by simp [State.start]
    queued := by simp [State.start]
    held := by simp [State.start]
    pushed := by simp [State.start]
    receiver := by simp [State.start]
    exited := by simp [State.start] }

section Client

variable [DecidableEq ι]

/-- What a client's step does to what the workers wait for: it changes nothing of it and notifies
nobody, or it changes it while it holds the lock and owes the notification, or it notifies. -/
theorem ClientStep.effect (h : ClientStep s c s') :
    (s'.workers = s.workers ∧ s'.queues = s.queues ∧ s'.shutdown = s.shutdown ∧
        s.clients c ≠ .notify) ∨
      (s'.workers = s.workers ∧ (s.clients c).Locked = true ∧ s'.clients c = .notify ∧
        (s.shutdown = true → s'.shutdown = true)) ∨
      ((∀ w, s'.workers w ≠ .asleep) ∧ s'.queues = s.queues ∧ s'.shutdown = s.shutdown ∧
        (s.clients c).Locked = true) := by
  cases h with
  | push hclient =>
      exact .inr (.inl ⟨rfl, by simp [hclient, Client.Locked], by simp [State.setClient], id⟩)
  | storeShutdown hclient =>
      exact .inr (.inl ⟨rfl, by simp [hclient, Client.Locked], by simp [State.setClient],
        fun _ => rfl⟩)
  | notify hclient =>
      refine .inr (.inr ⟨?_, rfl, rfl, by simp [hclient, Client.Locked]⟩)
      intro w
      by_cases hasleep : s.workers w = .asleep <;>
        simp [State.setClient, State.notifyAll, hasleep]
  | enqueue _ _ hclient | requestShutdown hclient | lockEnqueue hclient | lockShutdown hclient
  | unlock hclient | receive hclient | dropReceiver hclient =>
      exact .inl ⟨rfl, rfl, rfl, by simp [hclient]⟩

theorem ClientStep.messages (h : ClientStep s c s') (hs : Wakeful s) :
    (∀ q message, message ∈ s'.queues q → ∃ task, message = .run task) ∧
      ∀ d q message, (s'.clients d = .lockEnqueue q message ∨ s'.clients d = .push q message) →
        ∃ task, message = .run task := by
  have hframe := h.frame
  have hothers : ∀ d q message, d ≠ c →
      (s'.clients d = .lockEnqueue q message ∨ s'.clients d = .push q message) →
      ∃ task, message = .run task := by
    intro d q message hd hmessage
    rw [hframe.others d hd] at hmessage
    exact hs.pushed d q message hmessage
  -- only `enqueue` brings in a message, and that is a job
  cases h with
  | enqueue queue task _ =>
      refine ⟨hs.queued, ?_⟩
      intro d q message hmessage
      by_cases hd : d = c
      · subst hd
        simp only [State.setClient, update_self, Client.lockEnqueue.injEq, reduceCtorEq,
          or_false] at hmessage
        exact ⟨task, hmessage.2.symm⟩
      · exact hothers d q message hd hmessage
  | lockEnqueue hclient =>
      refine ⟨hs.queued, ?_⟩
      intro d q message hmessage
      by_cases hd : d = c
      · subst hd
        simp only [State.setClient, update_self, Client.push.injEq, reduceCtorEq,
          false_or] at hmessage
        exact hs.pushed d _ message (.inl (hmessage.2 ▸ hclient))
      · exact hothers d q message hd hmessage
  | @push queue message hclient =>
      refine ⟨?_, ?_⟩
      · intro q other hmem
        by_cases hq : q = queue
        · subst hq
          simp only [State.setClient, State.setQueue, update_self, List.mem_append,
            List.mem_singleton] at hmem
          rcases hmem with hmem | rfl
          · exact hs.queued q other hmem
          · exact hs.pushed c q other (.inr hclient)
        · simp only [State.setClient, State.setQueue, update_of_ne hq] at hmem
          exact hs.queued q other hmem
      · intro d q other hmessage
        by_cases hd : d = c
        · subst hd
          simp [State.setClient] at hmessage
        · exact hothers d q other hd hmessage
  | requestShutdown | lockShutdown | storeShutdown | notify | unlock =>
      refine ⟨hs.queued, ?_⟩
      intro d q message hmessage
      by_cases hd : d = c
      · subst hd
        simp [State.setClient] at hmessage
      · exact hothers d q message hd hmessage
  | receive | dropReceiver => exact ⟨hs.queued, hs.pushed⟩

theorem ClientStep.receiver (h : ClientStep s c s') (hs : Wakeful s) :
    s'.receiver = false → s'.shutdown = true := by
  cases h with
  | dropReceiver _ hshutdown => exact fun _ => hshutdown
  | storeShutdown => exact fun _ => rfl
  | _ => exact hs.receiver

theorem Wakeful.clientStep (hs : Wakeful s) (h : ClientStep s c s') : Wakeful s' := by
  have hframe := h.frame
  -- a worker that a client's step leaves in a state other than `notified` was there before
  have hbefore : ∀ w worker, worker ≠ .notified → s'.workers w = worker → s.workers w = worker := by
    intro w worker hworker hw
    rcases hframe.workers w with hsame | ⟨-, hnotified⟩
    · exact hsame.symm.trans hw
    · exact absurd (hw.symm.trans hnotified) hworker
  -- while a client holds the lock no worker reads the deques
  have hnone : (s.clients c).Locked = true → ∀ w index, s'.workers w ≠ .readPending index := by
    intro hlocked w index hworker
    have hw := hbefore w _ (by simp) hworker
    have hworkerLock := (hs.exclusive.worker w).mp (by rw [hw]; rfl)
    rw [(hs.exclusive.client c).mp hlocked] at hworkerLock
    simp at hworkerLock
  obtain ⟨hqueued, hpushed⟩ := h.messages hs
  refine
    { exclusive := h.exclusive hs.exclusive
      checked := ?_
      quiet := ?_
      queued := hqueued
      held := fun w message hw => hs.held w message (hbefore w _ (by simp) hw)
      pushed := hpushed
      receiver := h.receiver hs
      exited := ?_ }
  · intro w index hworker
    rcases h.effect with ⟨hworkers, hqueues, hshutdown, -⟩ | ⟨-, hlocked, -⟩ | ⟨-, -, -, hlocked⟩
    · rw [hqueues, hshutdown]
      exact hs.checked w index (hworkers ▸ hworker)
    · exact absurd hworker (hnone hlocked w index)
    · exact absurd hworker (hnone hlocked w index)
  · intro w hworker
    rcases h.effect with ⟨hworkers, hqueues, hshutdown, hclient⟩ | ⟨-, -, hnotify, -⟩ | ⟨hawake, -⟩
    · rw [hqueues, hshutdown]
      rcases hs.quiet w (hworkers ▸ hworker) with ⟨d, hd⟩ | hquiet
      · have hne : d ≠ c := fun heq => hclient (heq ▸ hd)
        exact .inl ⟨d, by rw [hframe.others d hne]; exact hd⟩
      · exact .inr hquiet
    · exact .inl ⟨c, hnotify⟩
    · exact absurd hworker (hawake w)
  · intro w hworker
    have hshutdown := hs.exited w (hbefore w _ (by simp) hworker)
    rcases h.effect with ⟨-, -, hsame, -⟩ | ⟨-, -, -, hkeep⟩ | ⟨-, -, hsame, -⟩
    · rw [hsame]
      exact hshutdown
    · exact hkeep hshutdown
    · rw [hsame]
      exact hshutdown

theorem wakeful (h : (system n ι).Reachable s) : Wakeful s := by
  refine h.invariant ?_ ?_
  · rintro s rfl
    exact wakeful_start
  · rintro s event s' hs (⟨w, hstep⟩ | ⟨-, c, hstep⟩)
    · exact hs.workerStep hstep
    · exact hs.clientStep hstep

/-- The worker is in its loop and does not wait. -/
def State.Awake (s : State n ι) (w : Fin n) : Prop :=
  s.workers w ≠ .asleep ∧ s.workers w ≠ .notified ∧ s.workers w ≠ .exited

/-- The worker was notified, or the client that holds the wake lock is about to notify it. -/
def State.PendingNotification (s : State n ι) (w : Fin n) : Prop :=
  s.workers w = .notified ∨
    (s.workers w = .asleep ∧ ∃ c, s.clients c = .notify ∧ s.wakeLock = some (.inr c))

/-- When a message is queued or the shutdown has been requested, some worker is awake or has a
pending notification, or all of them have left after the request; and no worker sleeps without
a notification to come. -/
theorem pendingNotification_of_work (h : (system n ι).Reachable s)
    (hwork : (∃ q, s.queues q ≠ []) ∨ s.shutdown = true) :
    ((∃ w, s.Awake w ∨ s.PendingNotification w) ∨
      (s.shutdown = true ∧ ∀ w, s.workers w = .exited)) ∧
      ∀ w, s.workers w = .asleep → s.PendingNotification w := by
  have hs := wakeful h
  have hasleep : ∀ w, s.workers w = .asleep → s.PendingNotification w := by
    intro w hw
    rcases hs.quiet w hw with ⟨c, hc⟩ | ⟨hshutdown, hqueues⟩
    · exact .inr ⟨hw, c, hc, (hs.exclusive.client c).mp (by rw [hc]; rfl)⟩
    · rcases hwork with ⟨q, hq⟩ | hrequested
      · exact absurd (hqueues q) hq
      · rw [hshutdown] at hrequested
        cases hrequested
  refine ⟨?_, hasleep⟩
  by_cases hexited : ∀ w, s.workers w = .exited
  · refine .inr ⟨?_, hexited⟩
    rcases hwork with ⟨q, -⟩ | hrequested
    · exact hs.exited q (hexited q)
    · exact hrequested
  · obtain ⟨w, hw⟩ := not_forall.mp hexited
    refine .inl ⟨w, ?_⟩
    by_cases hsleep : s.workers w = .asleep
    · exact .inr (hasleep w hsleep)
    · by_cases hnotified : s.workers w = .notified
      · exact .inr (.inl hnotified)
      · exact .inl ⟨hsleep, hnotified, hw⟩

end Client

/-- One worker with its deque, and one client. -/
def single (worker : Worker) (client : Client 1) (wakeLock : Option (Holder 1 Unit))
    (shutdown : Bool) (queue : List WorkMessage) : State 1 Unit :=
  { State.start 1 Unit with
    queues := const _ queue, shutdown, wakeLock, workers := const _ worker
    clients := const _ client }

section Single

variable {worker worker' : Worker} {client client' : Client 1} {s : State 1 Unit}
  {wakeLock wakeLock' : Option (Holder 1 Unit)} {shutdown shutdown' : Bool}
  {queue queue' : List WorkMessage}

theorem single_step (h : (system 1 Unit).Reachable (single worker client wakeLock shutdown queue))
    (hstep : WorkerStep (single worker client wakeLock shutdown queue) 0 none s ∨
      ClientStep (single worker client wakeLock shutdown queue) () s)
    (hs : s = single worker' client' wakeLock' shutdown' queue') :
    (system 1 Unit).Reachable (single worker' client' wakeLock' shutdown' queue') :=
  hs ▸ h.step (hstep.imp (fun h => ⟨0, h⟩) fun h => ⟨rfl, (), h⟩)

theorem single_worker (h : (system 1 Unit).Reachable (single worker client wakeLock shutdown queue))
    (hstep : WorkerStep (single worker client wakeLock shutdown queue) 0 none
      { (single worker client wakeLock shutdown queue).setWorker 0 worker' with
        wakeLock := wakeLock' }) :
    (system 1 Unit).Reachable (single worker' client wakeLock' shutdown queue) :=
  single_step h (.inl hstep) (by
    simp [single, State.setWorker, update_eq_const_of_subsingleton])

theorem single_client (h : (system 1 Unit).Reachable (single worker client wakeLock shutdown queue))
    (hstep : ClientStep (single worker client wakeLock shutdown queue) ()
      { (single worker client wakeLock shutdown queue).setClient () client' with
        wakeLock := wakeLock', shutdown := shutdown' }) :
    (system 1 Unit).Reachable (single worker client' wakeLock' shutdown' queue) :=
  single_step h (.inr hstep) (by
    simp [single, State.setClient, update_eq_const_of_subsingleton])

end Single

/-- Finding nothing, the worker falls asleep. -/
theorem reachable_asleep : (system 1 Unit).Reachable (single .asleep .idle none false []) := by
  have h₁ : (system 1 Unit).Reachable (single (.take 0) .idle none false []) := ⟨[], .start rfl⟩
  have h₂ := single_worker h₁ (.missOwn rfl rfl)
  have h₃ := single_worker h₂ (.missAll Nat.one_pos le_rfl rfl)
  have h₄ := single_worker h₃ (.wait rfl rfl)
  have h₅ := single_worker h₄ (.lock (.inl rfl) rfl)
  have h₆ := single_worker h₅ (.noShutdown rfl rfl)
  have h₇ := single_worker h₆ (.nonePending Nat.one_pos rfl rfl)
  exact single_worker h₇ (.sleep le_rfl rfl)

/-- The client has queued a task, and is about to notify the worker. -/
theorem pendingNotification_queued :
    (system 1 Unit).Reachable (single .asleep .notify (some (.inr ())) false [.run 7]) ∧
      (single .asleep .notify (some (.inr ())) false [.run 7]).PendingNotification 0 := by
  have h₁ : (system 1 Unit).Reachable (single .asleep (.lockEnqueue 0 (.run 7)) none false []) :=
    single_client reachable_asleep (.enqueue 0 7 rfl)
  have h₂ := single_client h₁ (.lockEnqueue rfl rfl)
  have h₃ : (system 1 Unit).Reachable (single .asleep .notify (some (.inr ())) false [.run 7]) :=
    single_step h₂ (.inr (.push rfl)) (by
      simp [single, State.setClient, State.setQueue, update_eq_const_of_subsingleton])
  exact ⟨h₃, (pendingNotification_of_work h₃ (.inl ⟨0, List.cons_ne_nil _ _⟩)).2 0 rfl⟩

/-- One worker that has left its loop after the shutdown was requested. -/
def leftAfterShutdown : State 1 Unit :=
  { State.start 1 Unit with shutdown := true, workers := fun _ => .exited }

/-- The request is made, and the worker sees the flag once it finds nothing to take. -/
theorem reachable_leftAfterShutdown : (system 1 Unit).Reachable leftAfterShutdown := by
  have h₁ : (system 1 Unit).Reachable (single (.take 0) .idle none false []) := ⟨[], .start rfl⟩
  have h₂ : (system 1 Unit).Reachable (single (.take 0) .lockShutdown none false []) :=
    single_client h₁ (.requestShutdown rfl)
  have h₃ := single_client h₂ (.lockShutdown rfl rfl)
  have h₄ := single_client h₃ (.storeShutdown rfl)
  have h₅ : (system 1 Unit).Reachable (single (.take 0) .unlock (some (.inr ())) true []) :=
    single_step h₄ (.inr (.notify rfl)) (by
      simp [single, State.setClient, State.notifyAll, update_eq_const_of_subsingleton]
      rfl)
  have h₆ := single_client h₅ (.unlock rfl)
  have h₇ := single_worker h₆ (.missOwn rfl rfl)
  have h₈ := single_worker h₇ (.missAll Nat.one_pos le_rfl rfl)
  exact single_worker h₈ (.stop rfl rfl)

/-- After the shutdown request nobody need be left to be awake. -/
theorem not_pendingNotification_leftAfterShutdown :
    (system 1 Unit).Reachable leftAfterShutdown ∧ leftAfterShutdown.shutdown = true ∧
      ¬ ∃ w, leftAfterShutdown.Awake w ∨ leftAfterShutdown.PendingNotification w := by
  refine ⟨reachable_leftAfterShutdown, rfl, ?_⟩
  rintro ⟨w, ⟨-, -, hexited⟩ | hnotified | ⟨hasleep, -⟩⟩
  · exact hexited rfl
  · cases hnotified
  · cases hasleep

end StealQueue

end Jadren.Concurrency
