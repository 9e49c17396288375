import Jadren.Concurrency.Schedule

/-!
# Where the jobs are

A pool keeps the jobs that are submitted in queues, with its workers, and as
completions in a channel.  `Jobs` is that part of its state, for any number of
queues and workers.  A `Place` says where the job of one task is; `Located` ties
the places to the queues, workers and the channel, so that no job is in two
places or in one place twice.

Every move takes one task from one place to another.  The moves of the workers are
`WorkerMove`; pushing a job and receiving a completion are the coordinator's.  The
phases of the places are a schedule of the graph.
-/

namespace Jadren.Concurrency

open Schedule Function

/-- The jobs in the queues, with the workers (and how far they have come), and the completions. -/
structure Jobs (Q W : Type) where
  queue : Q → List TaskId
  load : W → Option (TaskId × Phase)
  channel : List (TaskId × Bool)

/-- Where the job of a task is. -/
inductive Place (Q W : Type)
  | waiting
  | queue (q : Q)
  /-- With a worker, in the given phase. -/
  | worker (w : W) (phase : Phase)
  | channel (ok : Bool)
  /-- The coordinator knows of its end. -/
  | recorded (ok : Bool)
  /-- Ended after nobody received completions any more. -/
  | lost (ok : Bool)

variable {Q W : Type}

def Place.phase : Place Q W → Phase
  | .waiting => .waiting
  | .queue _ => .queued
  | .worker _ phase => phase
  | .channel ok => .finished ok
  | .recorded true => .completed
  | .recorded false => .failed
  | .lost ok => .finished ok

/-- The job of the task is under way. -/
def Underway (phase : Phase) : Prop := phase ≠ .waiting ∧ phase ≠ .completed ∧ phase ≠ .failed

/-- Two assignments of phases that differ only in jobs that are under way in both. -/
def SameEnds (phase phase' : TaskId → Phase) : Prop :=
  ∀ task, phase' task = phase task ∨ (Underway (phase task) ∧ Underway (phase' task))

section SameEnds

variable {phase phase' : TaskId → Phase} {task : TaskId}

theorem SameEnds.waiting (h : SameEnds phase phase') :
    phase' task = .waiting ↔ phase task = .waiting := by
  rcases h task with hsame | ⟨hbefore, hafter⟩
  · rw [hsame]
  · exact ⟨fun heq => absurd heq hafter.1, fun heq => absurd heq hbefore.1⟩

theorem SameEnds.completed (h : SameEnds phase phase') :
    phase' task = .completed ↔ phase task = .completed := by
  rcases h task with hsame | ⟨hbefore, hafter⟩
  · rw [hsame]
  · exact ⟨fun heq => absurd heq hafter.2.1, fun heq => absurd heq hbefore.2.1⟩

theorem SameEnds.failed (h : SameEnds phase phase') :
    phase' task = .failed ↔ phase task = .failed := by
  rcases h task with hsame | ⟨hbefore, hafter⟩
  · rw [hsame]
  · exact ⟨fun heq => absurd heq hafter.2.2, fun heq => absurd heq hbefore.2.2⟩

end SameEnds

/-- The phases of the places. -/
def phases (place : TaskId → Place Q W) : TaskId → Phase := fun task => (place task).phase

theorem phases_update (place : TaskId → Place Q W) (task : TaskId) (place' : Place Q W) :
    phases (update place task place') =
      update (phases place) task place'.phase := by
  funext other
  by_cases heq : other = task
  · subst heq
    simp [phases]
  · simp [phases, update_of_ne heq]

/-- The places are where the jobs are, each once. -/
structure Located (jobs : Jobs Q W) (place : TaskId → Place Q W) : Prop where
  queue_nodup : ∀ q, (jobs.queue q).Nodup
  queue : ∀ q task, task ∈ jobs.queue q ↔ place task = .queue q
  worker : ∀ w task phase, jobs.load w = some (task, phase) ↔ place task = .worker w phase
  underway : ∀ w task phase, jobs.load w = some (task, phase) → Underway phase
  channel_nodup : (jobs.channel.map Prod.fst).Nodup
  channel : ∀ task ok, (task, ok) ∈ jobs.channel ↔ place task = .channel ok

/-- No jobs at all. -/
def Jobs.none : Jobs Q W := { queue := fun _ => [], load := fun _ => Option.none, channel := [] }

namespace Located

variable {jobs jobs' : Jobs Q W} {place : TaskId → Place Q W} {task : TaskId}

theorem start : Located (Jobs.none : Jobs Q W) fun _ => .waiting where
  queue_nodup := fun _ => List.nodup_nil
  queue := by simp [Jobs.none]
  worker := by simp [Jobs.none]
  underway := by simp [Jobs.none]
  channel_nodup := List.nodup_nil
  channel := by simp [Jobs.none]

theorem of_waiting (h : Located jobs place) (hwaiting : phases place task = .waiting) :
    place task = .waiting := by
  cases hplace : place task with
  | waiting => rfl
  | queue | channel | lost => simp [phases, hplace, Place.phase] at hwaiting
  | recorded ok => cases ok <;> simp [phases, hplace, Place.phase] at hwaiting
  | worker w phase =>
      have hload := (h.worker w task phase).mpr hplace
      simp only [phases, hplace, Place.phase] at hwaiting
      exact absurd hwaiting (h.underway w task phase hload).1

/-- The places of the other tasks when one task moves. -/
private theorem update_iff {other : TaskId} {place' target : Place Q W}
    (hne : place task ≠ target) (hnew : place' ≠ target) :
    update place task place' other = target ↔ place other = target := by
  by_cases heq : other = task
  · subst heq
    simp [hne, hnew]
  · rw [update_of_ne heq]

/-- The coordinator pushes the job of a waiting task. -/
theorem push [DecidableEq Q] (h : Located jobs place) (q : Q) (hplace : place task = .waiting) :
    Located { jobs with queue := update jobs.queue q (jobs.queue q ++ [task]) }
      (update place task (.queue q)) := by
  refine ⟨?_, ?_, ?_, h.underway, h.channel_nodup, ?_⟩
  · intro q'
    by_cases hq : q' = q
    · subst hq
      simp only [update_self]
      rw [List.nodup_append]
      refine ⟨h.queue_nodup q', List.nodup_singleton _, ?_⟩
      rintro a ha b hb rfl
      rw [List.mem_singleton.mp hb, h.queue, hplace] at ha
      cases ha
    · simpa [update_of_ne hq] using h.queue_nodup q'
  · intro q' other
    by_cases hq : q' = q
    · subst hq
      simp only [update_self, List.mem_append, List.mem_singleton, h.queue]
      by_cases heq : other = task
      · simp [heq]
      · simp [heq]
    · simp only [update_of_ne hq]
      rw [h.queue, update_iff (by simp [hplace]) (by simp [Ne.symm hq])]
  · intro w other phase
    rw [h.worker, update_iff (by simp [hplace]) (by simp)]
  · intro other ok
    rw [h.channel, update_iff (by simp [hplace]) (by simp)]

theorem receive (h : Located jobs place) {ok : Bool} {rest : List (TaskId × Bool)}
    (hchannel : jobs.channel = (task, ok) :: rest) :
    phases place task = .finished ok ∧
      Located { jobs with channel := rest } (update place task (.recorded ok)) := by
  have hbefore : place task = .channel ok :=
    (h.channel task ok).mp (hchannel ▸ List.mem_cons_self)
  have hnodup := h.channel_nodup
  rw [hchannel, List.map_cons, List.nodup_cons] at hnodup
  refine ⟨by simp [phases, hbefore, Place.phase], h.queue_nodup, ?_, ?_, h.underway, hnodup.2, ?_⟩
  · intro q other
    rw [h.queue, update_iff (by simp [hbefore]) (by simp)]
  · intro w other phase'
    rw [h.worker, update_iff (by simp [hbefore]) (by simp)]
  · intro other ok'
    by_cases heq : other = task
    · subst heq
      simp only [update_self, reduceCtorEq, iff_false]
      exact fun hmem => hnodup.1 (List.mem_map.mpr ⟨_, hmem, rfl⟩)
    · rw [update_of_ne heq, ← h.channel, hchannel, List.mem_cons, Prod.mk.injEq]
      simp [heq]

theorem take [DecidableEq Q] [DecidableEq W] (h : Located jobs place) {w : W} {q : Q}
    {rest : List TaskId} (hperm : (jobs.queue q).Perm (task :: rest)) (hload : jobs.load w = none) :
    Located
      { jobs with
        queue := update jobs.queue q rest
        load := update jobs.load w (some (task, .queued)) }
      (update place task (.worker w .queued)) := by
  have hbefore : place task = .queue q :=
    (h.queue q task).mp (hperm.mem_iff.mpr List.mem_cons_self)
  have hnodup := hperm.nodup_iff.mp (h.queue_nodup q)
  rw [List.nodup_cons] at hnodup
  -- a clause for each kind of place: only `q`, `w` and the place of `task` change
  refine ⟨?_, ?_, ?_, ?_, h.channel_nodup, ?_⟩
  · intro q'
    by_cases hq : q' = q
    · subst hq
      simpa using hnodup.2
    · simpa [update_of_ne hq] using h.queue_nodup q'
  · intro q' other
    by_cases hq : q' = q
    · subst hq
      simp only [update_self]
      by_cases heq : other = task
      · subst heq
        simpa using hnodup.1
      · rw [update_of_ne heq, ← h.queue, hperm.mem_iff, List.mem_cons]
        simp [heq]
    · simp only [update_of_ne hq]
      rw [h.queue, update_iff (by simp [hbefore, Ne.symm hq]) (by simp)]
  · intro v other phase
    by_cases hv : v = w
    · subst hv
      simp only [update_self, Option.some.injEq, Prod.mk.injEq]
      by_cases heq : other = task
      · subst heq
        simp
      · rw [update_of_ne heq, ← h.worker, hload]
        simp [Ne.symm heq]
    · simp only [update_of_ne hv]
      rw [h.worker, update_iff (by simp [hbefore]) (by simp [Ne.symm hv])]
  · intro v other phase hv
    by_cases heq : v = w
    · subst heq
      simp only [update_self, Option.some.injEq, Prod.mk.injEq] at hv
      rw [← hv.2]
      simp [Underway]
    · simp only [update_of_ne heq] at hv
      exact h.underway v other phase hv
  · intro other ok
    rw [h.channel, update_iff (by simp [hbefore]) (by simp)]

/-- A worker moves on with its job. -/
theorem advance [DecidableEq W] (h : Located jobs place) {w : W} {phase phase' : Phase}
    (hload : jobs.load w = some (task, phase)) (hphase' : Underway phase') :
    Located { jobs with load := update jobs.load w (some (task, phase')) }
      (update place task (.worker w phase')) := by
  have hbefore : place task = .worker w phase := (h.worker w task phase).mp hload
  refine ⟨h.queue_nodup, ?_, ?_, ?_, h.channel_nodup, ?_⟩
  · intro q other
    rw [h.queue, update_iff (by simp [hbefore]) (by simp)]
  · intro v other phase''
    by_cases hv : v = w
    · subst hv
      simp only [update_self, Option.some.injEq, Prod.mk.injEq]
      by_cases heq : other = task
      · subst heq
        simp
      · rw [update_of_ne heq, ← h.worker, hload]
        simp [Ne.symm heq]
    · simp only [update_of_ne hv]
      rw [h.worker, update_iff (by simp [hbefore, Ne.symm hv]) (by simp [Ne.symm hv])]
  · intro v other phase'' hv
    by_cases heq : v = w
    · subst heq
      simp only [update_self, Option.some.injEq, Prod.mk.injEq] at hv
      exact hv.2 ▸ hphase'
    · simp only [update_of_ne heq] at hv
      exact h.underway v other phase'' hv
  · intro other ok
    rw [h.channel, update_iff (by simp [hbefore]) (by simp)]

/-- A worker gives its job away, to the channel or to nobody. -/
theorem release [DecidableEq W] (h : Located jobs place) {w : W} {ok : Bool}
    (hload : jobs.load w = some (task, .finished ok)) :
    Located
        { jobs with
          load := update jobs.load w none
          channel := jobs.channel ++ [(task, ok)] }
        (update place task (.channel ok)) ∧
      Located { jobs with load := update jobs.load w none }
        (update place task (.lost ok)) := by
  have hbefore : place task = .worker w (.finished ok) := (h.worker w task _).mp hload
  -- both outcomes leave queues and workers alike; they differ in the channel
  have hqueue : ∀ place', (∀ q, place' ≠ .queue q) → ∀ q other, other ∈ jobs.queue q ↔
      update place task place' other = .queue q := by
    intro place' hnew q other
    rw [h.queue, update_iff (by simp [hbefore]) (hnew q)]
  have hworker : ∀ place', (∀ v phase, place' ≠ .worker v phase) → ∀ v other phase,
      update jobs.load w none v = some (other, phase) ↔
        update place task place' other = .worker v phase := by
    intro place' hnew v other phase
    by_cases hv : v = w
    · subst hv
      simp only [update_self, reduceCtorEq, false_iff]
      by_cases heq : other = task
      · subst heq
        simpa using hnew v phase
      · rw [update_of_ne heq, ← h.worker, hload]
        simp [Ne.symm heq]
    · simp only [update_of_ne hv]
      rw [h.worker, update_iff (by simp [hbefore, Ne.symm hv]) (hnew v phase)]
  have hunderway : ∀ v other phase, update jobs.load w none v = some (other, phase) →
      Underway phase := by
    intro v other phase hv
    by_cases heq : v = w
    · subst heq
      simp at hv
    · rw [update_of_ne heq] at hv
      exact h.underway v other phase hv
  have hfresh : ∀ ok', (task, ok') ∉ jobs.channel := by
    intro ok' hmem
    rw [h.channel, hbefore] at hmem
    cases hmem
  refine ⟨⟨h.queue_nodup, hqueue _ (by simp), hworker _ (by simp), hunderway, ?_, ?_⟩,
    ⟨h.queue_nodup, hqueue _ (by simp), hworker _ (by simp), hunderway, h.channel_nodup, ?_⟩⟩
  · rw [List.map_append, List.nodup_append]
    refine ⟨h.channel_nodup, List.nodup_singleton _, ?_⟩
    rintro a ha b hb rfl
    obtain ⟨⟨other, ok'⟩, hmem, rfl⟩ := List.mem_map.mp ha
    obtain rfl : other = task := by simpa using hb
    exact hfresh ok' hmem
  · intro other ok'
    rw [List.mem_append, List.mem_singleton, Prod.mk.injEq]
    by_cases heq : other = task
    · subst heq
      simp [hfresh ok', eq_comm]
    · simp [heq, h.channel]
  · intro other ok'
    rw [h.channel, update_iff (by simp [hbefore]) (by simp)]

end Located

/-! ## The moves of the workers -/

variable [DecidableEq Q] [DecidableEq W]

/-- What a worker does with jobs. -/
inductive WorkerMove (jobs : Jobs Q W) : Option Event → Jobs Q W → Prop
  | keep : WorkerMove jobs none jobs
  | take {w : W} {q : Q} {task : TaskId} {rest : List TaskId}
      (hperm : (jobs.queue q).Perm (task :: rest)) (hload : jobs.load w = none) :
      WorkerMove jobs none
        { jobs with
          queue := update jobs.queue q rest
          load := update jobs.load w (some (task, .queued)) }
  | start {w : W} {task : TaskId} (hload : jobs.load w = some (task, .queued)) :
      WorkerMove jobs (some (.start task))
        { jobs with load := update jobs.load w (some (task, .running)) }
  | finish {w : W} {task : TaskId} (ok : Bool) (hload : jobs.load w = some (task, .running)) :
      WorkerMove jobs (some (.finish task ok))
        { jobs with load := update jobs.load w (some (task, .finished ok)) }
  | send {w : W} {task : TaskId} {ok : Bool} (hload : jobs.load w = some (task, .finished ok)) :
      WorkerMove jobs none
        { jobs with
          load := update jobs.load w none
          channel := jobs.channel ++ [(task, ok)] }
  | lose {w : W} {task : TaskId} {ok : Bool} (hload : jobs.load w = some (task, .finished ok)) :
      WorkerMove jobs none { jobs with load := update jobs.load w none }

/-- A worker's move in the schedule: it starts or finishes a job, or it changes no phase. -/
theorem Located.workerMove {graph : DependencyGraph} {jobs jobs' : Jobs Q W}
    {place : TaskId → Place Q W} {event : Option Event} (h : Located jobs place)
    (hmove : WorkerMove jobs event jobs') :
    ∃ place', Located jobs' place' ∧
      ((event = none ∧ phases place' = phases place) ∨
        Schedule.Step graph (phases place) event (phases place')) ∧
      SameEnds (phases place) (phases place') := by
  -- a job that changes its place but not its phase
  have hsame : ∀ {jobs'' : Jobs Q W} {task : TaskId} {place' : Place Q W}, event = none →
      Located jobs'' (update place task place') → (place task).phase = place'.phase →
      ∃ place', Located jobs'' place' ∧
        ((event = none ∧ phases place' = phases place) ∨
          Schedule.Step graph (phases place) event (phases place')) ∧
        SameEnds (phases place) (phases place') := by
    intro jobs'' task place' hevent hlocated hphase
    have hphases : phases (update place task place') = phases place := by
      rw [phases_update, update_eq_self_iff]
      exact hphase.symm
    exact ⟨_, hlocated, .inl ⟨hevent, hphases⟩, fun other => .inl (congrFun hphases other)⟩
  -- a worker that moves on with its job
  have hnext : ∀ {w : W} {task : TaskId} {phase phase' : Phase},
      jobs.load w = some (task, phase) → Underway phase' →
      Schedule.Step graph (phases place) event (update (phases place) task phase') →
      ∃ place', Located { jobs with load := update jobs.load w (some (task, phase')) } place' ∧
        ((event = none ∧ phases place' = phases place) ∨
          Schedule.Step graph (phases place) event (phases place')) ∧
        SameEnds (phases place) (phases place') := by
    intro w task phase phase' hload hphase' hschedule
    have hbefore := (h.worker w task phase).mp hload
    have hphases : phases (update place task (.worker w phase')) =
        update (phases place) task phase' := phases_update place task (.worker w phase')
    refine ⟨_, h.advance hload hphase', .inr (hphases ▸ hschedule), ?_⟩
    intro other
    rw [hphases]
    by_cases heq : other = task
    · subst heq
      refine .inr ⟨?_, by simpa using hphase'⟩
      simpa [phases, hbefore, Place.phase] using h.underway w other phase hload
    · exact .inl (update_of_ne heq _ _)
  cases hmove with
  | keep => exact ⟨place, h, .inl ⟨rfl, rfl⟩, fun _ => .inl rfl⟩
  | @take w q task rest hperm hload =>
      have hbefore := (h.queue q task).mp (hperm.mem_iff.mpr List.mem_cons_self)
      exact hsame rfl (h.take hperm hload) (by rw [hbefore]; rfl)
  | @start w task hload =>
      have hbefore := (h.worker w task _).mp hload
      exact hnext hload (by simp [Underway]) (.start (by simp [phases, hbefore, Place.phase]))
  | @finish w task ok hload =>
      have hbefore := (h.worker w task _).mp hload
      exact hnext hload (by simp [Underway])
        (.finish ok (by simp [phases, hbefore, Place.phase]))
  | @send w task ok hload =>
      have hbefore := (h.worker w task _).mp hload
      exact hsame rfl (h.release hload).1 (by rw [hbefore]; rfl)
  | @lose w task ok hload =>
      have hbefore := (h.worker w task _).mp hload
      exact hsame rfl (h.release hload).2 (by rw [hbefore]; rfl)

end Jadren.Concurrency
