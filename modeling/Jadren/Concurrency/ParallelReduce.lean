import Jadren.Concurrency.ChunkRanges
import Jadren.Concurrency.WorkStealing

/-!
# Parallel reduction

`WorkStealingPool::parallel_reduce`: each chunk starts with the initial value and reduces its own
mapped values; its job leaves the result at the place of the chunk.  Once the pool has executed all
jobs, the partial values are combined in ascending order of the chunks.

The chunks are tasks without edges, so the pool may complete them in any order.  Each place is
written by one job only, so what is combined in the end does not depend on that order.
-/

namespace Jadren.Concurrency

open ParallelForConfig List

/-! ## The graph of the chunks -/

/-- The task of a chunk: no accesses and no dependencies. -/
def chunkTask (loop : String) (chunk : ℕ) : TaskSpec :=
  ⟨chunk, loop ++ "[" ++ toString chunk ++ "]", [], []⟩

/-- The declarations of all chunks. -/
def chunkTasks (loop : String) (chunks : ℕ) : Except GraphError TaskGraphBuilder :=
  (range chunks).foldlM (fun builder chunk => builder.addTask (chunkTask loop chunk)) .empty

/-- The graph of all chunks. -/
def chunkGraph (loop : String) (chunks : ℕ) : Option DependencyGraph :=
  match chunkTasks loop chunks with
  | .error _ => none
  | .ok builder => builder.build.bind Except.toOption

variable {loop : String}

theorem isBlank_label (hloop : isBlank loop = false) (chunk : ℕ) :
    isBlank (chunkTask loop chunk).label = false := by
  unfold isBlank at hloop ⊢
  simp only [chunkTask, String.toList_append, all_append, hloop, Bool.false_and]

theorem TaskGraphBuilder.addTask_chunkTask (hloop : isBlank loop = false)
    {builder : TaskGraphBuilder} {chunk : ℕ} (hnew : builder.tasks.contains chunk = false) :
    ∃ next, builder.addTask (chunkTask loop chunk) = .ok next ∧
      next.tasks = builder.tasks.insert chunk (chunkTask loop chunk) := by
  have hlabel : ¬ isBlank (chunkTask loop chunk).label = true := by
    rw [isBlank_label hloop]
    exact Bool.false_ne_true
  have hid : ¬ builder.tasks.contains (chunkTask loop chunk).id = true := by
    rw [Bool.not_eq_true]
    exact hnew
  unfold addTask
  rw [if_neg hlabel, if_neg hid]
  exact ⟨_, rfl, rfl⟩

theorem chunkTasks_eq (hloop : isBlank loop = false) (chunks : ℕ) :
    ∃ builder, chunkTasks loop chunks = .ok builder ∧
      builder.tasks.entries = (range chunks).map fun chunk => (chunk, chunkTask loop chunk) := by
  induction chunks with
  | zero => exact ⟨.empty, rfl, rfl⟩
  | succ chunks ih =>
      obtain ⟨builder, hbuilder, hentries⟩ := ih
      have hless : ∀ entry ∈ builder.tasks.entries, entry.1 < chunks := by
        intro entry hentry
        rw [hentries] at hentry
        obtain ⟨chunk, hchunk, rfl⟩ := mem_map.mp hentry
        exact mem_range.mp hchunk
      have hnew : builder.tasks.contains chunks = false := by
        rw [← Bool.not_eq_true, OrderedMap.contains_iff]
        intro hkey
        obtain ⟨entry, hentry, heq⟩ := mem_map.mp hkey
        exact (hless entry hentry).ne heq
      obtain ⟨next, hnext, htasks⟩ := TaskGraphBuilder.addTask_chunkTask hloop hnew
      refine ⟨next, ?_, ?_⟩
      · unfold chunkTasks at hbuilder ⊢
        rw [range_succ, foldlM_append, hbuilder]
        simp only [foldlM_cons, foldlM_nil, Except.bind, bind, hnext]
        rfl
      · rw [htasks, OrderedMap.entries_insert_last _ hless, hentries, range_succ,
          map_append]
        rfl

/-- The graph of the chunks: no edges, so it is never rejected. -/
theorem chunkGraph_eq {loop : String} (hloop : isBlank loop = false) (chunks : ℕ) :
    ∃ builder : TaskGraphBuilder, chunkGraph loop chunks = some builder.graph ∧
      builder.build = some (.ok builder.graph) ∧
      builder.graph.taskIds = ⟨range chunks⟩ := by
  obtain ⟨builder, hbuilder, hentries⟩ := chunkTasks_eq hloop chunks
  have hlookup : ∀ id task, builder.tasks.lookup id = some task →
      task.accesses = [] ∧ task.dependsOn = [] := by
    intro id task hlookup
    rw [OrderedMap.lookup_iff_mem, hentries] at hlookup
    obtain ⟨chunk, _, heq⟩ := mem_map.mp hlookup
    cases heq
    exact ⟨rfl, rfl⟩
  have hexplicit : ∀ first second, ¬ builder.Explicit first second := by
    rintro first second ⟨task, htask, hmem⟩
    rw [(hlookup second task htask).2] at hmem
    cases hmem
  have hconflicting : ∀ first second, ¬ builder.Conflicting first second := by
    rintro first second ⟨left, right, hleft, _, hconflict⟩
    rw [accessesConflict, (hlookup first left hleft).1] at hconflict
    cases hconflict
  have known : builder.Known := fun first second h => absurd h (hexplicit first second)
  obtain ⟨graph, hgraph⟩ := (builder.build_isOk_iff known).1.mpr <| by
    refine Acyclic.of_rank (fun _ => 0) fun first second h => ?_
    rcases h with h | ⟨_, h⟩
    · exact absurd h (hexplicit first second)
    · exact absurd h (hconflicting first second)
  obtain rfl := (TaskGraphBuilder.of_build hgraph).1
  refine ⟨builder, ?_, hgraph, ?_⟩
  · rw [chunkGraph, hbuilder]
    exact congrArg (Option.bind · Except.toOption) hgraph
  · have hkeys : builder.tasks.keys = range chunks := by
      rw [OrderedMap.keys, hentries, map_map]
      exact map_id' _
    exact congrArg OrderedSet.mk hkeys

/-! ## The reduction -/

inductive ParallelReduceError
  | tooManyChunks
  | missingChunk (chunk : ℕ)
  | pool (error : PoolError)

/-- Completion evidence and value returned by one parallel reduction. -/
structure ParallelReduceReport (T : Type) where
  value : T
  iterations : ℕ
  chunks : ℕ
  completedChunks : List TaskId
  workerCount : ℕ

/-- What a reduction is called with. -/
structure ParallelReduce (T : Type) where
  iterations : ℕ
  config : ParallelForConfig
  initial : T
  map : ℕ → T
  reduce : T → T → T

namespace ParallelReduce

variable {T : Type} (call : ParallelReduce T)

/-- The value is reduced with the mapped values of some iterations. -/
def reduceOver (value : T) (range : ℕ × ℕ) : T :=
  (range' range.1 (range.2 - range.1)).foldl
    (fun value index => call.reduce value (call.map index)) value

/-- The job of a chunk leaves its value at the place of the chunk. -/
def record (ranges : List (ℕ × ℕ)) (partials : List (Option T)) : Option Event → List (Option T)
  | some (.finish chunk true) =>
      partials.set chunk (ranges[chunk]?.map (call.reduceOver call.initial))
  | _ => partials

/-- The pool executes the jobs of the chunks; they do not panic. -/
def system (pool : WorkStealingPool) (graph : DependencyGraph) (ranges : List (ℕ × ℕ)) :
    System Event where
  State := WorkStealingPool.Execution pool × List (Option T)
  initial s := s = (WorkStealingPool.Execution.start pool graph ⟨range ranges.length⟩,
    replicate ranges.length none)
  step s event s' := WorkStealingPool.Step graph s.1 event s'.1 ∧
    (∀ chunk, event ≠ some (.finish chunk false)) ∧ s'.2 = call.record ranges s.2 event

/-- The partial values are combined in ascending order of the chunks. -/
def combine (value : T) (chunk : ℕ) : List (Option T) → Except ParallelReduceError T
  | [] => .ok value
  | none :: _ => .error (.missingChunk chunk)
  | some partialValue :: rest => combine (call.reduce value partialValue) (chunk + 1) rest

/-- What is returned once the pool has returned. -/
def conclude (partials : List (Option T)) :
    Outcome → Except ParallelReduceError (ParallelReduceReport T)
  | .error error => .error (.pool error)
  | .ok report => (call.combine call.initial 0 partials).map fun value =>
      { value := value
        iterations := call.iterations
        chunks := partials.length
        completedChunks := report.completedOrder
        workerCount := report.workerCount }

/-- The ranges of the chunks and the graph, unless the call panics or is rejected. -/
def prepare (checked : Bool) :
    Option (Except ParallelReduceError (List (ℕ × ℕ) × DependencyGraph)) := do
  let chunks ← usize checked (call.config.chunks call.iterations)
  if 2 ^ 32 - 1 < chunks then pure (.error .tooManyChunks)
  else
    let ranges ← call.config.chunkRanges call.iterations checked
    let graph ← chunkGraph "parallel_reduce" chunks
    pure (.ok (ranges, graph))

/-- How a call ends, with `none` for a panic of the caller. -/
inductive Ends (checked : Bool) (pool : WorkStealingPool) :
    Option (Except ParallelReduceError (ParallelReduceReport T)) → Prop
  | panicked (hprepare : call.prepare checked = none) : Ends checked pool none
  | rejected {error : ParallelReduceError} (hprepare : call.prepare checked = some (.error error)) :
      Ends checked pool (some (.error error))
  | executed {ranges : List (ℕ × ℕ)} {graph : DependencyGraph} {trace : List Event}
      {s : (call.system pool graph ranges).State} {outcome : Outcome}
      (hprepare : call.prepare checked = some (.ok (ranges, graph)))
      (run : (call.system pool graph ranges).Run trace s)
      (hreturned : s.1.control = .returned outcome) :
      Ends checked pool (some (call.conclude s.2 outcome))
  | crashed {ranges : List (ℕ × ℕ)} {graph : DependencyGraph} {trace : List Event}
      {s : (call.system pool graph ranges).State}
      (hprepare : call.prepare checked = some (.ok (ranges, graph)))
      (run : (call.system pool graph ranges).Run trace s)
      (hpanicked : s.1.control = .panicked) : Ends checked pool none

/-! ## What the jobs leave -/

section Runs

variable {call : ParallelReduce T} {pool : WorkStealingPool} {graph : DependencyGraph}
  {ranges : List (ℕ × ℕ)} {trace : List Event} {partials : List (Option T)}

/-- The places say which jobs have returned, and what they came to. -/
structure Written (call : ParallelReduce T) (ranges : List (ℕ × ℕ)) (trace : List Event)
    (partials : List (Option T)) : Prop where
  length : partials.length = ranges.length
  place : ∀ chunk range, ranges[chunk]? = some range → partials[chunk]? =
    some (if .finish chunk true ∈ trace then some (call.reduceOver call.initial range) else none)
  returned : ∀ chunk, .finish chunk false ∉ trace

theorem Written.step (h : Written call ranges trace partials) {event : Option Event}
    (hreturns : ∀ chunk, event ≠ some (.finish chunk false)) :
    Written call ranges (trace ++ event.toList) (call.record ranges partials event) := by
  have hreturned : ∀ chunk, .finish chunk false ∉ trace ++ event.toList := by
    intro chunk hmem
    rcases mem_append.mp hmem with hbefore | hnow
    · exact h.returned chunk hbefore
    · exact hreturns chunk (Option.mem_toList.mp hnow)
  by_cases hfinish : ∃ chunk, event = some (.finish chunk true)
  · obtain ⟨written, rfl⟩ := hfinish
    refine ⟨?_, fun chunk range hrange => ?_, hreturned⟩
    · rw [record, length_set, h.length]
    · have hchunk : chunk < partials.length := by
        rw [h.length]
        exact (List.getElem?_eq_some_iff.mp hrange).1
      rw [record, getElem?_set]
      by_cases heq : written = chunk
      · subst heq
        rw [if_pos rfl, if_pos hchunk, hrange, if_pos (by simp)]
        rfl
      · rw [if_neg heq, h.place chunk range hrange]
        simp [Ne.symm heq]
  · have hrecord : call.record ranges partials event = partials := by
      unfold record
      split
      · rename_i chunk
        exact absurd ⟨chunk, rfl⟩ hfinish
      · rfl
    rw [hrecord]
    refine ⟨h.length, fun chunk range hrange => ?_, hreturned⟩
    have hmem : .finish chunk true ∈ trace ++ event.toList ↔ .finish chunk true ∈ trace := by
      rw [mem_append, or_iff_left]
      exact fun hnow => hfinish ⟨chunk, Option.mem_toList.mp hnow⟩
    simp only [h.place chunk range hrange, hmem]

variable {s : (call.system pool graph ranges).State}

theorem written (run : (call.system pool graph ranges).Run trace s) :
    Written call ranges trace s.2 := by
  let P := fun trace (s : (call.system pool graph ranges).State) => Written call ranges trace s.2
  refine System.Run.invariant (P := P) run ?_ ?_
  · rintro s rfl
    refine ⟨length_replicate, fun chunk range hrange => ?_, fun _ => not_mem_nil⟩
    rw [if_neg not_mem_nil, getElem?_replicate,
      if_pos (List.getElem?_eq_some_iff.mp hrange).1]
  · intro trace s event s' h ⟨_, hreturns, hpartials⟩
    have hnext := Written.step h hreturns
    rwa [← hpartials] at hnext

/-- The pool does not see the places. -/
def execution (call : ParallelReduce T) (pool : WorkStealingPool) (graph : DependencyGraph)
    (ranges : List (ℕ × ℕ)) : System.Simulation (call.system pool graph ranges)
      (WorkStealingPool.system pool graph ⟨range ranges.length⟩) where
  rel s t := s.1 = t
  initial s hs := ⟨_, rfl, congrArg Prod.fst hs⟩
  step := by
    rintro s event s' _ rfl ⟨hstep, _⟩
    exact .inr ⟨s'.1, hstep, rfl⟩

/-- **Whatever the order of the jobs, every place is written when the pool returns**, and the pool
returns a report. -/
theorem partials_of_returned {builder : TaskGraphBuilder}
    (hbuild : builder.build = some (.ok graph))
    (htasks : graph.taskIds = ⟨range ranges.length⟩)
    (run : (call.system pool graph ranges).Run trace s) :
    s.1.control ≠ .panicked ∧ ∀ outcome, s.1.control = .returned outcome →
      (∃ report, outcome = .ok report) ∧
        s.2 = ranges.map fun range => some (call.reduceOver call.initial range) := by
  obtain ⟨-, closed, acyclic⟩ := TaskGraphBuilder.of_build hbuild
  obtain ⟨_, hrun, rfl⟩ := (call.execution pool graph ranges).run run
  have hjobs : jobSetMismatch graph ⟨range ranges.length⟩ = none := if_pos htasks
  have hwritten := written run
  obtain ⟨hpanicked, hsound⟩ := WorkStealingPool.sound_of_run pool closed acyclic hjobs hrun
  refine ⟨hpanicked, fun outcome hreturned => ?_⟩
  obtain ⟨phase, hschedule, houtcome⟩ := hsound outcome hreturned
  cases outcome with
  | error =>
      obtain ⟨task, -, hfailed⟩ := houtcome
      exact absurd (Schedule.failuresSeen hschedule task (.inl hfailed)) (hwritten.returned task)
  | ok report =>
      refine ⟨⟨report, rfl⟩, ext_getElem? fun chunk => ?_⟩
      have hcompleted := ((WorkStealingPool.executes_graph pool hbuild _).all_completed _ _ hrun
        report hreturned).2
      rw [getElem?_map]
      cases hrange : ranges[chunk]? with
      | none =>
          rw [Option.map_none, getElem?_eq_none_iff, hwritten.length]
          exact getElem?_eq_none_iff.mp hrange
      | some range =>
          have htask : chunk ∈ graph.taskIds := by
            rw [htasks]
            exact mem_range.mpr (List.getElem?_eq_some_iff.mp hrange).1
          have hcount := (hcompleted chunk htask).2.1
          rw [hwritten.place chunk range hrange, if_pos (count_pos_iff.mp (by omega))]
          rfl

end Runs

/-! ## What the reduction comes to -/

variable {call : ParallelReduce T} {checked : Bool} {pool : WorkStealingPool}

theorem combine_map (value : T) (chunk : ℕ) (partialValue : ℕ × ℕ → T) (ranges : List (ℕ × ℕ)) :
    call.combine value chunk (ranges.map fun range => some (partialValue range)) =
      .ok (ranges.foldl (fun value range => call.reduce value (partialValue range)) value) := by
  induction ranges generalizing value chunk with
  | nil => rfl
  | cons range rest ih => exact ih _ _

variable {ranges : List (ℕ × ℕ)}

theorem prepare_eq_ok {graph : DependencyGraph}
    (h : call.prepare checked = some (.ok (ranges, graph))) :
    call.config.chunkRanges call.iterations checked = some ranges ∧
      ∃ builder : TaskGraphBuilder, builder.build = some (.ok graph) ∧
        graph.taskIds = ⟨range ranges.length⟩ := by
  obtain ⟨chunks, hchunks, hprepare⟩ := Option.bind_eq_some_iff.mp h
  split_ifs at hprepare with htoo
  · cases hprepare
  · obtain ⟨others, hranges, hprepare⟩ := Option.bind_eq_some_iff.mp hprepare
    obtain ⟨built, hgraph, hprepare⟩ := Option.bind_eq_some_iff.mp hprepare
    cases hprepare
    have hlength : ranges.length = chunks := by
      rw [chunkRanges, hchunks] at hranges
      have hmap := congrArg length (Folds.mapM_eq_some_iff.mp hranges)
      rw [length_map, length_map, length_range] at hmap
      exact hmap.symm
    obtain ⟨builder, hbuilder, hbuild, htasks⟩ := @chunkGraph_eq "parallel_reduce" rfl chunks
    obtain rfl := Option.some.inj (hbuilder.symm.trans hgraph)
    refine ⟨hranges, builder, hbuild, ?_⟩
    rw [htasks, hlength]

/-- What the value of a call is, without a pool. -/
def value (call : ParallelReduce T) (checked : Bool) : Option (Except ParallelReduceError T) :=
  (call.prepare checked).map fun prepared => prepared.map fun (ranges, _) =>
    ranges.foldl (fun value range => call.reduce value (call.reduceOver call.initial range))
      call.initial

/-- **Every call ends with the same value**, whatever the number of workers and the order in which
chunks are stolen and completed. -/
theorem Ends.value_eq {outcome : Option (Except ParallelReduceError (ParallelReduceReport T))}
    (h : call.Ends checked pool outcome) :
    outcome.map (Except.map ParallelReduceReport.value) = call.value checked := by
  cases h with
  | panicked hprepare | rejected hprepare => rw [ParallelReduce.value, hprepare]; rfl
  | executed hprepare run hreturned =>
      obtain ⟨_, builder, hbuild, htasks⟩ := prepare_eq_ok hprepare
      obtain ⟨⟨report, rfl⟩, hpartials⟩ :=
        (partials_of_returned hbuild htasks run).2 _ hreturned
      rw [ParallelReduce.value, hprepare, hpartials, conclude, combine_map]
      rfl
  | crashed hprepare run hpanicked =>
      obtain ⟨_, builder, hbuild, htasks⟩ := prepare_eq_ok hprepare
      exact absurd hpanicked (partials_of_returned hbuild htasks run).1

/-- The sequential left fold. -/
def sequential (call : ParallelReduce T) : T :=
  (range call.iterations).foldl (fun value index => call.reduce value (call.map index))
    call.initial

/-- Reducing with a partial value is reducing with all of its iterations. -/
theorem reduce_reduceOver
    (hassoc : ∀ x y z, call.reduce (call.reduce x y) z = call.reduce x (call.reduce y z))
    (hidentity : ∀ x, call.reduce x call.initial = x) (value : T) (range : ℕ × ℕ) :
    call.reduce value (call.reduceOver call.initial range) = call.reduceOver value range := by
  unfold reduceOver
  induction range' range.1 (range.2 - range.1) using reverseRecOn with
  | nil => exact hidentity value
  | append_singleton indices index ih =>
      rw [foldl_append, foldl_append, ← ih]
      exact (hassoc _ _ _).symm

theorem foldl_reduceOver
    (hassoc : ∀ x y z, call.reduce (call.reduce x y) z = call.reduce x (call.reduce y z))
    (hidentity : ∀ x, call.reduce x call.initial = x) (htiles : Tiles 0 ranges call.iterations) :
    ranges.foldl (fun value range => call.reduce value (call.reduceOver call.initial range))
      call.initial = call.sequential := by
  have hflat := htiles.flatMap_range'.2
  rw [Nat.sub_zero, ← range_eq_range'] at hflat
  simp only [reduce_reduceOver hassoc hidentity]
  rw [sequential, ← hflat, foldl_flatMap]
  rfl

/-- What is expected of the reductions over so many iterations: no schedule changes the value, and
it is the sequential fold, unless there are more chunks than task ids. -/
def Meets (config : ParallelForConfig) (iterations : ℕ) : Prop :=
  ∀ (checked : Bool) (T : Type) (call : ParallelReduce T), call.config = config →
    call.iterations = iterations →
    (∀ pool pool' outcome outcome', call.Ends checked pool outcome →
      call.Ends checked pool' outcome' → outcome.map (Except.map ParallelReduceReport.value) =
        outcome'.map (Except.map ParallelReduceReport.value)) ∧
    ((∀ x y z, call.reduce (call.reduce x y) z = call.reduce x (call.reduce y z)) →
      (∀ x, call.reduce call.initial x = x) → (∀ x, call.reduce x call.initial = x) →
      ∀ pool outcome, call.Ends checked pool outcome →
        outcome.map (Except.map ParallelReduceReport.value) =
          some (if iterations ≤ (2 ^ 32 - 1) * config.chunkSize then .ok call.sequential
            else .error .tooManyChunks))

theorem value_of_fits (hiterations : call.iterations < 2 ^ 64)
    (hchunks : call.iterations ≤ (2 ^ 32 - 1) * call.config.chunkSize)
    (hfits : call.config.Fits call.iterations)
    (hassoc : ∀ x y z, call.reduce (call.reduce x y) z = call.reduce x (call.reduce y z))
    (hidentity : ∀ x, call.reduce x call.initial = x) :
    call.value checked = some (.ok call.sequential) := by
  obtain ⟨builder, hbuilder, -, -⟩ :=
    @chunkGraph_eq "parallel_reduce" rfl (call.config.chunks call.iterations)
  have hfew := Nat.not_lt.mpr (chunks_le_iff.mpr hchunks)
  have hprepare : call.prepare checked = some (.ok
      ((range (call.config.chunks call.iterations)).map
        (call.config.exactRange call.iterations), builder.graph)) := by
    rw [prepare, usize_eq (chunks_lt hiterations), Option.bind_eq_bind,
      Option.bind_some, if_neg hfew, chunkRanges_of_fits hiterations hfits,
      hbuilder]
    rfl
  rw [value, hprepare]
  exact congrArg (fun x => some (Except.ok x)) (foldl_reduceOver hassoc hidentity
    (tiles_chunks call.config call.iterations))

theorem value_of_many (hiterations : call.iterations < 2 ^ 64)
    (hchunks : ¬ call.iterations ≤ (2 ^ 32 - 1) * call.config.chunkSize) :
    call.value checked = some (.error .tooManyChunks) := by
  have hmany := Nat.lt_of_not_le fun hle => hchunks (chunks_le_iff.mp hle)
  rw [value, prepare, usize_eq (chunks_lt hiterations), Option.bind_eq_bind,
    Option.bind_some, if_pos hmany]
  rfl

/-- A range that overflows lets the call panic before a worker is started. -/
theorem prepare_eq_none (hiterations : call.iterations < 2 ^ 64)
    (hchunks : call.iterations ≤ (2 ^ 32 - 1) * call.config.chunkSize)
    (hranges : call.config.chunkRanges call.iterations checked = none) :
    call.prepare checked = none := by
  have hfew := Nat.not_lt.mpr (chunks_le_iff.mpr hchunks)
  rw [prepare, usize_eq (chunks_lt hiterations), Option.bind_eq_bind,
    Option.bind_some, if_neg hfew, hranges]
  rfl

end ParallelReduce

end Jadren.Concurrency
