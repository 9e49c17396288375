import Jadren.Library.Acyclic
import Jadren.Concurrency.Graph

/-!
# The search for a topological order

`topologicalOrder` visits tasks whose dependencies have all been visited.  The
invariant `Sweep.Visited` holds after every release of a dependent: it names the
dependents of the last visited task that are still to be released, which is the
only place where an indegree and the set of visited tasks disagree.

From it: the search never panics, it ends with nothing ready, and it has visited
every task exactly when the edges are acyclic.  For the graph of a builder this
is `TaskGraphBuilder.build_isOk_iff`: the edges that `build` adds for conflicting
accesses run from the smaller identity to the larger, so a declared dependency on
a task with a larger identity can close a cycle with them.
-/

namespace Jadren.Concurrency

namespace DependencyGraph

open List

/-- Every edge joins two tasks of the graph. -/
def Closed (graph : DependencyGraph) : Prop :=
  ∀ source target, graph.edges.Has source target →
    source ∈ graph.taskIds ∧ target ∈ graph.taskIds

variable {graph : DependencyGraph}

/-- Visiting one more task leaves one dependency less to wait for, if it is one. -/
private theorem length_waiting {l visited : List TaskId} {task : TaskId} (hl : l.Nodup)
    (htask : task ∉ visited) :
    (l.filter fun d => decide (d ∉ visited)).length =
      (l.filter fun d => decide (d ∉ visited ++ [task])).length + if task ∈ l then 1 else 0 := by
  induction l with
  | nil => simp
  | cons d rest ih =>
      rw [nodup_cons] at hl
      have hrest := ih hl.2
      by_cases hd : d = task
      · -- the visited task itself: it is not in the rest of the list
        have hrest' : task ∉ rest := hd ▸ hl.1
        rw [if_neg hrest'] at hrest
        rw [filter_cons_of_pos (by simpa [hd] using htask),
          filter_cons_of_neg (by simp [hd]), length_cons, if_pos (by simp [hd]), hrest]
      · have hmem : task ∈ d :: rest ↔ task ∈ rest := by simp [Ne.symm hd]
        simp only [hmem]
        by_cases hvisited : d ∈ visited
        · rw [filter_cons_of_neg (by simpa using hvisited),
            filter_cons_of_neg (by simp [hvisited]), hrest]
        · rw [filter_cons_of_pos (by simpa using hvisited),
            filter_cons_of_pos (by simp [hvisited, hd]), length_cons, length_cons,
            hrest]
          omega

/-- Where the search is: the tasks of the order are visited, and the dependents in `pending` of the
last one are still to be released. -/
structure Sweep.Visited (graph : DependencyGraph) (sweep : Sweep) (pending : List TaskId) :
    Prop where
  order_nodup : sweep.order.Nodup
  order_tasks : ∀ task ∈ sweep.order, task ∈ graph.taskIds
  ordered : ∀ earlier task later, sweep.order = earlier ++ task :: later →
    ∀ dependency, graph.edges.Has dependency task → dependency ∈ earlier
  pending_nodup : pending.Nodup
  pending_new : ∀ task ∈ pending, task ∈ graph.taskIds ∧ task ∉ sweep.order
  ready_nodup : sweep.ready.elems.Nodup
  mem_ready : ∀ task, task ∈ sweep.ready ↔
    task ∈ graph.taskIds ∧ task ∉ sweep.order ∧ task ∉ pending ∧
      ∀ dependency, graph.edges.Has dependency task → dependency ∈ sweep.order
  indegree : ∀ task ∈ graph.taskIds, sweep.indegree.lookup task =
    some (((graph.dependenciesOf task).elems.filter fun d => decide (d ∉ sweep.order)).length +
      if task ∈ pending then 1 else 0)

namespace Sweep.Visited

variable {sweep : Sweep} {task : TaskId} {pending : List TaskId}

/-- No dependency is left to wait for exactly when all have been visited. -/
private theorem waiting_eq_zero {order : List TaskId} :
    ((graph.dependenciesOf task).elems.filter fun d => decide (d ∉ order)).length = 0 ↔
      ∀ dependency, graph.edges.Has dependency task → dependency ∈ order := by
  rw [length_eq_zero_iff, filter_eq_nil_iff]
  simp only [decide_eq_true_eq, not_not, ← OrderedSet.mem_def, mem_dependenciesOf]

theorem release (h : sweep.Visited graph (task :: pending)) :
    ∃ next, sweep.release task = some next ∧ next.order = sweep.order ∧
      next.Visited graph pending := by
  obtain ⟨htask, hnew⟩ := h.pending_new task mem_cons_self
  have hnodup := nodup_cons.mp h.pending_nodup
  have hdegree := h.indegree task htask
  rw [if_pos mem_cons_self] at hdegree
  have hnotReady : task ∉ sweep.ready := by
    intro hready
    exact ((h.mem_ready task).mp hready).2.2.1 mem_cons_self
  -- the degree that is left counts the dependencies not yet in the order
  generalize hcount : ((graph.dependenciesOf task).elems.filter fun d =>
    decide (d ∉ sweep.order)).length = count at hdegree
  let next : Sweep :=
    { sweep with
      indegree := sweep.indegree.insert task count
      ready := if count = 0 then sweep.ready.insert task else sweep.ready }
  have hrelease : sweep.release task = some next := by
    simp [Sweep.release, hdegree, next]
  refine ⟨next, hrelease, rfl, ?_⟩
  refine
    { order_nodup := h.order_nodup
      order_tasks := h.order_tasks
      ordered := h.ordered
      pending_nodup := hnodup.2
      pending_new := fun other hother => h.pending_new other (mem_cons_of_mem _ hother)
      ready_nodup := ?_
      mem_ready := ?_
      indegree := ?_ }
  · change (if count = 0 then sweep.ready.insert task else sweep.ready).elems.Nodup
    split
    · exact (OrderedSet.perm_insertSorted hnotReady).nodup_iff.mpr
        (nodup_cons.mpr ⟨hnotReady, h.ready_nodup⟩)
    · exact h.ready_nodup
  · intro other
    change (other ∈ if count = 0 then sweep.ready.insert task else sweep.ready) ↔ _
    -- only `task` can become ready, and does if nothing is left to wait for
    by_cases hother : other = task
    · subst hother
      have hall : count = 0 ↔
          ∀ dependency, graph.edges.Has dependency other → dependency ∈ sweep.order := by
        rw [← hcount]
        exact waiting_eq_zero
      by_cases hzero : count = 0
      · simp only [hzero, if_true, OrderedSet.mem_insert, true_or, true_iff]
        exact ⟨htask, hnew, hnodup.1, hall.mp hzero⟩
      · simp only [hzero, if_false, hnotReady, false_iff]
        intro hready
        exact hzero (hall.mpr hready.2.2.2)
    · have hsame := h.mem_ready other
      rw [mem_cons, not_or] at hsame
      have hinsert : (other ∈ if count = 0 then sweep.ready.insert task else sweep.ready) ↔
          other ∈ sweep.ready := by
        split
        · rw [OrderedSet.mem_insert, or_iff_right hother]
        · rfl
      rw [hinsert, hsame]
      constructor
      · rintro ⟨h₁, h₂, ⟨-, h₃⟩, h₄⟩
        exact ⟨h₁, h₂, h₃, h₄⟩
      · rintro ⟨h₁, h₂, h₃, h₄⟩
        exact ⟨h₁, h₂, ⟨hother, h₃⟩, h₄⟩
  · intro other hotherTask
    change (sweep.indegree.insert task count).lookup other = _
    rw [OrderedMap.insert, OrderedMap.lookup_update]
    by_cases hother : other = task
    · subst hother
      rw [if_pos rfl, hcount, if_neg hnodup.1, Nat.add_zero]
    · rw [if_neg hother, h.indegree other hotherTask]
      simp [hother, next]

theorem release_all (h : sweep.Visited graph pending) :
    ∃ next, pending.foldlM Sweep.release sweep = some next ∧ next.order = sweep.order ∧
      next.Visited graph [] := by
  induction pending generalizing sweep with
  | nil => exact ⟨sweep, rfl, rfl, h⟩
  | cons task rest ih =>
      obtain ⟨middle, hrelease, horder, hmiddle⟩ := h.release
      obtain ⟨next, hrest, horder', hnext⟩ := ih hmiddle
      refine ⟨next, ?_, horder'.trans horder, hnext⟩
      rw [foldlM_cons, hrelease]
      exact hrest

/-- The task taken from the ready set becomes the last of the order. -/
theorem take (closed : graph.Closed) (h : sweep.Visited graph []) {rest : List TaskId}
    (hready : sweep.ready.elems = task :: rest) :
    Sweep.Visited graph { sweep with ready := ⟨rest⟩, order := sweep.order ++ [task] }
      (graph.dependentsOf task).elems := by
  have hmem : task ∈ sweep.ready := by
    rw [OrderedSet.mem_def, hready]
    exact mem_cons_self
  obtain ⟨htask, hnew, -, hdependencies⟩ := (h.mem_ready task).mp hmem
  have hnodup : task ∉ rest ∧ rest.Nodup := by
    have := h.ready_nodup
    rwa [hready, nodup_cons] at this
  -- a dependent of the task waits for it, so it has not been visited
  have hunvisited : ∀ other, graph.edges.Has task other → other ∉ sweep.order ∧ other ≠ task := by
    intro other hedge
    refine ⟨?_, ?_⟩
    · intro hother
      obtain ⟨earlier, later, hsplit⟩ := append_of_mem hother
      have := h.ordered earlier other later hsplit task hedge
      exact hnew (hsplit ▸ mem_append_left _ this)
    · rintro rfl
      exact hnew (hdependencies other hedge)
  refine
    { order_nodup := ?_
      order_tasks := ?_
      ordered := ?_
      pending_nodup := dependentsOf_nodup
      pending_new := ?_
      ready_nodup := hnodup.2
      mem_ready := ?_
      indegree := ?_ }
  · exact nodup_append.mpr ⟨h.order_nodup, nodup_singleton _, by
      rintro a ha b hb rfl
      exact hnew (mem_singleton.mp hb ▸ ha)⟩
  · intro other hother
    rcases mem_append.mp hother with hother | hother
    · exact h.order_tasks other hother
    · rw [mem_singleton.mp hother]
      exact htask
  · intro earlier other later hsplit dependency hedge
    rcases eq_nil_or_concat later with rfl | ⟨init, last, rfl⟩
    · obtain ⟨rfl, hlast⟩ := append_inj' hsplit rfl
      obtain rfl : task = other := by simpa using hlast
      exact hdependencies dependency hedge
    · have hsplit' : sweep.order ++ [task] = (earlier ++ other :: init) ++ [last] := by
        simpa using hsplit
      obtain ⟨horder, -⟩ := append_inj' hsplit' rfl
      exact h.ordered earlier other init horder dependency hedge
  · intro other hother
    have hedge := mem_dependentsOf.mp (OrderedSet.mem_def.mpr hother)
    obtain ⟨hunordered, hne⟩ := hunvisited other hedge
    refine ⟨(closed _ _ hedge).2, ?_⟩
    simp [hunordered, hne]
  · intro other
    have hpending : other ∈ (graph.dependentsOf task).elems ↔ graph.edges.Has task other := by
      rw [← OrderedSet.mem_def, mem_dependentsOf]
    have hrest : other ∈ (⟨rest⟩ : OrderedSet TaskId) ↔ other ∈ sweep.ready ∧ other ≠ task := by
      rw [OrderedSet.mem_def, OrderedSet.mem_def, hready, mem_cons]
      constructor
      · intro hother
        exact ⟨.inr hother, fun heq => hnodup.1 (heq ▸ hother)⟩
      · rintro ⟨heq | hother, hne⟩
        · exact absurd heq hne
        · exact hother
    rw [hrest, h.mem_ready other, hpending]
    simp only [mem_append, mem_singleton, not_mem_nil, not_false_eq_true, true_and,
      not_or]
    constructor
    · rintro ⟨⟨h₁, h₂, h₃⟩, hne⟩
      exact ⟨h₁, ⟨h₂, hne⟩, fun hedge => hnew (h₃ task hedge), fun d hd => .inl (h₃ d hd)⟩
    · rintro ⟨h₁, ⟨h₂, hne⟩, hedge, h₃⟩
      refine ⟨⟨h₁, h₂, ?_⟩, hne⟩
      intro dependency hdependency
      rcases h₃ dependency hdependency with hvisited | rfl
      · exact hvisited
      · exact absurd hdependency hedge
  · intro other hother
    have hwaiting := h.indegree other hother
    rw [if_neg not_mem_nil, Nat.add_zero,
      length_waiting dependenciesOf_nodup hnew] at hwaiting
    rw [hwaiting]
    have hedge : task ∈ (graph.dependenciesOf other).elems ↔
        other ∈ (graph.dependentsOf task).elems := by
      rw [← OrderedSet.mem_def, ← OrderedSet.mem_def, mem_dependenciesOf, mem_dependentsOf]
    simp only [hedge]

theorem visit (closed : graph.Closed) (h : sweep.Visited graph []) {rest : List TaskId}
    (hready : sweep.ready.elems = task :: rest) :
    ∃ next, sweep.visit graph task rest = some next ∧
      next.order.length = sweep.order.length + 1 ∧ next.Visited graph [] := by
  obtain ⟨next, hvisit, horder, hnext⟩ := (h.take closed hready).release_all
  exact ⟨next, hvisit, by simp [horder], hnext⟩

/-- The rounds end with nothing ready, or each has visited a task. -/
theorem run (closed : graph.Closed) (rounds : ℕ) (h : sweep.Visited graph []) :
    ∃ final, Sweep.run graph rounds sweep = some final ∧ final.Visited graph [] ∧
      (final.ready.elems = [] ∨ final.order.length = sweep.order.length + rounds) := by
  induction rounds generalizing sweep with
  | zero => exact ⟨sweep, rfl, h, .inr rfl⟩
  | succ rounds ih =>
      cases hready : sweep.ready.elems with
      | nil => exact ⟨sweep, by simp [Sweep.run, hready], h, .inl hready⟩
      | cons =>
          obtain ⟨next, hvisit, hlength, hnext⟩ := h.visit closed hready
          obtain ⟨final, hrun, hfinal, hend⟩ := ih hnext
          refine ⟨final, by simp [Sweep.run, hready, hvisit, hrun], hfinal, ?_⟩
          refine hend.imp id ?_
          intro hrounds
          omega

theorem start (graph : DependencyGraph) : (Sweep.start graph).Visited graph [] := by
  have hkeys : ∀ task, task ∈ graph.taskIds ↔ ∃ spec, graph.tasks.lookup task = some spec := by
    intro task
    rw [mem_taskIds, OrderedMap.mem_keys]
  -- ready are the tasks without dependencies
  have hready : ∀ task, task ∈ (Sweep.start graph).ready ↔
      task ∈ graph.taskIds ∧ (graph.dependenciesOf task).elems.length = 0 := by
    intro task
    simp only [Sweep.start, OrderedSet.mem_def, mem_map, mem_filter, decide_eq_true_eq]
    constructor
    · rintro ⟨⟨id, degree⟩, ⟨hmem, hzero⟩, rfl⟩
      have hlookup := OrderedMap.lookup_iff_mem.mpr hmem
      rw [OrderedMap.lookup_mapValues, Option.map_eq_some_iff] at hlookup
      obtain ⟨spec, hspec, hdegree⟩ := hlookup
      exact ⟨(hkeys id).mpr ⟨spec, hspec⟩, hdegree.trans hzero⟩
    · rintro ⟨htask, hzero⟩
      obtain ⟨spec, hspec⟩ := (hkeys task).mp htask
      refine ⟨(task, (graph.dependenciesOf task).elems.length), ⟨?_, hzero⟩, rfl⟩
      exact OrderedMap.lookup_iff_mem.mp (by rw [OrderedMap.lookup_mapValues, hspec]; rfl)
  refine
    { order_nodup := nodup_nil
      order_tasks := fun task htask => absurd htask not_mem_nil
      ordered := ?_
      pending_nodup := nodup_nil
      pending_new := fun task htask => absurd htask not_mem_nil
      ready_nodup := ?_
      mem_ready := ?_
      indegree := ?_ }
  · intro earlier task later hsplit
    simp [Sweep.start] at hsplit
  · have hkeys := (graph.tasks.mapValues fun task _ =>
      (graph.dependenciesOf task).elems.length).keys_nodup
    exact (filter_sublist.map Prod.fst).nodup hkeys
  · intro task
    rw [hready task]
    simp [Sweep.start, eq_nil_iff_forall_not_mem, ← OrderedSet.mem_def]
  · intro task htask
    obtain ⟨spec, hspec⟩ := (hkeys task).mp htask
    simp [Sweep.start, hspec]

/-- Once nothing is ready, every task of an acyclic graph has been visited. -/
theorem complete (closed : graph.Closed) (acyclic : Acyclic graph.edges.Has)
    (h : sweep.Visited graph []) (hready : sweep.ready.elems = []) :
    ∀ task ∈ graph.taskIds, task ∈ sweep.order := by
  by_contra hmissing
  simp only [not_forall] at hmissing
  obtain ⟨task, htask, hunvisited⟩ := hmissing
  let missing := graph.taskIds.elems.filter fun other => decide (other ∉ sweep.order)
  have hmem : ∀ other, other ∈ missing ↔ other ∈ graph.taskIds ∧ other ∉ sweep.order := by
    intro other
    simp [missing, OrderedSet.mem_def]
  obtain ⟨first, hfirst, hnone⟩ := acyclic.exists_first
    (ne_nil_of_mem ((hmem task).mpr ⟨htask, hunvisited⟩))
  obtain ⟨hfirstTask, hfirstNew⟩ := (hmem first).mp hfirst
  -- the first missing task waits for nothing, so it would be ready
  have hwould : first ∈ sweep.ready := by
    refine (h.mem_ready first).mpr ⟨hfirstTask, hfirstNew, not_mem_nil, ?_⟩
    intro dependency hedge
    by_contra hdependency
    exact hnone dependency ((hmem dependency).mpr ⟨(closed _ _ hedge).1, hdependency⟩) hedge
  rw [OrderedSet.mem_def, hready] at hwould
  exact not_mem_nil hwould

/-- Edges lead forward in the order, so there is no cycle among visited tasks. -/
protected theorem acyclic (closed : graph.Closed) (h : sweep.Visited graph pending)
    (hall : ∀ task ∈ graph.taskIds, task ∈ sweep.order) : Acyclic graph.edges.Has := by
  apply Acyclic.of_rank fun task => sweep.order.idxOf task
  intro source target hedge
  have htarget := hall target (closed _ _ hedge).2
  obtain ⟨earlier, later, hsplit, hnew⟩ := eq_append_cons_of_mem htarget
  have hsource := h.ordered earlier target later hsplit source hedge
  rw [hsplit, idxOf_append_of_mem hsource, idxOf_append_of_notMem hnew]
  have := idxOf_lt_length_of_mem hsource
  omega

end Sweep.Visited

/-- The search returns an order of all tasks if the edges are acyclic, a cycle otherwise. -/
theorem topologicalOrder_eq (closed : graph.Closed) :
    (Acyclic graph.edges.Has ∧ ∃ order, graph.topologicalOrder = some (.ok order)) ∨
      (¬ Acyclic graph.edges.Has ∧
        ∃ tasks, graph.topologicalOrder = some (.error (.cycle tasks))) := by
  obtain ⟨final, hrun, hfinal, hend⟩ :=
    (Sweep.Visited.start graph).run closed graph.tasks.entries.length
  have hcount : graph.taskIds.elems.length = graph.tasks.entries.length := by
    simp [taskIds, OrderedMap.keys]
  have hsub : final.order ⊆ graph.taskIds.elems := fun task htask => hfinal.order_tasks task htask
  have hsubperm := subperm_of_subset hfinal.order_nodup hsub
  have hall : final.order.length = graph.tasks.entries.length ↔
      ∀ task ∈ graph.taskIds, task ∈ final.order := by
    constructor
    · intro hlength task htask
      have hperm := hsubperm.perm_of_length_le (by omega)
      exact hperm.mem_iff.mpr htask
    · intro hvisited
      have hsubperm' := subperm_of_subset taskIds_nodup hvisited
      have := hsubperm.length_le
      have := hsubperm'.length_le
      omega
  by_cases hlength : final.order.length = graph.tasks.entries.length
  · refine .inl ⟨hfinal.acyclic closed (hall.mp hlength), final.order, ?_⟩
    simp [topologicalOrder, hrun, hlength]
  · refine .inr ⟨?_, _, by simp only [topologicalOrder, hrun, Option.map_some]; rw [if_pos hlength]⟩
    intro hacyclic
    rcases hend with hready | hrounds
    · exact hlength (hall.mpr (hfinal.complete closed hacyclic hready))
    · exact hlength (by simpa [Sweep.start] using hrounds)

end DependencyGraph

namespace TaskGraphBuilder

variable {builder : TaskGraphBuilder}

theorem closed_graph (known : builder.Known) : builder.graph.Closed := by
  intro source target hedge
  rcases has_graph.mp hedge with ⟨task, hlookup, hsource⟩ | ⟨-, left, right, hleft, hright, -⟩
  · exact ⟨known source target ⟨task, hlookup, hsource⟩,
      OrderedMap.mem_keys.mpr ⟨task, hlookup⟩⟩
  · exact ⟨OrderedMap.mem_keys.mpr ⟨left, hleft⟩, OrderedMap.mem_keys.mpr ⟨right, hright⟩⟩

/-- What a graph that `build` returns is: every edge joins two of its tasks, the edges are acyclic,
and they order every two tasks with conflicting accesses. -/
theorem of_build {graph : DependencyGraph} (h : builder.build = some (.ok graph)) :
    graph = builder.graph ∧ graph.Closed ∧ Acyclic graph.edges.Has := by
  rw [build] at h
  cases hunknown : builder.unknownDependency with
  | some => simp [hunknown] at h
  | none =>
      have closed := closed_graph (unknownDependency_eq_none.mp hunknown)
      rcases DependencyGraph.topologicalOrder_eq closed with
        ⟨acyclic, order, horder⟩ | ⟨-, tasks, horder⟩
      · simp only [hunknown, horder, Option.map_some, Option.some.injEq, Except.ok.injEq] at h
        exact ⟨h.symm, h ▸ closed, h ▸ acyclic⟩
      · simp [hunknown, horder] at h

/-- `build` succeeds exactly when the declared dependencies and the conflicts, taken by increasing
identity, are acyclic together; otherwise it reports a cycle. -/
theorem build_isOk_iff (builder : TaskGraphBuilder) (known : builder.Known) :
    ((∃ graph, builder.build = some (.ok graph)) ↔
      Acyclic fun first second =>
        builder.Explicit first second ∨ (first < second ∧ builder.Conflicting first second)) ∧
      ((∃ graph, builder.build = some (.ok graph)) ∨
        ∃ tasks, builder.build = some (.error (.cycle tasks))) := by
  have hunknown := unknownDependency_eq_none.mpr known
  have hedges : builder.graph.edges.Has = fun first second =>
      builder.Explicit first second ∨ (first < second ∧ builder.Conflicting first second) := by
    funext first second
    exact propext has_graph
  rw [← hedges]
  rcases DependencyGraph.topologicalOrder_eq (closed_graph known) with
    ⟨acyclic, order, horder⟩ | ⟨cyclic, tasks, horder⟩
  · have hbuild : builder.build = some (.ok builder.graph) := by
      simp [build, hunknown, horder]
    exact ⟨⟨fun _ => acyclic, fun _ => ⟨_, hbuild⟩⟩, .inl ⟨_, hbuild⟩⟩
  · have hbuild : builder.build = some (.error (.cycle tasks)) := by
      simp [build, hunknown, horder]
    refine ⟨⟨?_, fun acyclic => absurd acyclic cyclic⟩, .inr ⟨_, hbuild⟩⟩
    rintro ⟨graph, hgraph⟩
    rw [hbuild] at hgraph
    simp at hgraph

/-- Two tasks that write one resource, declared in the order of the map. -/
def writers (firstDependsOn secondDependsOn : List TaskId) : TaskGraphBuilder where
  tasks :=
    ⟨[(1, ⟨1, "first", [⟨"positions", .write⟩], firstDependsOn⟩),
      (2, ⟨2, "second", [⟨"positions", .write⟩], secondDependsOn⟩)], by simp⟩
  keyed := by
    intro id task hlookup
    rw [OrderedMap.lookup_iff_mem] at hlookup
    simp only [List.mem_cons, Prod.mk.injEq, List.not_mem_nil, or_false] at hlookup
    rcases hlookup with ⟨rfl, rfl⟩ | ⟨rfl, rfl⟩ <;> rfl

/-- The second task follows the first one anyway. -/
theorem build_writers :
    ((∃ graph, (writers [] [1]).build = some (.ok graph)) ↔
      Acyclic fun first second =>
        (writers [] [1]).Explicit first second ∨
          (first < second ∧ (writers [] [1]).Conflicting first second)) ∧
      ((∃ graph, (writers [] [1]).build = some (.ok graph)) ∨
        ∃ tasks, (writers [] [1]).build = some (.error (.cycle tasks))) :=
  build_isOk_iff (writers [] [1]) (unknownDependency_eq_none.mp (by decide))

/-- The first task waits for the second, and the conflict orders them the other way round. -/
theorem not_build_writers :
    (writers [2] []).Known ∧ Acyclic (writers [2] []).Explicit ∧
      (writers [2] []).build = some (.error (.cycle [1, 2])) := by
  refine ⟨unknownDependency_eq_none.mp (by decide), ?_, rfl⟩
  apply Acyclic.of_rank fun task => 2 - task
  rintro first second ⟨task, hlookup, hfirst⟩
  rw [OrderedMap.lookup_iff_mem] at hlookup
  simp only [writers, List.mem_cons, Prod.mk.injEq, List.not_mem_nil, or_false] at hlookup
  rcases hlookup with ⟨rfl, rfl⟩ | ⟨rfl, rfl⟩
  · obtain rfl : first = 2 := by simpa using hfirst
    decide
  · simp at hfirst

end TaskGraphBuilder

end Jadren.Concurrency
