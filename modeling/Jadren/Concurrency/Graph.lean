import Jadren.Library.OrderedMap
import Jadren.Library.OrderedSet
import Jadren.Library.Text

/-!
# Task graphs

Tasks declare the resources they access and the tasks they depend on.
`TaskGraphBuilder.build` turns a set of declarations into a graph: an edge for
every explicit dependency, and for every two tasks with conflicting accesses an
edge from the one with the smaller identity to the other.  The graph is accepted
when `topologicalOrder` finds an order of all its tasks.

A result of type `Option` is `none` where the source panics: `release` expects
the target of an edge to be a known task with a positive indegree.
-/

namespace Jadren.Concurrency

open Text (isWhitespace)
open List

/-- Stable task identity. -/
abbrev TaskId := ℕ

/-- Access mode used to derive data-conflict edges. -/
inductive AccessMode
  | read
  | write
  | atomic
  deriving DecidableEq, Repr

/-- Whether two accesses require a dependency edge. -/
def AccessMode.conflicts : AccessMode → AccessMode → Bool
  | .read, .read => false
  | _, _ => true

structure ResourceAccess where
  resource : String
  mode : AccessMode
  deriving DecidableEq, Repr

structure TaskSpec where
  id : TaskId
  label : String
  accesses : List ResourceAccess
  /-- Tasks that must complete before this task becomes ready. -/
  dependsOn : List TaskId
  deriving DecidableEq, Repr

/-- Why one graph edge exists. -/
inductive DependencyKind
  | dataConflict
  | explicit
  deriving DecidableEq, Repr, Ord

/-- Errors found before a scheduler may consume a graph. -/
inductive GraphError
  | duplicateTask (task : TaskId)
  | emptyLabel (task : TaskId)
  | emptyResource (task : TaskId)
  | duplicateAccess (task : TaskId) (resource : String)
  | unknownDependency (task dependency : TaskId)
  | cycle (tasks : List TaskId)
  deriving DecidableEq, Repr

/-! ## Edges -/

/-- Edges by source and target, with the reasons for each. -/
abbrev Edges := OrderedMap TaskId (OrderedMap TaskId (OrderedSet DependencyKind))

namespace Edges

def add (edges : Edges) (source target : TaskId) (kind : DependencyKind) : Edges :=
  edges.update source fun targets =>
    (targets.getD ∅).update target fun kinds => (kinds.getD ∅).insert kind

/-- There is an edge between two tasks. -/
def Has (edges : Edges) (source target : TaskId) : Prop :=
  ∃ targets, edges.lookup source = some targets ∧ target ∈ targets.keys

@[simp] theorem not_has_empty (source target : TaskId) : ¬ Edges.Has ∅ source target := by
  simp [Has]

@[simp] theorem has_add {edges : Edges} {source target first second : TaskId}
    {kind : DependencyKind} :
    (edges.add source target kind).Has first second ↔
      (first = source ∧ second = target) ∨ edges.Has first second := by
  by_cases hfrom : first = source
  · subst hfrom
    cases hlookup : edges.lookup first with
    | none | some =>
        by_cases hto : second = target <;>
          simp [Has, add, OrderedMap.lookup_update, hlookup, hto]
  · simp [Has, add, OrderedMap.lookup_update, hfrom]

/-- Edges added one by one for the elements of a list that call for one. -/
theorem has_foldl {α : Type} {edge : α → TaskId × TaskId} {wanted : α → Bool}
    {kind : DependencyKind} {l : List α} {edges : Edges} {source target : TaskId} :
    (l.foldl (fun current a =>
        if wanted a then current.add (edge a).1 (edge a).2 kind else current) edges).Has
        source target ↔
      (∃ a ∈ l, wanted a = true ∧ edge a = (source, target)) ∨ edges.Has source target := by
  induction l generalizing edges with
  | nil => simp
  | cons a rest ih =>
      rw [foldl_cons, ih]
      by_cases hwanted : wanted a = true
      · simp only [hwanted, if_true, has_add, exists_mem_cons_iff, true_and, Prod.ext_iff]
        constructor
        · rintro (h | ⟨h₁, h₂⟩ | h)
          · exact .inl (.inr h)
          · exact .inl (.inl ⟨h₁.symm, h₂.symm⟩)
          · exact .inr h
        · rintro ((⟨h₁, h₂⟩ | h) | h)
          · exact .inr (.inl ⟨h₁.symm, h₂.symm⟩)
          · exact .inl h
          · exact .inr (.inr h)
      · simp [hwanted]

end Edges

/-! ## Graphs -/

/-- A dependency graph. -/
structure DependencyGraph where
  tasks : OrderedMap TaskId TaskSpec
  edges : Edges

namespace DependencyGraph

def taskIds (graph : DependencyGraph) : OrderedSet TaskId := ⟨graph.tasks.keys⟩

/-- The tasks that directly precede a task. -/
def dependenciesOf (graph : DependencyGraph) (task : TaskId) : OrderedSet TaskId :=
  ⟨(graph.edges.entries.filter fun entry => entry.2.contains task).map Prod.fst⟩

/-- The tasks that directly follow a task. -/
def dependentsOf (graph : DependencyGraph) (task : TaskId) : OrderedSet TaskId :=
  ⟨((graph.edges.lookup task).map OrderedMap.keys).getD []⟩

/-- The tasks ready after the supplied completed set. -/
def readyTasks (graph : DependencyGraph) (completed : OrderedSet TaskId) : OrderedSet TaskId :=
  graph.taskIds.retain fun task =>
    !decide (task ∈ completed) &&
      (graph.dependenciesOf task).elems.all fun dependency => decide (dependency ∈ completed)

/-- What the search for a topological order has found so far. -/
structure Sweep where
  indegree : OrderedMap TaskId ℕ
  ready : OrderedSet TaskId
  order : List TaskId

/-- One dependent of a visited task has one dependency less to wait for. -/
def Sweep.release (sweep : Sweep) (dependent : TaskId) : Option Sweep :=
  match sweep.indegree.lookup dependent with
  | none => none
  | some 0 => none
  | some (degree + 1) =>
      some
        { sweep with
          indegree := sweep.indegree.insert dependent degree
          ready := if degree = 0 then sweep.ready.insert dependent else sweep.ready }

/-- Takes the first ready task: it is next in the order and its dependents are released. -/
def Sweep.visit (graph : DependencyGraph) (sweep : Sweep) (task : TaskId) (rest : List TaskId) :
    Option Sweep :=
  (graph.dependentsOf task).elems.foldlM Sweep.release
    { sweep with ready := ⟨rest⟩, order := sweep.order ++ [task] }

/-- Visits ready tasks while there are any; the first argument bounds the rounds. -/
def Sweep.run (graph : DependencyGraph) : ℕ → Sweep → Option Sweep
  | 0, sweep => some sweep
  | rounds + 1, sweep =>
      match sweep.ready.elems with
      | [] => some sweep
      | task :: rest => (sweep.visit graph task rest).bind (Sweep.run graph rounds)

def Sweep.start (graph : DependencyGraph) : Sweep :=
  let indegree := graph.tasks.mapValues fun task _ => (graph.dependenciesOf task).elems.length
  { indegree := indegree
    ready := ⟨(indegree.entries.filter fun entry => entry.2 = 0).map Prod.fst⟩
    order := [] }

/-- A deterministic topological order or a cycle diagnostic.  A round visits a task that was not
visited before, so as many rounds as tasks are enough. -/
def topologicalOrder (graph : DependencyGraph) : Option (Except GraphError (List TaskId)) :=
  (Sweep.run graph graph.tasks.entries.length (Sweep.start graph)).map fun sweep =>
    if sweep.order.length ≠ graph.tasks.entries.length then
      .error (.cycle ((sweep.indegree.entries.filter fun entry => entry.2 ≠ 0).map Prod.fst))
    else .ok sweep.order

/-! ### What the queries return -/

variable {graph : DependencyGraph} {task other : TaskId}

@[simp] theorem mem_dependenciesOf :
    other ∈ graph.dependenciesOf task ↔ graph.edges.Has other task := by
  simp only [dependenciesOf, OrderedSet.mem_def, Edges.Has, mem_map, mem_filter,
    OrderedMap.contains_iff]
  constructor
  · rintro ⟨⟨source, targets⟩, ⟨hmem, htask⟩, rfl⟩
    exact ⟨targets, OrderedMap.lookup_iff_mem.mpr hmem, htask⟩
  · rintro ⟨targets, hlookup, htask⟩
    exact ⟨(other, targets), ⟨OrderedMap.lookup_iff_mem.mp hlookup, htask⟩, rfl⟩

@[simp] theorem mem_dependentsOf :
    other ∈ graph.dependentsOf task ↔ graph.edges.Has task other := by
  cases hlookup : graph.edges.lookup task <;>
    simp [dependentsOf, OrderedSet.mem_def, Edges.Has, hlookup]

@[simp] theorem mem_taskIds : task ∈ graph.taskIds ↔ task ∈ graph.tasks.keys := Iff.rfl

theorem mem_readyTasks {completed : OrderedSet TaskId} :
    task ∈ graph.readyTasks completed ↔
      task ∈ graph.taskIds ∧ task ∉ completed ∧
        ∀ dependency, graph.edges.Has dependency task → dependency ∈ completed := by
  simp only [readyTasks, OrderedSet.mem_retain, Bool.and_eq_true, Bool.not_eq_true',
    decide_eq_false_iff_not, all_eq_true, decide_eq_true_eq, ← OrderedSet.mem_def,
    mem_dependenciesOf]

theorem dependenciesOf_nodup : (graph.dependenciesOf task).elems.Nodup := by
  have hsub : Sublist (graph.dependenciesOf task).elems graph.edges.keys :=
    filter_sublist.map Prod.fst
  exact hsub.nodup graph.edges.keys_nodup

theorem dependentsOf_nodup : (graph.dependentsOf task).elems.Nodup := by
  cases hlookup : graph.edges.lookup task with
  | none => simp [dependentsOf, hlookup]
  | some targets => simpa [dependentsOf, hlookup] using targets.keys_nodup

theorem taskIds_nodup : graph.taskIds.elems.Nodup := graph.tasks.keys_nodup

end DependencyGraph

/-! ## Building a graph -/

/-- Nothing is left of the text once it is trimmed. -/
def isBlank (text : String) : Bool := text.toList.all isWhitespace

/-- Whether two lists of accesses touch one resource in conflicting modes. -/
def accessesConflict (left right : List ResourceAccess) : Bool :=
  left.any fun leftAccess =>
    right.any fun rightAccess =>
      leftAccess.resource = rightAccess.resource && leftAccess.mode.conflicts rightAccess.mode

/-- The declarations collected so far, each under its own identity. -/
structure TaskGraphBuilder where
  tasks : OrderedMap TaskId TaskSpec
  keyed : ∀ id task, tasks.lookup id = some task → task.id = id

namespace TaskGraphBuilder

def empty : TaskGraphBuilder := ⟨∅, by simp⟩

/-- The first access that names no resource, or one that an earlier access names. -/
def checkAccesses (task : TaskId) : List String → List ResourceAccess → Except GraphError Unit
  | _, [] => .ok ()
  | resources, access :: rest =>
      if isBlank access.resource then .error (.emptyResource task)
      else if access.resource ∈ resources then .error (.duplicateAccess task access.resource)
      else checkAccesses task (access.resource :: resources) rest

/-- Adds one validated task declaration. -/
def addTask (builder : TaskGraphBuilder) (task : TaskSpec) : Except GraphError TaskGraphBuilder :=
  if isBlank task.label then .error (.emptyLabel task.id)
  else if builder.tasks.contains task.id then .error (.duplicateTask task.id)
  else
    match checkAccesses task.id [] task.accesses with
    | .error error => .error error
    | .ok () =>
        .ok
          { tasks := builder.tasks.insert task.id task
            keyed := by
              intro id other hlookup
              rw [OrderedMap.insert, OrderedMap.lookup_update] at hlookup
              split at hlookup
              · cases hlookup
                symm
                assumption
              · exact builder.keyed id other hlookup }

/-- The first declared dependency on a task that does not exist. -/
def unknownDependency (builder : TaskGraphBuilder) : Option GraphError :=
  builder.tasks.values.findSome? fun task =>
    (task.dependsOn.find? fun dependency => !builder.tasks.contains dependency).map
      (GraphError.unknownDependency task.id)

/-- An edge for every explicit dependency. -/
def explicitEdges (builder : TaskGraphBuilder) : Edges :=
  builder.tasks.values.foldl
    (fun edges task =>
      task.dependsOn.foldl (fun current dependency => current.add dependency task.id .explicit)
        edges)
    ∅

/-- An edge from a task to every later task of the list that conflicts with it. -/
def conflictEdges : List TaskSpec → Edges → Edges
  | [], edges => edges
  | left :: later, edges =>
      conflictEdges later
        (later.foldl
          (fun current right =>
            if accessesConflict left.accesses right.accesses then
              current.add left.id right.id .dataConflict
            else current)
          edges)

/-- The graph of the declarations, before it is checked for cycles. -/
def graph (builder : TaskGraphBuilder) : DependencyGraph :=
  { tasks := builder.tasks
    edges := conflictEdges builder.tasks.values builder.explicitEdges }

/-- Validates explicit dependencies, derives conflict edges and detects cycles. -/
def build (builder : TaskGraphBuilder) : Option (Except GraphError DependencyGraph) :=
  match builder.unknownDependency with
  | some error => some (.error error)
  | none =>
      builder.graph.topologicalOrder.map fun
        | .error error => .error error
        | .ok _ => .ok builder.graph

/-! ### The edges of the graph -/

variable {builder : TaskGraphBuilder} {first second : TaskId}

/-- The second task declares that it depends on the first. -/
def Explicit (builder : TaskGraphBuilder) (first second : TaskId) : Prop :=
  ∃ task, builder.tasks.lookup second = some task ∧ first ∈ task.dependsOn

/-- The two tasks access one resource in conflicting modes. -/
def Conflicting (builder : TaskGraphBuilder) (first second : TaskId) : Prop :=
  ∃ left right, builder.tasks.lookup first = some left ∧ builder.tasks.lookup second = some right ∧
    accessesConflict left.accesses right.accesses = true

/-- Every declared dependency is a task. -/
def Known (builder : TaskGraphBuilder) : Prop :=
  ∀ first second, builder.Explicit first second → first ∈ builder.tasks.keys

theorem mem_values {task : TaskSpec} :
    task ∈ builder.tasks.values ↔ builder.tasks.lookup task.id = some task := by
  rw [OrderedMap.values, mem_map]
  constructor
  · rintro ⟨⟨id, found⟩, hmem, rfl⟩
    have hlookup := OrderedMap.lookup_iff_mem.mpr hmem
    rw [builder.keyed id found hlookup]
    exact hlookup
  · intro hlookup
    exact ⟨(task.id, task), OrderedMap.lookup_iff_mem.mp hlookup, rfl⟩

theorem unknownDependency_eq_none : builder.unknownDependency = none ↔ builder.Known := by
  simp only [unknownDependency, findSome?_eq_none_iff, Option.map_eq_none_iff,
    find?_eq_none, Bool.not_eq_true', Bool.not_eq_false, OrderedMap.contains_iff]
  constructor
  · rintro h first second ⟨task, hlookup, hfirst⟩
    have hid := builder.keyed second task hlookup
    exact h task (mem_values.mpr (by rw [hid]; exact hlookup)) first hfirst
  · intro h task htask dependency hdependency
    exact h dependency task.id ⟨task, mem_values.mp htask, hdependency⟩

theorem has_explicitEdges : builder.explicitEdges.Has first second ↔
    builder.Explicit first second := by
  have hfold : ∀ (l : List TaskSpec) (edges : Edges),
      (l.foldl (fun edges task =>
        task.dependsOn.foldl (fun current dependency => current.add dependency task.id .explicit)
          edges) edges).Has first second ↔
        (∃ task ∈ l, task.id = second ∧ first ∈ task.dependsOn) ∨ edges.Has first second := by
    intro l
    induction l with
    | nil => simp
    | cons task rest ih =>
        intro edges
        have htask := @Edges.has_foldl TaskId (fun dependency => (dependency, task.id))
          (fun _ => true) .explicit task.dependsOn edges first second
        simp only [if_true] at htask
        rw [foldl_cons, ih, htask]
        simp only [Prod.mk.injEq, true_and, exists_mem_cons_iff]
        constructor
        · rintro (h | ⟨dependency, hmem, rfl, rfl⟩ | h)
          · exact .inl (.inr h)
          · exact .inl (.inl ⟨rfl, hmem⟩)
          · exact .inr h
        · rintro ((⟨hid, hmem⟩ | h) | h)
          · exact .inr (.inl ⟨first, hmem, rfl, hid⟩)
          · exact .inl h
          · exact .inr (.inr h)
  rw [explicitEdges, hfold]
  simp only [Edges.not_has_empty, or_false]
  constructor
  · rintro ⟨task, hmem, rfl, hfirst⟩
    exact ⟨task, mem_values.mp hmem, hfirst⟩
  · rintro ⟨task, hlookup, hfirst⟩
    have hid := builder.keyed second task hlookup
    exact ⟨task, mem_values.mpr (by rw [hid]; exact hlookup), hid, hfirst⟩

/-- The conflict edges follow the order of the list. -/
theorem has_conflictEdges {tasks : List TaskSpec} (sorted : tasks.Pairwise fun a b => a.id < b.id)
    {edges : Edges} :
    (conflictEdges tasks edges).Has first second ↔
      (first < second ∧ ∃ left ∈ tasks, ∃ right ∈ tasks, left.id = first ∧ right.id = second ∧
        accessesConflict left.accesses right.accesses = true) ∨ edges.Has first second := by
  induction tasks generalizing edges with
  | nil => simp [conflictEdges]
  | cons left later ih =>
      rw [pairwise_cons] at sorted
      obtain ⟨hhead, hlater⟩ := sorted
      have hleft := @Edges.has_foldl TaskSpec (fun right => (left.id, right.id))
        (fun right => accessesConflict left.accesses right.accesses) .dataConflict later edges
        first second
      rw [conflictEdges, ih hlater, hleft]
      simp only [Prod.mk.injEq]
      constructor
      · rintro (⟨hlt, a, ha, b, hb, h⟩ | ⟨right, hright, hconflict, rfl, rfl⟩ | h)
        · exact .inl ⟨hlt, a, mem_cons_of_mem _ ha, b, mem_cons_of_mem _ hb, h⟩
        · exact .inl ⟨hhead right hright, left, mem_cons_self, right,
            mem_cons_of_mem _ hright, rfl, rfl, hconflict⟩
        · exact .inr h
      · rintro (⟨hlt, a, ha, b, hb, rfl, rfl, hconflict⟩ | h)
        · rcases mem_cons.mp hb with rfl | hlaterb
          · -- nothing of the list comes before its head
            rcases mem_cons.mp ha with rfl | hlatera
            · exact absurd hlt (lt_irrefl _)
            · exact absurd hlt (lt_asymm (hhead a hlatera))
          · rcases mem_cons.mp ha with rfl | hlatera
            · exact .inr (.inl ⟨b, hlaterb, hconflict, rfl, rfl⟩)
            · exact .inl ⟨hlt, a, hlatera, b, hlaterb, rfl, rfl, hconflict⟩
        · exact .inr (.inr h)

theorem values_sorted : builder.tasks.values.Pairwise fun a b => a.id < b.id := by
  rw [OrderedMap.values, pairwise_map]
  refine builder.tasks.sorted.imp_of_mem ?_
  rintro ⟨id, task⟩ ⟨id', task'⟩ hmem hmem' hlt
  rw [builder.keyed id task (OrderedMap.lookup_iff_mem.mpr hmem),
    builder.keyed id' task' (OrderedMap.lookup_iff_mem.mpr hmem')]
  exact hlt

/-- An edge is an explicit dependency, or joins two conflicting tasks by increasing identity. -/
theorem has_graph :
    builder.graph.edges.Has first second ↔
      builder.Explicit first second ∨ (first < second ∧ builder.Conflicting first second) := by
  rw [graph, has_conflictEdges values_sorted, has_explicitEdges, or_comm]
  refine or_congr Iff.rfl (and_congr Iff.rfl ?_)
  constructor
  · rintro ⟨left, hleft, right, hright, rfl, rfl, hconflict⟩
    exact ⟨left, right, mem_values.mp hleft, mem_values.mp hright, hconflict⟩
  · rintro ⟨left, right, hleft, hright, hconflict⟩
    have hfirst := builder.keyed _ _ hleft
    have hsecond := builder.keyed _ _ hright
    exact ⟨left, mem_values.mpr (by rw [hfirst]; exact hleft), right,
      mem_values.mpr (by rw [hsecond]; exact hright), hfirst, hsecond, hconflict⟩

end TaskGraphBuilder

end Jadren.Concurrency
