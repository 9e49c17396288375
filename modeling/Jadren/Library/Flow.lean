import Mathlib.Data.List.Basic

/-!
# Paths through a control-flow graph and dataflow solutions over them

A control-flow graph is a list of blocks; a block is a list of actions followed
by the blocks control may go to.  Two things happen along a path:

* a *path semantics* keeps a state of its own and says how each action changes
  it.  It is what an analysis is about: it may be nondeterministic, and a label
  of a step may say more than the action it executes.  `Run` collects the steps
  of a path from the entry, newest last;
* an *analysis* has an abstract state and a transfer function for each action.

`IsSolution` says that abstract states for the block entries are closed under
the transfer functions.  `IsSolution.covers_next` is the rule the developments
below use: a relation between abstract and path states that each step preserves
holds at the end of every run, whatever is executed next.  The steps may be asked
to meet a condition; then it holds on the runs whose steps all meet it.

`Analysis.path` is the path semantics of the analysis itself, for statements
about "some path" on the side of the abstract state.
-/

namespace Jadren.Flow

open List

/-- A block: its actions in order and the blocks control may continue in. -/
structure Block (α : Type) where
  body : List α
  successors : List ℕ

/-- A control-flow graph; the entry is block `0`. -/
structure Graph (α : Type) where
  blocks : List (Block α)

/-- The action at a position: the `i`-th of block `b`. -/
def Graph.At {α : Type} (G : Graph α) (b i : ℕ) (action : α) : Prop :=
  ∃ block, G.blocks[b]? = some block ∧ block.body[i]? = some action

/-- What a path keeps track of.  A label carries the action it executes. -/
structure PathSemantics (α : Type) where
  State : Type
  Label : Type
  action : Label → α
  step : Label → State → State → Prop

/-- One step of a run: where it happens, the state before it and its label. -/
structure Event {α : Type} (P : PathSemantics α) where
  block : ℕ
  index : ℕ
  before : P.State
  label : P.Label

/-- A run from the entry: the steps taken so far, the position reached (the
index of the next action in its block) and the state there. -/
inductive Run {α : Type} (G : Graph α) (P : PathSemantics α) (start : P.State) :
    List (Event P) → ℕ → ℕ → P.State → Prop
  | start : Run G P start [] 0 0 start
  | step {trace : List (Event P)} {b i : ℕ} {s s' : P.State} {block : Block α} {label : P.Label}
      (run : Run G P start trace b i s) (hblock : G.blocks[b]? = some block)
      (haction : block.body[i]? = some (P.action label)) (hstep : P.step label s s') :
      Run G P start (trace ++ [⟨b, i, s, label⟩]) b (i + 1) s'
  | edge {trace : List (Event P)} {b t : ℕ} {s : P.State} {block : Block α}
      (run : Run G P start trace b block.body.length s) (hblock : G.blocks[b]? = some block)
      (htarget : t ∈ block.successors) :
      Run G P start trace t 0 s

namespace Run

variable {α : Type} {G : Graph α} {P : PathSemantics α} {start : P.State}
  {trace : List (Event P)} {b i : ℕ} {s : P.State}

/-- The index a run has reached in an existing block is at most the block's length. -/
theorem index_le (run : Run G P start trace b i s) {block : Block α}
    (hblock : G.blocks[b]? = some block) : i ≤ block.body.length := by
  cases run with
  | start => exact Nat.zero_le _
  | step run hblock' haction =>
      obtain rfl : block = _ := Option.some.inj (hblock.symm.trans hblock')
      exact (List.getElem?_eq_some_iff.mp haction).1
  | edge => exact Nat.zero_le _

/-- Within a block every earlier action was executed, and only later ones since. -/
theorem executed (run : Run G P start trace b i s) {j : ℕ} (hj : j < i) :
    ∃ earlier event later, trace = earlier ++ event :: later ∧
      event.block = b ∧ event.index = j ∧ Run G P start earlier b j event.before ∧
      G.At b j (P.action event.label) ∧
      ∀ other ∈ later, ∃ k, j < k ∧ k < i ∧ G.At b k (P.action other.label) := by
  induction run with
  | start => omega
  | @step trace b i s s' block label run hblock haction hs ih =>
      rcases Nat.lt_succ_iff_lt_or_eq.mp hj with hlt | rfl
      · obtain ⟨earlier, event, later, rfl, hb, hindex, hrun, hat, hlater⟩ := ih hlt
        refine ⟨earlier, event, later ++ [⟨b, i, s, label⟩], by simp, hb, hindex, hrun, hat, ?_⟩
        intro other hother
        rcases mem_append.mp hother with hold | hnew
        · obtain ⟨k, hjk, hki, hk⟩ := hlater other hold
          exact ⟨k, hjk, by omega, hk⟩
        · obtain rfl : other = ⟨b, i, s, label⟩ := by simpa using hnew
          exact ⟨i, hlt, by omega, block, hblock, haction⟩
      · exact ⟨trace, ⟨b, j, s, label⟩, [], rfl, rfl, rfl, run, ⟨block, hblock, haction⟩, by simp⟩
  | edge => omega

/-- The rule for properties of all runs. -/
theorem invariant {I : List (Event P) → ℕ → ℕ → P.State → Prop} (hstart : I [] 0 0 start)
    (hstep : ∀ {trace b i s s' block label}, Run G P start trace b i s → I trace b i s →
      G.blocks[b]? = some block → block.body[i]? = some (P.action label) → P.step label s s' →
      I (trace ++ [⟨b, i, s, label⟩]) b (i + 1) s')
    (hedge : ∀ {trace b t s block}, Run G P start trace b block.body.length s →
      I trace b block.body.length s → G.blocks[b]? = some block → t ∈ block.successors →
      I trace t 0 s)
    (run : Run G P start trace b i s) : I trace b i s := by
  induction run with
  | start => exact hstart
  | step run hblock haction hs ih => exact hstep run ih hblock haction hs
  | edge run hblock htarget ih => exact hedge run ih hblock htarget

/-- An event of a longer trace is the last one, or one of the shorter trace. -/
theorem append_singleton_cases {last event : Event P} {earlier middle : List (Event P)}
    (h : trace ++ [last] = earlier ++ event :: middle) :
    (middle = [] ∧ event = last) ∨
      ∃ front, middle = front ++ [last] ∧ trace = earlier ++ event :: front := by
  rcases eq_nil_or_concat middle with rfl | ⟨front, other, rfl⟩
  · exact .inl ⟨rfl, by simpa using (append_inj' h rfl).2.symm⟩
  · have hsplit : trace ++ [last] = (earlier ++ event :: front) ++ [other] := by simpa using h
    obtain ⟨hfront, hlast⟩ := append_inj' hsplit rfl
    obtain rfl : last = other := by simpa using hlast
    exact .inr ⟨front, by simp, hfront⟩

/-- Two path semantics in step: a run of one is a run of the other. -/
theorem simulate {Q : PathSemantics α} {start' : Q.State} {R : P.State → Q.State → Prop}
    (hstart : R start start')
    (hstep : ∀ {b i label s s' q}, G.At b i (P.action label) → R s q → P.step label s s' →
      ∃ label' q', Q.action label' = P.action label ∧ Q.step label' q q' ∧ R s' q')
    (run : Run G P start trace b i s) :
    ∃ trace' q, Run G Q start' trace' b i q ∧ R s q := by
  induction run with
  | start => exact ⟨[], start', .start, hstart⟩
  | step run hblock haction hs ih =>
      obtain ⟨trace', q, run', hrel⟩ := ih
      obtain ⟨label', q', hlabel, hs', hrel'⟩ := hstep ⟨_, hblock, haction⟩ hrel hs
      exact ⟨_, q', run'.step hblock (by rw [hlabel]; exact haction) hs', hrel'⟩
  | edge run hblock htarget ih =>
      obtain ⟨trace', q, run', hrel⟩ := ih
      exact ⟨trace', q, run'.edge hblock htarget, hrel⟩

end Run

/-- One way to execute each action, whatever the state. -/
structure Strategy {α : Type} (P : PathSemantics α) where
  label : α → P.Label
  next : α → P.State → P.State
  action_label : ∀ action, P.action (label action) = action
  step : ∀ action s, P.step (label action) s (next action s)

namespace Strategy

variable {α : Type} {G : Graph α} {P : PathSemantics α} {start : P.State}

/-- The state after executing a list of actions. -/
def through (strategy : Strategy P) (actions : List α) (s : P.State) : P.State :=
  actions.foldl (fun current action => strategy.next action current) s

/-- The steps taken when a list of actions is executed from position `i` of block `b`. -/
def events (strategy : Strategy P) (b : ℕ) : ℕ → P.State → List α → List (Event P)
  | _, _, [] => []
  | i, s, action :: rest =>
      ⟨b, i, s, strategy.label action⟩ :: strategy.events b (i + 1) (strategy.next action s) rest

/-- A run may go on by the strategy as far as its block goes. -/
theorem follow (strategy : Strategy P) {block : Block α} {b : ℕ}
    (hblock : G.blocks[b]? = some block) {actions : List α} {trace : List (Event P)} {i : ℕ}
    {s : P.State} (run : Run G P start trace b i s) (hactions : actions <+: block.body.drop i) :
    Run G P start (trace ++ strategy.events b i s actions) b (i + actions.length)
      (strategy.through actions s) := by
  induction actions generalizing trace i s with
  | nil => simpa [events, through] using run
  | cons action rest ih =>
      obtain ⟨tail, htail⟩ := hactions
      have hat : block.body[i]? = some action := by
        have hhead := congrArg head? htail.symm
        simpa [head?_drop] using hhead
      have hrest : rest <+: block.body.drop (i + 1) := by
        refine ⟨tail, ?_⟩
        have hdrop := congrArg (drop 1) htail
        simpa [drop_drop] using hdrop
      have hstep := run.step hblock (by rw [strategy.action_label]; exact hat)
        (strategy.step action s)
      simpa [events, through, Nat.add_assoc, Nat.add_comm 1] using ih hstep hrest

/-- A run may cross a whole block by the strategy. -/
theorem cross (strategy : Strategy P) {block : Block α} {b t : ℕ} {trace : List (Event P)}
    {s : P.State} (run : Run G P start trace b 0 s) (hblock : G.blocks[b]? = some block)
    (htarget : t ∈ block.successors) :
    Run G P start (trace ++ strategy.events b 0 s block.body) t 0
      (strategy.through block.body s) := by
  have hend := strategy.follow hblock run (prefix_refl block.body)
  rw [Nat.zero_add] at hend
  exact hend.edge hblock htarget

end Strategy

/-- A forward analysis: what each action does to the abstract state, the order
in which a larger state covers more, and when an action raises no objection. -/
structure Analysis (α σ : Type) where
  transfer : α → σ → σ
  le : σ → σ → Prop
  quiet : α → σ → Prop

namespace Analysis

variable {α σ : Type}

/-- The abstract state after a list of actions. -/
def through (A : Analysis α σ) (body : List α) (a : σ) : σ :=
  body.foldl (fun current action => A.transfer action current) a

@[simp] theorem through_nil (A : Analysis α σ) (a : σ) : A.through [] a = a := rfl

@[simp] theorem through_cons (A : Analysis α σ) (action : α) (rest : List α) (a : σ) :
    A.through (action :: rest) a = A.through rest (A.transfer action a) := rfl

theorem through_append (A : Analysis α σ) (first second : List α) (a : σ) :
    A.through (first ++ second) a = A.through second (A.through first a) :=
  foldl_append ..

theorem through_take_succ (A : Analysis α σ) {body : List α} {i : ℕ} {action : α}
    (haction : body[i]? = some action) (a : σ) :
    A.through (body.take (i + 1)) a = A.transfer action (A.through (body.take i) a) := by
  rw [take_add_one, haction, through_append]
  rfl

/-- No action of a list raises an objection when the list is run from a state. -/
def Passes (A : Analysis α σ) : List α → σ → Prop
  | [], _ => True
  | action :: rest, a => A.quiet action a ∧ A.Passes rest (A.transfer action a)

theorem passes_append {A : Analysis α σ} {first second : List α} {a : σ} :
    A.Passes (first ++ second) a ↔ A.Passes first a ∧ A.Passes second (A.through first a) := by
  induction first generalizing a with
  | nil => simp [Passes]
  | cons action rest ih => simp [Passes, ih, and_assoc]

theorem Passes.quiet {A : Analysis α σ} {body : List α} {a : σ} (passes : A.Passes body a)
    {i : ℕ} {action : α} (haction : body[i]? = some action) :
    A.quiet action (A.through (body.take i) a) := by
  have hsplit : body = body.take i ++ action :: body.drop (i + 1) := by
    obtain ⟨hi, rfl⟩ := List.getElem?_eq_some_iff.mp haction
    rw [getElem_cons_drop, take_append_drop]
  rw [hsplit] at passes
  exact (passes_append.mp passes).2.1

/-- The path semantics of the analysis: the transfer functions along one path. -/
abbrev path (A : Analysis α σ) : PathSemantics α where
  State := σ
  Label := α
  action := id
  step := fun action a a' => a' = A.transfer action a

end Analysis

/-- Abstract states for the block entries, closed under the analysis. -/
structure IsSolution {α σ : Type} (A : Analysis α σ) (G : Graph α) (entry : σ)
    (inputs : ℕ → Option σ) : Prop where
  entry : ∃ a, inputs 0 = some a ∧ A.le entry a
  edge : ∀ {b block a t}, G.blocks[b]? = some block → inputs b = some a → t ∈ block.successors →
    ∃ a', inputs t = some a' ∧ A.le (A.through block.body a) a'
  quiet : ∀ {b block a i action}, G.blocks[b]? = some block → inputs b = some a →
    block.body[i]? = some action → A.quiet action (A.through (block.body.take i) a)

namespace IsSolution

variable {α σ : Type} {A : Analysis α σ} {G : Graph α} {entry : σ} {inputs : ℕ → Option σ}
  {P : PathSemantics α} {start : P.State}

variable (solution : IsSolution A G entry inputs) (R : σ → P.State → Prop)
  (condition : Event P → Prop) (hmono : ∀ {a a' s}, R a s → A.le a a' → R a' s)
  (hstart : R entry start)
  (hstep : ∀ (event : Event P) {a : σ} {s' : P.State}, R a event.before →
    P.step event.label event.before s' → condition event → A.quiet (P.action event.label) a →
    R (A.transfer (P.action event.label) a) s')
  {trace : List (Event P)} {b i : ℕ} {s : P.State} (run : Run G P start trace b i s)
  (hcondition : ∀ event ∈ trace, condition event)
include solution hmono hstart hstep run hcondition

/-- **Soundness.**  A relation that growing the abstract state keeps and that
every step meeting `condition` preserves relates, along a run whose steps all
meet `condition`, the abstract state at each position to the path's state. -/
theorem covers_end :
    ∃ a, inputs b = some a ∧
      ∀ block, G.blocks[b]? = some block → R (A.through (block.body.take i) a) s := by
  induction run with
  | start =>
      obtain ⟨a, hinput, hle⟩ := solution.entry
      exact ⟨a, hinput, fun block _ => by simpa using hmono hstart hle⟩
  | @step trace b i s s' block label run hblock haction hs ih =>
      obtain ⟨a, hinput, hrel⟩ := ih fun event hevent =>
        hcondition event (mem_append_left _ hevent)
      refine ⟨a, hinput, fun block' hblock' => ?_⟩
      obtain rfl : block = block' := Option.some.inj (hblock.symm.trans hblock')
      rw [A.through_take_succ haction]
      exact hstep ⟨b, i, s, label⟩ (hrel block hblock) hs (hcondition _ (by simp))
        (solution.quiet hblock hinput haction)
  | @edge trace b t s block run hblock htarget ih =>
      obtain ⟨a, hinput, hrel⟩ := ih hcondition
      obtain ⟨a', hinput', hle⟩ := solution.edge hblock hinput htarget
      refine ⟨a', hinput', fun block' _ => ?_⟩
      have hend := hrel block hblock
      rw [take_length] at hend
      simpa using hmono hend hle

/-- The same at the action the run has reached, where the analysis raised no
objection: that action may be executed next in any way. -/
theorem covers_next {action : α} (hat : G.At b i action) :
    ∃ block a, G.blocks[b]? = some block ∧ inputs b = some a ∧
      R (A.through (block.body.take i) a) s ∧ A.quiet action (A.through (block.body.take i) a) := by
  obtain ⟨block, hblock, haction⟩ := hat
  obtain ⟨a, hinput, hrel⟩ :=
    solution.covers_end R condition hmono hstart hstep run hcondition
  exact ⟨block, a, hblock, hinput, hrel block hblock, solution.quiet hblock hinput haction⟩

end IsSolution

end Jadren.Flow
