import Jadren.Library.Worklist
import Mathlib.Algebra.GroupWithZero.Nat
import Mathlib.Algebra.Order.BigOperators.Group.List
import Mathlib.Data.Prod.Lex

/-!
# Exact reports of a worklist run

`exists_solve`: on a graph whose edges lead to blocks the loop ends.  Giving a
block its first input uses up one of finitely many blocks without input, and a
join that changes an input lowers the input's rank (`Decreases`, for the states that
passes and joins keep valid); between two such changes the queue gets shorter.

Where transfer and join treat facts one by one, what is reported is justified on
paths (`report_of_solve`), although the loop reports while its inputs are still
growing: whatever an early input holds, some path establishes.  In the other
direction a solution covers every path (`quiet_on_path`), so a fact of a path is
known where an action objects to it.
-/

namespace Jadren.Flow

/-- What the actions of a graph contribute. -/
def Graph.collect {α β : Type} (G : Graph α) (f : α → List β) : List β :=
  G.blocks.flatMap fun block => block.body.flatMap f

theorem Graph.mem_collect {α β : Type} {G : Graph α} {f : α → List β} {block : Block α}
    {action : α} {x : β} (hblock : block ∈ G.blocks) (haction : action ∈ block.body)
    (hx : x ∈ f action) : x ∈ G.collect f :=
  List.mem_flatMap.mpr ⟨block, hblock, List.mem_flatMap.mpr ⟨action, haction, hx⟩⟩

/-! ## The loop ends -/

theorem sum_map_set_lt {β : Type} {weight : β → ℕ} {l : List β} {t : ℕ} {old new : β}
    (hold : l[t]? = some old) (hlt : weight new < weight old) :
    ((l.set t new).map weight).sum < (l.map weight).sum := by
  induction l generalizing t with
  | nil => cases hold
  | cons first rest ih =>
      cases t with
      | zero =>
          obtain rfl : first = old := by simpa using hold
          simpa using hlt
      | succ t =>
          have hrest := ih (t := t) (by simpa using hold)
          simpa using hrest

/-- Replacing an element by one of the same weight keeps the sum. -/
theorem sum_map_set_eq {β : Type} {weight : β → ℕ} {l : List β} {t : ℕ} {old new : β}
    (hold : l[t]? = some old) (heq : weight new = weight old) :
    ((l.set t new).map weight).sum = (l.map weight).sum := by
  induction l generalizing t with
  | nil => cases hold
  | cons first rest ih =>
      cases t with
      | zero =>
          obtain rfl : first = old := by simpa using hold
          simpa using heq
      | succ t =>
          have hrest := ih (t := t) (by simpa using hold)
          simpa using hrest

namespace Work

variable {σ ρ : Type}

/-- The blocks without an input, then the height of the inputs: both can only go down. -/
def potential (rank : σ → ℕ) (work : Work σ ρ) : ℕ ×ₗ ℕ :=
  toLex ((work.inputs.map fun input => if input.isNone then 1 else 0).sum,
    (work.inputs.map fun input => input.elim 0 rank).sum)

theorem potential_renew_lt {rank : σ → ℕ} {work : Work σ ρ} {t : ℕ} {a : σ}
    (h : work.inputs[t]? = some none ∨
      ∃ old, work.inputs[t]? = some (some old) ∧ rank a < rank old) :
    (work.renew t a).potential rank < work.potential rank := by
  rw [potential, potential, Prod.Lex.toLex_lt_toLex]
  obtain hnone | ⟨old, hold, hlt⟩ := h
  · exact .inl (sum_map_set_lt hnone (by simp))
  · exact .inr ⟨sum_map_set_eq hold rfl, sum_map_set_lt hold hlt⟩

end Work

namespace Solver

variable {α σ ρ : Type} [DecidableEq σ] {S : Solver α σ ρ} {A : Analysis α σ} {G : Graph α}

/-- Every block has a place for its input, the queue holds blocks, and the inputs are valid. -/
structure Ready (G : Graph α) (Valid : σ → Prop) (work : Work σ ρ) : Prop where
  inputs : work.inputs.length = G.blocks.length
  queue : ∀ b ∈ work.queue, b < G.blocks.length
  valid : InputsSatisfy (fun _ => Valid) work

/-- Actions and joins keep states valid, and a join that changes a valid input lowers its rank. -/
structure Decreases (S : Solver α σ ρ) (G : Graph α) (Valid : σ → Prop) (rank : σ → ℕ) : Prop where
  visit : ∀ block ∈ G.blocks, ∀ action ∈ block.body, ∀ {a report}, Valid a →
    Valid (S.visit action (a, report)).1
  join : ∀ {old out}, Valid old → Valid out → Valid (S.join old out)
  rank : ∀ {old out}, Valid old → Valid out → S.join old out ≠ old →
    rank (S.join old out) < rank old

variable {rank : σ → ℕ} {Valid : σ → Prop} {work : Work σ ρ}

omit [DecidableEq σ] in
theorem ready_initial {entry : σ} {report : ρ} (hblocks : 0 < G.blocks.length)
    (hentry : Valid entry) : Ready G Valid (initial G entry report) where
  inputs := by simp [initial]
  queue b hb := by
    obtain rfl : b = 0 := by simpa [initial] using hb
    exact hblocks
  valid b a h := by
    obtain ⟨-, rfl⟩ := input_initial h
    exact hentry

omit [DecidableEq σ] in
theorem Ready.renew (ready : Ready G Valid work) {t : ℕ} {a : σ} (ht : t < G.blocks.length)
    (ha : Valid a) : Ready G Valid (work.renew t a) where
  inputs := by simpa [Work.renew] using ready.inputs
  queue b hb := by
    obtain hold | hnew := List.mem_append.mp hb
    · exact ready.queue b hold
    · rwa [List.mem_singleton.mp hnew]
  valid := ready.valid.renew (ready.inputs ▸ ht) ha

variable (decreases : Decreases S G Valid rank)
include decreases

omit [DecidableEq σ] in
theorem Decreases.runBlock {block : Block α} (hblock : block ∈ G.blocks) {a : σ} {report : ρ}
    (ha : Valid a) : Valid (S.runBlock block.body (a, report)).1 := by
  suffices hbody : ∀ body : List α, (∀ action ∈ body, action ∈ block.body) →
      ∀ current : σ × ρ, Valid current.1 → Valid (S.runBlock body current).1 from
    hbody block.body (fun _ h => h) (a, report) ha
  intro body hbody
  induction body with
  | nil => exact fun _ hcurrent => hcurrent
  | cons action rest ih =>
      intro current hcurrent
      apply ih fun other h => hbody other (List.mem_cons_of_mem action h)
      exact decreases.visit block hblock action (hbody action (List.mem_cons_self ..)) hcurrent

/-- One propagation: nothing changes, or the potential goes down. -/
theorem exists_propagate {out : σ} (hout : Valid out)
    (ready : Ready G Valid work) {t : ℕ} (ht : t < G.blocks.length) :
    ∃ work', S.propagate out work t = some work' ∧ Ready G Valid work' ∧
      (work' = work ∨ work'.potential rank < work.potential rank) := by
  have hget := List.getElem?_eq_getElem (show t < work.inputs.length by rw [ready.inputs]; exact ht)
  unfold propagate
  cases hinput : work.inputs[t]? with
  | none => rw [hinput] at hget; cases hget
  | some input =>
      cases input with
      | none => exact ⟨_, rfl, ready.renew ht hout, .inr (Work.potential_renew_lt (.inl hinput))⟩
      | some old =>
          have hold : Valid old := ready.valid t old (by simp [Work.input, hinput])
          by_cases hsame : old = S.join old out
          · exact ⟨work, by simp [← hsame], ready, .inl rfl⟩
          · refine ⟨_, by simp [hsame], ready.renew ht (decreases.join hold hout), .inr ?_⟩
            exact Work.potential_renew_lt
              (.inr ⟨old, hinput, decreases.rank hold hout (Ne.symm hsame)⟩)

theorem exists_propagate_all {out : σ} (hout : Valid out)
    {targets : List ℕ} (htargets : ∀ t ∈ targets, t < G.blocks.length)
    (ready : Ready G Valid work) :
    ∃ work', targets.foldlM (S.propagate out) work = some work' ∧ Ready G Valid work' ∧
      (work' = work ∨ work'.potential rank < work.potential rank) := by
  induction targets generalizing work with
  | nil => exact ⟨work, rfl, ready, .inl rfl⟩
  | cons t rest ih =>
      obtain ⟨middle, hfirst, hready, hmiddle⟩ :=
        exists_propagate decreases hout ready (htargets t (List.mem_cons_self ..))
      obtain ⟨work', hrest, hready', hwork'⟩ :=
        ih (fun t' ht' => htargets t' (List.mem_cons_of_mem _ ht')) hready
      refine ⟨work', by rw [List.foldlM_cons, hfirst]; exact hrest, hready', ?_⟩
      obtain rfl | hlt := hwork'
      · exact hmiddle
      · obtain rfl | hlt' := hmiddle
        · exact .inr hlt
        · exact .inr (hlt.trans hlt')

/-- Processing the first block of the queue: the potential goes down, or only the
queue gets shorter. -/
theorem exists_process
    (hclosed : ∀ block ∈ G.blocks, ∀ t ∈ block.successors, t < G.blocks.length)
    (ready : Ready G Valid work) {b : ℕ} {rest : List ℕ} (hqueue : work.queue = b :: rest) :
    ∃ work', S.process G { work with queue := rest } b = some work' ∧ Ready G Valid work' ∧
      toLex (work'.potential rank, work'.queue.length) <
        toLex (work.potential rank, work.queue.length) := by
  have hb : b < G.blocks.length := ready.queue b (by simp [hqueue])
  have hrest : ∀ report : ρ, Ready G Valid { work with queue := rest, report := report } :=
    fun _ => ⟨ready.inputs, fun c hc => ready.queue c (by simp [hqueue, hc]), ready.valid⟩
  have hshorter : rest.length < work.queue.length := by simp [hqueue]
  have hlength : b < work.inputs.length := ready.inputs ▸ hb
  have hinput := List.getElem?_eq_getElem hlength
  unfold process
  simp only [List.getElem?_eq_getElem hb]
  generalize work.inputs[b] = input at hinput
  rw [hinput]
  cases input with
  | none =>
      refine ⟨_, rfl, hrest work.report, ?_⟩
      exact Prod.Lex.toLex_lt_toLex.mpr (.inr ⟨rfl, hshorter⟩)
  | some a =>
      have ha : Valid a := ready.valid b a (by simp [Work.input, hinput])
      obtain ⟨work', hfold, ready', rfl | hlt⟩ := exists_propagate_all decreases
        (decreases.runBlock (List.getElem_mem hb) ha)
        (hclosed G.blocks[b] (List.getElem_mem hb))
        (hrest (S.runBlock G.blocks[b].body (a, work.report)).2)
      · exact ⟨_, hfold, ready', Prod.Lex.toLex_lt_toLex.mpr (.inr ⟨rfl, hshorter⟩)⟩
      · exact ⟨work', hfold, ready', Prod.Lex.toLex_lt_toLex.mpr (.inl hlt)⟩

/-- **The loop ends** on a graph whose edges lead to blocks, when a join that changes
an input lowers its rank. -/
theorem exists_solve
    (hclosed : ∀ block ∈ G.blocks, ∀ t ∈ block.successors, t < G.blocks.length)
    (ready : Ready G Valid work) :
    ∃ enough final, ∀ fuel ≥ enough, S.solve G fuel work = some final := by
  induction hmeasure : toLex (work.potential rank, work.queue.length)
    using WellFoundedLT.induction generalizing work with
  | ind measure ih =>
      cases hqueue : work.queue with
      | nil =>
          refine ⟨0, work, fun fuel _ => ?_⟩
          cases fuel <;> simp [solve, hqueue]
      | cons =>
          obtain ⟨work', hprocess, ready', hsmaller⟩ :=
            exists_process decreases hclosed ready hqueue
          obtain ⟨enough, final, hfinal⟩ := ih _ (hmeasure ▸ hsmaller) ready' rfl
          refine ⟨enough + 1, final, fun fuel hfuel => ?_⟩
          obtain ⟨fuel, rfl⟩ := Nat.exists_eq_add_of_le' (Nat.one_le_of_lt hfuel)
          rw [solve, hqueue]
          simp only [hprocess, Option.bind_some]
          exact hfinal fuel (by omega)

omit decreases

/-! ## Reports -/

omit [DecidableEq σ] in
/-- A pass over a block preserves what each of its visits preserves. -/
theorem Computes.runBlock_report {clean V : ρ → Prop} (computes : S.Computes A clean) {a : σ}
    {body : List α} (hvisit : ∀ {i action report}, body[i]? = some action → V report →
      V (S.visit action (A.through (body.take i) a, report)).2)
    {report : ρ} (h : V report) : V (S.runBlock body (a, report)).2 := by
  induction body generalizing a report with
  | nil => exact h
  | cons action rest ih =>
      have hfirst : V (S.visit action (a, report)).2 := hvisit (i := 0) rfl h
      have hrest := ih (a := A.transfer action a)
        (fun {i _ _} hat hV => hvisit (i := i + 1) hat hV) hfirst
      rw [← computes.transfer action a report] at hrest
      exact hrest

theorem propagate_all_report {out : σ} {targets : List ℕ} {work' : Work σ ρ}
    (h : targets.foldlM (S.propagate out) work = some work') : work'.report = work.report := by
  induction targets generalizing work with
  | nil =>
      obtain rfl : work = work' := by simpa using h
      rfl
  | cons t rest ih =>
      rw [List.foldlM_cons] at h
      obtain ⟨middle, hfirst, hrest⟩ := Option.bind_eq_some_iff.mp h
      rw [ih hrest]
      obtain ⟨-, ⟨-, rfl⟩ | ⟨old, -, ⟨-, rfl⟩ | rfl⟩⟩ := propagate_cases hfirst
      · rfl
      · rfl
      · rfl

/-- **What is reported is justified on paths.**  A property of the report holds at
the end of the run if a visit preserves it whenever each fact of the visited state
holds on some path to the place. -/
theorem report_of_solve {φ : Type} {holds : φ → σ → Prop} {clean V : ρ → Prop}
    (computes : S.Computes A clean) (distributive : S.Distributive A holds) {entry : σ}
    (hvisit : ∀ {b i action a report}, G.At b i action →
      (∀ x, holds x a → OnSomePath A G entry b i (holds x)) → V report →
      V (S.visit action (a, report)).2)
    {report : ρ} {fuel : ℕ} {final : Work σ ρ}
    (h : S.solve G fuel (initial G entry report) = some final) (hstart : V report) :
    V final.report := by
  have hinitial : ∀ b a, (initial G entry report).input b = some a →
      Explained A G entry holds b 0 a := by
    intro b a hb
    obtain ⟨rfl, rfl⟩ := input_initial hb
    exact ⟨⟨[], a, .start, trivial⟩, fun x hx => ⟨[], a, .start, hx⟩⟩
  refine (solve_invariant (I := fun work => (∀ b a, work.input b = some a →
    Explained A G entry holds b 0 a) ∧ V work.report) ?_ ⟨hinitial, hstart⟩ h).1.2
  rintro work work' c rest ⟨hexplained, hV⟩ - hprocess
  refine ⟨process_explained computes distributive hprocess hexplained, ?_⟩
  obtain ⟨-, rfl⟩ | ⟨a, block, hinput, hblock, hfold⟩ := process_cases hprocess
  · exact hV
  · rw [propagate_all_report hfold]
    apply computes.runBlock_report _ hV
    intro i action report haction hreport
    have hi : i ≤ block.body.length := (List.getElem?_eq_some_iff.mp haction).1.le
    have hpath := ((hexplained c a hinput).through distributive hblock i hi).2
    exact hvisit ⟨block, hblock, haction⟩ hpath hreport

end Solver

namespace IsSolution

variable {α σ ρ : Type} {S : Solver α σ ρ} {A : Analysis α σ} {G : Graph α} {entry : σ}
  {inputs : ℕ → Option σ}

/-- A solution knows every fact that holds on some path, where no action objects. -/
theorem quiet_on_path {φ : Type} {holds : φ → σ → Prop} (solution : IsSolution A G entry inputs)
    (distributive : S.Distributive A holds)
    (hle : ∀ {a a' x}, A.le a a' → holds x a → holds x a') {b i : ℕ} {x : φ}
    (hpath : Solver.OnSomePath A G entry b i (holds x)) {action : α} (hat : G.At b i action) :
    ∃ a, holds x a ∧ A.quiet action a := by
  obtain ⟨trace, s, run, hx⟩ := hpath
  let Covers : σ → A.path.State → Prop := fun a s => ∀ x, holds x s → holds x a
  have hmono : ∀ {a a' : σ} {s : A.path.State}, Covers a s → A.le a a' → Covers a' s :=
    fun hcovers hless x hs => hle hless (hcovers x hs)
  have hstep : ∀ (event : Event A.path) {a : σ} {s' : A.path.State}, Covers a event.before →
      A.path.step event.label event.before s' → True → A.quiet (A.path.action event.label) a →
      Covers (A.transfer (A.path.action event.label) a) s' := by
    rintro event a s' hcovers rfl - - x hs
    obtain hany | ⟨y, hy, hcarry⟩ := distributive.transfer hs
    · exact hany a
    · exact hcarry a (hcovers y hy)
  obtain ⟨block, a, -, -, hcovers, hquiet⟩ := solution.covers_next Covers (fun _ => True) hmono
    (fun _ hs => hs) hstep run (fun _ _ => trivial) hat
  exact ⟨_, hcovers x hx, hquiet⟩

end IsSolution

end Jadren.Flow
