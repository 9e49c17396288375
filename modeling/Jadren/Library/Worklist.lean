import Jadren.Library.Flow

/-!
# The worklist solver

The loop of a forward dataflow analysis: take the oldest block of the queue,
run its actions from the block's input state, join the result into the input of
each successor, and queue the successors whose input changed.  A `Solver`
threads a report through the same pass over a block (the diagnostics collected
so far), as the analyses do that check while they iterate.

`none` is a run that cannot finish: the fuel is spent, or an index points
outside the block list.

* `isSolution_of_solve`: a finished run whose report is still clean leaves a
  solution in the sense of `Flow.IsSolution`.  The invariant is that a block
  with an input is either queued or settled (`Covered`); joins only move inputs
  up, so a settled block stays settled until its own input changes, and then it
  is queued again.
* `exists_path_of_solve`: conversely, where transfer and join treat facts one by
  one (`Distributive`), every fact of a computed input holds on some path.
-/

namespace Jadren.Flow

open List Option

/-- One pass over an action, with a report, and the join of block inputs. -/
structure Solver (α σ ρ : Type) where
  visit : α → σ × ρ → σ × ρ
  join : σ → σ → σ

/-- The solver's state: block inputs, queued blocks and the report. -/
structure Work (σ ρ : Type) where
  inputs : List (Option σ)
  queue : List ℕ
  report : ρ

namespace Work

variable {σ ρ : Type}

/-- The input a block has received so far. -/
def input (work : Work σ ρ) (b : ℕ) : Option σ := (work.inputs[b]?).getD none

/-- Gives a block a new input and queues it. -/
def renew (work : Work σ ρ) (b : ℕ) (a : σ) : Work σ ρ :=
  { work with inputs := work.inputs.set b (some a), queue := work.queue ++ [b] }

@[simp] theorem renew_report (work : Work σ ρ) (b : ℕ) (a : σ) :
    (work.renew b a).report = work.report := rfl

theorem input_renew_self {work : Work σ ρ} {b : ℕ} {a : σ} (hb : b < work.inputs.length) :
    (work.renew b a).input b = some a := by
  simp [input, renew, hb]

theorem input_renew_ne {work : Work σ ρ} {b c : ℕ} {a : σ} (hne : b ≠ c) :
    (work.renew b a).input c = work.input c := by
  simp [input, renew, getElem?_set_ne hne]

end Work

namespace Solver

variable {α σ ρ : Type} [DecidableEq σ]

/-- Joins a block's result into the input of one successor. -/
def propagate (S : Solver α σ ρ) (out : σ) (work : Work σ ρ) (t : ℕ) : Option (Work σ ρ) :=
  match work.inputs[t]? with
  | none => none
  | some none => some (work.renew t out)
  | some (some old) =>
      if old = S.join old out then some work else some (work.renew t (S.join old out))

/-- The result of running a block's actions. -/
def runBlock (S : Solver α σ ρ) (body : List α) (current : σ × ρ) : σ × ρ :=
  body.foldl (fun c action => S.visit action c) current

/-- Processes one block taken from the queue. -/
def process (S : Solver α σ ρ) (G : Graph α) (work : Work σ ρ) (b : ℕ) : Option (Work σ ρ) :=
  match work.inputs[b]?, G.blocks[b]? with
  | some none, _ => some work
  | some (some a), some block =>
      let result := S.runBlock block.body (a, work.report)
      block.successors.foldlM (S.propagate result.1) { work with report := result.2 }
  | _, _ => none

/-- The worklist loop. -/
def solve (S : Solver α σ ρ) (G : Graph α) : ℕ → Work σ ρ → Option (Work σ ρ)
  | 0, work => if work.queue = [] then some work else none
  | fuel + 1, work =>
      match work.queue with
      | [] => some work
      | b :: rest => (S.process G { work with queue := rest } b).bind (S.solve G fuel)

/-- The loop's start: only the entry block has an input, and it is queued. -/
def initial (G : Graph α) (entry : σ) (report : ρ) : Work σ ρ where
  inputs := (replicate G.blocks.length none).set 0 (some entry)
  queue := [0]
  report := report

variable {G : Graph α} {entry a : σ} {report : ρ} {b : ℕ}

omit [DecidableEq σ] in
theorem input_initial (h : (initial G entry report).input b = some a) : b = 0 ∧ a = entry := by
  by_cases hb : b = 0
  · subst hb
    refine ⟨rfl, ?_⟩
    unfold Work.input initial at h
    rcases hn : G.blocks.length with _ | n
    · simp [hn] at h
    · simp [hn, replicate_succ] at h
      exact h.symm
  · exfalso
    unfold Work.input initial at h
    rw [getElem?_set_ne (Ne.symm hb)] at h
    rcases hget : (replicate G.blocks.length (none : Option σ))[b]? with _ | o
    · simp [hget] at h
    · have : o = none := (mem_replicate.mp (mem_of_getElem? hget)).2
      simp [hget, this] at h

/-! ## One step of the loop -/

variable {S : Solver α σ ρ} {out : σ} {work work' : Work σ ρ} {t : ℕ}

/-- What `propagate` does, once. -/
theorem propagate_cases (h : S.propagate out work t = some work') :
    t < work.inputs.length ∧
      ((work.input t = none ∧ work' = work.renew t out) ∨
        ∃ old, work.input t = some old ∧
          ((old = S.join old out ∧ work' = work) ∨ work' = work.renew t (S.join old out))) := by
  unfold propagate at h
  split at h
  · cases h
  · rename_i hget
    refine ⟨(List.getElem?_eq_some_iff.mp hget).1, Or.inl ⟨by simp [Work.input, hget], ?_⟩⟩
    exact (some.inj h).symm
  · rename_i old hget
    refine ⟨(List.getElem?_eq_some_iff.mp hget).1, Or.inr ⟨old, by simp [Work.input, hget], ?_⟩⟩
    split at h
    · rename_i hsame
      exact .inl ⟨hsame, (some.inj h).symm⟩
    · exact .inr (some.inj h).symm

/-- What `process` does, once. -/
theorem process_cases (h : S.process G work b = some work') :
    (work.input b = none ∧ work' = work) ∨
      ∃ a block, work.input b = some a ∧ G.blocks[b]? = some block ∧
        block.successors.foldlM (S.propagate (S.runBlock block.body (a, work.report)).1)
          { work with report := (S.runBlock block.body (a, work.report)).2 } = some work' := by
  unfold process at h
  split at h
  · rename_i hget
    exact .inl ⟨by simp [Work.input, hget], (some.inj h).symm⟩
  · rename_i a block hget hblock
    exact .inr ⟨a, block, by simp [Work.input, hget], hblock, h⟩
  · cases h

/-- The rule for the loop: what each step preserves holds at the end, where the
queue is empty. -/
theorem solve_invariant {I : Work σ ρ → Prop}
    (hstep : ∀ {work work' b rest}, I work → work.queue = b :: rest →
      S.process G { work with queue := rest } b = some work' → I work') :
    ∀ {fuel : ℕ} {work final : Work σ ρ}, I work → S.solve G fuel work = some final →
      I final ∧ final.queue = [] := by
  intro fuel
  induction fuel with
  | zero =>
      intro work final hI h
      unfold solve at h
      split at h
      · rename_i hqueue
        obtain rfl := some.inj h
        exact ⟨hI, hqueue⟩
      · cases h
  | succ fuel ih =>
      intro work final hI h
      rw [solve] at h
      split at h
      · rename_i hqueue
        obtain rfl := some.inj h
        exact ⟨hI, hqueue⟩
      · rename_i b rest hqueue
        obtain ⟨work', hprocess, hsolve⟩ := Option.bind_eq_some_iff.mp h
        exact ih (hstep hI hqueue hprocess) hsolve

/-- Every input satisfies a property of its block. -/
def InputsSatisfy (Q : ℕ → σ → Prop) (work : Work σ ρ) : Prop :=
  ∀ b a, work.input b = some a → Q b a

variable {Q : ℕ → σ → Prop}

omit [DecidableEq σ] in
theorem InputsSatisfy.renew (h : InputsSatisfy Q work) (ht : t < work.inputs.length) (ha : Q t a) :
    InputsSatisfy Q (work.renew t a) := by
  intro b a' hinput
  by_cases hb : t = b
  · subst hb
    rw [Work.input_renew_self ht] at hinput
    obtain rfl := some.inj hinput
    exact ha
  · rw [Work.input_renew_ne hb] at hinput
    exact h b a' hinput

variable {targets : List ℕ}

theorem propagate_all_inputsSatisfy
    (hjoin : ∀ {t old out}, Q t old → Q t out → Q t (S.join old out))
    (hout : ∀ t ∈ targets, Q t out) (hwork : InputsSatisfy Q work)
    (h : targets.foldlM (S.propagate out) work = some work') : InputsSatisfy Q work' := by
  induction targets generalizing work with
  | nil =>
      obtain rfl : work = work' := by simpa using h
      exact hwork
  | cons t rest ih =>
      rw [foldlM_cons] at h
      obtain ⟨middle, hfirst, hrest⟩ := Option.bind_eq_some_iff.mp h
      have ht := hout t (mem_cons_self ..)
      apply ih (fun t' ht' => hout t' (mem_cons_of_mem t ht')) _ hrest
      obtain ⟨hlt, ⟨-, rfl⟩ | ⟨old, hold, ⟨-, rfl⟩ | rfl⟩⟩ := propagate_cases hfirst
      · exact hwork.renew hlt ht
      · exact hwork
      · exact hwork.renew hlt (hjoin (hwork t old hold) ht)

variable {fuel : ℕ} {final : Work σ ρ}

/-- The rule for block inputs: what passes over blocks carry along the edges and joins keep
holds of every input. -/
theorem input_of_solve (hentry : Q 0 entry)
    (hedge : ∀ {b block a report t}, G.blocks[b]? = some block → Q b a → t ∈ block.successors →
      Q t (S.runBlock block.body (a, report)).1)
    (hjoin : ∀ {t old out}, Q t old → Q t out → Q t (S.join old out))
    (h : S.solve G fuel (initial G entry report) = some final) (hinput : final.input b = some a) :
    Q b a := by
  have hstart : InputsSatisfy Q (initial G entry report) := by
    intro b a hinput
    obtain ⟨rfl, rfl⟩ := input_initial hinput
    exact hentry
  have hstep : ∀ {work work' : Work σ ρ} {b : ℕ} {rest : List ℕ}, InputsSatisfy Q work →
      work.queue = b :: rest → S.process G { work with queue := rest } b = some work' →
      InputsSatisfy Q work' := by
    intro work work' b rest hwork _ hprocess
    obtain ⟨-, rfl⟩ | ⟨a, block, hinput, hblock, htargets⟩ := process_cases hprocess
    · exact hwork
    · refine propagate_all_inputsSatisfy hjoin ?_ ?_ htargets
      · exact fun t ht => hedge hblock (hwork b a hinput) ht
      · exact hwork
  exact (solve_invariant hstep hstart h).1 b a hinput

/-! ## Soundness -/

/-- The solver computes the analysis: its passes apply the transfer function,
joins move up, and a clean report means that no action objected. -/
structure Computes (S : Solver α σ ρ) (A : Analysis α σ) (clean : ρ → Prop) : Prop where
  transfer : ∀ action a report, (S.visit action (a, report)).1 = A.transfer action a
  report : ∀ action a report, clean (S.visit action (a, report)).2 →
    clean report ∧ A.quiet action a
  le_refl : ∀ a, A.le a a
  le_trans : ∀ {a b c}, A.le a b → A.le b c → A.le a c
  le_join_left : ∀ a b, A.le a (S.join a b)
  le_join_right : ∀ a b, A.le b (S.join a b)

variable {S : Solver α σ ρ} {A : Analysis α σ} {clean : ρ → Prop} {G : Graph α}

omit [DecidableEq σ] in
theorem Computes.runBlock_fst (computes : S.Computes A clean) (body : List α) (a : σ)
    (report : ρ) : (S.runBlock body (a, report)).1 = A.through body a := by
  induction body generalizing a report with
  | nil => rfl
  | cons action rest ih =>
      rw [A.through_cons, ← computes.transfer action a report]
      exact ih _ _

omit [DecidableEq σ] in
/-- A block pass that leaves a clean report started with one and met no objection. -/
theorem Computes.runBlock_clean (computes : S.Computes A clean) {body : List α}
    (h : clean (S.runBlock body (a, report)).2) :
    clean report ∧
      ∀ i action, body[i]? = some action → A.quiet action (A.through (body.take i) a) := by
  induction body generalizing a report with
  | nil => exact ⟨h, by simp⟩
  | cons action rest ih =>
      have hrest : clean (S.runBlock rest (A.transfer action a,
          (S.visit action (a, report)).2)).2 := by
        rw [← computes.transfer action a report]
        exact h
      obtain ⟨hvisit, hquiet⟩ := ih hrest
      obtain ⟨hclean, hfirst⟩ := computes.report _ _ _ hvisit
      refine ⟨hclean, fun i next hnext => ?_⟩
      cases i with
      | zero =>
          obtain rfl : action = next := by simpa using hnext
          simpa using hfirst
      | succ i => exact hquiet i next (by simpa using hnext)

/-- `work'` has everything `work` has, and queues the blocks whose input differs. -/
structure Grows (A : Analysis α σ) (work work' : Work σ ρ) : Prop where
  queue : ∀ b ∈ work.queue, b ∈ work'.queue
  report : work'.report = work.report
  input : ∀ {b a}, work.input b = some a → ∃ a', work'.input b = some a' ∧ A.le a a'
  renewed : ∀ {b a}, work'.input b = some a → work.input b = some a ∨ b ∈ work'.queue

omit [DecidableEq σ] in
theorem Grows.refl (computes : S.Computes A clean) (work : Work σ ρ) : Grows A work work :=
  ⟨fun _ h => h, rfl, fun h => ⟨_, h, computes.le_refl _⟩, .inl⟩

omit [DecidableEq σ] in
theorem Grows.trans (computes : S.Computes A clean) {first second third : Work σ ρ}
    (h₁ : Grows A first second) (h₂ : Grows A second third) : Grows A first third where
  queue b hb := h₂.queue b (h₁.queue b hb)
  report := h₂.report.trans h₁.report
  input h := by
    obtain ⟨a', hinput', hle'⟩ := h₁.input h
    obtain ⟨a'', hinput'', hle''⟩ := h₂.input hinput'
    exact ⟨a'', hinput'', computes.le_trans hle' hle''⟩
  renewed h := by
    rcases h₂.renewed h with hsecond | hqueue
    · exact (h₁.renewed hsecond).imp id (h₂.queue _)
    · exact .inr hqueue

omit [DecidableEq σ] in
theorem Grows.renew (ht : t < work.inputs.length)
    (hle : ∀ old, work.input t = some old → A.le old a) (hrefl : ∀ a, A.le a a) :
    Grows A work (work.renew t a) where
  queue b hb := mem_append_left _ hb
  report := rfl
  input {b old} h := by
    by_cases hb : t = b
    · subst hb
      exact ⟨a, Work.input_renew_self ht, hle old h⟩
    · exact ⟨old, by rw [Work.input_renew_ne hb]; exact h, hrefl old⟩
  renewed {b old} h := by
    by_cases hb : t = b
    · subst hb
      exact .inr (mem_append_right _ (by simp))
    · exact .inl (by rwa [Work.input_renew_ne hb] at h)

theorem propagate_grows (computes : S.Computes A clean) (h : S.propagate out work t = some work') :
    Grows A work work' ∧ ∃ a, work'.input t = some a ∧ A.le out a := by
  obtain ⟨ht, ⟨hnone, rfl⟩ | ⟨old, hold, ⟨hsame, rfl⟩ | rfl⟩⟩ := propagate_cases h
  · exact ⟨Grows.renew ht (by simp [hnone]) computes.le_refl,
      out, Work.input_renew_self ht, computes.le_refl out⟩
  · refine ⟨Grows.refl computes _, old, hold, ?_⟩
    have hright := computes.le_join_right old out
    rwa [← hsame] at hright
  · refine ⟨Grows.renew ht (fun old' hold' => ?_) computes.le_refl,
      _, Work.input_renew_self ht, computes.le_join_right old out⟩
    obtain rfl : old = old' := some.inj (hold.symm.trans hold')
    exact computes.le_join_left old out

theorem propagate_all_grows (computes : S.Computes A clean)
    (h : targets.foldlM (S.propagate out) work = some work') :
    Grows A work work' ∧ ∀ t ∈ targets, ∃ a, work'.input t = some a ∧ A.le out a := by
  induction targets generalizing work with
  | nil =>
      obtain rfl : work = work' := by simpa using h
      exact ⟨Grows.refl computes _, by simp⟩
  | cons t rest ih =>
      rw [foldlM_cons] at h
      obtain ⟨middle, hfirst, hrest⟩ := Option.bind_eq_some_iff.mp h
      obtain ⟨hgrows, a, hinput, hle⟩ := propagate_grows computes hfirst
      obtain ⟨hgrows', htargets⟩ := ih hrest
      refine ⟨hgrows.trans computes hgrows', fun t' ht' => ?_⟩
      rcases mem_cons.mp ht' with rfl | hmem
      · obtain ⟨a', hinput', hle'⟩ := hgrows'.input hinput
        exact ⟨a', hinput', computes.le_trans hle hle'⟩
      · exact htargets t' hmem

/-- A block whose current input has been pushed through its actions: the result
is below every successor's input, and no action objected. -/
def Settled (A : Analysis α σ) (G : Graph α) (work : Work σ ρ) (b : ℕ) (a : σ) : Prop :=
  ∀ block, G.blocks[b]? = some block →
    (∀ t ∈ block.successors, ∃ a', work.input t = some a' ∧ A.le (A.through block.body a) a') ∧
      ∀ i action, block.body[i]? = some action →
        A.quiet action (A.through (block.body.take i) a)

omit [DecidableEq σ] in
theorem Settled.mono (computes : S.Computes A clean) (settled : Settled A G work b a)
    (hgrows : ∀ {t a}, work.input t = some a → ∃ a', work'.input t = some a' ∧ A.le a a') :
    Settled A G work' b a := by
  intro block hblock
  obtain ⟨htargets, hquiet⟩ := settled block hblock
  refine ⟨fun t ht => ?_, hquiet⟩
  obtain ⟨a', hinput, hle⟩ := htargets t ht
  obtain ⟨a'', hinput', hle'⟩ := hgrows hinput
  exact ⟨a'', hinput', computes.le_trans hle hle'⟩

/-- The invariant of the loop: every block with an input is queued or settled. -/
structure Covered (A : Analysis α σ) (G : Graph α) (entry : σ) (work : Work σ ρ) : Prop where
  entry : ∃ a, work.input 0 = some a ∧ A.le entry a
  settled : ∀ {b a}, work.input b = some a → b ∈ work.queue ∨ Settled A G work b a

omit [DecidableEq σ] in
theorem covered_initial (computes : S.Computes A clean) (hentry : 0 < G.blocks.length) :
    Covered A G entry (initial G entry report) where
  entry := ⟨entry, by
    simp [Work.input, initial, hentry], computes.le_refl entry⟩
  settled h := .inl (by simp [(input_initial h).1, initial])

theorem process_clean (computes : S.Computes A clean) {rest : List ℕ}
    (h : S.process G { work with queue := rest } b = some work') (hclean : clean work'.report) :
    clean work.report := by
  rcases process_cases h with ⟨-, rfl⟩ | ⟨a, block, -, -, hfold⟩
  · exact hclean
  · rw [(propagate_all_grows computes hfold).1.report] at hclean
    exact (computes.runBlock_clean hclean).1

theorem process_covered (computes : S.Computes A clean) {rest : List ℕ}
    (covered : Covered A G entry work) (hqueue : work.queue = b :: rest)
    (h : S.process G { work with queue := rest } b = some work') (hclean : clean work'.report) :
    Covered A G entry work' := by
  rcases process_cases h with ⟨hnone, rfl⟩ | ⟨a, block, hinput, hblock, hfold⟩
  · refine ⟨covered.entry, fun {c a} hc => ?_⟩
    rcases covered.settled hc with hmem | hsettled
    · rw [hqueue] at hmem
      rcases mem_cons.mp hmem with rfl | hrest
      · exact absurd (hnone.symm.trans hc) (by simp)
      · exact .inl hrest
    · exact .inr hsettled
  · obtain ⟨hgrows, htargets⟩ := propagate_all_grows computes hfold
    have hreport : clean (S.runBlock block.body (a, work.report)).2 := by
      rw [hgrows.report] at hclean
      exact hclean
    obtain ⟨-, hquiet⟩ := computes.runBlock_clean hreport
    refine ⟨?_, fun {c a'} hc => ?_⟩
    · obtain ⟨first, hfirst, hle⟩ := covered.entry
      obtain ⟨first', hfirst', hle'⟩ := hgrows.input hfirst
      exact ⟨first', hfirst', computes.le_trans hle hle'⟩
    · rcases hgrows.renewed hc with hold | hqueued
      · have hold' : work.input c = some a' := hold
        by_cases hcb : c = b
        · subst hcb
          obtain rfl : a = a' := some.inj (Eq.trans (Eq.symm hinput) hold)
          refine .inr fun block' hblock' => ?_
          obtain rfl : block = block' := some.inj (hblock.symm.trans hblock')
          rw [← computes.runBlock_fst block.body a work.report]
          exact ⟨htargets, hquiet⟩
        · rcases covered.settled hold' with hmem | hsettled
          · rw [hqueue] at hmem
            rcases mem_cons.mp hmem with rfl | hrest
            · exact absurd rfl hcb
            · exact .inl (hgrows.queue c hrest)
          · exact .inr (hsettled.mono computes fun ht => hgrows.input ht)
      · exact .inl hqueued

/-- The report of a run only gets worse: clean at the end, it was clean before. -/
theorem solve_clean (computes : S.Computes A clean) :
    ∀ {fuel : ℕ} {work final : Work σ ρ}, S.solve G fuel work = some final →
      clean final.report → clean work.report := by
  intro fuel
  induction fuel with
  | zero =>
      intro work final h hclean
      unfold solve at h
      split at h
      · obtain rfl := some.inj h
        exact hclean
      · cases h
  | succ fuel ih =>
      intro work final h hclean
      rw [solve] at h
      split at h
      · obtain rfl := some.inj h
        exact hclean
      · obtain ⟨work', hprocess, hsolve⟩ := Option.bind_eq_some_iff.mp h
        exact process_clean computes hprocess (ih hsolve hclean)

theorem solve_covered (computes : S.Computes A clean) :
    ∀ {fuel : ℕ} {work final : Work σ ρ}, Covered A G entry work →
      S.solve G fuel work = some final → clean final.report →
      Covered A G entry final ∧ final.queue = [] := by
  intro fuel
  induction fuel with
  | zero =>
      intro work final covered h hclean
      unfold solve at h
      split at h
      · rename_i hqueue
        obtain rfl := some.inj h
        exact ⟨covered, hqueue⟩
      · cases h
  | succ fuel ih =>
      intro work final covered h hclean
      rw [solve] at h
      split at h
      · rename_i hqueue
        obtain rfl := some.inj h
        exact ⟨covered, hqueue⟩
      · rename_i b rest hqueue
        obtain ⟨work', hprocess, hsolve⟩ := Option.bind_eq_some_iff.mp h
        exact ih (process_covered computes covered hqueue hprocess
          (solve_clean computes hsolve hclean)) hsolve hclean

/-- **A finished run with a clean report leaves a solution.** -/
theorem isSolution_of_solve (computes : S.Computes A clean) (hentry : 0 < G.blocks.length)
    (h : S.solve G fuel (initial G entry report) = some final) (hclean : clean final.report) :
    IsSolution A G entry final.input := by
  obtain ⟨covered, hqueue⟩ := solve_covered computes (covered_initial computes hentry) h hclean
  have settled : ∀ {b a}, final.input b = some a → Settled A G final b a := by
    intro b a hinput
    rcases covered.settled hinput with hmem | hsettled
    · simp [hqueue] at hmem
    · exact hsettled
  exact
    { entry := covered.entry
      edge := fun hblock hinput ht => (settled hinput _ hblock).1 _ ht
      quiet := fun hblock hinput haction => (settled hinput _ hblock).2 _ _ haction }

/-! ## Precision -/

/-- Facts are treated one by one: a fact after an action, or in a join, comes
from one fact before, or holds after the action whatever held before. -/
structure Distributive {φ : Type} (S : Solver α σ ρ) (A : Analysis α σ) (holds : φ → σ → Prop) :
    Prop where
  transfer : ∀ {action a x}, holds x (A.transfer action a) →
    (∀ a', holds x (A.transfer action a')) ∨
      ∃ y, holds y a ∧ ∀ a', holds y a' → holds x (A.transfer action a')
  join : ∀ {a b x}, holds x (S.join a b) → holds x a ∨ holds x b

/-- Some path of the analysis reaches a position, with a state there that `p` holds of. -/
def OnSomePath (A : Analysis α σ) (G : Graph α) (entry : σ) (b i : ℕ) (p : σ → Prop) : Prop :=
  ∃ trace a, Run G A.path entry trace b i a ∧ p a

/-- An input is explained by paths: its block is reached, and each of its facts
holds on a path reaching the block. -/
def Explained {φ : Type} (A : Analysis α σ) (G : Graph α) (entry : σ) (holds : φ → σ → Prop)
    (b i : ℕ) (a : σ) : Prop :=
  OnSomePath A G entry b i (fun _ => True) ∧
    ∀ x, holds x a → OnSomePath A G entry b i (holds x)

variable {φ : Type}

omit [DecidableEq σ] in
theorem Explained.through {holds : φ → σ → Prop} (distributive : S.Distributive A holds)
    {block : Block α} (hblock : G.blocks[b]? = some block)
    (explained : Explained A G entry holds b 0 a) :
    ∀ i ≤ block.body.length, Explained A G entry holds b i (A.through (block.body.take i) a) := by
  intro i
  induction i with
  | zero => intro _; simpa using explained
  | succ i ih =>
      intro hi
      obtain ⟨⟨trace, reached, run, -⟩, hfacts⟩ := ih (by omega)
      have haction : block.body[i]? = some block.body[i] := getElem?_eq_getElem (by omega)
      refine ⟨⟨_, _, .step run hblock haction rfl, trivial⟩, fun x hx => ?_⟩
      rw [A.through_take_succ haction] at hx
      rcases distributive.transfer hx with hany | ⟨y, hy, hcarry⟩
      · exact ⟨_, _, .step run hblock haction rfl, hany _⟩
      · obtain ⟨trace', reached', run', hy'⟩ := hfacts y hy
        exact ⟨_, _, .step run' hblock haction rfl, hcarry _ hy'⟩

theorem propagate_explained {holds : φ → σ → Prop} (distributive : S.Distributive A holds)
    (h : S.propagate out work t = some work') (hout : Explained A G entry holds t 0 out)
    (hwork : ∀ {b a}, work.input b = some a → Explained A G entry holds b 0 a) :
    ∀ {b a}, work'.input b = some a → Explained A G entry holds b 0 a := by
  intro b a hinput
  obtain ⟨ht, ⟨-, rfl⟩ | ⟨old, hold, ⟨-, rfl⟩ | rfl⟩⟩ := propagate_cases h
  · by_cases hb : t = b
    · subst hb
      obtain rfl : out = a := by simpa [Work.input_renew_self ht] using hinput
      exact hout
    · exact hwork (by rwa [Work.input_renew_ne hb] at hinput)
  · exact hwork hinput
  · by_cases hb : t = b
    · subst hb
      obtain rfl : S.join old out = a := by simpa [Work.input_renew_self ht] using hinput
      refine ⟨hout.1, fun x hx => ?_⟩
      rcases distributive.join hx with hleft | hright
      · exact (hwork hold).2 x hleft
      · exact hout.2 x hright
    · exact hwork (by rwa [Work.input_renew_ne hb] at hinput)

theorem propagate_all_explained {holds : φ → σ → Prop} (distributive : S.Distributive A holds)
    (h : targets.foldlM (S.propagate out) work = some work')
    (hout : ∀ t ∈ targets, Explained A G entry holds t 0 out)
    (hwork : ∀ b a, work.input b = some a → Explained A G entry holds b 0 a) :
    ∀ b a, work'.input b = some a → Explained A G entry holds b 0 a := by
  induction targets generalizing work with
  | nil =>
      obtain rfl : work = work' := by simpa using h
      exact hwork
  | cons t rest ih =>
      rw [foldlM_cons] at h
      obtain ⟨middle, hfirst, hrest⟩ := Option.bind_eq_some_iff.mp h
      refine ih hrest (fun t' ht' => hout t' (mem_cons_of_mem _ ht')) fun b a => ?_
      exact propagate_explained distributive hfirst (hout t (mem_cons_self ..))
        (fun {b a} => hwork b a)

theorem process_explained {holds : φ → σ → Prop} (computes : S.Computes A clean)
    (distributive : S.Distributive A holds) (h : S.process G work b = some work')
    (hwork : ∀ b a, work.input b = some a → Explained A G entry holds b 0 a) :
    ∀ b a, work'.input b = some a → Explained A G entry holds b 0 a := by
  rcases process_cases h with ⟨-, rfl⟩ | ⟨a, block, hinput, hblock, hfold⟩
  · exact hwork
  · rw [computes.runBlock_fst] at hfold
    have hend := (hwork b a hinput).through distributive hblock block.body.length (Nat.le_refl _)
    rw [take_length] at hend
    refine propagate_all_explained distributive hfold (fun t ht => ?_) hwork
    obtain ⟨⟨trace, reached, run, -⟩, hfacts⟩ := hend
    refine ⟨⟨_, _, .edge run hblock ht, trivial⟩, fun x hx => ?_⟩
    obtain ⟨trace', reached', run', hx'⟩ := hfacts x hx
    exact ⟨_, _, .edge run' hblock ht, hx'⟩

/-- **Every fact of a computed input holds on some path.** -/
theorem explained_of_solve {holds : φ → σ → Prop} (computes : S.Computes A clean)
    (distributive : S.Distributive A holds)
    (h : S.solve G fuel (initial G entry report) = some final) (hinput : final.input b = some a) :
    Explained A G entry holds b 0 a := by
  have hinitial : ∀ b a, (initial G entry report).input b = some a →
      Explained A G entry holds b 0 a := by
    intro b a hb
    obtain ⟨rfl, rfl⟩ := input_initial hb
    exact ⟨⟨[], a, .start, trivial⟩, fun x hx => ⟨[], a, .start, hx⟩⟩
  refine (solve_invariant (I := fun work => ∀ b a, work.input b = some a →
    Explained A G entry holds b 0 a) ?_ hinitial h).1 b a hinput
  intro work work' c rest hI _ hprocess
  exact process_explained computes distributive hprocess hI

end Solver

end Jadren.Flow
