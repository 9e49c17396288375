import Mathlib.Algebra.Order.Ring.Nat
import Mathlib.Data.List.Basic

/-!
# Loops

A loop is given by its step: from a state it goes on in another state, or it ends with a result.
`run` makes at most as many rounds as its fuel says; `Ends` says what the loop comes to.  If a
measure goes down in every round, `run` with more fuel than the measure comes to the end, and
`Ends` is what developments reason about.
-/

namespace Jadren.Loop

variable {σ τ β γ : Type*}

def run (step : σ → σ ⊕ β) : ℕ → σ → Option β
  | 0, _ => none
  | fuel + 1, s =>
    match step s with
    | .inl s' => run step fuel s'
    | .inr b => some b

/-- From the state the loop ends with the result. -/
inductive Ends (step : σ → σ ⊕ β) : σ → β → Prop
  | done {s : σ} {b : β} (h : step s = .inr b) : Ends step s b
  | next {s s' : σ} {b : β} (h : step s = .inl s') (rest : Ends step s' b) : Ends step s b

variable {step : σ → σ ⊕ β} {s : σ} {b b' : β}

theorem Ends.of_run {fuel : ℕ} (h : run step fuel s = some b) : Ends step s b := by
  induction fuel generalizing s with
  | zero => exact absurd h (by simp [run])
  | succ fuel ih =>
      unfold run at h
      cases hstep : step s with
      | inl =>
          rw [hstep] at h
          exact .next hstep (ih h)
      | inr result =>
          rw [hstep] at h
          obtain rfl : result = b := Option.some.inj h
          exact .done hstep

theorem Ends.unique (h : Ends step s b) (h' : Ends step s b') : b = b' := by
  induction h with
  | done hstep =>
      cases h' with
      | done hstep' => exact Sum.inr.inj (hstep.symm.trans hstep')
      | next hstep' => exact absurd (hstep.symm.trans hstep') (by simp)
  | next hstep _ ih =>
      cases h' with
      | done hstep' => exact absurd (hstep.symm.trans hstep') (by simp)
      | next hstep' rest =>
          obtain rfl := Sum.inl.inj (hstep.symm.trans hstep')
          exact ih rest

/-- A loop whose measure goes down in every round ends. -/
theorem exists_run (μ : σ → ℕ) (hdown : ∀ s s', step s = .inl s' → μ s' < μ s) {fuel : ℕ}
    (hfuel : μ s < fuel) : ∃ b, run step fuel s = some b := by
  induction fuel generalizing s with
  | zero => exact absurd hfuel (Nat.not_lt_zero _)
  | succ fuel ih =>
      unfold run
      cases hstep : step s with
      | inr b => exact ⟨b, rfl⟩
      | inl s' =>
          have hlt := hdown s s' hstep
          exact ih (by omega)

/-- Enough fuel comes to the end of the loop. -/
theorem run_spec (s : σ) (μ : σ → ℕ) (hdown : ∀ s s', step s = .inl s' → μ s' < μ s) {fuel : ℕ}
    (hfuel : μ s < fuel) : ∃ b, run step fuel s = some b ∧ ∀ b', Ends step s b' ↔ b = b' := by
  obtain ⟨b, hrun⟩ := exists_run μ hdown hfuel
  have hends : Ends step s b := .of_run hrun
  refine ⟨b, hrun, fun b' => ⟨hends.unique, ?_⟩⟩
  rintro rfl
  exact hends

/-- What holds at the start and is kept by every round holds where the loop ends. -/
theorem Ends.invariant {I : σ → Prop} (h : Ends step s b) (hI : I s)
    (hstep : ∀ s s', I s → step s = .inl s' → I s') : ∃ s', I s' ∧ step s' = .inr b := by
  induction h with
  | done hdone => exact ⟨_, hI, hdone⟩
  | next hnext _ ih => exact ih (hstep _ _ hI hnext)

end Jadren.Loop
