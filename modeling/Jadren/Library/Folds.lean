import Mathlib.Order.Lattice
import Mathlib.Tactic.Common

/-!
# Folds that can fail

`List.foldlM` for options: what it keeps, when two folds are the same, and the fold that looks
for the one entry with a property and fails at a second.  `List.mapM` succeeds if every entry does.
Among the folds that cannot fail, one finds the last entry with a property.
-/

namespace Jadren.Folds

open List

variable {α β γ : Type*} {visit visit' : β → α → Option β} {xs : List α}

/-- Folds that treat the entries of the list alike. -/
theorem foldlM_congr (h : ∀ x ∈ xs, ∀ seen, visit seen x = visit' seen x) (seen : β) :
    xs.foldlM visit seen = xs.foldlM visit' seen := by
  induction xs generalizing seen with
  | nil => rfl
  | cons x xs ih =>
      rw [foldlM_cons, foldlM_cons, h x mem_cons_self seen]
      congr 1
      funext seen'
      exact ih (fun y hy => h y (mem_cons_of_mem x hy)) seen'

/-- What a fold keeps. -/
theorem foldlM_invariant (I : β → Prop) {seen seen' : β} (h : xs.foldlM visit seen = some seen')
    (hI : I seen)
    (hvisit : ∀ x ∈ xs, ∀ seen seen', I seen → visit seen x = some seen' → I seen') : I seen' := by
  induction xs generalizing seen with
  | nil =>
      obtain rfl : seen = seen' := Option.some.inj h
      exact hI
  | cons x xs ih =>
      rw [foldlM_cons] at h
      obtain ⟨seen₁, hseen₁, hrest⟩ := Option.bind_eq_some_iff.mp h
      exact ih hrest (hvisit x mem_cons_self _ _ hI hseen₁)
        fun y hy => hvisit y (mem_cons_of_mem x hy)

/-- The results of a function on all entries, if there is one for each. -/
theorem mapM_eq_some_iff {f : α → Option γ} {ys : List γ} :
    xs.mapM f = some ys ↔ xs.map f = ys.map some := by
  induction xs generalizing ys with
  | nil => cases ys <;> simp
  | cons x rest ih =>
      rw [mapM_cons]
      cases ys with
      | nil =>
          cases f x with
          | none => simp
          | some => cases mapM f rest <;> simp
      | cons =>
          cases hx : f x with
          | none => simp [hx]
          | some =>
              simp only [Option.bind_eq_bind, Option.bind_some, map_cons, hx, cons.injEq,
                Option.some.injEq]
              rw [← ih]
              cases mapM f rest <;> simp

/-! ## The one entry with a property -/

/-- An entry with the property is read, and is an error if there has been one. -/
def once (p : α → Bool) (read : α → Option γ) (found : Option γ) (x : α) : Option (Option γ) :=
  if p x then if found.isSome then none else (read x).map some else some found

/-- What the entries with the property come to. -/
def theOne (read : α → Option γ) : List α → Option (Option γ)
  | [] => some none
  | [x] => (read x).map some
  | _ => none

/-- After an entry with the property there must not be another. -/
theorem foldlM_once_some (p : α → Bool) (read : α → Option γ) (c : γ) (xs : List α) :
    xs.foldlM (once p read) (some c) = if xs.filter p = [] then some (some c) else none := by
  induction xs with
  | nil => rfl
  | cons x xs ih =>
      rw [foldlM_cons]
      by_cases hx : p x = true
      · rw [filter_cons_of_pos hx]
        simp [once, hx]
      · rw [filter_cons_of_neg hx, ← ih]
        simp [once, hx]

theorem foldlM_once (p : α → Bool) (read : α → Option γ) (xs : List α) :
    xs.foldlM (once p read) none = theOne read (xs.filter p) := by
  induction xs with
  | nil => rfl
  | cons x xs ih =>
      rw [foldlM_cons]
      by_cases hx : p x = true
      · rw [filter_cons_of_pos hx]
        cases hread : read x with
        | none =>
            cases hrest : xs.filter p <;> simp [once, hx, hread, theOne]
        | some c =>
            have hafter := foldlM_once_some p read c xs
            cases hrest : xs.filter p with
            | nil | cons => simp [once, hx, hread, theOne, hafter, hrest]
      · rw [filter_cons_of_neg hx, ← ih]
        simp [once, hx]

/-- The greatest entry of a sorted list with a property, or what was found before it. -/
theorem foldl_last {α : Type*} [LinearOrder α] (p : α → Prop) [DecidablePred p] {l : List α}
    (hsorted : l.Pairwise (· < ·)) (last : Option α) :
    ((∀ x ∈ l, ¬ p x) ∧ l.foldl (fun last x => if p x then some x else last) last = last) ∨
      ∃ c ∈ l, p c ∧ (∀ x ∈ l, p x → x ≤ c) ∧
        l.foldl (fun last x => if p x then some x else last) last = some c := by
  induction l generalizing last with
  | nil => exact .inl ⟨fun _ h => absurd h not_mem_nil, rfl⟩
  | cons x l ih =>
      obtain ⟨hbelow, hsorted⟩ := pairwise_cons.mp hsorted
      rw [foldl_cons]
      by_cases hx : p x
      · rw [if_pos hx]
        rcases ih hsorted (some x) with ⟨hnone, hfold⟩ | ⟨c, hmem, hc, hmax, hfold⟩
        · refine .inr ⟨x, mem_cons_self, hx, forall_mem_cons.mpr ⟨fun _ => le_rfl, ?_⟩,
            hfold⟩
          exact fun y hy hpy => absurd hpy (hnone y hy)
        · exact .inr ⟨c, mem_cons_of_mem x hmem, hc,
            forall_mem_cons.mpr ⟨fun _ => (hbelow c hmem).le, hmax⟩, hfold⟩
      · rw [if_neg hx]
        rcases ih hsorted last with ⟨hnone, hfold⟩ | ⟨c, hmem, hc, hmax, hfold⟩
        · exact .inl ⟨forall_mem_cons.mpr ⟨hx, hnone⟩, hfold⟩
        · exact .inr ⟨c, mem_cons_of_mem x hmem, hc,
            forall_mem_cons.mpr ⟨fun h => absurd h hx, hmax⟩, hfold⟩

end Jadren.Folds
