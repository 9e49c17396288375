import Jadren.Library.Loop
import Mathlib.Algebra.Order.BigOperators.Group.List
import Mathlib.Data.Fintype.Card

/-!
# Climbing to a least solution

A loop that applies an operator until nothing changes.  If the operator is monotone, the
start is below its image and a rank bounds how far one can climb, the loop ends, and where
it ends is the least point above the start that the operator does not lead out of.

The order is a parameter; for lists of finite sets it is `Below`, entry by entry, and the
rank is the number of all members.
-/

namespace Jadren.Fixpoint

variable {α : Type*} [DecidableEq α]

/-- One round: stop where nothing changes. -/
def round (F : α → α) (x : α) : α ⊕ α := if F x = x then .inr x else .inl (F x)

/-- What makes the rounds of `F` climb from `a` to an end. -/
structure Climbs (F : α → α) (le : α → α → Prop) (rank : α → ℕ) (bound : ℕ) (a : α) : Prop where
  refl : ∀ x, le x x
  trans : ∀ {x y z}, le x y → le y z → le x z
  mono : ∀ {x y}, le x y → le (F x) (F y)
  start : le a (F a)
  rank_lt : ∀ {x y}, le x y → x ≠ y → rank x < rank y
  rank_le : ∀ {x}, le a x → rank x ≤ bound

variable {F : α → α} {le : α → α → Prop} {rank : α → ℕ} {bound fuel : ℕ} {a x y : α}

theorem round_eq_inl (h : round F x = .inl y) : F x ≠ x ∧ y = F x := by
  unfold round at h
  split at h
  next => cases h
  next hne => exact ⟨hne, (Sum.inl.inj h).symm⟩

theorem round_eq_inr (h : round F x = .inr y) : F y = y := by
  unfold round at h
  split at h
  next heq =>
    obtain rfl := Sum.inr.inj h
    exact heq
  next => cases h

namespace Climbs

theorem exists_run (h : Climbs F le rank bound a) (hax : le a x) (hx : le x (F x))
    (hfuel : bound - rank x < fuel) : ∃ y, Loop.run (round F) fuel x = some y := by
  induction fuel generalizing x with
  | zero => exact absurd hfuel (Nat.not_lt_zero _)
  | succ fuel ih =>
      unfold Loop.run
      cases hround : round F x with
      | inr y => exact ⟨y, rfl⟩
      | inl =>
          obtain ⟨hne, rfl⟩ := round_eq_inl hround
          have hup := h.rank_lt hx hne.symm
          have hle := h.rank_le (h.trans hax hx)
          exact ih (h.trans hax hx) (h.mono hx) (by omega)

/-- The loop ends in the least point that the operator does not lead out of. -/
theorem run_least (h : Climbs F le rank bound a) (hfuel : bound < fuel) :
    ∃ y, Loop.run (round F) fuel a = some y ∧ F y = y ∧ le a y ∧
      ∀ z, le a z → le (F z) z → le y z := by
  obtain ⟨y, hrun⟩ := h.exists_run (h.refl a) h.start (by omega : bound - rank a < fuel)
  have hends := Loop.Ends.of_run hrun
  obtain ⟨x, hinvariant, hlast⟩ := hends.invariant
    (I := fun x => le a x ∧ ∀ z, le a z → le (F z) z → le x z) ⟨h.refl a, fun _ haz _ => haz⟩
    fun x x' hx hround => by
      obtain ⟨-, rfl⟩ := round_eq_inl hround
      refine ⟨h.trans h.start (h.mono hx.1), fun z haz hz => ?_⟩
      exact h.trans (h.mono (hx.2 z haz hz)) hz
  have hxy : x = y := by
    unfold round at hlast
    split at hlast
    next => exact Sum.inr.inj hlast
    next => cases hlast
  subst hxy
  exact ⟨x, hrun, round_eq_inr hlast, hinvariant⟩

end Climbs

/-! ## Lists of finite sets -/

variable {β : Type*}

/-- Every set is a part of the set at its place. -/
abbrev Below (xs ys : List (Finset β)) : Prop := List.Forall₂ (· ⊆ ·) xs ys

/-- The number of all members. -/
def size (xs : List (Finset β)) : ℕ := (xs.map Finset.card).sum

variable {xs ys zs : List (Finset β)}

theorem below_refl (xs : List (Finset β)) : Below xs xs :=
  List.forall₂_same.mpr fun _ _ => Finset.Subset.refl _

theorem Below.trans (h : Below xs ys) (h' : Below ys zs) : Below xs zs := by
  induction h generalizing zs with
  | nil => exact h'
  | cons hsubset _ ih =>
      cases h' with
      | cons hsubset' rest' => exact .cons (hsubset.trans hsubset') (ih rest')

theorem below_map_iff {γ : Type*} {f g : γ → Finset β} {cs : List γ} :
    Below (cs.map f) (cs.map g) ↔ ∀ c ∈ cs, f c ⊆ g c := by
  unfold Below
  rw [List.forall₂_map_left_iff, List.forall₂_map_right_iff, List.forall₂_same]

theorem Below.size_le (h : Below xs ys) : size xs ≤ size ys := by
  induction h with
  | nil => exact Nat.le_refl _
  | cons hsubset _ ih => exact Nat.add_le_add (Finset.card_le_card hsubset) ih

theorem Below.size_lt (h : Below xs ys) (hne : xs ≠ ys) : size xs < size ys := by
  induction h with
  | nil => exact absurd rfl hne
  | @cons x y xs ys hsubset rest ih =>
      by_cases hhead : x = y
      · subst hhead
        exact Nat.add_lt_add_left (ih fun h => hne (congrArg _ h)) _
      · have hcard := Finset.card_lt_card (hsubset.ssubset_of_ne hhead)
        exact Nat.add_lt_add_of_lt_of_le hcard (Below.size_le rest)

theorem size_le_of_length [Fintype β] {n : ℕ} (h : xs.length = n) :
    size xs ≤ n * Fintype.card β := by
  subst h
  induction xs with
  | nil => exact Nat.zero_le _
  | cons x xs ih =>
      have hcard := Finset.card_le_univ x
      rw [List.length_cons, Nat.succ_mul, Nat.add_comm]
      exact Nat.add_le_add hcard ih

end Jadren.Fixpoint
