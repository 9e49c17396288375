import Mathlib.Data.List.Basic
import Mathlib.Order.Lattice

/-!
# Stable sorting by a strict weak order

A comparison that is a strict weak order: elements of which neither is less than the other are
equivalent, and equivalence is transitive.  A stable sort of a list is a sorted permutation in which
equivalent elements stand in the order that they had.

A sort can be extended by one element: it goes after the last element that is not above it.
-/

namespace Jadren

open List

variable {α : Type*} {less : α → α → Bool}

/-- Neither of the elements is less than the other. -/
def equivalent (less : α → α → Bool) (a b : α) : Bool := !less a b && !less b a

structure StrictWeakOrder (less : α → α → Bool) : Prop where
  irrefl : ∀ a, less a a = false
  trans : ∀ {a b c}, less a b = true → less b c = true → less a c = true
  equivalent_trans : ∀ {a b c}, equivalent less a b = true → equivalent less b c = true →
    equivalent less a c = true

theorem equivalent_iff {a b : α} :
    equivalent less a b = true ↔ less a b = false ∧ less b a = false := by
  simp [equivalent]

theorem equivalent_flip (less : α → α → Bool) :
    equivalent (fun a b => less b a) = equivalent less := by
  funext a b
  exact Bool.and_comm _ _

namespace StrictWeakOrder

variable {a b c : α}

variable (h : StrictWeakOrder less)
include h

theorem asymm (hab : less a b = true) : less b a = false := by
  rw [← Bool.not_eq_true]
  intro hba
  have haa := h.trans hab hba
  rw [h.irrefl] at haa
  cases haa

/-- A third element is above the one or below the other. -/
theorem split (hac : less a c = true) (b : α) :
    less a b = true ∨ less b c = true := by
  by_contra hneither
  simp only [not_or, Bool.not_eq_true] at hneither
  obtain ⟨hab, hbc⟩ := hneither
  have hba : less b a = false := by
    rw [← Bool.not_eq_true]
    intro hba
    rw [h.trans hba hac] at hbc
    cases hbc
  have hcb : less c b = false := by
    rw [← Bool.not_eq_true]
    intro hcb
    rw [h.trans hac hcb] at hab
    cases hab
  have hequivalent := h.equivalent_trans (equivalent_iff.mpr ⟨hab, hba⟩)
    (equivalent_iff.mpr ⟨hbc, hcb⟩)
  rw [(equivalent_iff.mp hequivalent).1] at hac
  cases hac

theorem not_less_trans (hab : less a b = false) (hbc : less b c = false) :
    less a c = false := by
  rw [← Bool.not_eq_true]
  intro hac
  rcases h.split hac b with hless | hless
  · rw [hab] at hless
    cases hless
  · rw [hbc] at hless
    cases hless

theorem flip : StrictWeakOrder fun a b => less b a where
  irrefl := h.irrefl
  trans hab hbc := h.trans hbc hab
  equivalent_trans := by
    rw [equivalent_flip]
    exact h.equivalent_trans

/-- Elements are compared by what a function gives them. -/
theorem comap {β : Type*} (f : β → α) :
    StrictWeakOrder fun a b => less (f a) (f b) where
  irrefl a := h.irrefl (f a)
  trans := h.trans
  equivalent_trans := h.equivalent_trans

omit h

theorem of_linearOrder (α : Type*) [LinearOrder α] :
    StrictWeakOrder fun a b : α => decide (a < b) where
  irrefl a := decide_eq_false (lt_irrefl a)
  trans hab hbc := by
    simp only [decide_eq_true_eq] at hab hbc ⊢
    exact hab.trans hbc
  equivalent_trans := by
    intro a b c hab hbc
    simp only [equivalent_iff, decide_eq_false_iff_not, not_lt] at hab hbc ⊢
    exact ⟨hbc.1.trans hab.1, hab.2.trans hbc.2⟩

end StrictWeakOrder

/-! ## Stable sorts -/

/-- No element is less than one before it. -/
def Sorted (less : α → α → Bool) (l : List α) : Prop := l.Pairwise fun a b => less b a = false

/-- A sorted permutation in which equivalent elements keep their order. -/
structure StableSort (less : α → α → Bool) (original result : List α) : Prop where
  perm : result.Perm original
  sorted : Sorted less result
  stable : ∀ a, result.filter (equivalent less a) = original.filter (equivalent less a)

theorem StableSort.nil (less : α → α → Bool) : StableSort less [] [] :=
  ⟨.refl _, List.Pairwise.nil, fun _ => rfl⟩

/-- The elements before the last one that is not above `current` are not above it either. -/
theorem Sorted.not_less_of_getLast? (h : StrictWeakOrder less) {before : List α} {current : α}
    (hsorted : Sorted less before) (hlast : ∀ last ∈ before.getLast?, less current last = false)
    {a : α} (ha : a ∈ before) : less current a = false := by
  rcases eq_nil_or_concat before with rfl | ⟨init, last, rfl⟩
  · cases ha
  · rw [concat_eq_append] at ha hsorted hlast
    have hcurrent := hlast last (by simp)
    rcases mem_append.mp ha with ha | ha
    · exact h.not_less_trans hcurrent
        ((pairwise_append.mp hsorted).2.2 a ha last (mem_singleton_self _))
    · rw [mem_singleton.mp ha]
      exact hcurrent

/-- **One more element is put before those that are above it.** -/
theorem StableSort.insert (h : StrictWeakOrder less) {original before above : List α} {current : α}
    (hsort : StableSort less original (before ++ above))
    (hlast : ∀ last ∈ before.getLast?, less current last = false)
    (habove : ∀ a ∈ above, less current a = true) :
    StableSort less (original ++ [current]) (before ++ current :: above) := by
  obtain ⟨hbefore, hafter, hacross⟩ := pairwise_append.mp hsort.sorted
  have hnotAbove : ∀ a ∈ before, less current a = false := fun a ha =>
    Sorted.not_less_of_getLast? h hbefore hlast ha
  refine ⟨?_, ?_, fun a => ?_⟩
  · have hfront : (before ++ current :: above).Perm (current :: original) :=
      perm_middle.trans (hsort.perm.cons current)
    exact hfront.trans (perm_append_singleton current original).symm
  · refine pairwise_append.mpr ⟨hbefore, pairwise_cons.mpr ⟨fun a ha => ?_, hafter⟩, ?_⟩
    · exact h.asymm (habove a ha)
    · intro a ha b hb
      rcases mem_cons.mp hb with rfl | hb
      · exact hnotAbove a ha
      · exact hacross a ha b hb
  · rw [filter_append, filter_append original, ← hsort.stable a, filter_append,
      append_assoc]
    refine congrArg (filter (equivalent less a) before ++ ·) ?_
    by_cases hequivalent : equivalent less a current = true
    · -- an element above `current` is not equivalent to what `current` is equivalent to
      have hnone : above.filter (equivalent less a) = [] := by
        refine filter_eq_nil_iff.mpr fun b hb hab => ?_
        have hba : equivalent less current b = true := by
          refine h.equivalent_trans (equivalent_iff.mpr ?_) hab
          exact (equivalent_iff.mp hequivalent).symm
        exact Bool.false_ne_true ((equivalent_iff.mp hba).1.symm.trans (habove b hb))
      rw [filter_cons_of_pos hequivalent, hnone, nil_append,
        filter_cons_of_pos hequivalent, filter_nil]
    · rw [filter_cons_of_neg hequivalent, filter_cons_of_neg hequivalent, filter_nil,
        append_nil]

end Jadren
