import Mathlib.Order.WellFoundedSet

/-!
# Acyclic relations

A relation is acyclic when no element is related to itself by a chain.  Two ways
to use and to show it: a nonempty finite collection has an element with no
predecessor in the collection, and a relation that raises a rank is acyclic.
-/

namespace Jadren

/-- No chain of the relation leads from an element back to it. -/
def Acyclic {α : Type} (r : α → α → Prop) : Prop := ∀ a, ¬ Relation.TransGen r a a

namespace Acyclic

variable {α : Type} {r s : α → α → Prop}

/-- Some element of a nonempty finite collection has no predecessor in it. -/
theorem exists_first (h : Acyclic r) {l : List α} (hl : l ≠ []) :
    ∃ a ∈ l, ∀ b ∈ l, ¬ r b a := by
  have horder : IsStrictOrder α (Relation.TransGen r) :=
    { irrefl := h, trans := fun _ _ _ => Relation.TransGen.trans }
  have hwf : {a | a ∈ l}.WellFoundedOn (Relation.TransGen r) :=
    (List.finite_toSet l).wellFoundedOn
  obtain ⟨a, ha⟩ := List.exists_mem_of_ne_nil l hl
  obtain ⟨⟨first, hfirst⟩, -, hmin⟩ := hwf.has_min Set.univ ⟨⟨a, ha⟩, trivial⟩
  refine ⟨first, hfirst, ?_⟩
  intro b hb hstep
  exact hmin ⟨b, hb⟩ trivial (Relation.TransGen.single hstep)

theorem of_rank (rank : α → ℕ) (h : ∀ a b, r a b → rank a < rank b) : Acyclic r := by
  have hchain : ∀ a b, Relation.TransGen r a b → rank a < rank b := by
    intro a b hab
    induction hab with
    | single hstep => exact h _ _ hstep
    | tail _ hstep ih => exact lt_trans ih (h _ _ hstep)
  intro a ha
  exact lt_irrefl _ (hchain a a ha)

end Acyclic

end Jadren
