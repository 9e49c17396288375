import Mathlib.Data.List.Lex
import Mathlib.Order.Lattice

/-!
# Linear extensions

A linear extension of a relation on a finite collection lists every element once, after all elements
that are related to it.  A list that is greedy takes the least element that may come next at each
place; a greedy linear extension is the least of all in the lexicographic order.
-/

namespace Jadren

open List

variable {α : Type} {r : α → α → Prop} {elems order : List α}

/-- The list has every element once, after its predecessors. -/
structure LinearExtension (r : α → α → Prop) (elems order : List α) : Prop where
  perm : order.Perm elems
  ordered : ∀ earlier a later, order = earlier ++ a :: later → ∀ b, r b a → b ∈ earlier

/-- Each element of the list is the least that has not been listed while its predecessors have. -/
def Greedy [LE α] (r : α → α → Prop) (elems order : List α) : Prop :=
  ∀ earlier a later, order = earlier ++ a :: later → ∀ b ∈ elems, b ∉ earlier →
    (∀ c, r c b → c ∈ earlier) → a ≤ b

/-- Where a list that is extended by one element is split. -/
theorem append_singleton_eq {earlier later : List α} {a added : α}
    (h : order ++ [added] = earlier ++ a :: later) :
    (∃ rest, order = earlier ++ a :: rest) ∨ (earlier = order ∧ a = added) := by
  rcases eq_nil_or_concat later with rfl | ⟨init, last, rfl⟩
  · obtain ⟨horder, hadded⟩ := append_inj' h rfl
    exact .inr ⟨horder.symm, (cons.inj hadded).1.symm⟩
  · have hsplit : order ++ [added] = (earlier ++ a :: init) ++ [last] := by
      rw [h, concat_eq_append, append_assoc, cons_append]
    exact .inl ⟨init, (append_inj' hsplit rfl).1⟩

/-- The first place where two linear extensions differ decides, and there the greedy one is less. -/
private theorem le_of_append [LinearOrder α] (hgreedy : Greedy r elems order)
    (hnodup : elems.Nodup) {other : List α} (hother : LinearExtension r elems other)
    {earlier rest rest' : List α} (horder : order = earlier ++ rest)
    (hsame : other = earlier ++ rest') (hlength : rest.length = rest'.length) : rest ≤ rest' := by
  induction rest generalizing earlier rest' with
  | nil =>
      obtain rfl := length_eq_zero_iff.mp hlength.symm
      exact le_rfl
  | cons a rest ih =>
      cases rest' with
      | nil => cases hlength
      | cons b rest' =>
          by_cases heq : a = b
          · subst heq
            have horder' : order = (earlier ++ [a]) ++ rest := by
              rw [horder, append_assoc]
              rfl
            have hsame' : other = (earlier ++ [a]) ++ rest' := by
              rw [hsame, append_assoc]
              rfl
            exact cons_le_cons a (ih horder' hsame' (Nat.succ.inj hlength))
          · -- the other list may only go on with what the greedy one did not prefer
            have hmem : b ∈ other := by
              rw [hsame]
              exact mem_append_right _ mem_cons_self
            have hnew : b ∉ earlier := by
              have hdistinct := hother.perm.nodup_iff.mpr hnodup
              rw [hsame] at hdistinct
              exact fun hb => (nodup_append.mp hdistinct).2.2 b hb b mem_cons_self rfl
            have hle := hgreedy earlier a rest horder b (hother.perm.mem_iff.mp hmem) hnew
              (hother.ordered earlier b rest' hsame)
            exact le_of_lt (List.Lex.rel (lt_of_le_of_ne hle heq))

/-- **A greedy linear extension is the least one.** -/
theorem LinearExtension.le_of_greedy [LinearOrder α] (h : LinearExtension r elems order)
    (hgreedy : Greedy r elems order) (hnodup : elems.Nodup) {other : List α}
    (hother : LinearExtension r elems other) : order ≤ other :=
  le_of_append hgreedy hnodup hother (nil_append order).symm (nil_append other).symm
    (h.perm.length_eq.trans hother.perm.length_eq.symm)

end Jadren
