import Mathlib.Data.List.Count

/-!
# Partitioned lists

A list whose elements with a property come before all others: the position of an element tells
whether it has the property, and where they end is found by bisection.
-/

namespace Jadren

variable {α : Type*} {p : α → Bool}

/-- An element after one without the property does not have it either. -/
def Partitioned (p : α → Bool) (l : List α) : Prop := l.Pairwise fun a b => p b = true → p a = true

theorem countP_eq_zero_of_partitioned {a : α} {rest : List α} (h : Partitioned p (a :: rest))
    (ha : ¬p a = true) : (a :: rest).countP p = 0 := by
  refine List.countP_eq_zero.mpr fun b hb hpb => ha ?_
  rcases List.mem_cons.mp hb with rfl | hb
  · exact hpb
  · exact (List.pairwise_cons.mp h).1 b hb hpb

/-- **The elements with the property are the first `countP`.** -/
theorem Partitioned.getElem_iff {l : List α} (h : Partitioned p l) {i : ℕ} (hi : i < l.length) :
    p l[i] = true ↔ i < l.countP p := by
  induction l generalizing i with
  | nil => cases hi
  | cons a rest ih =>
      by_cases ha : p a = true
      · rw [List.countP_cons_of_pos ha]
        cases i with
        | zero => exact iff_of_true ha (Nat.succ_pos _)
        | succ =>
            rw [List.getElem_cons_succ, ih (List.pairwise_cons.mp h).2, Nat.succ_lt_succ_iff]
      · have hnone := countP_eq_zero_of_partitioned h ha
        rw [hnone]
        refine iff_of_false (fun hp => ?_) (Nat.not_lt_zero i)
        exact List.countP_eq_zero.mp hnone _ (List.getElem_mem hi) hp

end Jadren
