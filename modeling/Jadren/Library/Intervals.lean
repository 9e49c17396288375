import Mathlib.Data.Fintype.Basic
import Mathlib.Data.Finset.Max
import Mathlib.Data.List.Sort

/-!
# Nested intervals

Non-empty intervals, listed by where they start, the longer of two with one start first.  An
interval then encloses only intervals after it.  In a laminar family, where of two intervals one
encloses the other or they are apart, the intervals that enclose a given one enclose each other,
so that each interval has a parent unless nothing encloses it, and is reached from a root by going
from parent to child.
-/

namespace Jadren

open List

/-- Non-empty intervals in the order of their starts, distinct ones with one start by length. -/
structure Intervals (n : ℕ) (α : Type*) [LinearOrder α] where
  start : Fin n → α
  stop : Fin n → α
  nonempty : ∀ i, start i < stop i
  sorted : ∀ i j, i < j → start i ≤ start j ∧ (start i = start j → stop j < stop i)

namespace Intervals

variable {n : ℕ} {α : Type*} [LinearOrder α] (I : Intervals n α) {a b c i p q : Fin n}

/-- Since `c` starts after `p`, only the ends are compared. -/
def Encloses (p c : Fin n) : Prop := p < c ∧ I.stop c ≤ I.stop p

instance (p c : Fin n) : Decidable (I.Encloses p c) := inferInstanceAs (Decidable (_ ∧ _))

/-- Of two intervals the first encloses the second, or ends before it starts. -/
def Laminar : Prop := ∀ p c, p < c → I.Encloses p c ∨ I.stop p ≤ I.start c

/-- The last interval that encloses `c`. -/
def IsParent (p c : Fin n) : Prop := I.Encloses p c ∧ ∀ q, I.Encloses q c → q ≤ p

/-- No interval encloses `c`. -/
def IsRoot (c : Fin n) : Prop := ∀ q, ¬ I.Encloses q c

/-- One of the given intervals is `i` or encloses it. -/
def Under (cs : List (Fin n)) (i : Fin n) : Prop := ∃ c ∈ cs, c = i ∨ I.Encloses c i

instance (cs : List (Fin n)) (i : Fin n) : Decidable (I.Under cs i) :=
  inferInstanceAs (Decidable (∃ _ ∈ _, _))

variable {I}

theorem start_le (h : a ≤ b) : I.start a ≤ I.start b := by
  rcases h.lt_or_eq with h | rfl
  · exact (I.sorted a b h).1
  · exact le_rfl

theorem Encloses.trans (hab : I.Encloses a b) (hbc : I.Encloses b c) : I.Encloses a c :=
  ⟨hab.1.trans hbc.1, hbc.2.trans hab.2⟩

/-- An interval that encloses another has not ended where the other starts. -/
theorem Encloses.start_lt_stop (h : I.Encloses p c) : I.start c < I.stop p :=
  (I.nonempty c).trans_le h.2

theorem IsParent.unique (hp : I.IsParent p c) (hq : I.IsParent q c) : p = q :=
  le_antisymm (hq.2 p hp.1) (hp.2 q hq.1)

/-- Of two intervals around a third the first encloses the second. -/
theorem Laminar.encloses (hI : I.Laminar) (hac : I.Encloses a c) (hbc : I.Encloses b c)
    (hab : a < b) : I.Encloses a b := by
  rcases hI a b hab with h | h
  · exact h
  · have hend : I.stop a < I.stop a :=
      calc I.stop a ≤ I.start b := h
        _ ≤ I.start c := start_le hbc.1.le
        _ < I.stop a := hac.start_lt_stop
    exact absurd hend (lt_irrefl _)

theorem exists_isParent (h : I.Encloses q c) : ∃ p, I.IsParent p c ∧ q ≤ p := by
  have hq : q ∈ Finset.univ.filter (I.Encloses · c) := by simpa using h
  refine ⟨(Finset.univ.filter (I.Encloses · c)).max' ⟨q, hq⟩, ⟨?_, fun r hr => ?_⟩,
    Finset.le_max' _ _ hq⟩
  · simpa using Finset.max'_mem (Finset.univ.filter (I.Encloses · c)) ⟨q, hq⟩
  · exact Finset.le_max' _ _ (by simpa using hr)

/-- Between an interval and one it encloses stands one of its children. -/
theorem Laminar.exists_child (hI : I.Laminar) (h : I.Encloses c i) :
    ∃ d, I.IsParent c d ∧ (d = i ∨ I.Encloses d i) := by
  induction i using WellFoundedLT.induction with
  | ind i ih =>
      obtain ⟨p, hp, hcp⟩ := exists_isParent h
      rcases hcp.lt_or_eq with hlt | rfl
      · obtain ⟨d, hd, hdp⟩ := ih p hp.1.1 (hI.encloses h hp.1 hlt)
        refine ⟨d, hd, .inr ?_⟩
        rcases hdp with rfl | hdp
        · exact hp.1
        · exact hdp.trans hp.1
      · exact ⟨i, hp, .inl rfl⟩

theorem exists_root (i : Fin n) : ∃ r, I.IsRoot r ∧ (r = i ∨ I.Encloses r i) := by
  induction i using WellFoundedLT.induction with
  | ind i ih =>
      by_cases hroot : I.IsRoot i
      · exact ⟨i, hroot, .inl rfl⟩
      · obtain ⟨q, hq⟩ := not_forall_not.mp hroot
        obtain ⟨r, hr, hrq⟩ := ih q hq.1
        refine ⟨r, hr, .inr ?_⟩
        rcases hrq with rfl | hrq
        · exact hq
        · exact hrq.trans hq

/-- Children of one parent are apart, and so are roots. -/
theorem Laminar.apart (hI : I.Laminar) (hab : a < b)
    (h : (I.IsRoot a ∧ I.IsRoot b) ∨ I.IsParent p a ∧ I.IsParent p b) : I.stop a ≤ I.start b := by
  rcases hI a b hab with henc | hapart
  · rcases h with ⟨-, hb⟩ | ⟨ha, hb⟩
    · exact absurd henc (hb a)
    · exact absurd (hb.2 a henc) (not_le.mpr ha.1.1)
  · exact hapart

/-! ### The order of the intervals under a list -/

section Preorder

variable {cs : List (Fin n)}

theorem under_nil : ¬ I.Under [] i := fun ⟨_, h, _⟩ => absurd h not_mem_nil

theorem under_cons : I.Under (c :: cs) i ↔ (c = i ∨ I.Encloses c i) ∨ I.Under cs i := by
  simp [Under]

/-- What is under later intervals starts where the first of them starts, or after it. -/
theorem Under.start_le {x : α} (h : I.Under cs i) (hcs : ∀ d ∈ cs, x ≤ I.start d) :
    x ≤ I.start i := by
  obtain ⟨d, hd, rfl | hdi⟩ := h
  · exact hcs d hd
  · exact (hcs d hd).trans (Intervals.start_le hdi.1.le)

/-- What is under the children of an interval is what it encloses. -/
theorem Laminar.under_children (hI : I.Laminar) {children : List (Fin n)}
    (hchildren : ∀ d, d ∈ children ↔ I.IsParent c d) (i : Fin n) :
    I.Under children i ↔ I.Encloses c i := by
  constructor
  · rintro ⟨d, hd, rfl | hdi⟩
    · exact ((hchildren _).mp hd).1
    · exact ((hchildren _).mp hd).1.trans hdi
  · intro h
    obtain ⟨d, hd, hdi⟩ := hI.exists_child h
    exact ⟨d, (hchildren d).mpr hd, hdi⟩

/-- What is under a list, in order: its first interval, what is under the children of that, and
what is under the rest. -/
theorem Laminar.filter_under_cons (hI : I.Laminar) {children : List (Fin n)}
    (hchildren : ∀ d, d ∈ children ↔ I.IsParent c d) (hcs : ∀ d ∈ cs, I.stop c ≤ I.start d) :
    (finRange n).filter (I.Under (c :: cs)) =
      c :: (finRange n).filter (I.Under children) ++
        (finRange n).filter (I.Under cs) := by
  have hunder := hI.under_children hchildren
  have hsorted : ∀ l : List (Fin n), ((finRange n).filter (I.Under l)).Pairwise (· < ·) :=
    fun l => (pairwise_lt_finRange n).filter _
  -- both sides are in order and have the same members
  refine List.Pairwise.eq_of_mem_iff (hsorted _) ?_ ?_
  · rw [cons_append, pairwise_cons, pairwise_append]
    refine ⟨?_, hsorted _, hsorted _, ?_⟩
    · intro i hi
      rcases mem_append.mp hi with hi | hi
      · exact ((hunder i).mp (by simpa using hi)).1
      · have hlate := Under.start_le (x := I.stop c) (by simpa using hi) hcs
        refine lt_of_not_ge fun hle => ?_
        exact absurd (hlate.trans (Intervals.start_le hle)) (not_le.mpr (I.nonempty c))
    · intro i hi j hj
      have hlate := Under.start_le (x := I.stop c) (by simpa using hj) hcs
      have henc := (hunder i).mp (by simpa using hi)
      refine lt_of_not_ge fun hle => ?_
      exact absurd (hlate.trans (Intervals.start_le hle)) (not_le.mpr henc.start_lt_stop)
  · intro i
    simp only [mem_filter, mem_finRange, true_and, decide_eq_true_eq, cons_append,
      mem_cons, mem_append, under_cons, hunder]
    rw [or_assoc, eq_comm]

end Preorder

end Intervals

end Jadren
