import Jadren.Library.Partitioned
import Jadren.Stdlib.Sorting

/-!
# Searching in sorted buffers

`lower_bound`, `upper_bound` and `binary_search` of the core library's `collections.jdn`.  The loop
of all three bisects the buffer: the elements before `lower` are below the position looked for,
those from `upper` on are not.

`binary_search` converts the position to an `Int32`, which keeps its low 32 bits.  So a position
from `2 ^ 31` on comes out negative, and the last one before `2 ^ 32` as `-1`, the result for a
needle that is absent.
-/

namespace Jadren.Stdlib

open Checked List

variable {α : Type} {less below : α → α → Bool} {values : List α} {needle : α} {fuel : ℕ}

/-- A round of the bisection by what is below the position looked for. -/
def bisectRound (below : α → Bool) (values : List α) : ℕ × ℕ → Option ((ℕ × ℕ) ⊕ ℕ)
  | (lower, upper) =>
      if lower < upper then do
        let distance ← sub upper lower
        let midpoint ← add lower (distance / 2)
        let value ← load values midpoint
        if below value then
          let next ← add midpoint 1
          pure (.inl (next, upper))
        else pure (.inl (lower, midpoint))
      else pure (.inr lower)

/-- The first index whose value is not less than `needle`. -/
def lowerBound (less : α → α → Bool) (fuel : ℕ) (values : List α) (needle : α) : Option ℕ := do
  let count ← countElements values
  loop (bisectRound (fun value => less value needle) values) fuel (0, count)

/-- The first index whose value is greater than `needle`. -/
def upperBound (less : α → α → Bool) (fuel : ℕ) (values : List α) (needle : α) : Option ℕ := do
  let count ← countElements values
  loop (bisectRound (fun value => !less needle value) values) fuel (0, count)

/-- The first index containing `needle`, or `-1`. -/
def binarySearch (less : α → α → Bool) (fuel : ℕ) (values : List α) (needle : α) :
    Option Int32 := do
  let count ← countElements values
  let lower ← loop (bisectRound (fun value => less value needle) values) fuel (0, count)
  if count ≤ lower then pure (-1)
  else
    let value ← load values lower
    if less value needle then pure (-1)
    else if less needle value then pure (-1)
    else pure (Int32.ofNat lower)

/-! ## The bisection -/

/-- One round: the end of the partition stays between the bounds, which get closer. -/
theorem bisectRound_eq {p : α → Bool} (h : Partitioned p values) (hlength : values.length < 2 ^ 64)
    {lower upper : ℕ} (hlower : lower ≤ values.countP p) (hupper : values.countP p ≤ upper)
    (hin : upper ≤ values.length) (hlt : lower < upper) :
    ∃ lower' upper', bisectRound p values (lower, upper) = some (.inl (lower', upper')) ∧
      lower' ≤ values.countP p ∧ values.countP p ≤ upper' ∧ upper' ≤ values.length ∧
      upper' - lower' < upper - lower := by
  have hmidpoint : lower + (upper - lower) / 2 < upper := by omega
  have hinside : lower + (upper - lower) / 2 < values.length := hmidpoint.trans_le hin
  have hposition := h.getElem_iff hinside
  have hround : bisectRound p values (lower, upper) =
      if p values[lower + (upper - lower) / 2] = true
      then some (.inl (lower + (upper - lower) / 2 + 1, upper))
      else some (.inl (lower, lower + (upper - lower) / 2)) := by
    simp only [bisectRound, if_pos hlt, sub_eq hlt.le, Option.bind_eq_bind, Option.bind_some,
      add_eq (hinside.trans hlength), load, getElem?_eq_getElem hinside]
    refine if_congr Iff.rfl ?_ rfl
    rw [add_eq (Nat.lt_of_le_of_lt hinside hlength)]
    rfl
  rw [hround]
  by_cases hbelow : p values[lower + (upper - lower) / 2] = true
  · rw [if_pos hbelow]
    exact ⟨_, _, rfl, hposition.mp hbelow, hupper, hin, by omega⟩
  · rw [if_neg hbelow]
    have habove : values.countP p ≤ lower + (upper - lower) / 2 :=
      Nat.le_of_not_lt (mt hposition.mpr hbelow)
    exact ⟨_, _, rfl, hlower, habove, hinside.le, by omega⟩

theorem loop_bisectRound {p : α → Bool} (h : Partitioned p values)
    (hlength : values.length < 2 ^ 64) {lower upper : ℕ} (hlower : lower ≤ values.countP p)
    (hupper : values.countP p ≤ upper) (hin : upper ≤ values.length)
    (hfuel : upper - lower < fuel) :
    loop (bisectRound p values) fuel (lower, upper) = some (values.countP p) := by
  induction fuel generalizing lower upper with
  | zero => cases hfuel
  | succ fuel ih =>
      by_cases hlt : lower < upper
      · obtain ⟨lower', upper', hround, hlower', hupper', hin', hcloser⟩ :=
          bisectRound_eq h hlength hlower hupper hin hlt
        rw [loop_next hround]
        exact ih hlower' hupper' hin' (by omega)
      · have hround : bisectRound p values (lower, upper) = some (.inr lower) := if_neg hlt
        rw [loop_done hround]
        exact congrArg some (by omega)

theorem bisect_eq {p : α → Bool} (h : Partitioned p values) (hlength : values.length < 2 ^ 64)
    (hfuel : values.length < fuel) :
    loop (bisectRound p values) fuel (0, values.length) = some (values.countP p) :=
  loop_bisectRound h hlength (Nat.zero_le _) countP_le_length le_rfl hfuel

/-! ## The bounds -/

variable (h : StrictWeakOrder less)
include h

theorem partitioned_less (hsorted : Sorted less values) (needle : α) :
    Partitioned (fun value => less value needle) values := by
  refine hsorted.imp fun {a b} hba hb => ?_
  rcases h.split hb a with hless | hless
  · rw [hba] at hless
    cases hless
  · exact hless

theorem partitioned_notGreater (hsorted : Sorted less values)
    (needle : α) : Partitioned (fun value => !less needle value) values := by
  refine hsorted.imp fun {a b} hba hb => ?_
  simp only [Bool.not_eq_true'] at hb ⊢
  exact h.not_less_trans hb hba

theorem lowerBound_eq (hsorted : Sorted less values)
    (hlength : values.length < 2 ^ 64) (hfuel : values.length < fuel) :
    lowerBound less fuel values needle = some (values.countP fun value => less value needle) := by
  rw [lowerBound, countElements_eq hlength]
  exact bisect_eq (partitioned_less h hsorted needle) hlength hfuel

theorem upperBound_eq (hsorted : Sorted less values)
    (hlength : values.length < 2 ^ 64) (hfuel : values.length < fuel) :
    upperBound less fuel values needle = some (values.countP fun value => !less needle value) := by
  rw [upperBound, countElements_eq hlength]
  exact bisect_eq (partitioned_notGreater h hsorted needle) hlength hfuel

/-! ## The search -/

/-- The first element that is equivalent to the needle can only be the one at the lower bound. -/
theorem findIdx?_equivalent (hsorted : Sorted less values) (needle : α) :
    values.findIdx? (equivalent less needle) =
      (values[values.countP fun value => less value needle]?.filter (equivalent less needle)).map
        fun _ => values.countP fun value => less value needle := by
  induction values with
  | nil => rfl
  | cons a rest ih =>
      rw [findIdx?_cons]
      by_cases hless : less a needle = true
      · have hnot : ¬equivalent less needle a = true := fun heq =>
          Bool.false_ne_true ((equivalent_iff.mp heq).2.symm.trans hless)
        have hcount : (a :: rest).countP (fun value => less value needle) =
            rest.countP (fun value => less value needle) + 1 := countP_cons_of_pos hless
        rw [if_neg hnot, ih (pairwise_cons.mp hsorted).2, hcount, getElem?_cons_succ,
          Option.map_map]
        rfl
      · have hnone := countP_eq_zero_of_partitioned (partitioned_less h hsorted needle) hless
        rw [hnone, getElem?_cons_zero]
        by_cases heq : equivalent less needle a = true
        · rw [if_pos heq, Option.filter_some_pos heq, Option.map_some]
        · -- then the needle is less than `a`, and so less than all that follow
          have habove : ∀ b ∈ rest, equivalent less needle b = false := by
            intro b hb
            have hba : less b a = false := (pairwise_cons.mp hsorted).1 b hb
            rw [← Bool.not_eq_true]
            intro hneedle
            have hna : less needle a = false :=
              h.not_less_trans (equivalent_iff.mp hneedle).1 hba
            exact heq (equivalent_iff.mpr ⟨hna, Bool.not_eq_true _ ▸ hless⟩)
          rw [if_neg heq, findIdx?_eq_none_iff.mpr habove,
            Option.filter_some_neg (Bool.not_eq_true _ ▸ heq)]
          rfl

omit h

/-- The result of the search before its conversion. -/
def position (less : α → α → Bool) (values : List α) (needle : α) : Option ℕ :=
  values.findIdx? (equivalent less needle)

theorem binarySearch_eq (h : StrictWeakOrder less) (hsorted : Sorted less values)
    (hlength : values.length < 2 ^ 64) (hfuel : values.length < fuel) :
    binarySearch less fuel values needle =
      some ((position less values needle).elim (-1) Int32.ofNat) := by
  have hpartitioned := partitioned_less h hsorted needle
  rw [position, findIdx?_equivalent h hsorted]
  simp only [binarySearch, countElements_eq hlength, Option.bind_eq_bind, Option.bind_some,
    bisect_eq hpartitioned hlength hfuel]
  cases hvalue : values[values.countP fun value => less value needle]? with
  | none =>
      rw [if_pos (getElem?_eq_none_iff.mp hvalue)]
      rfl
  | some =>
      obtain ⟨hin, rfl⟩ := List.getElem?_eq_some_iff.mp hvalue
      have hnotLess := mt (hpartitioned.getElem_iff hin).mp (lt_irrefl _)
      rw [if_neg (Nat.not_le.mpr hin), load, hvalue]
      simp only [Option.bind_some, if_neg hnotLess]
      split_ifs with hgreater
      · rw [Option.filter_some_neg]
        · rfl
        · simp only [equivalent, hgreater, Bool.not_true, Bool.false_and]
      · rw [Option.filter_some_pos]
        · rfl
        · exact equivalent_iff.mpr ⟨Bool.not_eq_true _ ▸ hgreater, Bool.not_eq_true _ ▸ hnotLess⟩

/-- What is expected of the three functions for a sorted buffer: they return, the number of elements
less than the needle, the number of those not greater than it, and the index of the first element
equivalent to it, or `-1` if there is none. -/
structure Searches (less : α → α → Bool) (values : List α) (needle : α) : Prop where
  lowerBound : ∀ fuel, values.length < fuel → lowerBound less fuel values needle =
    some (values.countP fun value => less value needle)
  upperBound : ∀ fuel, values.length < fuel → upperBound less fuel values needle =
    some (values.countP fun value => !less needle value)
  binarySearch : ∃ result : Int32,
    result.toInt = (position less values needle).elim (-1) Int.ofNat ∧
    ∀ fuel, values.length < fuel → binarySearch less fuel values needle = some result

/-- The conversion keeps an index if and only if it is below `2 ^ 31`. -/
theorem toInt_ofNat_eq_iff {index : ℕ} : (Int32.ofNat index).toInt = index ↔ index < 2 ^ 31 := by
  refine ⟨fun h => ?_, Int32.toInt_ofNat_of_lt⟩
  have hlt := Int32.toInt_lt (Int32.ofNat index)
  rw [h] at hlt
  exact_mod_cast hlt

theorem exists_equivalent_iff :
    (∃ value ∈ values, equivalent less needle value = true) ↔
      ∃ index, position less values needle = some index := by
  rw [← Option.isSome_iff_exists, position, findIdx?_isSome, any_eq_true]

theorem exists_equivalent_take_iff {n : ℕ} :
    (∃ value ∈ values.take n, equivalent less needle value = true) ↔
      ∃ index < n, position less values needle = some index := by
  rw [exists_equivalent_iff, position, findIdx?_take]
  simp only [Option.bind_eq_some_iff, Option.guard_eq_some_iff, decide_eq_true_eq, position]
  constructor
  · rintro ⟨_, index, hindex, rfl, hlt⟩
    exact ⟨index, hlt, hindex⟩
  · rintro ⟨index, hlt, hindex⟩
    exact ⟨index, index, hindex, rfl, hlt⟩

/-- **The functions do what is expected if and only if** a needle that occurs in the buffer occurs
among its first `2 ^ 31` elements. -/
theorem searches_iff (h : StrictWeakOrder less) (hsorted : Sorted less values)
    (hlength : values.length < 2 ^ 64) :
    Searches less values needle ↔
      ((∃ value ∈ values, equivalent less needle value = true) →
        ∃ value ∈ values.take (2 ^ 31), equivalent less needle value = true) := by
  have hsearch : ∀ fuel, values.length < fuel → binarySearch less fuel values needle =
      some ((position less values needle).elim (-1) Int32.ofNat) := fun fuel =>
    binarySearch_eq h hsorted hlength
  rw [exists_equivalent_iff, exists_equivalent_take_iff]
  constructor
  · rintro ⟨_, _, result, hresult, hreturns⟩ ⟨index, hindex⟩
    have heq := (hreturns _ (Nat.lt_succ_self _)).symm.trans (hsearch _ (Nat.lt_succ_self _))
    rw [hindex] at hresult heq
    rw [Option.some.inj heq] at hresult
    exact ⟨index, toInt_ofNat_eq_iff.mp hresult, hindex⟩
  · intro hfirst
    refine ⟨fun fuel => lowerBound_eq h hsorted hlength,
      fun fuel => upperBound_eq h hsorted hlength,
      _, ?_, hsearch⟩
    cases hposition : position less values needle with
    | none => rfl
    | some index =>
        obtain ⟨_, hlt, hsame⟩ := hfirst ⟨index, hposition⟩
        rw [hposition] at hsame
        cases hsame
        exact toInt_ofNat_eq_iff.mpr hlt

/-- A few elements, the needle among them twice. -/
theorem searches_four : Searches (fun a b : ℕ => decide (a < b)) [1, 3, 3, 8] 3 := by
  refine (searches_iff (StrictWeakOrder.of_linearOrder ℕ) ?_ ?_).mpr fun _ => ⟨3, ?_, rfl⟩
  · unfold Sorted
    decide
  · decide
  · exact mem_cons_of_mem _ (mem_cons_self ..)

/-! ## Positions that do not fit -/

/-- Zeros and a one at the end, the needle. -/
def oneAfterZeros (count : ℕ) : List Int32 := replicate count 0 ++ [1]

theorem sorted_oneAfterZeros (count : ℕ) :
    Sorted (fun a b => decide (a < b)) (oneAfterZeros count) := by
  refine pairwise_append.mpr ⟨?_, pairwise_singleton _ _, ?_⟩
  · exact pairwise_replicate.mpr (.inr rfl)
  · intro a ha b hb
    rw [eq_of_mem_replicate ha, mem_singleton.mp hb]
    rfl

theorem position_oneAfterZeros (count : ℕ) :
    position (fun a b => decide (a < b)) (oneAfterZeros count) 1 = some count := by
  have hzero : equivalent (fun a b : Int32 => decide (a < b)) 1 0 = false := by decide
  have hone : equivalent (fun a b : Int32 => decide (a < b)) 1 1 = true := by decide
  rw [position, oneAfterZeros, findIdx?_append, findIdx?_replicate, hzero,
    findIdx?_singleton, hone, length_replicate]
  simp

theorem not_searches_oneAfterZeros {count : ℕ} (hlarge : 2 ^ 31 ≤ count)
    (hlength : count + 1 < 2 ^ 64) :
    ¬Searches (fun a b => decide (a < b)) (oneAfterZeros count) 1 := by
  have hcount : (oneAfterZeros count).length = count + 1 := by
    rw [oneAfterZeros, length_append, length_replicate, length_singleton]
  rintro ⟨_, _, result, hresult, hreturns⟩
  have hsearch := @binarySearch_eq _ _ _ 1 _ int32_strictWeakOrder (sorted_oneAfterZeros count)
    (hcount ▸ hlength) (Nat.lt_succ_self _)
  rw [hreturns _ (Nat.lt_succ_self _)] at hsearch
  rw [Option.some.inj hsearch, position_oneAfterZeros] at hresult
  exact absurd (toInt_ofNat_eq_iff.mp hresult) (Nat.not_lt.mpr hlarge)

/-- With `2 ^ 31` zeros before it the needle is not found at its index. -/
theorem not_searches_zeros :
    StrictWeakOrder (fun a b : Int32 => decide (a < b)) ∧
      Sorted (fun a b => decide (a < b)) (oneAfterZeros (2 ^ 31)) ∧
      ¬Searches (fun a b => decide (a < b)) (oneAfterZeros (2 ^ 31)) 1 :=
  ⟨int32_strictWeakOrder, sorted_oneAfterZeros _, not_searches_oneAfterZeros le_rfl (by omega)⟩

end Jadren.Stdlib
