import Mathlib.Algebra.Order.Ring.Nat
import Mathlib.Data.List.GetD
import Mathlib.Data.List.TakeDrop

/-!
# Scanning by index

Searching a range of indices from left to right for the first with a property, checking all
indices of a range, and the bytes of a range.  What a scan finds depends only on what it has
looked at: `Agree` says that two lists have the same beginning, and the rules named `congr` and
`extend` carry the result of a scan from one list to the other.
-/

namespace Jadren

open List

variable {α : Type*}

/-- The first index from `start` on and below `stop` with the property. -/
def firstIndex (p : ℕ → Bool) (start stop : ℕ) : Option ℕ :=
  (range' start (stop - start)).find? p

/-- All indices from `start` on and below `stop` have the property. -/
def allIndices (p : ℕ → Bool) (start stop : ℕ) : Bool := (range' start (stop - start)).all p

/-- The entries from `start` on, as many as the length says. -/
def slice (data : List α) (start length : ℕ) : List α := (data.drop start).take length

section Indices

variable {p q : ℕ → Bool} {start stop stop' i : ℕ}

theorem firstIndex_eq_some : firstIndex p start stop = some i ↔
    start ≤ i ∧ i < stop ∧ p i = true ∧ ∀ j, start ≤ j → j < i → p j = false := by
  unfold firstIndex
  rw [find?_range'_eq_some]
  simp only [mem_range'_1, Bool.not_eq_true']
  constructor
  · rintro ⟨hi, hmem, hbefore⟩
    exact ⟨hmem.1, by omega, hi, hbefore⟩
  · rintro ⟨hle, hlt, hi, hbefore⟩
    exact ⟨hi, ⟨hle, by omega⟩, hbefore⟩

theorem firstIndex_eq_none : firstIndex p start stop = none ↔
    ∀ j, start ≤ j → j < stop → p j = false := by
  unfold firstIndex
  simp only [find?_eq_none, mem_range'_1, Bool.not_eq_true]
  constructor
  · intro h j hle hlt
    exact h j ⟨hle, by omega⟩
  · intro h j hj
    exact h j hj.1 (by omega)

theorem allIndices_iff : allIndices p start stop = true ↔
    ∀ j, start ≤ j → j < stop → p j = true := by
  unfold allIndices
  simp only [all_eq_true, mem_range'_1]
  constructor
  · intro h j hle hlt
    exact h j ⟨hle, by omega⟩
  · intro h j hj
    exact h j hj.1 (by omega)

theorem firstIndex_congr (h : ∀ j, start ≤ j → j < stop → p j = q j) :
    firstIndex p start stop = firstIndex q start stop := by
  cases hq : firstIndex q start stop with
  | none =>
      rw [firstIndex_eq_none] at hq ⊢
      intro j hle hlt
      rw [h j hle hlt]
      exact hq j hle hlt
  | some i =>
      rw [firstIndex_eq_some] at hq ⊢
      obtain ⟨hle, hlt, hi, hbefore⟩ := hq
      refine ⟨hle, hlt, by rw [h i hle hlt, hi], fun j hj hji => ?_⟩
      rw [h j hj (by omega)]
      exact hbefore j hj hji

theorem allIndices_congr (h : ∀ j, start ≤ j → j < stop → p j = q j) :
    allIndices p start stop = allIndices q start stop := by
  rw [Bool.eq_iff_iff, allIndices_iff, allIndices_iff]
  constructor
  · intro hp j hle hlt
    rw [← h j hle hlt]
    exact hp j hle hlt
  · intro hq j hle hlt
    rw [h j hle hlt]
    exact hq j hle hlt

/-- A scan that has found an index finds it wherever the same is to be seen up to there. -/
theorem firstIndex_extend (h : firstIndex p start stop = some i)
    (hpq : ∀ j, start ≤ j → j ≤ i → p j = q j) (hi : i < stop') :
    firstIndex q start stop' = some i := by
  rw [firstIndex_eq_some] at h ⊢
  obtain ⟨hle, -, hpi, hbefore⟩ := h
  refine ⟨hle, hi, by rw [← hpq i hle le_rfl, hpi], fun j hj hji => ?_⟩
  rw [← hpq j hj hji.le]
  exact hbefore j hj hji

end Indices

/-! ## Lists with the same beginning -/

/-- The first `n` entries of both lists are there and the same. -/
structure Agree (data data' : List α) (n : ℕ) : Prop where
  left : n ≤ data.length
  right : n ≤ data'.length
  take : data.take n = data'.take n

namespace Agree

variable {data data' : List α} {n m : ℕ}

theorem mono (h : Agree data data' n) (hm : m ≤ n) : Agree data data' m where
  left := hm.trans h.left
  right := hm.trans h.right
  take := by
    calc data.take m = (data.take n).take m := by rw [take_take, Nat.min_eq_left hm]
      _ = (data'.take n).take m := by rw [h.take]
      _ = data'.take m := by rw [take_take, Nat.min_eq_left hm]

theorem append (data more : List α) : Agree data (data ++ more) data.length where
  left := le_rfl
  right := by simp
  take := by simp

theorem restrict (h : n ≤ data.length) : Agree data (data.take n) n where
  left := h
  right := by simp [h]
  take := by simp

theorem getD (h : Agree data data' n) {i : ℕ} (hi : i < n) (d : α) :
    data.getD i d = data'.getD i d := by
  have hentry : data[i]? = data'[i]? := by
    rw [← getElem?_take_of_lt hi, h.take, getElem?_take_of_lt hi]
  rw [getD_eq_getElem?_getD, hentry, ← getD_eq_getElem?_getD]

theorem slice (h : Agree data data' n) {start length : ℕ} (hle : start + length ≤ n) :
    slice data start length = Jadren.slice data' start length := by
  unfold Jadren.slice
  have hcut : ∀ xs : List α, (xs.drop start).take length =
      (xs.take (start + length)).drop start := by
    intro xs
    rw [drop_take, Nat.add_sub_cancel_left]
  rw [hcut, hcut, (h.mono hle).take]

end Agree

/-! ## Scans of a slice -/

section Slices

variable {data : List α} {p : α → Bool} {d : α} {start length stop i j : ℕ}

theorem length_slice (h : start + length ≤ data.length) :
    (slice data start length).length = length := by
  unfold slice
  rw [length_take, length_drop]
  omega

theorem getElem?_slice (hj : j < length) : (slice data start length)[j]? = data[start + j]? := by
  unfold slice
  rw [getElem?_take_of_lt hj, getElem?_drop]

theorem slice_append (data : List α) (start m n : ℕ) :
    slice data start (m + n) = slice data start m ++ slice data (start + m) n := by
  unfold slice
  rw [take_add, drop_drop]

theorem slice_cons (h : start < data.length) (d : α) (length : ℕ) :
    slice data start (length + 1) = data.getD start d :: slice data (start + 1) length := by
  unfold slice
  rw [drop_eq_getElem_cons h, take_succ_cons, getD_eq_getElem _ d h]

theorem slice_of_drop {text rest : List α} (h : data.drop start = text ++ rest) :
    slice data start text.length = text := by
  unfold slice
  rw [h, take_left]

theorem mem_slice {x : α} (h : x ∈ slice data start length) (d : α) :
    ∃ j, j < length ∧ data.getD (start + j) d = x := by
  obtain ⟨j, hj⟩ := mem_iff_getElem?.mp h
  have hlt : j < length := by
    by_contra hge
    unfold slice at hj
    rw [getElem?_take_eq_none (by omega)] at hj
    exact absurd hj (by simp)
  refine ⟨j, hlt, ?_⟩
  rw [getElem?_slice hlt] at hj
  rw [getD_eq_getElem?_getD, hj, Option.getD_some]

/-- A search for an entry splits the range at the entry it finds. -/
theorem firstEntry_eq_some (hstop : stop ≤ data.length) :
    firstIndex (fun j => p (data.getD j d)) start stop = some i ↔
      ∃ before x after, slice data start (stop - start) = before ++ x :: after ∧
        (∀ y ∈ before, p y = false) ∧ p x = true ∧ i = start + before.length := by
  rw [firstIndex_eq_some]
  constructor
  · rintro ⟨hle, hlt, hi, hbefore⟩
    have hcut : stop - start = (i - start) + ((stop - i - 1) + 1) := by omega
    refine ⟨slice data start (i - start), data.getD i d, slice data (i + 1) (stop - i - 1),
      ?_, ?_, hi, ?_⟩
    · rw [hcut, slice_append, Nat.add_sub_cancel' hle, slice_cons (by omega) d]
    · intro y hy
      obtain ⟨j, hj, rfl⟩ := mem_slice hy d
      exact hbefore (start + j) (by omega) (by omega)
    · rw [length_slice (by omega)]
      omega
  · rintro ⟨before, x, after, hslice, hbefore, hx, rfl⟩
    have hlength := congrArg List.length hslice
    have hmore : before.length < stop - start := by
      unfold slice at hlength
      simp only [length_take, length_append, length_cons] at hlength
      omega
    have hentry : ∀ k, k < stop - start →
        data.getD (start + k) d = (before ++ x :: after).getD k d := by
      intro k hk
      rw [getD_eq_getElem?_getD, getD_eq_getElem?_getD, ← hslice, getElem?_slice hk]
    refine ⟨by omega, by omega, ?_, fun j hj hlt => ?_⟩
    · rw [hentry _ hmore]
      simpa using hx
    · obtain ⟨k, rfl⟩ := Nat.exists_eq_add_of_le hj
      have hk : k < before.length := by omega
      rw [hentry k (by omega), getD_append _ _ _ _ hk, getD_eq_getElem _ d hk]
      exact hbefore _ (getElem_mem hk)

theorem allEntries_iff (hstop : stop ≤ data.length) (p : α → Bool) (d : α) (start : ℕ) :
    allIndices (fun j => p (data.getD j d)) start stop = true ↔
      ∀ x ∈ slice data start (stop - start), p x = true := by
  rw [allIndices_iff]
  constructor
  · intro h x hx
    obtain ⟨j, hj, rfl⟩ := mem_slice hx d
    exact h (start + j) (by omega) (by omega)
  · intro h j hj hlt
    obtain ⟨k, rfl⟩ := Nat.exists_eq_add_of_le hj
    have hentry : (slice data start (stop - start))[k]? = some (data.getD (start + k) d) := by
      rw [getElem?_slice (by omega), getD_eq_getElem _ d (by omega)]
      exact getElem?_eq_getElem _
    exact h _ (mem_of_getElem? hentry)

end Slices

end Jadren
