import Mathlib.Data.List.Basic
import Mathlib.Tactic.Ring

/-!
# Lists in chunks

A list of entries that all have the length `n`, laid out one after the other: reading and
overwriting whole entries of the layout is reading and overwriting the list of entries.
-/

namespace Jadren.Chunks

open List

variable {α : Type*} {n : ℕ}

/-- `ys` over the entries of `xs` at `i` and after it. -/
def overwrite (xs : List α) (i : ℕ) (ys : List α) : List α :=
  xs.take i ++ ys ++ xs.drop (i + ys.length)

variable {xs ys : List α} {i : ℕ}

theorem length_overwrite (h : i + ys.length ≤ xs.length) :
    (overwrite xs i ys).length = xs.length := by
  simp only [overwrite, length_append, length_take, length_drop]
  omega

variable {zs : List α}

/-- Overwriting a part of a list that is given in three parts. -/
theorem overwrite_append {ys' : List α} (h : ys.length = ys'.length) :
    overwrite (xs ++ ys ++ zs) xs.length ys' = xs ++ ys' ++ zs := by
  unfold overwrite
  rw [← h, ← length_append, drop_left, append_assoc xs ys zs, take_left]

@[simp] theorem overwrite_nil (xs : List α) (i : ℕ) : overwrite xs i [] = xs := by
  unfold overwrite
  rw [append_nil, length_nil, Nat.add_zero, take_append_drop]

variable {z : α}

theorem overwrite_one {y : α} : overwrite (xs ++ y :: zs) xs.length [z] = xs ++ z :: zs := by
  have hparts : overwrite (xs ++ [y] ++ zs) xs.length [z] = xs ++ [z] ++ zs := overwrite_append rfl
  rw [append_assoc, append_assoc] at hparts
  exact hparts

variable {x : α}

/-- Closing the gap that `x` leaves, the place after the entries set to `z`. -/
theorem overwrite_close :
    overwrite (overwrite (xs ++ x :: ys ++ zs) xs.length ys) (xs.length + ys.length) [z] =
      xs ++ ys ++ z :: zs := by
  have hshift : overwrite (xs ++ x :: ys ++ zs) xs.length ys =
      xs ++ ys ++ (x :: ys).drop ys.length ++ zs := by
    have hparts : xs ++ x :: ys ++ zs =
        xs ++ (x :: ys).take ys.length ++ ((x :: ys).drop ys.length ++ zs) := by
      rw [append_assoc xs, append_assoc xs, ← append_assoc (take ..),
        take_append_drop]
    rw [hparts, overwrite_append (by simp), append_assoc (xs ++ ys)]
  rw [hshift, ← length_append, overwrite_append (by simp)]
  simp

/-- Opening a gap for `x`, which the entry after the others is given up for. -/
theorem overwrite_open :
    overwrite (overwrite (xs ++ ys ++ z :: zs) (xs.length + 1) ys) xs.length [x] =
      xs ++ x :: ys ++ zs := by
  have hshift : overwrite (xs ++ ys ++ z :: zs) (xs.length + 1) ys =
      xs ++ (ys ++ [z]).take 1 ++ (ys ++ zs) := by
    have hparts : xs ++ ys ++ z :: zs =
        xs ++ (ys ++ [z]).take 1 ++ (ys ++ [z]).drop 1 ++ zs := by
      rw [append_assoc xs (take ..), take_append_drop]
      simp
    have hlength : xs.length + 1 = (xs ++ (ys ++ [z]).take 1).length := by simp
    rw [hparts, hlength, overwrite_append (by simp), append_assoc]
  rw [hshift, overwrite_append (by simp)]
  simp

theorem take_append_cons_drop (hi : i ≤ xs.length) :
    xs.take i ++ x :: xs.drop i = xs.insertIdx i x := by
  induction xs generalizing i with
  | nil =>
    obtain rfl := Nat.le_zero.mp hi
    rfl
  | cons y xs ih =>
    cases i with
    | zero => rfl
    | succ => exact congrArg (y :: ·) (ih (Nat.le_of_succ_le_succ hi))

theorem overwrite_middle {before after : List α} (h : i + ys.length ≤ xs.length) :
    overwrite (before ++ xs ++ after) (before.length + i) ys =
      before ++ overwrite xs i ys ++ after := by
  unfold overwrite
  rw [append_assoc before xs after, take_length_add_append, Nat.add_assoc,
    drop_length_add_append, take_append_of_le_length (by omega),
    drop_append_of_le_length h]
  simp only [append_assoc]

theorem mem_of_mem_overwrite (h : x ∈ overwrite xs i ys) : x ∈ xs ∨ x ∈ ys := by
  obtain h | h := mem_append.mp h
  · obtain h | h := mem_append.mp h
    · exact .inl (mem_of_mem_take h)
    · exact .inr h
  · exact .inl (mem_of_mem_drop h)

/-- All the entries have the length `n`. -/
def Uniform (n : ℕ) (xss : List (List α)) : Prop := ∀ xs ∈ xss, xs.length = n

variable {xss yss : List (List α)}

theorem Uniform.append (hxss : Uniform n xss) (hyss : Uniform n yss) :
    Uniform n (xss ++ yss) := fun xs h =>
  (mem_append.mp h).elim (hxss xs) (hyss xs)

theorem Uniform.subset (h : Uniform n xss) (hsubset : yss ⊆ xss) :
    Uniform n yss := fun xs hxs => h xs (hsubset hxs)

theorem uniform_singleton (h : xs.length = n) : Uniform n [xs] := fun _ hys =>
  mem_singleton.mp hys ▸ h

theorem Uniform.overwrite (hxss : Uniform n xss) (hyss : Uniform n yss) :
    Uniform n (overwrite xss i yss) := fun xs h =>
  (mem_of_mem_overwrite h).elim (hxss xs) (hyss xs)

theorem Uniform.length_flatten (h : Uniform n xss) : xss.flatten.length = xss.length * n := by
  induction xss with
  | nil => simp
  | cons xs xss ih =>
    have htail := ih (h.subset (subset_cons_self ..))
    rw [flatten_cons, length_append, h xs mem_cons_self, htail, length_cons]
    ring

/-- The entries from `i` on begin at `i * n`. -/
theorem Uniform.drop_flatten (h : Uniform n xss) (i : ℕ) :
    xss.flatten.drop (i * n) = (xss.drop i).flatten := by
  obtain hi | hi := Nat.le_total i xss.length
  · have hlength : (xss.take i).flatten.length = i * n := by
      rw [(h.subset (take_subset ..)).length_flatten, length_take, Nat.min_eq_left hi]
    calc xss.flatten.drop (i * n)
        = ((xss.take i).flatten ++ (xss.drop i).flatten).drop (i * n) := by
          rw [← flatten_append, take_append_drop]
      _ = (xss.drop i).flatten := drop_left' hlength
  · rw [drop_eq_nil_of_le hi]
    refine drop_eq_nil_of_le ?_
    rw [h.length_flatten]
    exact Nat.mul_le_mul_right n hi

theorem Uniform.take_flatten (h : Uniform n xss) (i : ℕ) :
    xss.flatten.take (i * n) = (xss.take i).flatten := by
  obtain hi | hi := Nat.le_total i xss.length
  · have hlength : (xss.take i).flatten.length = i * n := by
      rw [(h.subset (take_subset ..)).length_flatten, length_take, Nat.min_eq_left hi]
    calc xss.flatten.take (i * n)
        = ((xss.take i).flatten ++ (xss.drop i).flatten).take (i * n) := by
          rw [← flatten_append, take_append_drop]
      _ = (xss.take i).flatten := take_left' hlength
  · rw [take_of_length_le hi]
    refine take_of_length_le ?_
    rw [h.length_flatten]
    exact Nat.mul_le_mul_right n hi

theorem Uniform.overwrite_flatten (hxss : Uniform n xss) (hyss : Uniform n yss) (i : ℕ) :
    Chunks.overwrite xss.flatten (i * n) yss.flatten = (Chunks.overwrite xss i yss).flatten := by
  unfold Chunks.overwrite
  rw [hyss.length_flatten, ← Nat.add_mul, hxss.take_flatten, hxss.drop_flatten,
    flatten_append, flatten_append]

variable {k : ℕ}

/-- A list of the length of `k` entries is laid out from `k` entries. -/
theorem exists_uniform (h : xs.length = k * n) :
    ∃ xss : List (List α), Uniform n xss ∧ xss.length = k ∧ xss.flatten = xs := by
  induction k generalizing xs with
  | zero =>
    have hnil : xs = [] := eq_nil_of_length_eq_zero (by rw [h, Nat.zero_mul])
    exact ⟨[], fun _ hys => (not_mem_nil hys).elim, rfl, hnil.symm⟩
  | succ k ih =>
    have hlength : xs.length = k * n + n := by rw [h, Nat.succ_mul]
    have hrest : (xs.drop n).length = k * n := by
      rw [length_drop]
      omega
    obtain ⟨xss, huniform, rfl, hflatten⟩ := ih hrest
    refine ⟨xs.take n :: xss, ?_, rfl, ?_⟩
    · have hhead : Uniform n [xs.take n] := uniform_singleton (by
        rw [length_take]
        omega)
      exact hhead.append huniform
    · rw [flatten_cons, hflatten, take_append_drop]

/-! ## Moving entries -/

/-- The entries from `k` on and before `n`, each moved down by `k` places, from left to right. -/
def moveDown (d : α) (k n : ℕ) (xs : List α) : List α :=
  (range' k (n - k)).foldl (fun xs i => xs.set (i - k) (xs.getD i d)) xs

/-- After the first rounds the first entries have moved. -/
private theorem moveDown_rounds {d : α} {j : ℕ} (hj : k + j ≤ xs.length) :
    (range' k j).foldl (fun xs i => xs.set (i - k) (xs.getD i d)) xs =
      (xs.drop k).take j ++ xs.drop j := by
  induction j with
  | zero => simp
  | succ j ih =>
    have hlength : ((xs.drop k).take j).length = j := by
      rw [length_take, length_drop]
      omega
    have hlt : j < xs.length := by omega
    have hlt' : k + j < xs.length := by omega
    have hentry : ((xs.drop k).take j ++ xs.drop j).getD (k + j) d = xs[k + j] := by
      rw [getD_eq_getElem?_getD, getElem?_append_right (by omega), hlength,
        getElem?_drop]
      have hplace : j + (k + j - j) = k + j := by omega
      rw [hplace, getElem?_eq_getElem hlt']
      rfl
    rw [range'_1_concat, foldl_append, ih (by omega), foldl_cons, foldl_nil,
      hentry, Nat.add_sub_cancel_left, set_append_right _ _ hlength.le, hlength, Nat.sub_self,
      take_add_one, append_assoc, drop_eq_getElem_cons hlt, set_cons_zero,
      getElem?_drop, getElem?_eq_getElem hlt']
    rfl

theorem moveDown_eq {d : α} {n : ℕ} (hk : k ≤ n) (hn : n ≤ xs.length) :
    moveDown d k n xs = (xs.drop k).take (n - k) ++ xs.drop (n - k) :=
  moveDown_rounds (by omega)

end Jadren.Chunks
