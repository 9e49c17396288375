import Mathlib.Data.List.Induction
import Jadren.Library.Checked
import Jadren.Library.StableSort

/-!
# Sorting buffers

`sort` and `sort_buffer_i32` of the core library's `collections.jdn`: an insertion sort in the
storage of the buffer.  In each round of the outer loop the elements before `index` are sorted; the
inner loop moves those above the current element up by one, which leaves a gap that still holds a
copy of the last element moved.

Positions are words of 64 bits, and the programs are checked computations: they return only if they
neither leave the initialized elements nor overflow.
-/

namespace Jadren.Stdlib

open Checked List Option Nat

variable {α : Type} {less : α → α → Bool} {values : List α} {fuel : ℕ}

/-- The number of initialized elements, counted one by one over the indices. -/
def countElements (values : List α) : Option ℕ := values.foldlM (fun count _ => add count 1) 0

/-- Whether two elements are in the wrong order, so that the first is moved behind the second. -/
def shouldShift (less : α → α → Bool) (descending : Bool) (previous current : α) : Bool :=
  if descending then less previous current else less current previous

/-- A round of the inner loop, which ends with the gap at a position. -/
def shiftRound (less : α → α → Bool) (descending : Bool) (current : α) :
    List α × ℕ → Option ((List α × ℕ) ⊕ (List α × ℕ))
  | (values, position) =>
      if 0 < position then do
        let before ← sub position 1
        let previous ← load values before
        if shouldShift less descending previous current then
          let shifted ← store values position previous
          let next ← sub position 1
          pure (.inl (shifted, next))
        else pure (.inr (values, position))
      else pure (.inr (values, position))

/-- A round of the outer loop. -/
def sortRound (less : α → α → Bool) (descending : Bool) (fuel count : ℕ) :
    List α × ℕ → Option ((List α × ℕ) ⊕ List α)
  | (values, index) =>
      if index < count then do
        let current ← load values index
        let (shifted, position) ← loop (shiftRound less descending current) fuel (values, index)
        let filled ← store shifted position current
        let next ← add index 1
        pure (.inl (filled, next))
      else pure (.inr values)

/-- Sorts initialized ordered elements in place using a bounded insertion sort. -/
def sort (less : α → α → Bool) (fuel : ℕ) (values : List α) (descending : Bool) :
    Option (List α × Bool) := do
  let count ← countElements values
  if count < 2 then pure (values, true)
  else
    let sorted ← loop (sortRound less descending fuel count) fuel (values, 1)
    pure (sorted, true)

/-- Sorts initialized `Int32` elements in place using a bounded insertion sort. -/
def sortBufferI32 (fuel : ℕ) (values : List Int32) (descending : Bool) :
    Option (List Int32 × Bool) :=
  sort (fun a b => decide (a < b)) fuel values descending

/-- A round of the loop over adjacent elements. -/
def sortedRound (less : α → α → Bool) (descending : Bool) (values : List α) (count : ℕ) :
    ℕ → Option (ℕ ⊕ Bool)
  | index =>
      if index < count then do
        let before ← sub index 1
        let previous ← load values before
        let current ← load values index
        if shouldShift less descending previous current then
          pure (.inr false)
        else
          let next ← add index 1
          pure (.inl next)
      else pure (.inr true)

/-- Whether initialized elements are ordered monotonically. -/
def isSorted (less : α → α → Bool) (fuel : ℕ) (values : List α) (descending : Bool) :
    Option Bool := do
  let count ← countElements values
  if count < 2 then pure true
  else loop (sortedRound less descending values count) fuel 1

/-! ## The count -/

theorem countElements_eq (hlength : values.length < 2 ^ 64) :
    countElements values = some values.length := by
  have hcount : ∀ (l : List α) (n : ℕ), n + l.length < 2 ^ 64 →
      l.foldlM (fun count _ => add count 1) n = some (n + l.length) := by
    intro l
    induction l with
    | nil => exact fun n _ => rfl
    | cons a rest ih =>
        intro n hn
        rw [length_cons] at hn ⊢
        rw [foldlM_cons, add_eq (by omega), bind_eq_bind, bind_some,
          ih _ (by omega), add_assoc, add_comm 1]
  rw [countElements, hcount values 0 (by omega), zero_add]

/-! ## The inner loop -/

/-- The order of the loop: `current` is less than `previous` if that is to be shifted. -/
def direction (less : α → α → Bool) (descending : Bool) (a b : α) : Bool :=
  shouldShift less descending b a

theorem direction_strictWeakOrder (h : StrictWeakOrder less) (descending : Bool) :
    StrictWeakOrder (direction less descending) := by
  cases descending with
  | true => exact h.flip
  | false => exact h

theorem shiftRound_zero (current : α) (descending : Bool) (values : List α) :
    shiftRound less descending current (values, 0) = some (.inr (values, 0)) := rfl

/-- One round: the element before the gap is moved into it, or the loop ends. -/
theorem shiftRound_succ (less : α → α → Bool) (descending : Bool) (current gap last : α)
    (init above : List α) :
    shiftRound less descending current (init ++ [last] ++ gap :: above, init.length + 1) =
      some (if direction less descending current last = true
        then .inl (init ++ last :: (last :: above), init.length)
        else .inr (init ++ [last] ++ gap :: above, init.length + 1)) := by
  have hread : load (init ++ [last] ++ gap :: above) init.length = some last := by
    rw [append_assoc]
    exact load_eq last
  have hwrite : store (init ++ [last] ++ gap :: above) (init.length + 1) last =
      some (init ++ last :: (last :: above)) := by
    have hstore : store (init ++ [last] ++ gap :: above) (init ++ [last]).length last =
        some (init ++ [last] ++ last :: above) := store_eq gap last
    rw [length_append, length_singleton] at hstore
    rw [hstore, append_assoc]
    rfl
  have hposition : sub (init.length + 1) 1 = some init.length := sub_eq (by omega)
  rw [direction]
  simp only [shiftRound, if_pos (succ_pos init.length), hposition, hread, hwrite,
    bind_eq_bind, bind_some]
  by_cases hshift : shouldShift less descending last current = true
  · rw [if_pos hshift, if_pos hshift]
    rfl
  · rw [if_neg hshift, if_neg hshift]
    rfl

/-- **The inner loop.**  The elements above the current one are moved up, and the gap is where it
belongs: what is before it is not above the current element. -/
theorem loop_shiftRound (less : α → α → Bool) (descending : Bool) (current gap : α)
    (before above : List α) :
    ∃ before' moved gap', before' ++ moved = before ∧
      (∀ last ∈ before'.getLast?, direction less descending current last = false) ∧
      (∀ a ∈ moved, direction less descending current a = true) ∧
      ∀ fuel, before.length < fuel → loop (shiftRound less descending current) fuel
          (before ++ gap :: above, before.length) =
        some (before' ++ gap' :: (moved ++ above), before'.length) := by
  induction before using reverseRecOn generalizing gap above with
  | nil =>
      refine ⟨[], [], gap, rfl, by simp, by simp, fun fuel hfuel => ?_⟩
      obtain ⟨fuel, rfl⟩ := exists_eq_add_one.mpr hfuel
      exact loop_done (shiftRound_zero current descending _) fuel
  | append_singleton init last ih =>
      rw [length_append, length_singleton]
      have hround := shiftRound_succ less descending current gap last init above
      by_cases hshift : direction less descending current last = true
      · rw [if_pos hshift] at hround
        obtain ⟨before', moved, gap', hsplit, hlast, hmoved, hloop⟩ := ih last (last :: above)
        refine ⟨before', moved ++ [last], gap', ?_, hlast, fun a ha => ?_, fun fuel hfuel => ?_⟩
        · rw [← hsplit, append_assoc]
        · rcases List.mem_append.mp ha with ha | ha
          · exact hmoved a ha
          · rwa [List.mem_singleton.mp ha]
        · obtain ⟨fuel, rfl⟩ := exists_eq_add_one.mpr (zero_lt_of_lt hfuel)
          rw [loop_next hround, hloop fuel (by omega), append_assoc moved]
          rfl
      · rw [if_neg hshift] at hround
        rw [Bool.not_eq_true] at hshift
        refine ⟨init ++ [last], [], gap, append_nil _, by simpa using hshift, by simp,
          fun fuel hfuel => ?_⟩
        obtain ⟨fuel, rfl⟩ := exists_eq_add_one.mpr (zero_lt_of_lt hfuel)
        rw [loop_done hround, length_append, length_singleton]
        rfl

/-! ## The outer loop -/

/-- One round sorts one more element into its place. -/
theorem sortRound_eq (h : StrictWeakOrder less) (descending : Bool) {original sorted : List α}
    (current : α) (rest : List α) (hsort : StableSort (direction less descending) original sorted) :
    ∃ next, StableSort (direction less descending) (original ++ [current]) next ∧
      next.length = sorted.length + 1 ∧
      ∀ fuel count, sorted.length < fuel → sorted.length < count → count < 2 ^ 64 →
        sortRound less descending fuel count (sorted ++ current :: rest, sorted.length) =
          some (.inl (next ++ rest, next.length)) := by
  obtain ⟨before, moved, gap, hsplit, hlast, hmoved, hloop⟩ :=
    loop_shiftRound less descending current current sorted rest
  subst hsplit
  have hlength : (before ++ current :: moved).length = (before ++ moved).length + 1 := by
    simp only [length_append, length_cons]
    omega
  refine ⟨before ++ current :: moved,
    hsort.insert (direction_strictWeakOrder h descending) hlast hmoved, hlength, ?_⟩
  intro fuel count hfuel hcount hlarge
  simp only [sortRound, if_pos hcount, load_eq, hloop fuel hfuel, store_eq, bind_eq_bind,
    bind_some, add_eq (by omega : (before ++ moved).length + 1 < 2 ^ 64), hlength]
  rw [append_assoc, cons_append]
  rfl

theorem loop_sortRound (h : StrictWeakOrder less) (descending : Bool) {original sorted : List α}
    (rest : List α) (hsort : StableSort (direction less descending) original sorted)
    (hlarge : sorted.length + rest.length < 2 ^ 64) :
    ∃ result, StableSort (direction less descending) (original ++ rest) result ∧
      ∀ fuel rounds, sorted.length + rest.length < fuel → rest.length < rounds →
        loop (sortRound less descending fuel (sorted.length + rest.length)) rounds
          (sorted ++ rest, sorted.length) = some result := by
  induction rest generalizing original sorted with
  | nil =>
      refine ⟨sorted, by rwa [append_nil], fun fuel rounds _ hrounds => ?_⟩
      obtain ⟨rounds, rfl⟩ := exists_eq_add_one.mpr hrounds
      have hround : sortRound less descending fuel (sorted.length + 0)
          (sorted ++ [], sorted.length) = some (.inr (sorted ++ [])) :=
        if_neg (lt_irrefl sorted.length)
      rw [length_nil, loop_done hround, append_nil]
  | cons current rest ih =>
      rw [length_cons] at hlarge ⊢
      obtain ⟨next, hnext, hlength, hround⟩ := sortRound_eq h descending current rest hsort
      obtain ⟨result, hresult, hloop⟩ := ih hnext (by omega)
      refine ⟨result, by rwa [append_assoc] at hresult, fun fuel rounds hfuel hrounds => ?_⟩
      obtain ⟨rounds, rfl⟩ := exists_eq_add_one.mpr (zero_lt_of_lt hrounds)
      have hcount : sorted.length + (rest.length + 1) = next.length + rest.length := by omega
      rw [loop_next (hround fuel _ (by omega) (by omega) hlarge), hcount]
      exact hloop fuel rounds (by omega) (by omega)

/-- The sort returns, and what it leaves is a stable sort. -/
theorem sort_eq (h : StrictWeakOrder less) (descending : Bool) (hlength : values.length < 2 ^ 64) :
    ∃ result, StableSort (direction less descending) values result ∧
      ∀ fuel, values.length < fuel → sort less fuel values descending = some (result, true) := by
  have hcount := countElements_eq hlength
  cases values with
  | nil => exact ⟨[], .nil _, fun _ _ => rfl⟩
  | cons first rest =>
      have hfirst : StableSort (direction less descending) [first] [first] :=
        ⟨.refl _, pairwise_singleton _ _, fun _ => rfl⟩
      rw [length_cons] at hlength hcount
      have hsizes : [first].length + rest.length = rest.length + 1 := add_comm 1 rest.length
      obtain ⟨result, hresult, hloop⟩ := loop_sortRound h descending rest hfirst (by omega)
      refine ⟨result, hresult, fun fuel hfuel => ?_⟩
      rw [length_cons] at hfuel
      rw [hsizes] at hloop
      by_cases hshort : rest.length + 1 < 2
      · -- a single element stays where it is
        obtain rfl : rest = [] := length_eq_zero_iff.mp (by omega)
        obtain rfl : result = [first] := perm_singleton.mp hresult.perm
        simp only [sort, hcount, bind_eq_bind, bind_some, if_pos hshort]
        rfl
      · simp only [sort, hcount, bind_eq_bind, bind_some, if_neg hshort]
        exact congrArg (bind · fun sorted => some (sorted, true))
          (hloop fuel fuel hfuel (by omega))

/-! ## The check -/

theorem loop_sortedRound (descending : Bool) (hsorted : Sorted (direction less descending) values)
    (hlarge : values.length < 2 ^ 64) {left index : ℕ} (hindex : 0 < index)
    (hleft : index + left = values.length) (hfuel : left < fuel) :
    loop (sortedRound less descending values values.length) fuel index = some true := by
  induction left generalizing index fuel with
  | zero =>
      obtain ⟨fuel, rfl⟩ := exists_eq_add_one.mpr hfuel
      have hround : sortedRound less descending values values.length index = some (.inr true) :=
        if_neg (not_lt.mpr hleft.ge)
      exact loop_done hround fuel
  | succ left ih =>
      obtain ⟨fuel, rfl⟩ := exists_eq_add_one.mpr (zero_lt_of_lt hfuel)
      have hlt : index < values.length := by omega
      have hbefore : index - 1 < values.length := by omega
      have hordered : shouldShift less descending values[index - 1] values[index] = false :=
        pairwise_iff_getElem.mp hsorted (index - 1) index hbefore hlt
          (sub_lt hindex one_pos)
      have hround : sortedRound less descending values values.length index =
          some (.inl (index + 1)) := by
        simp only [sortedRound, if_pos hlt, sub_eq hindex, load, getElem?_eq_getElem hlt,
          getElem?_eq_getElem hbefore, bind_eq_bind, bind_some, hordered,
          add_eq (by omega : index + 1 < 2 ^ 64), Bool.false_eq_true, if_false]
        rfl
      have hleft' : index + 1 + left = values.length := by omega
      rw [loop_next hround]
      exact ih (succ_pos index) hleft' (lt_of_succ_lt_succ hfuel)

theorem isSorted_eq (descending : Bool) (hsorted : Sorted (direction less descending) values)
    (hlength : values.length < 2 ^ 64) (hfuel : values.length < fuel) :
    isSorted less fuel values descending = some true := by
  simp only [isSorted, countElements_eq hlength, bind_eq_bind, bind_some]
  split_ifs with hshort
  · rfl
  · exact loop_sortedRound descending hsorted hlength one_pos
      (by omega : 1 + (values.length - 1) = values.length) (by omega)

/-- What is expected of a sorting function for a buffer: it returns, and leaves a stable sort of the
elements, which `is_sorted` accepts. -/
def SortsStably (less : α → α → Bool) (run : ℕ → List α → Bool → Option (List α × Bool))
    (values : List α) (descending : Bool) : Prop :=
  ∃ result, StableSort (direction less descending) values result ∧
    ∀ fuel, values.length < fuel → run fuel values descending = some (result, true) ∧
      isSorted less fuel result descending = some true

theorem sort_sortsStably (h : StrictWeakOrder less) (hlength : values.length < 2 ^ 64)
    (descending : Bool) : SortsStably less (sort less) values descending := by
  obtain ⟨result, hresult, hsort⟩ := sort_eq h descending hlength
  have hsame := hresult.perm.length_eq
  refine ⟨result, hresult, fun fuel hfuel => ⟨hsort fuel hfuel, ?_⟩⟩
  exact isSorted_eq descending hresult.sorted (by omega) (by omega)

theorem int32_strictWeakOrder : StrictWeakOrder fun a b : Int32 => decide (a < b) := by
  have hcompare : (fun a b : Int32 => decide (a < b)) =
      fun a b => decide (a.toInt < b.toInt) := by
    funext a b
    exact decide_eq_decide.mpr Int32.lt_iff_toInt_lt
  rw [hcompare]
  exact (StrictWeakOrder.of_linearOrder ℤ).comap Int32.toInt

/-- **Both functions sort stably**, in both directions: they terminate, only use initialized
elements, and no position underflows. -/
theorem sorts_stably :
    (∀ (α : Type) (less : α → α → Bool), StrictWeakOrder less → ∀ values : List α,
      values.length < 2 ^ 64 → ∀ descending, SortsStably less (sort less) values descending) ∧
    ∀ values : List Int32, values.length < 2 ^ 64 → ∀ descending,
      SortsStably (fun a b => decide (a < b)) sortBufferI32 values descending :=
  ⟨fun _ _ h _ hlength descending => sort_sortsStably h hlength descending,
    fun _ hlength descending => sort_sortsStably int32_strictWeakOrder hlength descending⟩

/-- Equal elements keep their order, also downwards. -/
theorem sorts_stably_pairs :
    SortsStably (fun a b : ℕ × ℕ => decide (a.1 < b.1)) (sort fun a b => decide (a.1 < b.1))
        [(2, 0), (1, 1), (2, 2)] true ∧
      sort (fun a b : ℕ × ℕ => decide (a.1 < b.1)) 4 [(2, 0), (1, 1), (2, 2)] true =
        some ([(2, 0), (2, 2), (1, 1)], true) :=
  ⟨sorts_stably.1 _ _ ((StrictWeakOrder.of_linearOrder ℕ).comap Prod.fst) _ (by decide) _,
    by decide⟩

end Jadren.Stdlib
