import Mathlib.Data.List.Range
import Mathlib.Tactic.Ring
import Jadren.Library.Folds

/-!
# The chunks of a parallel loop

`parallel_for` and `parallel_reduce` cut the iterations `0..iterations` into chunks of a fixed size
and compute the range of each chunk by itself: it begins at a multiple of the chunk size and ends
one chunk size later, or at the last iteration.

The end is computed before it is compared with the number of iterations.  So the ranges are right
exactly when the last chunk, filled up, still ends below `2 ^ 64`.
-/

namespace Jadren.Concurrency

open List

/-! ## Arithmetic of `usize` -/

/-- The result of an addition or a multiplication: one that does not fit panics in a build with
overflow checks, and wraps in one without. -/
def usize (checked : Bool) (n : ℕ) : Option ℕ :=
  if n < 2 ^ 64 then some n else if checked then none else some (n % 2 ^ 64)

theorem usize_eq {checked : Bool} {n : ℕ} (h : n < 2 ^ 64) : usize checked n = some n := if_pos h

theorem usize_checked {n : ℕ} : usize true n = none ↔ 2 ^ 64 ≤ n := by
  unfold usize
  split_ifs with h <;> simp_all

/-! ## The ranges -/

/-- Chunk policy for a parallel-for batch. -/
structure ParallelForConfig where
  chunkSize : ℕ
  pos : 0 < chunkSize

namespace ParallelForConfig

/-- A chunk policy with a positive number of iterations per task. -/
def new (chunkSize : ℕ) : Option ParallelForConfig :=
  if h : 0 < chunkSize then some ⟨chunkSize, h⟩ else none

variable (config : ParallelForConfig) (iterations : ℕ)

/-- The number of chunks, rounded up. -/
def chunks : ℕ :=
  iterations / config.chunkSize + if iterations % config.chunkSize = 0 then 0 else 1

/-- The iterations of one chunk. -/
def chunkRange (checked : Bool) (chunk : ℕ) : Option (ℕ × ℕ) := do
  let start ← usize checked (chunk * config.chunkSize)
  let filled ← usize checked (start + config.chunkSize)
  pure (start, min filled iterations)

/-- The ranges of all chunks in order of the chunks. -/
def chunkRanges (checked : Bool) : Option (List (ℕ × ℕ)) := do
  let chunks ← usize checked (config.chunks iterations)
  (range chunks).mapM (config.chunkRange iterations checked)

end ParallelForConfig

/-- Ranges that are not empty, each beginning where the last one ended. -/
def Tiles : ℕ → List (ℕ × ℕ) → ℕ → Prop
  | first, [], last => first = last
  | first, (start, stop) :: rest, last => start = first ∧ start < stop ∧ Tiles stop rest last

/-- The iterations of the ranges, one after the other, are those from the first to the last. -/
theorem Tiles.flatMap_range' {ranges : List (ℕ × ℕ)} {first last : ℕ}
    (h : Tiles first ranges last) :
    first ≤ last ∧
      ranges.flatMap (fun range => range' range.1 (range.2 - range.1)) =
        range' first (last - first) := by
  induction ranges generalizing first with
  | nil =>
      obtain rfl : first = last := h
      simp
  | cons range rest ih =>
      obtain ⟨start, stop⟩ := range
      obtain ⟨rfl, hlt, hrest⟩ := h
      obtain ⟨hle, hflat⟩ := ih hrest
      refine ⟨hlt.le.trans hle, ?_⟩
      have hstop : start + (stop - start) = stop := by omega
      have hlength : last - start = (stop - start) + (last - stop) := by omega
      rw [flatMap_cons, hflat, hlength, ← range'_append_1, hstop]

namespace ParallelForConfig

variable {config : ParallelForConfig} {iterations : ℕ}

/-! ## When they are right -/

/-- The last chunk is needed, and the chunks are enough. -/
theorem chunks_bounds (config : ParallelForConfig) (iterations : ℕ) :
    iterations ≤ config.chunks iterations * config.chunkSize ∧
      config.chunks iterations * config.chunkSize < iterations + config.chunkSize := by
  have hpos := config.pos
  have hdivision := Nat.div_add_mod iterations config.chunkSize
  have hremainder := Nat.mod_lt iterations hpos
  rw [Nat.mul_comm] at hdivision
  unfold chunks
  split_ifs with hzero
  · rw [Nat.add_zero]
    omega
  · rw [Nat.add_one_mul]
    omega

theorem chunks_lt (hiterations : iterations < 2 ^ 64) : config.chunks iterations < 2 ^ 64 := by
  have hle := Nat.div_le_self iterations config.chunkSize
  unfold chunks
  split_ifs with hzero
  · omega
  · -- with a remainder, the chunk size is at least two
    have hsize : 2 ≤ config.chunkSize := by
      have hpos := config.pos
      by_contra hlt
      have hone : config.chunkSize = 1 := by omega
      rw [hone] at hzero
      exact hzero (Nat.mod_one iterations)
    have hhalf : iterations / config.chunkSize ≤ iterations / 2 :=
      Nat.div_le_div_left hsize (by decide)
    omega

theorem chunks_le_iff {n : ℕ} :
    config.chunks iterations ≤ n ↔ iterations ≤ n * config.chunkSize := by
  obtain ⟨hlower, hupper⟩ := config.chunks_bounds iterations
  constructor
  · exact fun hle => hlower.trans (Nat.mul_le_mul_right _ hle)
  · intro hle
    by_contra hmore
    have hmul : (n + 1) * config.chunkSize ≤ config.chunks iterations * config.chunkSize :=
      Nat.mul_le_mul_right _ (Nat.lt_of_not_le hmore)
    rw [Nat.add_one_mul] at hmul
    omega

/-- A chunk that is needed begins before the last iteration. -/
theorem start_lt {chunk : ℕ} (hchunk : chunk < config.chunks iterations) :
    chunk * config.chunkSize < iterations := by
  have hbound := (config.chunks_bounds iterations).2
  have hle : (chunk + 1) * config.chunkSize ≤ config.chunks iterations * config.chunkSize :=
    Nat.mul_le_mul_right _ hchunk
  rw [Nat.add_one_mul] at hle
  omega

theorem chunkRange_eq (hiterations : iterations < 2 ^ 64) {chunk : ℕ}
    (hchunk : chunk < config.chunks iterations) (checked : Bool) :
    config.chunkRange iterations checked chunk =
      (usize checked ((chunk + 1) * config.chunkSize)).map fun filled =>
        (chunk * config.chunkSize, min filled iterations) := by
  have hstart := start_lt hchunk
  simp only [chunkRange, usize_eq (hstart.trans hiterations), Option.bind_eq_bind, Option.bind_some,
    Nat.add_one_mul]
  cases usize checked (chunk * config.chunkSize + config.chunkSize) <;> rfl

/-- All chunks, filled up, end below `2 ^ 64`: a multiple of the chunk size is not below the number
of iterations and fits. -/
def Fits (config : ParallelForConfig) (iterations : ℕ) : Prop :=
  ∃ filled, iterations ≤ filled ∧ filled < 2 ^ 64 ∧ config.chunkSize ∣ filled

theorem fits_iff : config.Fits iterations ↔
    config.chunks iterations * config.chunkSize < 2 ^ 64 := by
  constructor
  · rintro ⟨filled, hle, hlt, factor, rfl⟩
    rw [Nat.mul_comm] at hle hlt
    exact lt_of_le_of_lt (Nat.mul_le_mul_right _ (chunks_le_iff.mpr hle)) hlt
  · exact fun h => ⟨_, (config.chunks_bounds iterations).1, h, Dvd.intro_left _ rfl⟩

/-- The range of a chunk whose end fits. -/
def exactRange (config : ParallelForConfig) (iterations chunk : ℕ) : ℕ × ℕ :=
  (chunk * config.chunkSize, min ((chunk + 1) * config.chunkSize) iterations)

/-- The ranges of consecutive chunks up to the last, which may be cut short. -/
theorem tiles_exactRange {first count : ℕ} (hcover : first * config.chunkSize ≤ iterations)
    (hbegin : ∀ chunk < first + count, chunk * config.chunkSize < iterations)
    (hend : iterations ≤ (first + count) * config.chunkSize) :
    Tiles (first * config.chunkSize)
      ((range' first count).map (config.exactRange iterations)) iterations := by
  have hpos := config.pos
  induction count generalizing first with
  | zero => exact Nat.le_antisymm hcover hend
  | succ count ih =>
      have hfirst := hbegin first (by omega)
      have hnext := Nat.add_one_mul first config.chunkSize
      refine ⟨rfl, lt_min (by omega) hfirst, ?_⟩
      cases count with
      | zero => exact min_eq_right hend
      | succ =>
          have hlt := hbegin (first + 1) (by omega)
          rw [min_eq_left hlt.le]
          refine ih hlt.le (fun chunk hchunk => hbegin chunk (by omega)) ?_
          rwa [Nat.add_right_comm, Nat.add_assoc first]

/-- The ranges are computed, without overflow, and tile the iterations. -/
def Tiled (config : ParallelForConfig) (iterations : ℕ) : Prop :=
  ∃ ranges, config.chunkRanges iterations true = some ranges ∧ Tiles 0 ranges iterations

theorem chunkRanges_of_fits (hiterations : iterations < 2 ^ 64) (hfits : config.Fits iterations)
    (checked : Bool) :
    config.chunkRanges iterations checked =
      some ((range (config.chunks iterations)).map (config.exactRange iterations)) := by
  have hfilled := fits_iff.mp hfits
  rw [chunkRanges, usize_eq (chunks_lt hiterations), Option.bind_eq_bind, Option.bind_some]
  refine Folds.mapM_eq_some_iff.mpr ?_
  rw [map_map]
  refine map_congr_left fun chunk hchunk => ?_
  rw [mem_range] at hchunk
  have hle : (chunk + 1) * config.chunkSize ≤ config.chunks iterations * config.chunkSize :=
    Nat.mul_le_mul_right _ hchunk
  rw [chunkRange_eq hiterations hchunk, usize_eq (hle.trans_lt hfilled)]
  rfl

theorem tiles_chunks (config : ParallelForConfig) (iterations : ℕ) :
    Tiles 0 ((range (config.chunks iterations)).map (config.exactRange iterations))
      iterations := by
  have hend := (config.chunks_bounds iterations).1
  have htiles : Tiles (0 * config.chunkSize)
      ((range' 0 (config.chunks iterations)).map (config.exactRange iterations))
      iterations := by
    refine tiles_exactRange ?_ (fun chunk hchunk => start_lt ?_) ?_
    · exact (Nat.zero_mul _).trans_le (Nat.zero_le _)
    · rwa [Nat.zero_add] at hchunk
    · rwa [Nat.zero_add]
  rwa [Nat.zero_mul, ← range_eq_range'] at htiles

/-- If the last chunk, filled up, does not fit, its end overflows. -/
theorem fits_of_chunkRanges (hiterations : iterations < 2 ^ 64) {ranges : List (ℕ × ℕ)}
    (h : config.chunkRanges iterations true = some ranges) : config.Fits iterations := by
  rw [fits_iff]
  by_contra hoverflow
  rw [Nat.not_lt] at hoverflow
  have hpositive : 0 < config.chunks iterations := by
    by_contra hzero
    rw [Nat.eq_zero_of_not_pos hzero, Nat.zero_mul] at hoverflow
    exact absurd hoverflow (by decide)
  obtain ⟨last, hlast⟩ := Nat.exists_eq_add_one.mpr hpositive
  rw [chunkRanges, usize_eq (chunks_lt hiterations), Option.bind_eq_bind, Option.bind_some] at h
  have hranges := congrArg (·[last]?) (Folds.mapM_eq_some_iff.mp h)
  have hrange : config.chunkRange iterations true last = none := by
    rw [chunkRange_eq hiterations (by omega), ← hlast, usize_checked.mpr hoverflow, Option.map_none]
  simp only [getElem?_map, getElem?_range (show last < config.chunks iterations by omega),
    Option.map_some, hrange] at hranges
  cases hread : ranges[last]? with
  | none | some => rw [hread] at hranges; cases hranges

/-- **The chunk ranges tile the iterations** exactly when the last chunk, filled up, fits: otherwise
computing its end overflows. -/
theorem tiled_iff (config : ParallelForConfig) {iterations : ℕ}
    (hiterations : iterations < 2 ^ 64) :
    config.Tiled iterations ↔ config.Fits iterations := by
  constructor
  · rintro ⟨ranges, hranges, _⟩
    exact fits_of_chunkRanges hiterations hranges
  · intro hfits
    exact ⟨_, chunkRanges_of_fits hiterations hfits true, tiles_chunks config iterations⟩

/-- Ten iterations in chunks of four. -/
theorem tiled_four : Tiled ⟨4, by decide⟩ 10 :=
  (tiled_iff ⟨4, by decide⟩ (by decide)).mpr ⟨12, by decide, by decide, by decide⟩

/-- Two chunks of `2 ^ 63` iterations: the second one, filled up, ends at `2 ^ 64`. -/
theorem not_tiled_half : ¬ ∀ (config : ParallelForConfig) (iterations : ℕ),
    config.chunkSize < 2 ^ 64 → iterations < 2 ^ 64 → config.chunks iterations ≤ 2 ^ 32 - 1 →
      config.Tiled iterations := by
  intro h
  obtain ⟨ranges, hranges, _⟩ :=
    h ⟨2 ^ 63, by decide⟩ (2 ^ 64 - 1) (by decide) (by decide) (by decide)
  have hoverflow : chunkRanges ⟨2 ^ 63, by decide⟩ (2 ^ 64 - 1) true = none := rfl
  cases hoverflow.symm.trans hranges

end ParallelForConfig

end Jadren.Concurrency
