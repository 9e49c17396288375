import Mathlib.Data.Nat.Bitwise

/-!
# Fields of a word

A field is a run of bits of a word, read by a shift and a mask.  Reading distributes over `|||`, and
a value that has been shifted to a place is read back there and is not seen anywhere else.
-/

namespace Jadren.BitFields

open BitVec

variable {n : ℕ}

/-- The `width` bits of a word from bit `low` on. -/
def field (word : BitVec n) (low width : ℕ) : BitVec n :=
  (word >>> low) &&& BitVec.ofNat n (2 ^ width - 1)

theorem getLsbD_field (word : BitVec n) (low width i : ℕ) :
    (field word low width).getLsbD i = (decide (i < width) && word.getLsbD (low + i)) := by
  rw [field, getLsbD_and, getLsbD_ushiftRight, getLsbD_ofNat,
    Nat.testBit_two_pow_sub_one]
  by_cases hi : i < n
  · simp [hi, Bool.and_comm]
  · have hout : word.getLsbD (low + i) = false := getLsbD_of_ge _ _ (by omega)
    simp [hout]

theorem field_or (a b : BitVec n) (low width : ℕ) :
    field (a ||| b) low width = field a low width ||| field b low width := by
  apply eq_of_getLsbD_eq
  intro i _
  simp only [getLsbD_field, getLsbD_or, Bool.and_or_distrib_left]

variable {value : BitVec n} {width : ℕ}

/-- A value below `2 ^ width` has no bits from `width` on. -/
theorem getLsbD_of_toNat_lt {i : ℕ} (h : value.toNat < 2 ^ width) (hi : width ≤ i) :
    value.getLsbD i = false := by
  rw [getLsbD, Nat.testBit_lt_two_pow]
  exact lt_of_lt_of_le h (Nat.pow_le_pow_right (by omega) hi)

variable {place : ℕ}

theorem getLsbD_place (value : BitVec n) (h : value.toNat < 2 ^ width) {i : ℕ} (hi : i < n) :
    (value <<< place).getLsbD i =
      (decide (place ≤ i) && decide (i < place + width) && value.getLsbD (i - place)) := by
  rw [getLsbD_shiftLeft]
  by_cases hle : place ≤ i
  · by_cases hlt : i < place + width
    · simp [hi, hle, hlt]
    · simp [hlt, getLsbD_of_toNat_lt h (show width ≤ i - place by omega)]
  · simp [hle, show i < place by omega]

/-- A value that is put at a place is read back there. -/
theorem field_place (h : value.toNat < 2 ^ width) (hfit : place + width ≤ n) :
    field (value <<< place) place width = value := by
  apply eq_of_getLsbD_eq
  intro i hi
  rw [getLsbD_field]
  by_cases hlt : i < width
  · rw [getLsbD_place value h (by omega)]
    simp [hlt]
  · simp [hlt, getLsbD_of_toNat_lt h (not_lt.mp hlt)]

variable {low width' : ℕ}

/-- A value that is put elsewhere is not seen. -/
theorem field_place_of_disjoint (h : value.toNat < 2 ^ width)
    (hdisjoint : place + width ≤ low ∨ low + width' ≤ place) :
    field (value <<< place) low width' = 0#n := by
  apply eq_of_getLsbD_eq
  intro i hi
  rw [getLsbD_field, getLsbD_zero]
  by_cases hin : low + i < n
  · rw [getLsbD_place value h hin]
    by_cases hwidth : i < width'
    · have hout : ¬ (place ≤ low + i ∧ low + i < place + width) := by omega
      by_cases hle : place ≤ low + i
      · simp [show ¬ low + i < place + width from fun hlt => hout ⟨hle, hlt⟩]
      · simp [hle]
    · simp [hwidth]
  · simp [getLsbD_of_ge _ (low + i) (not_lt.mp hin)]

/-- A value that has not been shifted stands at the low end. -/
theorem field_low (h : value.toNat < 2 ^ width) (hle : width ≤ low) :
    field value low width' = 0#n := by
  have hplace : field (value <<< 0) low width' = 0#n :=
    field_place_of_disjoint h (.inl (by omega))
  rwa [shiftLeft_zero] at hplace

theorem field_zero (h : value.toNat < 2 ^ width) (hfit : width ≤ n) :
    field value 0 width = value := by
  have hplace : field (value <<< 0) 0 width = value := field_place h (by omega)
  rwa [shiftLeft_zero] at hplace

theorem field_field (word : BitVec n) (width : ℕ) {low' : ℕ} (h : low' + width' ≤ width) :
    field (field word low width) low' width' = field word (low + low') width' := by
  apply eq_of_getLsbD_eq
  intro i _
  rw [getLsbD_field, getLsbD_field, getLsbD_field, Nat.add_assoc]
  by_cases hi : i < width'
  · simp [hi, show low' + i < width by omega]
  · simp [hi]

/-- Comparing the bits under a mask compares the field. -/
theorem and_mask_eq_iff (word value : BitVec n) (low width : ℕ)
    (hvalue : value.toNat < 2 ^ width) (hfit : low + width ≤ n) :
    word &&& (BitVec.ofNat n (2 ^ width - 1) <<< low) = value <<< low ↔
      field word low width = value := by
  have hmask : ∀ i < n, (BitVec.ofNat n (2 ^ width - 1) <<< low).getLsbD i =
      (decide (low ≤ i) && decide (i < low + width)) := by
    intro i hi
    rw [getLsbD_shiftLeft, getLsbD_ofNat, Nat.testBit_two_pow_sub_one]
    by_cases hle : low ≤ i
    · simp [hi, hle, show i - low < n by omega, show i - low < width ↔ i < low + width by omega]
    · simp [hle, show i < low by omega]
  constructor
  · intro h
    apply eq_of_getLsbD_eq
    intro i hi
    rw [getLsbD_field]
    by_cases hwidth : i < width
    · have hbit := congrArg (fun w => w.getLsbD (low + i)) h
      simp only [getLsbD_and, hmask (low + i) (by omega),
        getLsbD_place value hvalue (show low + i < n by omega)] at hbit
      simpa [hwidth] using hbit
    · simp [hwidth, getLsbD_of_toNat_lt hvalue (not_lt.mp hwidth)]
  · intro h
    apply eq_of_getLsbD_eq
    intro i hi
    rw [getLsbD_and, hmask i hi, getLsbD_place value hvalue hi]
    by_cases hin : low ≤ i ∧ i < low + width
    · have hbit := congrArg (fun w => w.getLsbD (i - low)) h
      simp only [getLsbD_field, show low + (i - low) = i by omega] at hbit
      simpa [hin.1, hin.2, show i - low < width by omega] using hbit
    · by_cases hle : low ≤ i
      · simp [show ¬ i < low + width from fun hlt => hin ⟨hle, hlt⟩]
      · simp [hle]

end Jadren.BitFields
