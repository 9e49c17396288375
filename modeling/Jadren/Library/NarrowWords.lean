import Mathlib.Data.BitVec

/-!
# Narrow words in wide ones

A machine without words of `w` bits keeps them in words of `v` bits, with zeros above them or
with copies of their sign.  Every operation is done on the wide words, and what is above the
low `w` bits of its result is dropped.  For the ring operations, the bitwise ones and shifts
to the left it does not matter what is above; division, remainder and shifts to the right
have to be given zeros for unsigned words and copies of the sign for signed ones.
-/

namespace Jadren.NarrowWords

open BitVec

variable {v w : ℕ}

/-! ## Masks -/

/-- The ones in the low bits. -/
def lowMask (v w : ℕ) : BitVec v := (allOnes w).setWidth v

theorem and_lowMask (x : BitVec v) : x &&& lowMask v w = (x.setWidth w).setWidth v := by
  ext i hi
  simp [hi, lowMask, Bool.and_comm]

/-- A mask is one less than the power of two above it. -/
theorem lowMask_eq (h : w < v) : lowMask v w = (1#v <<< w) - 1#v := by
  have hlt : 2 ^ w < 2 ^ v := Nat.pow_lt_pow_right (by decide) h
  have hpos : 1 ≤ 2 ^ w := Nat.one_le_two_pow
  have hone : 1 < 2 ^ v := Nat.one_lt_two_pow (Nat.ne_of_gt (Nat.zero_lt_of_lt h))
  have hmask : (lowMask v w).toNat = 2 ^ w - 1 := by
    simp only [lowMask, toNat_setWidth, toNat_allOnes]
    exact Nat.mod_eq_of_lt (by omega)
  apply eq_of_toNat_eq
  rw [hmask, toNat_sub, toNat_shiftLeft, toNat_ofNat, Nat.mod_eq_of_lt hone,
    Nat.shiftLeft_eq, one_mul, Nat.mod_eq_of_lt hlt]
  have hsum : 2 ^ v - 1 + 2 ^ w = 2 ^ v + (2 ^ w - 1) := by omega
  rw [hsum, Nat.add_mod_left, Nat.mod_eq_of_lt (by omega)]

theorem lowMask_self : lowMask v v = allOnes v := by simp [lowMask]

theorem setWidth_setWidth_cancel (h : w ≤ v) (x : BitVec w) : (x.setWidth v).setWidth w = x := by
  simp [h]

theorem and_twoPow_ne_zero (h : w ≤ v) (hpos : 0 < w) (x : BitVec w) :
    (x.setWidth v &&& (1#v <<< (w - 1)) ≠ 0#v) ↔ x.msb = true := by
  have htwo : 1#v <<< (w - 1) = twoPow v (w - 1) := by
    rw [twoPow_eq]
  rw [htwo, and_twoPow, msb_eq_getLsbD_last]
  have hlt : w - 1 < v := by omega
  have hne : twoPow v (w - 1) ≠ 0#v := by
    intro hzero
    have hbit := congrArg (fun y => y.getLsbD (w - 1)) hzero
    simp [hlt] at hbit
  by_cases hbit : x.getLsbD (w - 1) = true
  · simp [hbit, hlt, hne]
  · simp [hbit, hlt]

/-- Copies of the sign are ones above the mask. -/
theorem setWidth_or_not_lowMask {x : BitVec w} (hmsb : x.msb = true) :
    x.setWidth v ||| ~~~ lowMask v w = x.signExtend v := by
  ext i hi
  by_cases hiw : i < w
  · simp [getElem_signExtend, lowMask, hiw]
  · simp [getElem_signExtend, lowMask, hiw, hmsb]

theorem setWidth_eq_signExtend {x : BitVec w} (hmsb : x.msb = false) :
    x.setWidth v = x.signExtend v := (signExtend_eq_setWidth_of_msb_false hmsb).symm

theorem setWidth_signExtend (h : w ≤ v) (x : BitVec w) : (x.signExtend v).setWidth w = x := by
  ext i hi
  simp [getElem_signExtend, hi, Nat.lt_of_lt_of_le hi h]

/-! ## Operations -/

section

variable (h : w ≤ v) (x y : BitVec w)

include h

theorem setWidth_sub (a b : BitVec v) : (a - b).setWidth w = a.setWidth w - b.setWidth w := by
  rw [sub_eq_add_neg, setWidth_add _ _ h, setWidth_neg_of_le h,
    ← sub_eq_add_neg]

theorem setWidth_udiv : (x.setWidth v / y.setWidth v).setWidth w = x / y := by
  have hle : 2 ^ w ≤ 2 ^ v := Nat.pow_le_pow_right (by decide) h
  apply eq_of_toNat_eq
  simp only [toNat_setWidth, toNat_udiv]
  rw [Nat.mod_eq_of_lt (x.isLt.trans_le hle), Nat.mod_eq_of_lt (y.isLt.trans_le hle)]
  exact Nat.mod_eq_of_lt ((Nat.div_le_self ..).trans_lt x.isLt)

theorem setWidth_umod : (x.setWidth v % y.setWidth v).setWidth w = x % y := by
  have hle : 2 ^ w ≤ 2 ^ v := Nat.pow_le_pow_right (by decide) h
  apply eq_of_toNat_eq
  simp only [toNat_setWidth, toNat_umod]
  rw [Nat.mod_eq_of_lt (x.isLt.trans_le hle), Nat.mod_eq_of_lt (y.isLt.trans_le hle)]
  exact Nat.mod_eq_of_lt ((Nat.mod_le ..).trans_lt x.isLt)

/-- What is left of a wide word of a number at `w` bits is the narrow word of it. -/
theorem setWidth_eq_of_toInt {a : BitVec v} {z : ℤ} (ha : a.toInt = z.bmod (2 ^ v)) :
    a.setWidth w = BitVec.ofInt w z := by
  apply eq_of_toInt_eq
  rw [← signExtend_eq_setWidth_of_le a h, toInt_signExtend_eq_toInt_bmod_of_le a h,
    ha, toInt_ofInt]
  exact Int.bmod_bmod_of_dvd (pow_dvd_pow 2 h)

theorem setWidth_sdiv : ((x.signExtend v).sdiv (y.signExtend v)).setWidth w = x.sdiv y := by
  rw [setWidth_eq_of_toInt h (z := x.toInt.tdiv y.toInt)]
  · apply eq_of_toInt_eq
    rw [toInt_ofInt, toInt_sdiv]
  · rw [toInt_sdiv, toInt_signExtend_of_le h, toInt_signExtend_of_le h]

theorem setWidth_srem : ((x.signExtend v).srem (y.signExtend v)).setWidth w = x.srem y := by
  have hbmod : ((x.signExtend v).srem (y.signExtend v)).toInt =
      (x.toInt.tmod y.toInt).bmod (2 ^ v) := by
    rw [← ofInt_toInt (x := (x.signExtend v).srem (y.signExtend v)), toInt_ofInt,
      toInt_srem, toInt_signExtend_of_le h, toInt_signExtend_of_le h]
  rw [setWidth_eq_of_toInt h hbmod, ← toInt_srem, ofInt_toInt]

theorem setWidth_ushiftRight (n : ℕ) : (x.setWidth v >>> n).setWidth w = x >>> n := by
  have hle : 2 ^ w ≤ 2 ^ v := Nat.pow_le_pow_right (by decide) h
  apply eq_of_toNat_eq
  simp only [toNat_setWidth, toNat_ushiftRight]
  rw [Nat.mod_eq_of_lt (x.isLt.trans_le hle)]
  exact Nat.mod_eq_of_lt ((Nat.shiftRight_le ..).trans_lt x.isLt)

theorem setWidth_sshiftRight (n : ℕ) :
    ((x.signExtend v).sshiftRight n).setWidth w = x.sshiftRight n := by
  have hbmod : ((x.signExtend v).sshiftRight n).toInt = (x.toInt >>> n).bmod (2 ^ v) := by
    rw [← ofInt_toInt (x := (x.signExtend v).sshiftRight n), toInt_ofInt,
      toInt_sshiftRight, toInt_signExtend_of_le h]
  rw [setWidth_eq_of_toInt h hbmod, ← toInt_sshiftRight, ofInt_toInt]

end

/-! ## Comparisons -/

theorem setWidth_inj (h : w ≤ v) {x y : BitVec w} : x.setWidth v = y.setWidth v ↔ x = y :=
  ⟨fun heq => by rw [← setWidth_setWidth_cancel h x, heq, setWidth_setWidth_cancel h],
    fun heq => by rw [heq]⟩

end Jadren.NarrowWords
