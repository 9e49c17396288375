import Jadren.Library.Rounding
import Mathlib.Data.Nat.Bitwise

/-!
# Half-precision literals

The pattern of a Float16 literal is computed from the pattern of the value as a Float32.

The exponent field of the Float32 value selects the path: no exponent field of the result is
needed (`halfExponent ≤ 0`), it fits, or the value is too large.  The first path rounds ties to
the even result.  The second adds half a unit and cuts off, which rounds every tie up, and the path
of the special values looks only at the part of the fraction that is kept, so a NaN whose set
bits are all cut off becomes an infinity.
-/

namespace Jadren.Jir

open Rounding BitVec Format

/-- A Float32 pattern as the Float16 pattern that is written into a literal. -/
def f32ToF16Bits (bits : BitVec 32) : BitVec 16 :=
  let sign : BitVec 16 := ((bits >>> 16) &&& 0x8000#32).setWidth 16
  let exponent : ℤ := ((bits >>> 23) &&& 0xff#32).toNat
  let mantissa : BitVec 32 := bits &&& 0x7fffff#32
  if exponent = 0xff then
    let payload : BitVec 16 := (mantissa >>> 13).setWidth 16
    sign ||| 0x7c00#16 ||| (if payload = 0#16 then 0#16 else payload ||| 1#16)
  else
    let halfExponent := exponent - 127 + 15
    if halfExponent ≥ 31 then sign ||| 0x7c00#16
    else if halfExponent ≤ 0 then
      if halfExponent < -10 then sign
      else
        let mantissa := mantissa ||| 0x800000#32
        let shift := (14 - halfExponent).toNat
        let rounded := mantissa >>> shift
        let roundBit := 1#32 <<< (shift - 1)
        let rounded :=
          if mantissa &&& roundBit ≠ 0#32 ∧
              (mantissa &&& (roundBit - 1#32) ≠ 0#32 ∨ rounded &&& 1#32 ≠ 0#32) then
            rounded + 1#32
          else rounded
        sign ||| rounded.setWidth 16
    else
      let roundedMantissa := mantissa + 0x1000#32
      if roundedMantissa &&& 0x800000#32 ≠ 0#32 then
        if halfExponent + 1 ≥ 31 then sign ||| 0x7c00#16
        else sign ||| (BitVec.ofInt 16 (halfExponent + 1) <<< 10) ||| 0#16
      else
        sign ||| (BitVec.ofInt 16 halfExponent <<< 10) ||| (roundedMantissa >>> 13).setWidth 16

/-! ### Formats -/

/-- Float32: eight bits of exponent, 23 of fraction. -/
def single : Format := ⟨23, 255, 149⟩

/-- Float16: five bits of exponent, ten of fraction. -/
def half : Format := ⟨10, 31, 24⟩

/-- A pattern without its sign bit. -/
def magnitude {w : ℕ} (bits : BitVec w) : ℕ := bits.toNat % 2 ^ (w - 1)

/-- The half-precision patterns that stand for a single-precision pattern: the nearest value with
ties to even, an infinity from the first value on that the exponent field cannot hold, the sign
kept, and a NaN for a NaN. -/
structure CorrectlyRounded (bits : BitVec 32) (result : BitVec 16) : Prop where
  finite : magnitude bits < single.infinity → ∃ p,
    NearestEven half.value (single.value (magnitude bits)) p ∧
      magnitude result = min p half.infinity
  infinite : magnitude bits = single.infinity → magnitude result = half.infinity
  nan : single.infinity < magnitude bits → half.infinity < magnitude result
  sign : magnitude bits ≤ single.infinity → result.msb = bits.msb

/-- The set bits of the fraction of a NaN are all among the 13 that are cut off. -/
def LosesPayload (bits : BitVec 32) : Prop :=
  single.infinity < magnitude bits ∧ magnitude bits < single.infinity + 2 ^ 13

/-- The value lies in the middle of two half-precision values with an exponent field, the lower
of which is the even one. -/
def TieAboveEven (bits : BitVec 32) : Prop :=
  113 * 2 ^ 23 ≤ magnitude bits ∧ magnitude bits < 143 * 2 ^ 23 ∧ magnitude bits % 2 ^ 14 = 2 ^ 12

/-! ### Fields -/

variable (bits : BitVec 32)

theorem signBit_toNat :
    (((bits >>> 16) &&& 0x8000#32).setWidth 16).toNat = bits.toNat / 2 ^ 31 * 2 ^ 15 := by
  have hlt := bits.isLt
  rw [toNat_setWidth, toNat_and, toNat_ushiftRight,
    Nat.shiftRight_eq_div_pow]
  have h : (bits.toNat / 2 ^ 16 &&& (0x8000#32).toNat) = bits.toNat / 2 ^ 31 % 2 * 2 ^ 15 := by
    rw [show (0x8000#32).toNat = 2 ^ 15 from rfl, Nat.and_two_pow, Nat.toNat_testBit,
      Nat.div_div_eq_div_mul, ← Nat.pow_add]
  omega

theorem exponentField_toNat :
    ((bits >>> 23) &&& 0xff#32).toNat = magnitude bits / 2 ^ 23 := by
  rw [toNat_and, toNat_ushiftRight, Nat.shiftRight_eq_div_pow,
    show (0xff#32).toNat = 2 ^ 8 - 1 from rfl, Nat.and_two_pow_sub_one_eq_mod]
  unfold magnitude
  omega

theorem mantissa_toNat :
    (bits &&& 0x7fffff#32).toNat = magnitude bits % 2 ^ 23 := by
  rw [toNat_and, show (0x7fffff#32).toNat = 2 ^ 23 - 1 from rfl,
    Nat.and_two_pow_sub_one_eq_mod]
  unfold magnitude
  omega

theorem signed_toNat {code : BitVec 16} (hcode : code.toNat < 2 ^ 15) :
    ((((bits >>> 16) &&& 0x8000#32).setWidth 16) ||| code).toNat =
      bits.toNat / 2 ^ 31 * 2 ^ 15 + code.toNat := by
  rw [toNat_or, signBit_toNat, Nat.mul_comm, ← Nat.two_pow_add_eq_or_of_lt hcode]

theorem magnitude_signed {code : BitVec 16} (hcode : code.toNat < 2 ^ 15) :
    magnitude ((((bits >>> 16) &&& 0x8000#32).setWidth 16) ||| code) = code.toNat := by
  rw [magnitude, signed_toNat bits hcode, Nat.add_comm, Nat.add_mul_mod_self_right,
    Nat.mod_eq_of_lt hcode]

theorem msb_signed {code : BitVec 16} (hcode : code.toNat < 2 ^ 15) :
    ((((bits >>> 16) &&& 0x8000#32).setWidth 16) ||| code).msb = bits.msb := by
  have hlt := bits.isLt
  rw [msb_eq_decide, msb_eq_decide, signed_toNat bits hcode]
  congr 1
  apply propext
  omega

/-! ### Bit tests -/

theorem and_bit_ne_zero (x : BitVec 32) {k : ℕ} (hk : k < 32) :
    x &&& 1#32 <<< k ≠ 0#32 ↔ x.toNat / 2 ^ k % 2 = 1 := by
  have hpow : 2 ^ k < 2 ^ 32 := Nat.pow_lt_pow_right Nat.one_lt_two hk
  have hbit : (1#32 <<< k).toNat = 2 ^ k := by
    rw [toNat_shiftLeft, Nat.shiftLeft_eq, Nat.mod_eq_of_lt (by simpa using hpow)]
    simp
  rw [ne_eq, ← toNat_inj, toNat_and, hbit, Nat.and_two_pow, Nat.toNat_testBit]
  have := Nat.two_pow_pos k
  rcases Nat.mod_two_eq_zero_or_one (x.toNat / 2 ^ k) with h | h <;> simp [h]

theorem and_mask_ne_zero (x : BitVec 32) {k : ℕ} (hk : k < 32) :
    x &&& (1#32 <<< k - 1#32) ≠ 0#32 ↔ x.toNat % 2 ^ k ≠ 0 := by
  have hpow : 2 ^ k < 2 ^ 32 := Nat.pow_lt_pow_right Nat.one_lt_two hk
  have hmask : (1#32 <<< k - 1#32).toNat = 2 ^ k - 1 := by
    have hone : (1#32).toNat ≤ (1#32 <<< k).toNat := by
      rw [toNat_shiftLeft, Nat.shiftLeft_eq, Nat.mod_eq_of_lt (by simpa using hpow)]
      simpa using Nat.one_le_two_pow
    rw [toNat_sub_of_le hone, toNat_shiftLeft, Nat.shiftLeft_eq,
      Nat.mod_eq_of_lt (by simpa using hpow)]
    simp
  rw [ne_eq, ← toNat_inj, toNat_and, hmask, Nat.and_two_pow_sub_one_eq_mod]
  rfl

/-- The magnitude of the result, by the exponent field and the fraction of the given magnitude. -/
def halfCode (code : ℕ) : ℕ :=
  let exponent := code / 2 ^ 23
  let mantissa := code % 2 ^ 23
  if exponent = 255 then
    31 * 2 ^ 10 + if mantissa / 2 ^ 13 = 0 then 0 else mantissa / 2 ^ 13 ||| 1
  else if 143 ≤ exponent then 31 * 2 ^ 10
  else if exponent < 102 then 0
  else if exponent ≤ 112 then roundEven (2 ^ 23 + mantissa) (2 ^ (126 - exponent))
  else (exponent - 112) * 2 ^ 10 + (mantissa + 2 ^ 12) / 2 ^ 13

theorem special_toNat {payload : BitVec 16} (h : payload.toNat < 2 ^ 10) :
    (0x7c00#16 ||| if payload = 0#16 then 0#16 else payload ||| 1#16).toNat =
      31 * 2 ^ 10 + if payload.toNat = 0 then 0 else payload.toNat ||| 1 := by
  have hzero : payload = 0#16 ↔ payload.toNat = 0 := by rw [← toNat_inj]; rfl
  rw [toNat_or, show (0x7c00#16).toNat = 2 ^ 10 * 31 from rfl]
  simp only [hzero]
  split
  · rfl
  · have hor : payload.toNat ||| 1 < 2 ^ 10 := Nat.or_lt_two_pow h (by decide)
    rw [toNat_or, show (1#16).toNat = 1 from rfl, ← Nat.two_pow_add_eq_or_of_lt hor,
      Nat.mul_comm]

theorem roundUp_iff {n s : ℕ} (hs : 0 < s) :
    n / 2 ^ (s - 1) % 2 = 1 ∧ (n % 2 ^ (s - 1) ≠ 0 ∨ n / 2 ^ s % 2 = 1) ↔
      2 ^ s < 2 * (n % 2 ^ s) ∨ 2 * (n % 2 ^ s) = 2 ^ s ∧ n / 2 ^ s % 2 = 1 := by
  obtain ⟨k, rfl⟩ : ∃ k, s = k + 1 := ⟨s - 1, by omega⟩
  have hpos : 0 < 2 ^ k := Nat.two_pow_pos k
  have hmod : n % 2 ^ (k + 1) = n % 2 ^ k + 2 ^ k * (n / 2 ^ k % 2) := by
    rw [Nat.pow_succ, Nat.mod_mul]
  have hlow : n % 2 ^ k < 2 ^ k := Nat.mod_lt n hpos
  rw [Nat.add_sub_cancel, hmod, Nat.pow_succ]
  rcases Nat.mod_two_eq_zero_or_one (n / 2 ^ k) with h | h <;> rw [h] <;> omega

theorem rounded_toNat {n : BitVec 32} {s : ℕ} (hs : 0 < s) (hs32 : s < 32) :
    (if n &&& 1#32 <<< (s - 1) ≠ 0#32 ∧
        (n &&& (1#32 <<< (s - 1) - 1#32) ≠ 0#32 ∨ n >>> s &&& 1#32 ≠ 0#32) then
      n >>> s + 1#32 else n >>> s).toNat = roundEven n.toNat (2 ^ s) := by
  have hodd : n >>> s &&& 1#32 ≠ 0#32 ↔ n.toNat / 2 ^ s % 2 = 1 := by
    have h := and_bit_ne_zero (n >>> s) (k := 0) (by decide)
    rwa [shiftLeft_zero, pow_zero, Nat.div_one, toNat_ushiftRight,
      Nat.shiftRight_eq_div_pow] at h
  have hn := n.isLt
  have hquot : n.toNat / 2 ^ s < 2 ^ 31 := by
    rw [Nat.div_lt_iff_lt_mul (Nat.two_pow_pos s)]
    have : 2 ^ 1 ≤ 2 ^ s := Nat.pow_le_pow_right (by decide) hs
    omega
  simp only [and_bit_ne_zero n (show s - 1 < 32 by omega),
    and_mask_ne_zero n (show s - 1 < 32 by omega), hodd, roundUp_iff hs, roundEven]
  split
  · rw [toNat_add, toNat_ushiftRight, Nat.shiftRight_eq_div_pow,
      show (1#32).toNat = 1 from rfl, Nat.mod_eq_of_lt (by omega)]
  · rw [toNat_ushiftRight, Nat.shiftRight_eq_div_pow]

theorem magnitude_lt {w : ℕ} (bits : BitVec w) : magnitude bits < 2 ^ (w - 1) :=
  Nat.mod_lt _ (Nat.two_pow_pos _)

theorem or_one_lt {n : ℕ} (h : n < 2 ^ 10) : n ||| 1 < 2 ^ 10 := Nat.or_lt_two_pow h (by decide)

theorem halfCode_lt {code : ℕ} : halfCode code < 2 ^ 15 := by
  have hm : code % 2 ^ 23 < 2 ^ 23 := Nat.mod_lt _ (by decide)
  simp only [halfCode]
  split_ifs with h1 h2 h3 h4 h5
  · decide
  · have := or_one_lt (n := code % 2 ^ 23 / 2 ^ 13) (by omega)
    omega
  · decide
  · decide
  · have hpow : 2 ^ 14 ≤ 2 ^ (126 - code / 2 ^ 23) := Nat.pow_le_pow_right (by decide) (by omega)
    have := roundEven_le (k := 2 ^ 10) (Nat.two_pow_pos (126 - code / 2 ^ 23))
      (n := 2 ^ 23 + code % 2 ^ 23) (by omega)
    omega
  · omega

/-- Each path of the source gives the sign of the value and the arithmetic of `halfCode`. -/
theorem f32ToF16Bits_signed :
    ∃ code : BitVec 16, code.toNat = halfCode (magnitude bits) ∧
      f32ToF16Bits bits = ((bits >>> 16) &&& 0x8000#32).setWidth 16 ||| code := by
  have hmag := magnitude_lt bits
  have hexp := exponentField_toNat bits
  have hman := mantissa_toNat bits
  have hm : magnitude bits % 2 ^ 23 < 2 ^ 23 := Nat.mod_lt _ (by decide)
  unfold f32ToF16Bits halfCode
  generalize bits &&& 0x7fffff#32 = mantissa at *
  generalize ((bits >>> 16) &&& 0x8000#32).setWidth 16 = sign at *
  rw [hexp]
  simp only []
  rw [← hman] at hm ⊢
  generalize magnitude bits / 2 ^ 23 = e at *
  have hshift : (mantissa >>> 13).toNat = mantissa.toNat / 2 ^ 13 := by
    rw [toNat_ushiftRight, Nat.shiftRight_eq_div_pow]
  by_cases hspecial : e = 255
  · have hpayload : ((mantissa >>> 13).setWidth 16).toNat = mantissa.toNat / 2 ^ 13 := by
      rw [toNat_setWidth, hshift]; omega
    rw [if_pos hspecial, if_pos (show (e : ℤ) = 255 by omega), BitVec.or_assoc]
    refine ⟨_, ?_, rfl⟩
    rw [special_toNat (by omega), hpayload]
  rw [if_neg hspecial, if_neg (show (e : ℤ) ≠ 255 by omega)]
  by_cases hlarge : 143 ≤ e
  · rw [if_pos hlarge, if_pos (show (e : ℤ) - 127 + 15 ≥ 31 by omega)]
    exact ⟨_, rfl, rfl⟩
  rw [if_neg hlarge, if_neg (show ¬ (e : ℤ) - 127 + 15 ≥ 31 by omega)]
  by_cases hzero : e < 102
  · rw [if_pos hzero, if_pos (show (e : ℤ) - 127 + 15 ≤ 0 by omega),
      if_pos (show (e : ℤ) - 127 + 15 < -10 by omega)]
    exact ⟨0#16, rfl, BitVec.or_zero.symm⟩
  rw [if_neg hzero]
  by_cases hsmall : e ≤ 112
  · -- the implicit bit is made explicit, and the result has no exponent field
    rw [if_pos hsmall, if_pos (show (e : ℤ) - 127 + 15 ≤ 0 by omega),
      if_neg (show ¬ (e : ℤ) - 127 + 15 < -10 by omega)]
    refine ⟨_, ?_, rfl⟩
    have hs : (14 - ((e : ℤ) - 127 + 15)).toNat = 126 - e := by omega
    have hfull : (mantissa ||| 0x800000#32).toNat = 2 ^ 23 + mantissa.toNat := by
      rw [toNat_or, Nat.lor_comm, show (0x800000#32).toNat = 2 ^ 23 * 1 from rfl,
        ← Nat.two_pow_add_eq_or_of_lt hm, Nat.mul_one]
    have hpow : 2 ^ 14 ≤ 2 ^ (126 - e) := Nat.pow_le_pow_right (by decide) (by omega)
    have hle := roundEven_le (k := 2 ^ 10) (Nat.two_pow_pos (126 - e))
      (n := 2 ^ 23 + mantissa.toNat) (by omega)
    rw [hs, toNat_setWidth, rounded_toNat (by omega) (by omega), hfull]
    omega
  -- the result has an exponent field
  rw [if_neg hsmall, if_neg (show ¬ (e : ℤ) - 127 + 15 ≤ 0 by omega)]
  have hexpField : ∀ n : ℕ, n < 32 → (BitVec.ofInt 16 (n : ℤ) <<< 10).toNat = n * 2 ^ 10 := by
    intro n hn
    rw [toNat_shiftLeft, ofInt_natCast, toNat_ofNat, Nat.shiftLeft_eq]
    omega
  have hadd : (mantissa + 0x1000#32).toNat = mantissa.toNat + 2 ^ 12 := by
    rw [toNat_add, show (0x1000#32).toNat = 2 ^ 12 from rfl]
    omega
  have hcarry : mantissa + 0x1000#32 &&& 0x800000#32 ≠ 0#32 ↔ 2 ^ 23 ≤ mantissa.toNat + 2 ^ 12 := by
    rw [show 0x800000#32 = 1#32 <<< 23 from rfl, and_bit_ne_zero _ (by decide), hadd]
    omega
  by_cases hc : 2 ^ 23 ≤ mantissa.toNat + 2 ^ 12
  · have hquot : (mantissa.toNat + 2 ^ 12) / 2 ^ 13 = 2 ^ 10 := by omega
    rw [if_pos (hcarry.mpr hc), hquot]
    by_cases hover : 142 ≤ e
    · obtain rfl : e = 142 := by omega
      exact ⟨_, rfl, rfl⟩
    · have hnext : (e : ℤ) - 127 + 15 + 1 = ((e - 111 : ℕ) : ℤ) := by omega
      rw [if_neg (show ¬ (e : ℤ) - 127 + 15 + 1 ≥ 31 by omega), BitVec.or_zero, hnext]
      refine ⟨_, ?_, rfl⟩
      rw [hexpField _ (by omega)]
      omega
  · have hsame : (e : ℤ) - 127 + 15 = ((e - 112 : ℕ) : ℤ) := by omega
    rw [if_neg (mt hcarry.mp hc), BitVec.or_assoc, hsame]
    refine ⟨_, ?_, rfl⟩
    have hfraction : (mantissa.toNat + 2 ^ 12) / 2 ^ 13 < 2 ^ 10 := by omega
    rw [toNat_or, hexpField _ (by omega), toNat_setWidth, toNat_ushiftRight,
      hadd, Nat.shiftRight_eq_div_pow, Nat.mod_eq_of_lt (by omega), Nat.mul_comm,
      ← Nat.two_pow_add_eq_or_of_lt hfraction]

/-! ### Nearest half-precision values -/

section Nearest

variable {code p : ℕ}

theorem single_value (hcode : 2 ^ 23 ≤ code) :
    single.value code = (2 ^ 23 + code % 2 ^ 23 : ℕ) * 2 ^ (code / 2 ^ 23 - 1) / 2 ^ 149 := by
  have hexponent : 0 < code / 2 ^ 23 := Nat.div_pos hcode (by decide)
  have hunits := units_add (F := single) hexponent (Nat.mod_lt code (by decide)).le
  have hsplit : code / 2 ^ 23 * 2 ^ single.fraction + code % 2 ^ single.fraction = code := by
    rw [Nat.mul_comm]; exact Nat.div_add_mod code (2 ^ 23)
  rw [hsplit] at hunits
  rw [value, hunits]
  push_cast
  rfl

/-- The value of a result without exponent field is its number of units. -/
theorem half_value_small (hp : p ≤ 2 ^ 10) : half.value p = (p : ℚ) * (1 / 2 ^ 24) := by
  rw [value, units_of_le (F := half) hp, mul_one_div]
  rfl

theorem half_value_normal {exponent t : ℕ} (hexponent : 0 < exponent) (ht : t ≤ 2 ^ 10) :
    half.value (exponent * 2 ^ 10 + t) =
      ((2 ^ 10 + t : ℕ) : ℚ) * (2 ^ (exponent - 1) / 2 ^ 24) := by
  have hunits := units_add (F := half) hexponent ht
  rw [value, show exponent * 2 ^ 10 + t = exponent * 2 ^ half.fraction + t from rfl, hunits]
  push_cast
  rw [mul_div_assoc]
  rfl

/-- Above the smallest value with an exponent field 13 bits of the fraction are cut off. -/
theorem nearest_normal (hcode : 113 * 2 ^ 23 ≤ code) :
    NearestEven half.value (single.value code) p ↔
      (p = (code - 112 * 2 ^ 23) / 2 ^ 13 ∧ 2 * (code % 2 ^ 13) ≤ 2 ^ 13 ∨
        p = (code - 112 * 2 ^ 23) / 2 ^ 13 + 1 ∧ 2 ^ 13 ≤ 2 * (code % 2 ^ 13)) ∧
      (2 * (code % 2 ^ 13) = 2 ^ 13 → Even p) := by
  have hm : code % 2 ^ 23 < 2 ^ 23 := Nat.mod_lt _ (by decide)
  obtain ⟨k, hk⟩ : ∃ k, code / 2 ^ 23 = k + 113 := ⟨code / 2 ^ 23 - 113, by omega⟩
  have hfloor : (code - 112 * 2 ^ 23) / 2 ^ 13 = (k + 1) * 2 ^ 10 + code % 2 ^ 23 / 2 ^ 13 := by
    omega
  have hquot : (2 ^ 23 + code % 2 ^ 23) / 2 ^ 13 = 2 ^ 10 + code % 2 ^ 23 / 2 ^ 13 := by omega
  have hrest : code % 2 ^ 13 = (2 ^ 23 + code % 2 ^ 23) % 2 ^ 13 := by omega
  rw [hrest, hfloor]
  have hunit : (0 : ℚ) < 2 ^ k / 2 ^ 24 := by positivity
  refine nearestEven_quotient value_strictMono hunit (by decide) ?_ ?_ ?_
  · rw [half_value_normal (by omega) (by omega), hquot]
    rfl
  · rw [Nat.add_assoc, half_value_normal (by omega) (by omega), hquot]
    push_cast
    rw [add_assoc]
  · have hpow : code / 2 ^ 23 - 1 = k + 112 := by omega
    rw [single_value (by omega), hpow, pow_add]
    push_cast
    ring

/-- Below it the quotient by a power of two is a number of units. -/
theorem nearest_small (hcode : 2 ^ 23 ≤ code) (hsmall : code < 113 * 2 ^ 23) :
    NearestEven half.value (single.value code) p ↔
      p = roundEven (2 ^ 23 + code % 2 ^ 23) (2 ^ (126 - code / 2 ^ 23)) := by
  have hm : code % 2 ^ 23 < 2 ^ 23 := Nat.mod_lt _ (by decide)
  obtain ⟨s, hs, hs14⟩ : ∃ s, 126 - code / 2 ^ 23 = s ∧ 14 ≤ s := ⟨_, rfl, by omega⟩
  have hpow : 2 ^ 14 ≤ 2 ^ s := Nat.pow_le_pow_right (by decide) hs14
  have hquot : (2 ^ 23 + code % 2 ^ 23) / 2 ^ s < 2 ^ 10 := by
    rw [Nat.div_lt_iff_lt_mul (Nat.two_pow_pos s)]
    omega
  rw [hs]
  refine nearestEven_roundEven value_strictMono (by positivity) (by positivity)
    (half_value_small hquot.le) ?_ ?_
  · rw [half_value_small hquot, Nat.cast_succ]
  · have hpow : code / 2 ^ 23 - 1 + s = 125 := by omega
    rw [single_value hcode, Nat.cast_pow, Nat.cast_ofNat]
    calc ((2 ^ 23 + code % 2 ^ 23 : ℕ) : ℚ) * 2 ^ (code / 2 ^ 23 - 1) / 2 ^ 149 * 2 ^ s
        = ((2 ^ 23 + code % 2 ^ 23 : ℕ) : ℚ) * 2 ^ (code / 2 ^ 23 - 1 + s) / 2 ^ 149 := by ring
      _ = ((2 ^ 23 + code % 2 ^ 23 : ℕ) : ℚ) * (1 / 2 ^ 24) := by rw [hpow]; ring

/-- Values without an exponent field are far below the smallest result. -/
theorem nearest_zero (hcode : code < 2 ^ 23) :
    NearestEven half.value (single.value code) p ↔ p = 0 := by
  have hquot : code / 2 ^ 125 = 0 := Nat.div_eq_of_lt (by omega)
  have hround : roundEven code (2 ^ 125) = 0 := by
    rw [roundEven, hquot, Nat.mod_eq_of_lt (by omega), if_neg (by omega)]
  rw [← hround]
  have hunit : (0 : ℚ) < 1 / 2 ^ 24 := by positivity
  refine nearestEven_roundEven value_strictMono hunit (by positivity) ?_ ?_ ?_
  · rw [hquot, half_value_small (by decide)]
  · rw [hquot, half_value_small (by decide), Nat.cast_add, Nat.cast_one]
  · rw [value, units_of_le (F := single) hcode.le, Nat.cast_pow, Nat.cast_ofNat,
      show single.scale = 149 from rfl]
    ring

/-- Where the result has no exponent field it is the nearest value. -/
theorem halfCode_small (hcode : code < 113 * 2 ^ 23) :
    NearestEven half.value (single.value code) (halfCode code) ∧
      halfCode code = min (halfCode code) half.infinity := by
  have hm : code % 2 ^ 23 < 2 ^ 23 := Nat.mod_lt _ (by decide)
  have hinf : half.infinity = 31 * 2 ^ 10 := rfl
  have hle : roundEven (2 ^ 23 + code % 2 ^ 23) (2 ^ (126 - code / 2 ^ 23)) ≤ 2 ^ 10 := by
    have hpow : 2 ^ 14 ≤ 2 ^ (126 - code / 2 ^ 23) := Nat.pow_le_pow_right (by decide) (by omega)
    exact roundEven_le (Nat.two_pow_pos _) (by omega)
  have hcases : halfCode code =
      if code / 2 ^ 23 < 102 then 0
      else roundEven (2 ^ 23 + code % 2 ^ 23) (2 ^ (126 - code / 2 ^ 23)) := by
    simp only [halfCode]
    rw [if_neg (by omega), if_neg (by omega)]
    split
    · rfl
    · exact if_pos (by omega)
  rw [hcases]
  split
  next hlow =>
    refine ⟨?_, by omega⟩
    rcases Nat.lt_or_ge code (2 ^ 23) with hzero | hexponent
    · exact (nearest_zero hzero).mpr rfl
    · -- the divisor is more than twice the dividend
      have hpow : 2 ^ 25 ≤ 2 ^ (126 - code / 2 ^ 23) := Nat.pow_le_pow_right (by decide) (by omega)
      have hquot : (2 ^ 23 + code % 2 ^ 23) / 2 ^ (126 - code / 2 ^ 23) = 0 :=
        Nat.div_eq_of_lt (by omega)
      have hrest : (2 ^ 23 + code % 2 ^ 23) % 2 ^ (126 - code / 2 ^ 23) = 2 ^ 23 + code % 2 ^ 23 :=
        Nat.mod_eq_of_lt (by omega)
      rw [nearest_small hexponent hcode, roundEven, hquot, hrest, if_neg (by omega)]
  next => exact ⟨(nearest_small (by omega) hcode).mpr rfl, by omega⟩

/-- With an exponent field every tie goes up, which is wrong where the lower value is even. -/
theorem halfCode_normal (hlow : 113 * 2 ^ 23 ≤ code) (hhigh : code < 143 * 2 ^ 23) :
    (∃ p, NearestEven half.value (single.value code) p ∧ halfCode code = min p half.infinity) ↔
      code % 2 ^ 14 ≠ 2 ^ 12 := by
  have hinf : half.infinity = 31 * 2 ^ 10 := rfl
  have hcode : halfCode code = (code - 112 * 2 ^ 23 + 2 ^ 12) / 2 ^ 13 := by
    simp only [halfCode]
    rw [if_neg (by omega), if_neg (by omega), if_neg (by omega), if_neg (by omega)]
    omega
  simp only [nearest_normal hlow, hcode, hinf, Nat.even_iff]
  constructor
  · rintro ⟨p, ⟨hp, heven⟩, hmin⟩
    omega
  · intro htie
    exact ⟨(code - 112 * 2 ^ 23 + 2 ^ 12) / 2 ^ 13, ⟨by omega, by omega⟩, by omega⟩

/-- Above the range of the exponent field the result is an infinity. -/
theorem halfCode_large (hlow : 143 * 2 ^ 23 ≤ code) (hhigh : code < 255 * 2 ^ 23) :
    ∃ p, NearestEven half.value (single.value code) p ∧ halfCode code = min p half.infinity := by
  have hinf : half.infinity = 31 * 2 ^ 10 := rfl
  have hcode : halfCode code = 31 * 2 ^ 10 := by
    simp only [halfCode]
    rw [if_neg (by omega), if_pos (by omega)]
  simp only [nearest_normal (show 113 * 2 ^ 23 ≤ code by omega), hcode, hinf, Nat.even_iff]
  by_cases hup : 2 ^ 13 < 2 * (code % 2 ^ 13) ∨
      2 * (code % 2 ^ 13) = 2 ^ 13 ∧ (code - 112 * 2 ^ 23) / 2 ^ 13 % 2 = 1
  · exact ⟨(code - 112 * 2 ^ 23) / 2 ^ 13 + 1, ⟨by omega, by omega⟩, by omega⟩
  · exact ⟨(code - 112 * 2 ^ 23) / 2 ^ 13, ⟨by omega, by omega⟩, by omega⟩

end Nearest

theorem halfCode_infinity : halfCode single.infinity = half.infinity := by decide

/-- The patterns above the infinity stay above it as long as a bit of the fraction is kept. -/
theorem halfCode_nan {code : ℕ} (hcode : single.infinity < code) (hbound : code < 2 ^ 31) :
    half.infinity < halfCode code ↔ single.infinity + 2 ^ 13 ≤ code := by
  have hsingle : single.infinity = 255 * 2 ^ 23 := rfl
  have hhalf : half.infinity = 31 * 2 ^ 10 := rfl
  simp only [halfCode]
  rw [if_pos (by omega), hsingle, hhalf]
  have hor : 0 < code % 2 ^ 23 / 2 ^ 13 ||| 1 := Nat.lt_of_lt_of_le Nat.one_pos Nat.right_le_or
  split <;> omega

/-- The result is the correctly rounded one except for a NaN that loses all its set bits and for
a tie above an even value. -/
theorem f32ToF16Bits_correct_iff (bits : BitVec 32) :
    CorrectlyRounded bits (f32ToF16Bits bits) ↔ ¬ LosesPayload bits ∧ ¬ TieAboveEven bits := by
  obtain ⟨code, hcode, hresult⟩ := f32ToF16Bits_signed bits
  have hlt : code.toNat < 2 ^ 15 := hcode ▸ halfCode_lt
  have hmag : magnitude (f32ToF16Bits bits) = halfCode (magnitude bits) := by
    rw [hresult, magnitude_signed bits hlt, hcode]
  have hmsb : (f32ToF16Bits bits).msb = bits.msb := by rw [hresult, msb_signed bits hlt]
  have hbound := magnitude_lt bits
  have hsingle : single.infinity = 255 * 2 ^ 23 := rfl
  unfold LosesPayload TieAboveEven
  constructor
  · intro h
    constructor
    · rintro ⟨hnan, hlost⟩
      have habove := h.nan hnan
      rw [hmag, halfCode_nan hnan hbound] at habove
      omega
    · rintro ⟨hlow, hhigh, htie⟩
      have hfinite := h.finite (by omega)
      rw [hmag] at hfinite
      exact (halfCode_normal hlow hhigh).mp hfinite htie
  · rintro ⟨hpayload, htie⟩
    refine ⟨fun hfinite => ?_, fun hinf => ?_, fun hnan => ?_, fun _ => hmsb⟩
    · rw [hmag]
      rcases Nat.lt_or_ge (magnitude bits) (113 * 2 ^ 23) with hsmall | hlow
      · exact ⟨_, halfCode_small hsmall⟩
      rcases Nat.lt_or_ge (magnitude bits) (143 * 2 ^ 23) with hhigh | hlarge
      · exact (halfCode_normal hlow hhigh).mpr fun h => htie ⟨hlow, hhigh, h⟩
      · exact halfCode_large hlarge (by omega)
    · rw [hmag, hinf, halfCode_infinity]
    · rw [hmag, halfCode_nan hnan hbound]
      omega

/-- Halfway between 1 and the next half-precision value the larger one is returned, although the
pattern of 1 is even. -/
theorem tie_above_one_rounds_up :
    f32ToF16Bits 0x3f801000#32 = 0x3c01#16 ∧
      ¬ CorrectlyRounded 0x3f801000#32 (f32ToF16Bits 0x3f801000#32) := by
  have hbits : magnitude (0x3f801000#32) = 0x3f801000 := rfl
  refine ⟨by decide, fun h => ?_⟩
  have hresult : magnitude (f32ToF16Bits 0x3f801000#32) = 0x3c01 := by decide
  obtain ⟨p, hp, hmin⟩ := h.finite (by decide)
  rw [hbits, nearest_normal (by decide)] at hp
  have hinf : half.infinity = 31 * 2 ^ 10 := rfl
  have heven := Nat.even_iff.mp (hp.2 (by decide))
  omega

end Jadren.Jir
