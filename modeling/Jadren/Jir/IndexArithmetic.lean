import Jadren.Jir.Values
import Mathlib.Data.Int.ModEq
import Mathlib.Tactic.Linarith

/-!
# The arithmetic of bounds checks

A bounds check compares two bit patterns, and address arithmetic reads a bit pattern as
a signed number, modulo the size of the address space.  `arrayIndexes_iff` and
`viewIndexes_iff` say for which lengths both agree with the number that an index stands
for, whatever the index is.
-/

namespace Jadren.Jir

/-! ## The numbers of a type -/

/-- The number a bit pattern of an integer type stands for. -/
def mathValue (signed : Bool) (bits pattern : ℕ) : ℤ :=
  if signed then signedValue bits pattern else pattern

theorem signedValue_modEq (bits pattern : ℕ) :
    signedValue bits pattern ≡ pattern [ZMOD 2 ^ bits] := by
  unfold signedValue
  split
  · rfl
  · exact Int.ModEq.symm (Int.modEq_iff_dvd.mpr ⟨-1, by ring⟩)

theorem mathValue_modEq (signed : Bool) (bits pattern : ℕ) :
    mathValue signed bits pattern ≡ pattern [ZMOD 2 ^ bits] := by
  cases signed with
  | false => rfl
  | true => exact signedValue_modEq bits pattern

theorem encode_modEq (bits : ℕ) (value : ℤ) : (encode bits value : ℤ) ≡ value [ZMOD 2 ^ bits] := by
  have hpos : (0 : ℤ) < 2 ^ bits := by positivity
  rw [encode, Int.toNat_of_nonneg (Int.emod_nonneg _ hpos.ne')]
  exact Int.mod_modEq _ _

theorem encode_natCast (bits n : ℕ) : encode bits n = n % 2 ^ bits := by
  have hcast : ((n : ℤ) % 2 ^ bits) = ((n % 2 ^ bits : ℕ) : ℤ) := by push_cast; rfl
  rw [encode, hcast, Int.toNat_natCast]

variable {bits : ℕ}

/-- A negative number that fits is encoded by adding the modulus. -/
theorem encode_of_neg {value : ℤ} (hneg : value < 0) (hfits : -2 ^ bits ≤ value) :
    (encode bits value : ℤ) = value + 2 ^ bits := by
  have hpos : (0 : ℤ) < 2 ^ bits := by positivity
  rw [encode, Int.toNat_of_nonneg (Int.emod_nonneg _ hpos.ne'), ← Int.add_emod_right,
    Int.emod_eq_of_lt (by omega) (by omega)]

theorem two_pow_eq_double (hbits : 0 < bits) : 2 ^ bits = 2 * 2 ^ (bits - 1) := by
  obtain ⟨n, rfl⟩ := Nat.exists_eq_succ_of_ne_zero hbits.ne'
  simp [pow_succ, Nat.mul_comm]

variable {pattern : ℕ}

theorem signedValue_of_lt (h : pattern < 2 ^ (bits - 1)) :
    signedValue bits pattern = pattern := if_pos h

theorem signedValue_of_le (h : 2 ^ (bits - 1) ≤ pattern) :
    signedValue bits pattern = pattern - 2 ^ bits := if_neg (Nat.not_lt.mpr h)

/-- The number is the index of an element. -/
def InRange (value : ℤ) (length : ℕ) : Prop := 0 ≤ value ∧ value < length

instance (value : ℤ) (length : ℕ) : Decidable (InRange value length) :=
  inferInstanceAs (Decidable (_ ∧ _))

variable {length : ℕ}

theorem inRange_natCast : InRange (pattern : ℤ) length ↔ pattern < length := by
  unfold InRange
  omega

theorem inRange_signedValue (hpattern : pattern < 2 ^ bits) :
    InRange (signedValue bits pattern) length ↔ pattern < 2 ^ (bits - 1) ∧ pattern < length := by
  have hcast : (pattern : ℤ) < 2 ^ bits := by exact_mod_cast hpattern
  unfold InRange signedValue
  split <;> omega

/-! ## The index of an inline array

The length is a constant of the index's type, so it is compared modulo a power of two, and
the element is addressed by the index read as a signed number. -/

/-- The checks and addresses of an inline array are right for one index. -/
def ArrayIndexes (signed : Bool) (bits length stride pointerBits pattern : ℕ) : Prop :=
  (pattern < length % 2 ^ bits ↔ InRange (mathValue signed bits pattern) length) ∧
    (InRange (mathValue signed bits pattern) length →
      signedValue bits pattern * stride ≡ mathValue signed bits pattern * stride
        [ZMOD 2 ^ pointerBits])

/-- The lengths for which they are right for all indices. -/
def ArrayFits (signed : Bool) (bits length stride pointerBits : ℕ) : Prop :=
  length ≤ 2 ^ (bits - 1) ∨
    if signed then length % 2 ^ bits = 2 ^ (bits - 1)
    else length < 2 ^ bits ∧ 2 ^ pointerBits ∣ 2 ^ bits * stride

variable {signed : Bool} {stride pointerBits : ℕ}

theorem arrayIndexes_of_small (hbits : 0 < bits) (hlength : length ≤ 2 ^ (bits - 1))
    (hpattern : pattern < 2 ^ bits) :
    ArrayIndexes signed bits length stride pointerBits pattern := by
  have hdouble := two_pow_eq_double hbits
  have hmod : length % 2 ^ bits = length := Nat.mod_eq_of_lt (by omega)
  cases signed with
  | false =>
      refine ⟨by rw [hmod]; exact inRange_natCast.symm, fun hrange => ?_⟩
      have hlt : pattern < length := inRange_natCast.mp hrange
      rw [signedValue_of_lt (by omega)]
      rfl
  | true =>
      refine ⟨?_, fun _ => rfl⟩
      rw [hmod, mathValue, if_pos rfl, inRange_signedValue hpattern]
      omega

theorem arrayIndexes_signed_iff (hbits : 0 < bits) :
    (∀ pattern < 2 ^ bits, ArrayIndexes true bits length stride pointerBits pattern) ↔
      ArrayFits true bits length stride pointerBits := by
  have hdouble := two_pow_eq_double hbits
  have hmodLt : length % 2 ^ bits < 2 ^ bits := Nat.mod_lt _ (by positivity)
  have hmodLe : length % 2 ^ bits ≤ length := Nat.mod_le _ _
  constructor
  · intro h
    by_contra hfits
    obtain ⟨hlarge, hne⟩ := not_or.mp hfits
    rw [if_pos rfl] at hne
    -- the first negative index, and the last one before the half, tell the two bounds apart
    have hfirst := (h (2 ^ (bits - 1)) (by omega)).1
    rw [mathValue, if_pos rfl, inRange_signedValue (by omega)] at hfirst
    have hlast := (h (2 ^ (bits - 1) - 1) (by omega)).1
    rw [mathValue, if_pos rfl, inRange_signedValue (by omega)] at hlast
    have hhalf : 0 < 2 ^ (bits - 1) := by positivity
    omega
  · intro hfits pattern hpattern
    rcases hfits with hsmall | hhalf
    · exact arrayIndexes_of_small hbits hsmall hpattern
    · rw [if_pos rfl] at hhalf
      refine ⟨?_, fun _ => rfl⟩
      rw [hhalf, mathValue, if_pos rfl, inRange_signedValue hpattern]
      omega

theorem arrayIndexes_unsigned_iff (hbits : 0 < bits) :
    (∀ pattern < 2 ^ bits, ArrayIndexes false bits length stride pointerBits pattern) ↔
      ArrayFits false bits length stride pointerBits := by
  have hdouble := two_pow_eq_double hbits
  have hmodLt : length % 2 ^ bits < 2 ^ bits := Nat.mod_lt _ (by positivity)
  have hvalue : ∀ pattern : ℕ, mathValue false bits pattern = pattern := fun _ => rfl
  constructor
  · intro h
    rw [ArrayFits, if_neg Bool.false_ne_true, or_iff_not_imp_left, not_le]
    intro hlarge
    -- the pattern of the truncated length would pass a check it should not
    have hlength : length < 2 ^ bits := by
      have hcheck := (h (length % 2 ^ bits) hmodLt).1
      rw [hvalue, inRange_natCast] at hcheck
      by_contra hge
      exact absurd (hcheck.mpr (by omega)) (lt_irrefl _)
    refine ⟨hlength, ?_⟩
    -- the least pattern that is read as negative
    have haddress := (h (2 ^ (bits - 1)) (by omega)).2
    rw [hvalue, inRange_natCast, signedValue_of_le le_rfl] at haddress
    have hdvd := (haddress hlarge).dvd
    have heq : ((2 ^ (bits - 1) : ℕ) : ℤ) * stride
        - (((2 ^ (bits - 1) : ℕ) : ℤ) - 2 ^ bits) * stride = ((2 ^ bits * stride : ℕ) : ℤ) := by
      push_cast
      ring
    rw [heq] at hdvd
    exact_mod_cast hdvd
  · intro hfits pattern hpattern
    rcases hfits with hsmall | hrest
    · exact arrayIndexes_of_small hbits hsmall hpattern
    · rw [if_neg Bool.false_ne_true] at hrest
      obtain ⟨hlength, hdvd⟩ := hrest
      rw [ArrayIndexes, hvalue, inRange_natCast, Nat.mod_eq_of_lt hlength]
      refine ⟨Iff.rfl, fun _ => ?_⟩
      rcases Nat.lt_or_ge pattern (2 ^ (bits - 1)) with hlt | hge
      · rw [signedValue_of_lt hlt]
      · rw [signedValue_of_le hge]
        apply Int.modEq_iff_dvd.mpr
        calc (2 ^ pointerBits : ℤ) ∣ ((2 ^ bits * stride : ℕ) : ℤ) := by exact_mod_cast hdvd
          _ = pattern * stride - (pattern - 2 ^ bits) * stride := by push_cast; ring

/-- The lengths for which an inline array is indexed right. -/
theorem arrayIndexes_iff (hbits : 0 < bits) :
    (∀ pattern < 2 ^ bits, ArrayIndexes signed bits length stride pointerBits pattern) ↔
      ArrayFits signed bits length stride pointerBits := by
  cases signed with
  | false => exact arrayIndexes_unsigned_iff hbits
  | true => exact arrayIndexes_signed_iff hbits

/-! ## The index of a descriptor -/

/-- The index at the width of a pointer. -/
def sizePattern (signed : Bool) (bits pointerBits pattern : ℕ) : ℕ :=
  if bits < pointerBits ∧ signed then encode pointerBits (signedValue bits pattern) else pattern

theorem sizePattern_modEq (hle : bits ≤ pointerBits) :
    (sizePattern signed bits pointerBits pattern : ℤ) ≡ mathValue signed bits pattern
      [ZMOD 2 ^ pointerBits] := by
  unfold sizePattern
  split
  next h =>
    rw [mathValue, if_pos h.2]
    exact encode_modEq _ _
  next h =>
    cases signed with
    | false => rfl
    | true =>
        have heq : bits = pointerBits := by simp at h; omega
        subst heq
        exact (mathValue_modEq true bits pattern).symm

/-- The checks of a view are right for one index. -/
def ViewIndexes (signed : Bool) (bits length pointerBits pattern : ℕ) : Prop :=
  sizePattern signed bits pointerBits pattern < length ↔
    InRange (mathValue signed bits pattern) length

/-- A negative index becomes a number past the end of the view. -/
def ViewFits (signed : Bool) (bits length pointerBits : ℕ) : Prop :=
  signed = true → length + 2 ^ (bits - 1) ≤ 2 ^ pointerBits

theorem sizePattern_of_nonneg (hbits : 0 < bits) (hle : bits ≤ pointerBits)
    (hlt : pattern < 2 ^ (bits - 1)) : sizePattern true bits pointerBits pattern = pattern := by
  have hdouble := two_pow_eq_double hbits
  have hpow : 2 ^ bits ≤ 2 ^ pointerBits := Nat.pow_le_pow_right (by decide) hle
  unfold sizePattern
  split
  · rw [signedValue_of_lt hlt, encode_natCast, Nat.mod_eq_of_lt (by omega)]
  · rfl

theorem sizePattern_of_neg (hle : bits ≤ pointerBits) (hge : 2 ^ (bits - 1) ≤ pattern)
    (hpattern : pattern < 2 ^ bits) :
    sizePattern true bits pointerBits pattern + 2 ^ bits = pattern + 2 ^ pointerBits := by
  have hpow : 2 ^ bits ≤ 2 ^ pointerBits := Nat.pow_le_pow_right (by decide) hle
  unfold sizePattern
  split
  next =>
    have hcast : (pattern : ℤ) < 2 ^ bits := by exact_mod_cast hpattern
    have hcastPow : (2 : ℤ) ^ bits ≤ 2 ^ pointerBits := by exact_mod_cast hpow
    have hencode : (encode pointerBits (pattern - 2 ^ bits) : ℤ) =
        pattern - 2 ^ bits + 2 ^ pointerBits := encode_of_neg (by omega) (by omega)
    rw [signedValue_of_le hge]
    zify
    omega
  next h =>
    have heq : bits = pointerBits := by simp at h; omega
    rw [heq]

/-- The lengths for which a view is indexed right. -/
theorem viewIndexes_iff (hbits : 0 < bits) (hle : bits ≤ pointerBits) :
    (∀ pattern < 2 ^ bits, ViewIndexes signed bits length pointerBits pattern) ↔
      ViewFits signed bits length pointerBits := by
  have hdouble := two_pow_eq_double hbits
  cases signed with
  | false =>
      have hall : ∀ pattern : ℕ, ViewIndexes false bits length pointerBits pattern := fun pattern =>
        by simp [ViewIndexes, sizePattern, mathValue, inRange_natCast]
      exact ⟨fun _ h => absurd h Bool.false_ne_true, fun _ pattern _ => hall pattern⟩
  | true =>
      constructor
      · intro h _
        have hhalf : 0 < 2 ^ (bits - 1) := by positivity
        have hcheck := h (2 ^ (bits - 1)) (by omega)
        have hsize := sizePattern_of_neg hle le_rfl (by omega)
        rw [ViewIndexes, mathValue, if_pos rfl, inRange_signedValue (by omega)] at hcheck
        omega
      · intro hfits pattern hpattern
        have hlength := hfits rfl
        rw [ViewIndexes, mathValue, if_pos rfl, inRange_signedValue hpattern]
        rcases Nat.lt_or_ge pattern (2 ^ (bits - 1)) with hlt | hge
        · rw [sizePattern_of_nonneg hbits hle hlt]
          omega
        · have hsize := sizePattern_of_neg hle hge hpattern
          omega

end Jadren.Jir
