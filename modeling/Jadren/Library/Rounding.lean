import Mathlib.Data.Nat.Cast.Order.Field
import Mathlib.Tactic.FieldSimp
import Mathlib.Tactic.Linarith
import Mathlib.Tactic.Positivity
import Mathlib.Tactic.Ring

/-!
# Rounding to the nearest code

The values of a number format are listed by their codes, in increasing order.  A code is the
rounding of `x` if no code has a nearer value, and if it is even where another code is as near.

* `nearestEven_between`: with `x` between the values of two neighbouring codes, the rounding is
  decided by the side of their midpoint on which `x` lies, and at the midpoint by parity;
* `nearestEven_quotient`: where the two values are consecutive multiples of one unit and `x` is a
  quotient of units, the remainder of the division decides;
* `Format`: the binary interchange formats, whose magnitude codes are in the order of their
  values (`Format.value_strictMono`).
-/

namespace Jadren.Rounding

section Nearest

variable {α : Type*} [Field α] [LinearOrder α] [IsStrictOrderedRing α]

/-- Code `p` is the rounding of `x` to the nearest value, ties going to the even code. -/
structure NearestEven (value : ℕ → α) (x : α) (p : ℕ) : Prop where
  nearest : ∀ q, |x - value p| ≤ |x - value q|
  even : ∀ q ≠ p, |x - value q| = |x - value p| → Even p

/-- Of two values the lower is at least as near exactly if `x` is not above their midpoint. -/
theorem abs_sub_le_iff {x a b : α} (hab : a < b) : |x - a| ≤ |x - b| ↔ 2 * x ≤ a + b := by
  constructor
  · intro h
    rcases abs_cases (x - a) with ⟨ha, _⟩ | ⟨ha, _⟩ <;>
      rcases abs_cases (x - b) with ⟨hb, _⟩ | ⟨hb, _⟩ <;> rw [ha, hb] at h <;> linarith
  · intro h
    rw [abs_le]
    rcases abs_cases (x - b) with ⟨hb, _⟩ | ⟨hb, _⟩ <;> rw [hb] <;> constructor <;> linarith

/-- The higher of two values is at least as near exactly if `x` is not below their midpoint. -/
theorem abs_sub_le_iff' {x a b : α} (hab : a < b) : |x - b| ≤ |x - a| ↔ a + b ≤ 2 * x := by
  have h := abs_sub_le_iff (x := -x) (neg_lt_neg hab)
  rw [← abs_neg (-x - -b), ← abs_neg (-x - -a)] at h
  rw [show x - b = -(-x - -b) by ring, show x - a = -(-x - -a) by ring, h]
  constructor <;> intro h <;> linarith

theorem abs_sub_eq_iff {x a b : α} (hab : a < b) : |x - a| = |x - b| ↔ 2 * x = a + b := by
  rw [le_antisymm_iff, abs_sub_le_iff hab, abs_sub_le_iff' hab, ← le_antisymm_iff]

variable {value : ℕ → α} {x : α} {p f : ℕ}

/-- Only the two neighbours of a code can be nearer than it. -/
theorem nearestEven_iff (hvalue : StrictMono value) :
    NearestEven value x p ↔
      (∀ q, q + 1 = p → value q + value p ≤ 2 * x ∧ (2 * x = value q + value p → Even p)) ∧
      2 * x ≤ value p + value (p + 1) ∧ (2 * x = value p + value (p + 1) → Even p) := by
  constructor
  · intro h
    have hnext : value p < value (p + 1) := hvalue (Nat.lt_succ_self p)
    refine ⟨?_, (abs_sub_le_iff hnext).mp (h.nearest _), ?_⟩
    · rintro q rfl
      have hbelow : value q < value (q + 1) := hvalue (Nat.lt_succ_self q)
      refine ⟨(abs_sub_le_iff' hbelow).mp (h.nearest q), fun htie => ?_⟩
      exact h.even q (by omega) ((abs_sub_eq_iff hbelow).mpr htie)
    · intro htie
      exact h.even (p + 1) (by omega) ((abs_sub_eq_iff hnext).mpr htie).symm
  · rintro ⟨hbelow, habove, heven⟩
    -- a code further away is beyond the neighbour on its side
    have hlow : ∀ q < p, ∃ r, r + 1 = p ∧ value q ≤ value r := fun q hq =>
      ⟨p - 1, by omega, hvalue.monotone (by omega)⟩
    have hhigh : ∀ q, p < q → value (p + 1) ≤ value q := fun q hq => hvalue.monotone hq
    constructor
    · intro q
      rcases lt_trichotomy q p with hq | rfl | hq
      · obtain ⟨r, hr, hle⟩ := hlow q hq
        rw [abs_sub_le_iff' (hvalue hq)]
        linarith [(hbelow r hr).1]
      · exact le_rfl
      · rw [abs_sub_le_iff (hvalue hq)]
        linarith [hhigh q hq]
    · intro q hne htie
      rcases lt_or_gt_of_ne hne with hq | hq
      · obtain ⟨r, hr, hle⟩ := hlow q hq
        have hmid := (abs_sub_eq_iff (hvalue hq)).mp htie
        exact (hbelow r hr).2 (by linarith [(hbelow r hr).1])
      · have hmid := (abs_sub_eq_iff (hvalue hq)).mp htie.symm
        exact heven (by linarith [hhigh q hq])

/-- Between two neighbours the midpoint decides, and on it the parity. -/
theorem nearestEven_between (hvalue : StrictMono value) (hlow : value f ≤ x)
    (hhigh : x < value (f + 1)) :
    NearestEven value x p ↔
      (p = f ∧ 2 * x ≤ value f + value (f + 1) ∨ p = f + 1 ∧ value f + value (f + 1) ≤ 2 * x) ∧
        (2 * x = value f + value (f + 1) → Even p) := by
  rw [nearestEven_iff hvalue]
  constructor
  · rintro ⟨hbelow, habove, heven⟩
    -- a code further below is too far from `x`, and so is one further above
    have hle : f ≤ p := by
      by_contra hlt
      have h1 : value p < value f := hvalue (not_le.mp hlt)
      have h2 : value (p + 1) ≤ value f := hvalue.monotone (not_le.mp hlt)
      linarith
    have hge : p ≤ f + 1 := by
      by_contra hlt
      obtain ⟨q, rfl⟩ : ∃ q, p = q + 1 := ⟨p - 1, by omega⟩
      have h1 : value (f + 1) < value (q + 1) := hvalue (by omega)
      have h2 : value (f + 1) ≤ value q := hvalue.monotone (by omega)
      linarith [(hbelow q rfl).1]
    rcases Nat.lt_or_ge f p with hlt | hge'
    · obtain rfl : p = f + 1 := by omega
      exact ⟨Or.inr ⟨rfl, (hbelow f rfl).1⟩, (hbelow f rfl).2⟩
    · obtain rfl : p = f := by omega
      exact ⟨Or.inl ⟨rfl, habove⟩, heven⟩
  · rintro ⟨⟨rfl, hmid⟩ | ⟨rfl, hmid⟩, heven⟩
    · refine ⟨?_, hmid, heven⟩
      rintro q rfl
      have hq : value q < value (q + 1) := hvalue (Nat.lt_succ_self q)
      exact ⟨by linarith, fun htie => absurd htie (by linarith)⟩
    · have hnext : value (f + 1) < value (f + 1 + 1) := hvalue (Nat.lt_succ_self _)
      refine ⟨?_, by linarith, fun htie => absurd htie (by linarith)⟩
      intro q hq
      obtain rfl : q = f := by omega
      exact ⟨hmid, heven⟩

/-- Between consecutive multiples of a unit the remainder is compared with half the divisor. -/
theorem nearestEven_quotient (hvalue : StrictMono value) {n d : ℕ} {unit : α} (hunit : 0 < unit)
    (hd : 0 < d) (hf : value f = (n / d : ℕ) * unit)
    (hf' : value (f + 1) = ((n / d : ℕ) + 1) * unit) (hx : x * d = n * unit) :
    NearestEven value x p ↔
      (p = f ∧ 2 * (n % d) ≤ d ∨ p = f + 1 ∧ d ≤ 2 * (n % d)) ∧ (2 * (n % d) = d → Even p) := by
  have hd' : (0 : α) < d := by exact_mod_cast hd
  have hmod : ((n % d : ℕ) : α) < d := by exact_mod_cast Nat.mod_lt n hd
  have hn : (n : α) = d * (n / d : ℕ) + (n % d : ℕ) := by exact_mod_cast (Nat.div_add_mod n d).symm
  obtain ⟨w, hw, rfl⟩ : ∃ w : α, 0 < w ∧ unit = d * w :=
    ⟨unit / d, div_pos hunit hd', (mul_div_cancel₀ unit hd'.ne').symm⟩
  have hx' : x = (n / d : ℕ) * (d * w) + (n % d : ℕ) * w :=
    mul_right_cancel₀ hd'.ne' (by rw [hx, hn]; ring)
  have hrest : (n % d : ℕ) * w < d * w := mul_lt_mul_of_pos_right hmod hw
  have hrest0 : 0 ≤ (n % d : ℕ) * w := by positivity
  have hlow : value f ≤ x := by rw [hf, hx']; linarith
  have hhigh : x < value (f + 1) := by rw [hf', hx']; linarith
  -- twice `x` stands to the midpoint as twice the remainder stands to the divisor
  have hle : 2 * x ≤ value f + value (f + 1) ↔ 2 * (n % d) ≤ d := by
    have h : 2 * x ≤ value f + value (f + 1) ↔ 2 * ((n % d : ℕ) : α) * w ≤ d * w := by
      rw [hx', hf, hf']
      constructor <;> intro h <;> linarith
    rw [h, mul_le_mul_iff_of_pos_right hw]
    exact_mod_cast Iff.rfl
  have hge : value f + value (f + 1) ≤ 2 * x ↔ d ≤ 2 * (n % d) := by
    have h : value f + value (f + 1) ≤ 2 * x ↔ d * w ≤ 2 * ((n % d : ℕ) : α) * w := by
      rw [hx', hf, hf']
      constructor <;> intro h <;> linarith
    rw [h, mul_le_mul_iff_of_pos_right hw]
    exact_mod_cast Iff.rfl
  have htie : 2 * x = value f + value (f + 1) ↔ 2 * (n % d) = d := by
    rw [le_antisymm_iff, hle, hge, ← le_antisymm_iff]
  rw [nearestEven_between hvalue hlow hhigh, hle, hge, htie]

/-- The quotient, rounded to the nearest number with ties to the even one. -/
def roundEven (n d : ℕ) : ℕ :=
  if d < 2 * (n % d) ∨ 2 * (n % d) = d ∧ n / d % 2 = 1 then n / d + 1 else n / d

theorem roundEven_le {n d k : ℕ} (hd : 0 < d) (hn : n < k * d) : roundEven n d ≤ k := by
  have hdiv : n / d < k := (Nat.div_lt_iff_lt_mul hd).mpr hn
  unfold roundEven
  split <;> omega

/-- Where the codes are the numbers of units, the rounded quotient is the nearest code. -/
theorem nearestEven_roundEven (hvalue : StrictMono value) {n d : ℕ} {unit : α} (hunit : 0 < unit)
    (hd : 0 < d) (hf : value (n / d) = (n / d : ℕ) * unit)
    (hf' : value (n / d + 1) = ((n / d : ℕ) + 1) * unit) (hx : x * d = n * unit) :
    NearestEven value x p ↔ p = roundEven n d := by
  rw [nearestEven_quotient hvalue hunit hd hf hf' hx, Nat.even_iff]
  unfold roundEven
  split <;> omega

end Nearest

/-! ### Binary interchange formats -/

/-- A binary format: the bits of its fraction field, the exponent field that is kept for
infinities and NaNs, and the place of its smallest value `2 ^ -scale`. -/
structure Format where
  fraction : ℕ
  special : ℕ
  scale : ℕ

namespace Format

variable (F : Format)

/-- The magnitude of a code in units of the smallest value.  The codes from `infinity` on get the
values that an unbounded exponent would give them. -/
def units (code : ℕ) : ℕ :=
  if code / 2 ^ F.fraction = 0 then code
  else (2 ^ F.fraction + code % 2 ^ F.fraction) * 2 ^ (code / 2 ^ F.fraction - 1)

def value (code : ℕ) : ℚ := F.units code / 2 ^ F.scale

/-- The magnitude code of the infinities; the NaNs are above it. -/
def infinity : ℕ := F.special * 2 ^ F.fraction

variable {F}

/-- The codes of one exponent are evenly spaced, up to the first code of the next. -/
theorem units_add {exponent t : ℕ} (hexponent : 0 < exponent) (ht : t ≤ 2 ^ F.fraction) :
    F.units (exponent * 2 ^ F.fraction + t) = (2 ^ F.fraction + t) * 2 ^ (exponent - 1) := by
  have hpos : 0 < 2 ^ F.fraction := Nat.two_pow_pos _
  obtain ⟨e, rfl⟩ : ∃ e, exponent = e + 1 := ⟨exponent - 1, by omega⟩
  rcases Nat.lt_or_eq_of_le ht with hlt | rfl
  · have hdiv : ((e + 1) * 2 ^ F.fraction + t) / 2 ^ F.fraction = e + 1 := by
      rw [Nat.add_comm, Nat.add_mul_div_right _ _ hpos, Nat.div_eq_of_lt hlt, Nat.zero_add]
    have hmod : ((e + 1) * 2 ^ F.fraction + t) % 2 ^ F.fraction = t := by
      rw [Nat.add_comm, Nat.add_mul_mod_self_right, Nat.mod_eq_of_lt hlt]
    simp [units, hdiv, hmod]
  · have hnext : (e + 1) * 2 ^ F.fraction + 2 ^ F.fraction = (e + 2) * 2 ^ F.fraction := by ring
    rw [hnext, units, Nat.mul_div_cancel _ hpos, Nat.mul_mod_left, if_neg (by omega)]
    simp only [Nat.add_sub_cancel, Nat.reduceSubDiff]
    ring

/-- The codes without an exponent, and the first code with one, are their own values. -/
theorem units_of_le {code : ℕ} (hcode : code ≤ 2 ^ F.fraction) : F.units code = code := by
  rcases Nat.lt_or_eq_of_le hcode with hlt | rfl
  · rw [units, if_pos (Nat.div_eq_of_lt hlt)]
  · simpa using units_add (F := F) (t := 0) Nat.one_pos (Nat.zero_le _)

theorem units_lt_succ (code : ℕ) : F.units code < F.units (code + 1) := by
  have hpos : 0 < 2 ^ F.fraction := Nat.two_pow_pos _
  have hmod : code % 2 ^ F.fraction < 2 ^ F.fraction := Nat.mod_lt code hpos
  rcases Nat.eq_zero_or_pos (code / 2 ^ F.fraction) with hzero | hexponent
  · have hlt : code < 2 ^ F.fraction := Nat.lt_of_div_eq_zero hpos hzero
    rw [units_of_le hlt.le, units_of_le hlt]
    exact Nat.lt_succ_self code
  · have hcode : code = code / 2 ^ F.fraction * 2 ^ F.fraction + code % 2 ^ F.fraction := by
      rw [Nat.mul_comm]; exact (Nat.div_add_mod code _).symm
    rw [hcode, Nat.add_assoc, units_add hexponent hmod.le, units_add hexponent hmod]
    exact Nat.mul_lt_mul_of_pos_right (by omega) (Nat.two_pow_pos _)

theorem value_strictMono : StrictMono F.value := by
  refine strictMono_nat_of_lt_succ fun code => ?_
  unfold value
  gcongr
  exact units_lt_succ code

end Format

end Jadren.Rounding
