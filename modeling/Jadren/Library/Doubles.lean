import Jadren.Library.Rounding
import Mathlib.Data.Nat.Log

/-!
# Doubles

The codes of a binary format nearest to a quotient of its units, and with them the addition of the
64-bit format on the bits: the exact sum of the two values is rounded.
-/

namespace Jadren

namespace Rounding

namespace Format

variable (F : Format)

/-- The exponent of the codes of about `q` units, over that of the smallest. -/
def shift (q : ℕ) : ℕ := Nat.log2 q - F.fraction

/-- The code nearest to `n / d` units. -/
def nearest (n d : ℕ) : ℕ :=
  F.shift (n / d) * 2 ^ F.fraction + roundEven n (d * 2 ^ F.shift (n / d))

end Format

/-! ### The 64-bit format -/

/-- Eleven bits of exponent, 52 of fraction. -/
def binary64 : Format := ⟨52, 2047, 1074⟩

end Rounding

open Rounding

/-- A double, as its bits. -/
abbrev Double := BitVec 64

namespace Double

/-- The bits without the sign. -/
def magnitude (x : Double) : ℕ := x.toNat % 2 ^ 63

def isNaN (x : Double) : Bool := binary64.infinity < x.magnitude

def isInfinite (x : Double) : Bool := x.magnitude == binary64.infinity

def isFinite (x : Double) : Bool := x.magnitude < binary64.infinity

/-- The value in units of the smallest positive double. -/
def units (x : Double) : ℤ :=
  if x.msb then -(binary64.units x.magnitude : ℤ) else binary64.units x.magnitude

/-- The double of a sign and a magnitude; what is too large becomes an infinity. -/
def ofMagnitude (negative : Bool) (code : ℕ) : Double :=
  BitVec.ofNat 64 ((if negative then 2 ^ 63 else 0) + min code binary64.infinity)

def nan : Double := BitVec.ofNat 64 (binary64.infinity + 2 ^ 51)

def add (x y : Double) : Double :=
  if x.isNaN || y.isNaN then nan
  else if x.isInfinite then (if y.isInfinite && x.msb != y.msb then nan else x)
  else if y.isInfinite then y
  else
    let sum := x.units + y.units
    if sum = 0 then ofMagnitude (x.msb && y.msb) 0
    else ofMagnitude (sum < 0) (binary64.nearest sum.natAbs 1)

/-- A tenth and two tenths. -/
example : add 0x3FB999999999999A#64 0x3FC999999999999A#64 = 0x3FD3333333333334#64 := by
  decide +kernel

end Double

end Jadren
