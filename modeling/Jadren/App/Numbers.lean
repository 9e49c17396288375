import Jadren.App.Table
import Jadren.Library.Doubles

/-!
# Numbers as texts

How the runtime writes numbers and reads them from documents.  `format_float` writes six digits
after the point: it scales the double to millionths, rounded, and has no text for a double whose
millionths need more than 64 bits.
-/

namespace Jadren.App

/-- A text, if it is not longer than the buffer. -/
def copyFormatLiteral (literal : Text) (outputLength : ℕ) : Option Text :=
  if outputLength < literal.length then none else some literal

def decimalDigits (value : ℕ) : Text := (Nat.toDigits 10 value).map fun c => UInt8.ofNat c.toNat

def formatUint (value outputLength : ℕ) : Option Text :=
  if outputLength = 0 then none
  else if outputLength < (decimalDigits value).length then none
  else some (decimalDigits value)

/-- A double in millionths, if its exponent is not too large. -/
def scaledMillionths (value : Double) : Option ℕ :=
  let exponent : ℕ := value.magnitude / 2 ^ 52
  let fraction := value.magnitude % 2 ^ 52
  let significand := if exponent = 0 then fraction else 2 ^ 52 + fraction
  let shift : ℤ := if exponent = 0 then -1074 else (exponent : ℤ) - 1023 - 52
  if 0 ≤ shift then
    if 55 < shift then none else some (significand * 2 ^ shift.toNat * 1000000)
  else
    let divisorShift := (-shift).toNat
    if 127 < divisorShift then some 0
    else some ((significand * 1000000 + 2 ^ (divisorShift - 1)) / 2 ^ divisorShift)

/-- The last `width` digits of a number. -/
def paddedDigits (value : ℕ) : ℕ → Text
  | 0 => []
  | width + 1 => UInt8.ofNat (48 + value / 10 ^ width % 10) :: paddedDigits value width

def formatFloat (value : Double) (outputLength : ℕ) : Option Text :=
  if value.isNaN then copyFormatLiteral [110, 97, 110] outputLength
  else if value.isInfinite then
    if value.msb then copyFormatLiteral [45, 105, 110, 102] outputLength
    else copyFormatLiteral [105, 110, 102] outputLength
  else
    match scaledMillionths value with
    | none => none
    | some scaled =>
      if 2 ^ 64 ≤ scaled then none
      else
        match formatUint (scaled / 1000000) 20 with
        | none => none
        | some integerText =>
          let sign : Text := if value.msb then [45] else []
          if outputLength < integerText.length + 7 + sign.length then none
          else some (sign ++ integerText ++ 46 :: paddedDigits (scaled % 1000000) 6)

/-- A tenth, and two to the sixty-fourth. -/
example : formatFloat 0x3FB999999999999A#64 32 = some [48, 46, 49, 48, 48, 48, 48, 48] ∧
    formatFloat 0x43F0000000000000#64 32 = none := by decide +kernel

/-! ## Reading -/

def jsonReadUintValue (text : Text) : Option ℕ :=
  if text.isEmpty then none else integerDigits (2 ^ 64 - 1) text

def jsonReadIntValue : Text → Option ℤ
  | 45 :: digits =>
    if digits.isEmpty then none
    else (integerDigits (2 ^ 63) digits).map fun value : ℕ => -(value : ℤ)
  | digits =>
    if digits.isEmpty then none
    else (integerDigits (2 ^ 63 - 1) digits).map fun value : ℕ => (value : ℤ)

end Jadren.App
