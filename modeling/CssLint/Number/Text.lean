import CssLint.Number.Shortest

/-!
Floating-point numbers as text.

The positional form writes the shortest digits and as many zeros as their place
needs, and never an exponent. The scientific form puts the point behind the
first digit. In messages numbers have the positional form, and of two shortest
forms that are equally near the greater one is written.
-/

namespace CssLint.Binary64

namespace Decimal

/-- The digits of the number, without sign and point. -/
def digitChars (decimal : Decimal) : List Char :=
  Nat.toDigits 10 decimal.digits

/-- The exponent of the first digit. -/
def firstExponent (decimal : Decimal) : Int :=
  (decimal.digitChars.length : Int) - 1 + decimal.exponent

/-- The number without an exponent; whole numbers have no point. -/
def positional (decimal : Decimal) : List Char :=
  let digits := decimal.digitChars
  if 0 ≤ decimal.exponent then digits ++ List.replicate decimal.exponent.toNat '0'
  else
    let places := (-decimal.exponent).toNat
    let padded := List.replicate (places + 1 - digits.length) '0' ++ digits
    padded.take (padded.length - places) ++ '.' :: padded.drop (padded.length - places)

/-- The number with the point behind the first digit and an exponent. -/
def scientific (decimal : Decimal) : List Char :=
  let digits := decimal.digitChars
  let fraction := if digits.length = 1 then [] else '.' :: digits.drop 1
  let sign := if decimal.firstExponent < 0 then '-' else '+'
  digits.take 1 ++ fraction ++ 'e' :: sign :: Nat.toDigits 10 decimal.firstExponent.natAbs

end Decimal

/-- Which of two equally near shortest forms is written in messages. -/
def textTie : Tie := .awayFromZero

/-- The number in the positional form. -/
def toText : Binary64 → String
  | nan => "NaN"
  | infinity negative => if negative then "-inf" else "inf"
  | finite negative significand exponent =>
    let digits := (shortest textTie significand exponent).positional
    String.ofList (if negative then '-' :: digits else digits)

end CssLint.Binary64
