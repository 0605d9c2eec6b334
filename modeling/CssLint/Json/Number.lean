import CssLint.Json.Basic

/-!
The numbers of a JSON text.

`Literal` holds the parts of a number as they are written. Its value is a whole
number where it has neither fraction nor exponent and fits 64 bits. Any other
value is the significand, cut off where it would leave 64 bits, scaled by a
power of ten: one multiplication or division of floating-point numbers, in steps
of `10 ^ 308` for very small numbers. A number beyond the largest
floating-point number has no value.
-/

namespace CssLint.Json

/-- The parts of a number as they are written; the digits are given by their values. -/
structure Literal where
  negative : Bool
  whole : List Nat
  fraction : Option (List Nat)
  exponent : Option (Bool × List Nat)
deriving Repr, DecidableEq

namespace Literal

/-! ## The significand -/

def maxSignificand : Nat := Nat.pow 2 64 - 1

/-- The largest exponent that a number may write. -/
def maxWrittenExponent : Nat := Nat.pow 2 31 - 1

/-- The significand after the digits in front of the point, and how many of them were cut
off. -/
def absorbWhole : Nat → List Nat → Nat × Nat
  | significand, [] => (significand, 0)
  | significand, digit :: digits =>
    if maxSignificand < significand * 10 + digit then (significand, digits.length + 1)
    else absorbWhole (significand * 10 + digit) digits

/-- The significand after the digits behind the point, and how many of them it took. -/
def absorbFraction : Nat → List Nat → Nat × Nat
  | significand, [] => (significand, 0)
  | significand, digit :: digits =>
    if maxSignificand < significand * 10 + digit then (significand, 0)
    else
      let (significand, taken) := absorbFraction (significand * 10 + digit) digits
      (significand, taken + 1)

def decimalValue (digits : List Nat) : Nat :=
  digits.foldl (fun value digit => value * 10 + digit) 0

/-! ## Scaling -/

/-- The largest power of ten of the floating-point format. -/
def maxPowerOfTen : Nat := 308

/-- The number divided by a power of ten, in steps of the largest one. -/
def divideByPower (number : Binary64) (power : Nat) : Binary64 :=
  if power ≤ maxPowerOfTen then number.overPowerOfTen power
  else if number.isZero then number
  else divideByPower (number.overPowerOfTen maxPowerOfTen) (power - maxPowerOfTen)
termination_by power
decreasing_by
  simp only [maxPowerOfTen] at *
  omega

/-- The significand times a power of ten, unless that is too large. -/
def scale (significand : Nat) (exponent : Int) : Option Binary64 :=
  let number := Binary64.ofNat significand
  if exponent < 0 then some (divideByPower number exponent.natAbs)
  else if exponent.natAbs ≤ maxPowerOfTen then
    let product := number.timesPowerOfTen exponent.natAbs
    if product.isFinite then some product else none
  else if number.isZero then some number
  else none

/-! ## Values -/

/-- The value of a number with a fraction or an exponent, or one too long for a whole
number. -/
def floatValue? (literal : Literal) : Option Binary64 :=
  let (whole, cut) := absorbWhole 0 literal.whole
  let (significand, taken) := absorbFraction whole (literal.fraction.getD [])
  let start : Int := (cut : Int) - taken
  match literal.exponent with
  | none => scale significand start
  | some (negative, digits) =>
    let written := decimalValue digits
    if maxWrittenExponent < written then
      if significand = 0 || negative then some (Binary64.ofNat 0) else none
    else scale significand (if negative then start - written else start + written)

/-- The value of a number as a whole number, where it is written as one and fits 64 bits. -/
def integerValue? (literal : Literal) : Option Int :=
  let value := decimalValue literal.whole
  if literal.fraction.isSome || literal.exponent.isSome then none
  else if literal.negative then
    if 0 < value && value ≤ Nat.pow 2 63 then some (-value) else none
  else if value ≤ maxSignificand then some value
  else none

/-- The value of a number, unless it is beyond the largest floating-point number. -/
def value? (literal : Literal) : Option JsonNumber :=
  match literal.integerValue? with
  | some value => some (.integer value)
  | none =>
    literal.floatValue?.map fun value =>
      .float (if literal.negative then value.negate else value)

end Literal

end CssLint.Json
