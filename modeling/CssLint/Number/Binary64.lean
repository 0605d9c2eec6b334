/-!
Numbers in the 64-bit binary floating-point format.

A finite number is a whole significand times a power of two. Results that the
format cannot hold are rounded to the nearest number that it can, and from the
middle between two to the one with the even significand. Everything is computed
in whole numbers, so it is exact.
-/

namespace CssLint

/-- A 64-bit floating-point number; a finite one is its significand times a power of two. -/
inductive Binary64 where
  | nan
  | infinity (negative : Bool)
  | finite (negative : Bool) (significand : Nat) (exponent : Int)
deriving Repr, DecidableEq

namespace Binary64

/-! ## Rounding -/

def minExponent : Int := -1074

def maxExponent : Int := 971

/-- The quotient of two whole numbers, rounded to the nearest and from the middle to the even
one. -/
def divideNearest (numerator denominator : Nat) : Nat :=
  let quotient := numerator / denominator
  let remainder := numerator % denominator
  if 2 * remainder < denominator then quotient
  else if 2 * remainder = denominator && quotient % 2 = 0 then quotient
  else quotient + 1

/-- The numerator of a ratio after division by the given power of two. -/
def scaleNumerator (numerator : Nat) (exponent : Int) : Nat :=
  numerator * Nat.pow 2 (-exponent).toNat

/-- The denominator of a ratio after division by the given power of two. -/
def scaleDenominator (denominator : Nat) (exponent : Int) : Nat :=
  denominator * Nat.pow 2 exponent.toNat

/-- The exponent at which the ratio has 53 significant bits, or the smallest exponent for
ratios that are too small for that. -/
def exponentOf (numerator denominator : Nat) : Int :=
  let least := max ((numerator.log2 : Int) - denominator.log2 - 53) minExponent
  if Nat.pow 2 53 ≤ scaleNumerator numerator least / scaleDenominator denominator least then least + 1
  else least

/-- The number nearest to the ratio of two whole numbers. -/
def ofRatio (negative : Bool) (numerator denominator : Nat) : Binary64 :=
  if numerator = 0 then finite negative 0 minExponent
  else
    let exponent := exponentOf numerator denominator
    let significand :=
      divideNearest (scaleNumerator numerator exponent) (scaleDenominator denominator exponent)
    let (significand, exponent) :=
      if significand = Nat.pow 2 53 then (Nat.pow 2 52, exponent + 1) else (significand, exponent)
    if maxExponent < exponent then infinity negative else finite negative significand exponent

def ofNat (value : Nat) : Binary64 :=
  ofRatio false value 1

def ofInt (value : Int) : Binary64 :=
  ofRatio (value < 0) value.natAbs 1

/-! ## Arithmetic -/

def negate : Binary64 → Binary64
  | nan => nan
  | infinity negative => infinity (!negative)
  | finite negative significand exponent => finite (!negative) significand exponent

/-- The number times a positive number with the given significand and exponent. -/
def timesFinite (number : Binary64) (significand : Nat) (exponent : Int) : Binary64 :=
  match number with
  | finite negative significand' exponent' =>
    let power := exponent + exponent'
    ofRatio negative (significand * significand' * Nat.pow 2 power.toNat)
      (Nat.pow 2 (-power).toNat)
  | other => other

/-- The number divided by a positive number with the given significand and exponent. -/
def overFinite (number : Binary64) (significand : Nat) (exponent : Int) : Binary64 :=
  match number with
  | finite negative significand' exponent' =>
    let power := exponent' - exponent
    ofRatio negative (significand' * Nat.pow 2 power.toNat)
      (significand * Nat.pow 2 (-power).toNat)
  | other => other

/-- The number times the number nearest to a power of ten. -/
def timesPowerOfTen (number : Binary64) (power : Nat) : Binary64 :=
  match ofNat (Nat.pow 10 power) with
  | finite _ significand exponent => number.timesFinite significand exponent
  | _ => number

/-- The number divided by the number nearest to a power of ten. -/
def overPowerOfTen (number : Binary64) (power : Nat) : Binary64 :=
  match ofNat (Nat.pow 10 power) with
  | finite _ significand exponent => number.overFinite significand exponent
  | _ => number

/-! ## Comparison -/

/-- Whether the number is neither infinite nor undefined. -/
def isFinite : Binary64 → Bool
  | finite .. => true
  | _ => false

/-- Whether the number is equal to zero, of either sign. -/
def isZero : Binary64 → Bool
  | finite _ significand _ => significand == 0
  | _ => false

def isPositive : Binary64 → Bool
  | nan => false
  | infinity negative => !negative
  | finite negative significand _ => !negative && significand != 0

/-- Whether a whole number is greater than this number. -/
def isExceededBy (limit : Binary64) (count : Nat) : Bool :=
  match limit with
  | nan => false
  | infinity negative => negative
  | finite true significand _ => count != 0 || significand != 0
  | finite false significand exponent =>
    significand * Nat.pow 2 exponent.toNat < count * Nat.pow 2 (-exponent).toNat

end Binary64

end CssLint
