import CssLint.Number.Binary64

/-!
The shortest decimal form of a floating-point number.

The real numbers between the two halfway points to the neighbours of a number
are read back as that number; the halfway points themselves are when the
significand is even. Among the decimal numbers in that range, the shortest form
is one with the fewest digits, and of those the nearest. Two may be equally near;
which of them is taken is up to the format that is written.
-/

namespace CssLint.Binary64

/-- A whole number of units of a power of ten. -/
structure Decimal where
  digits : Nat
  exponent : Int
deriving Repr, DecidableEq

/-- Which of two equally near decimal numbers is taken: the one with the even last digit, or the
greater one. Signs do not count here, so the greater one is farther from zero. -/
inductive Tie where
  | toEven
  | awayFromZero
deriving Repr, DecidableEq

/-- Whether a number halfway between `below` and the next whole number goes to `below`. -/
def Tie.goesDown (tie : Tie) (below : Nat) : Bool :=
  match tie with
  | toEven => below % 2 = 0
  | awayFromZero => false

/-- The range of real numbers that are read as one floating-point number: the number itself
and the ends of the range, each as a whole number of quarter units in the last place. -/
structure Rounding where
  value : Nat
  low : Nat
  high : Nat
  endsIncluded : Bool
deriving Repr, DecidableEq

/-- The rounding range of a number; below a power of two the neighbours are nearer. -/
def rounding (significand : Nat) (exponent : Int) : Rounding where
  value := 4 * significand
  low := 4 * significand - (if significand = Nat.pow 2 52 && minExponent < exponent then 1 else 2)
  high := 4 * significand + 2
  endsIncluded := significand % 2 = 0

/-- Whether `numerator / denominator` lies in the rounding range. -/
def Rounding.contains (range : Rounding) (numerator denominator : Nat) : Bool :=
  if range.endsIncluded then
    range.low * denominator ≤ numerator && numerator ≤ range.high * denominator
  else range.low * denominator < numerator && numerator < range.high * denominator

/-- The number of units of `10 ^ power` that lies in the rounding range and is nearest to the
number, where `exponent` is the exponent of the quarter unit. -/
def nearestOnGrid (tie : Tie) (range : Rounding) (exponent power : Int) : Option Decimal :=
  let unit := Nat.pow 10 power.toNat * Nat.pow 2 (-exponent).toNat
  let quarter := Nat.pow 10 (-power).toNat * Nat.pow 2 exponent.toNat
  let below := range.value * quarter / unit
  let isBelow := below != 0 && range.contains (below * unit) quarter
  let isAbove := range.contains ((below + 1) * unit) quarter
  let remainder := 2 * (range.value * quarter % unit)
  if isBelow && isAbove then
    if remainder < unit || (remainder = unit && tie.goesDown below) then some ⟨below, power⟩
    else some ⟨below + 1, power⟩
  else if isBelow then some ⟨below, power⟩
  else if isAbove then some ⟨below + 1, power⟩
  else none

/-- A power of ten that is greater than every number with this significand and exponent. -/
def decimalBound (significand : Nat) (exponent : Int) : Int :=
  ((significand.log2 : Int) + 1 + exponent) * 30103 / 100000 + 2

/-- The shortest decimal number that is read back as `significand * 2 ^ exponent`. -/
def shortest (tie : Tie) (significand : Nat) (exponent : Int) : Decimal :=
  if significand = 0 then ⟨0, 0⟩
  else
    let range := rounding significand exponent
    let bound := decimalBound significand exponent
    let grids := (List.range 24).map fun (step : Nat) => bound - step
    (grids.findSome? fun power => nearestOnGrid tie range (exponent - 2) power).getD ⟨0, 0⟩

end CssLint.Binary64
