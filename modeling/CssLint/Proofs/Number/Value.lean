import CssLint.Number.Binary64
import Mathlib.Algebra.Order.Field.Basic
import Mathlib.Algebra.Order.Field.Rat
import Mathlib.Order.WithBot

/-!
# Floating-point numbers as rationals

A finite number is a rational, the infinities are the ends of the order, and an undefined
number has no value.  A whole number exceeds a limit just when the limit has a smaller
value, so nothing exceeds an undefined limit, and less exceeds a greater one.
-/

namespace CssLint.Binary64

/-- The number as a rational or an end of their order. -/
def value? : Binary64 → Option (WithBot (WithTop ℚ))
  | nan => none
  | infinity negative => some (if negative then ⊥ else (⊤ : WithTop ℚ))
  | finite negative significand exponent =>
    some (((if negative then -1 else 1) * (significand * 2 ^ exponent) : ℚ) : WithTop ℚ)

/-- Both numbers have values, and that of the first is not the greater one. -/
def AtMost (number other : Binary64) : Prop :=
  ∃ value bound, number.value? = some value ∧ other.value? = some bound ∧ value ≤ bound

/-- A power of two is the ratio of two whole numbers, one of which is one. -/
private theorem two_zpow (exponent : Int) :
    (2 : ℚ) ^ exponent = Nat.pow 2 exponent.toNat / Nat.pow 2 (-exponent).toNat := by
  have cast : ∀ power, ((Nat.pow 2 power : Nat) : ℚ) = 2 ^ power := fun power =>
    Nat.cast_pow 2 power
  conv => lhs; rw [← Int.toNat_sub_toNat_neg exponent]
  rw [zpow_sub₀ two_ne_zero, zpow_natCast, zpow_natCast, cast, cast]

private theorem lt_scaled_iff (significand count : Nat) (exponent : Int) :
    (significand * 2 ^ exponent : ℚ) < count ↔
      significand * Nat.pow 2 exponent.toNat < count * Nat.pow 2 (-exponent).toNat := by
  have positive : (0 : ℚ) < (Nat.pow 2 (-exponent).toNat : Nat) :=
    Nat.cast_pos.2 (Nat.two_pow_pos _)
  rw [two_zpow, mul_div_assoc', div_lt_iff₀ positive]
  exact_mod_cast Iff.rfl

/-- A whole number is greater than one that is not positive, unless both are zero. -/
private theorem neg_scaled_lt_iff (significand count : Nat) (exponent : Int) :
    (-1 * (significand * 2 ^ exponent) : ℚ) < count ↔ count ≠ 0 ∨ significand ≠ 0 := by
  have power : (0 : ℚ) < 2 ^ exponent := zpow_pos two_pos exponent
  rw [neg_one_mul]
  constructor
  · intro less
    by_contra both
    obtain ⟨rfl, rfl⟩ : count = 0 ∧ significand = 0 := by simpa using both
    simp at less
  · rintro (some | some)
    · have positive : (0 : ℚ) < count := Nat.cast_pos.2 (Nat.pos_of_ne_zero some)
      have below : (0 : ℚ) ≤ significand * 2 ^ exponent :=
        mul_nonneg (Nat.cast_nonneg _) power.le
      exact lt_of_le_of_lt (neg_nonpos.2 below) positive
    · have below : (0 : ℚ) < significand * 2 ^ exponent :=
        mul_pos (Nat.cast_pos.2 (Nat.pos_of_ne_zero some)) power
      exact lt_of_lt_of_le (neg_lt_zero.2 below) (Nat.cast_nonneg count)

theorem isExceededBy_iff (limit : Binary64) (count : Nat) :
    limit.isExceededBy count = true ↔
      ∃ value, limit.value? = some value ∧ value < ((count : ℚ) : WithTop ℚ) := by
  cases limit with
  | nan => simp [isExceededBy, value?]
  | infinity negative =>
      cases negative with
      | false => simp [isExceededBy, value?]
      | true => simp [isExceededBy, value?]
  | finite negative significand exponent =>
      simp only [value?, Option.some.injEq, exists_eq_left', WithBot.coe_lt_coe,
        WithTop.coe_lt_coe]
      cases negative with
      | false =>
          simp only [Bool.false_eq_true, if_false, one_mul, lt_scaled_iff, isExceededBy,
            decide_eq_true_eq]
      | true =>
          simp only [if_true, neg_scaled_lt_iff, isExceededBy, Bool.or_eq_true, bne_iff_ne]

/-- What exceeds a limit exceeds every smaller one. -/
theorem AtMost.isExceededBy {limit raised : Binary64} (atMost : limit.AtMost raised)
    {count : Nat} (exceeds : raised.isExceededBy count = true) :
    limit.isExceededBy count = true := by
  obtain ⟨value, bound, own, above, ordered⟩ := atMost
  obtain ⟨_, same, less⟩ := (isExceededBy_iff raised count).1 exceeds
  obtain rfl := Option.some.inj (above.symm.trans same)
  exact (isExceededBy_iff limit count).2 ⟨value, own, lt_of_le_of_lt ordered less⟩

end CssLint.Binary64
