import CssLint.Json.Number
import CssLint.Rule.MaxCompounds

/-!
# Whole limits

A whole number is a limit if the format can hold it, and numbers of 32 bits exceed it
as a floating-point number exactly when they exceed it as a whole number: it is exact
below `2 ^ 53`, and rounding leaves no greater number below `2 ^ 52`.
-/

namespace CssLint

namespace Binary64

/-! ## Rounding -/

theorem div_le_divideNearest (numerator denominator : Nat) :
    numerator / denominator ≤ divideNearest numerator denominator := by
  simp only [divideNearest]
  split
  · exact Nat.le_refl _
  · split
    · exact Nat.le_refl _
    · exact Nat.le_succ _

theorem divideNearest_one (numerator : Nat) : divideNearest numerator 1 = numerator := by
  simp [divideNearest, Nat.mod_one]

/-- Whole numbers have 53 significant bits from the first that is set on. -/
theorem exponentOf_one {value : Nat} (positive : 1 ≤ value) :
    exponentOf value 1 = (value.log2 : Int) - 52 := by
  have one : Nat.log2 1 = 0 := by decide
  have least : max ((value.log2 : Int) - (Nat.log2 1 : Nat) - 53) minExponent =
      (value.log2 : Int) - 53 := by
    rw [one, minExponent]
    omega
  have enough : Nat.pow 2 53 ≤ scaleNumerator value ((value.log2 : Int) - 53) /
      scaleDenominator 1 ((value.log2 : Int) - 53) := by
    have low : 2 ^ value.log2 ≤ value := Nat.log2_self_le (Nat.ne_of_gt positive)
    rw [Nat.le_div_iff_mul_le (by
      rw [scaleDenominator, Nat.one_mul]
      exact Nat.two_pow_pos _), scaleNumerator, scaleDenominator, Nat.one_mul]
    by_cases small : value.log2 ≤ 53
    · have whole : ((value.log2 : Int) - 53).toNat = 0 := by omega
      have shift : (-((value.log2 : Int) - 53)).toNat = 53 - value.log2 := by omega
      have exact_ : 2 ^ value.log2 * 2 ^ (53 - value.log2) = 2 ^ 53 := by
        rw [← Nat.pow_add, Nat.add_sub_of_le small]
      rw [whole, shift]
      calc Nat.pow 2 53 * Nat.pow 2 0
        _ = 2 ^ value.log2 * 2 ^ (53 - value.log2) := (Nat.mul_one _).trans exact_.symm
        _ ≤ value * 2 ^ (53 - value.log2) := Nat.mul_le_mul_right _ low
    · have whole : ((value.log2 : Int) - 53).toNat = value.log2 - 53 := by omega
      have shift : (-((value.log2 : Int) - 53)).toNat = 0 := by omega
      have exact_ : 2 ^ 53 * 2 ^ (value.log2 - 53) = 2 ^ value.log2 := by
        rw [← Nat.pow_add, Nat.add_sub_of_le (Nat.le_of_not_le small)]
      rw [whole, shift]
      calc Nat.pow 2 53 * Nat.pow 2 (value.log2 - 53)
        _ = 2 ^ value.log2 := exact_
        _ ≤ value := low
        _ = value * Nat.pow 2 0 := (Nat.mul_one _).symm
  simp only [exponentOf, least, enough, if_true]
  omega

/-- Below `2 ^ 53` whole numbers are exact. -/
theorem ofRatio_of_small {value : Nat} (positive : 1 ≤ value) (small : value.log2 ≤ 52) :
    ofRatio false value 1 =
      finite false (value * Nat.pow 2 (52 - value.log2)) ((value.log2 : Int) - 52) := by
  have whole : ((value.log2 : Int) - 52).toNat = 0 := by omega
  have shift : (-((value.log2 : Int) - 52)).toNat = 52 - value.log2 := by omega
  have significand : divideNearest (scaleNumerator value ((value.log2 : Int) - 52))
      (scaleDenominator 1 ((value.log2 : Int) - 52)) =
        value * Nat.pow 2 (52 - value.log2) := by
    rw [scaleNumerator, scaleDenominator, whole, shift]
    exact divideNearest_one _
  have notFull : value * Nat.pow 2 (52 - value.log2) ≠ Nat.pow 2 53 := by
    have top : 2 ^ (value.log2 + 1) * 2 ^ (52 - value.log2) = 2 ^ 53 := by
      rw [← Nat.pow_add]
      congr 1
      omega
    have below : value * 2 ^ (52 - value.log2) < 2 ^ (value.log2 + 1) * 2 ^ (52 - value.log2) :=
      Nat.mul_lt_mul_of_pos_right Nat.lt_log2_self (Nat.two_pow_pos _)
    rw [top] at below
    exact Nat.ne_of_lt below
  have inRange : ¬ maxExponent < (value.log2 : Int) - 52 := by
    rw [maxExponent]
    omega
  simp only [ofRatio, Nat.ne_of_gt positive, exponentOf_one positive, significand, notFull, inRange,
    if_false]

/-- From `2 ^ 53` on whole numbers are rounded, but not below `2 ^ 52`. -/
theorem ofRatio_of_large {value : Nat} (positive : 1 ≤ value) (large : 53 ≤ value.log2)
    (isFinite : (ofRatio false value 1).isFinite = true) :
    ∃ significand exponent, ofRatio false value 1 = finite false significand exponent ∧
      Nat.pow 2 52 ≤ significand ∧ 0 ≤ exponent := by
  have whole : ((value.log2 : Int) - 52).toNat = value.log2 - 52 := by omega
  have shift : (-((value.log2 : Int) - 52)).toNat = 0 := by omega
  have enough : Nat.pow 2 52 ≤ divideNearest (scaleNumerator value ((value.log2 : Int) - 52))
      (scaleDenominator 1 ((value.log2 : Int) - 52)) := by
    apply Nat.le_trans _ (div_le_divideNearest _ _)
    have split_ : 2 ^ 52 * 2 ^ (value.log2 - 52) = 2 ^ value.log2 := by
      rw [← Nat.pow_add, Nat.add_sub_of_le (Nat.le_of_succ_le large)]
    rw [scaleNumerator, scaleDenominator, whole, shift, Nat.one_mul]
    refine (Nat.le_div_iff_mul_le (Nat.two_pow_pos _)).2 ?_
    calc Nat.pow 2 52 * Nat.pow 2 (value.log2 - 52)
      _ = 2 ^ value.log2 := split_
      _ ≤ value := Nat.log2_self_le (Nat.ne_of_gt positive)
      _ = value * Nat.pow 2 0 := (Nat.mul_one _).symm
  by_cases full : divideNearest (scaleNumerator value ((value.log2 : Int) - 52))
      (scaleDenominator 1 ((value.log2 : Int) - 52)) = Nat.pow 2 53
  · by_cases tooLarge : maxExponent < (value.log2 : Int) - 52 + 1
    · simp [ofRatio, Nat.ne_of_gt positive, exponentOf_one positive, full, tooLarge,
        Binary64.isFinite] at isFinite
    · refine ⟨Nat.pow 2 52, (value.log2 : Int) - 52 + 1, ?_, Nat.le_refl _, by omega⟩
      simp only [ofRatio, Nat.ne_of_gt positive, exponentOf_one positive, full, tooLarge, if_true,
        if_false]
  · by_cases tooLarge : maxExponent < (value.log2 : Int) - 52
    · simp only [ofRatio, Nat.ne_of_gt positive, exponentOf_one positive, full, tooLarge, if_true,
        if_false, Binary64.isFinite, Bool.false_eq_true] at isFinite
    · refine ⟨_, (value.log2 : Int) - 52, ?_, enough, by omega⟩
      simp only [ofRatio, Nat.ne_of_gt positive, exponentOf_one positive, full, tooLarge, if_false]

theorem isFinite_ofInt {value : Nat} (positive : 1 ≤ value)
    (bound : value ≤ Json.Literal.maxSignificand) : (ofInt value).isFinite = true := by
  have below : value.log2 ≤ 63 := by
    have less : value < Nat.pow 2 64 := Nat.lt_of_le_of_lt bound (by decide)
    exact Nat.le_of_lt_succ ((Nat.log2_lt (Nat.ne_of_gt positive)).2 less)
  have inRange : ¬ maxExponent < (value.log2 : Int) - 52 := by
    rw [maxExponent]
    omega
  have inRangeNext : ¬ maxExponent < (value.log2 : Int) - 52 + 1 := by
    rw [maxExponent]
    omega
  have nonnegative : decide ((value : Int) < 0) = false := by simp
  rw [ofInt, nonnegative, Int.natAbs_natCast]
  by_cases full : divideNearest (scaleNumerator value ((value.log2 : Int) - 52))
      (scaleDenominator 1 ((value.log2 : Int) - 52)) = Nat.pow 2 53
  · simp only [ofRatio, Nat.ne_of_gt positive, exponentOf_one positive, full, inRangeNext, if_true,
      if_false, isFinite]
  · simp only [ofRatio, Nat.ne_of_gt positive, exponentOf_one positive, full, inRange, if_false,
      isFinite]

/-! ## Comparison -/

/-- Whole numbers that the format can hold are positive, and compared exactly with counts. -/
theorem ofInt_whole {value : Nat} (positive : 1 ≤ value)
    (isFinite : (ofInt value).isFinite = true) :
    (ofInt value).isPositive = true ∧
      ∀ count, count ≤ Rule.maxCount →
        (ofInt value).isExceededBy count = decide (value < count) := by
  have nonnegative : decide ((value : Int) < 0) = false := by simp
  have rounded : ofInt value = ofRatio false value 1 := by
    rw [ofInt, nonnegative, Int.natAbs_natCast]
  rw [rounded] at isFinite ⊢
  by_cases small : value.log2 ≤ 52
  · have shift : (-((value.log2 : Int) - 52)).toNat = 52 - value.log2 := by omega
    have whole : ((value.log2 : Int) - 52).toNat = 0 := by omega
    have notZero : value * Nat.pow 2 (52 - value.log2) ≠ 0 :=
      Nat.ne_of_gt (Nat.mul_pos positive (Nat.two_pow_pos _))
    rw [ofRatio_of_small positive small]
    refine ⟨bne_iff_ne.2 notZero, fun count _ => ?_⟩
    have scaled : value * Nat.pow 2 (52 - value.log2) * Nat.pow 2 0 <
        count * Nat.pow 2 (52 - value.log2) ↔ value < count := by
      have one : ∀ number, number * Nat.pow 2 0 = number := Nat.mul_one
      rw [one]
      exact Nat.mul_lt_mul_right (Nat.two_pow_pos _)
    rw [isExceededBy, shift, whole]
    exact decide_eq_decide.2 scaled
  · have large : 53 ≤ value.log2 := by omega
    obtain ⟨significand, exponent, same, enough, nonneg⟩ :=
      ofRatio_of_large positive large isFinite
    have shift : (-exponent).toNat = 0 := by omega
    have maxSmall : Rule.maxCount < Nat.pow 2 52 := by decide
    have notZero : significand ≠ 0 :=
      Nat.ne_of_gt (Nat.lt_of_lt_of_le (Nat.two_pow_pos 52) enough)
    rw [same]
    refine ⟨bne_iff_ne.2 notZero, fun count counted => ?_⟩
    have notLess : ¬ value < count := by
      have least : Nat.pow 2 value.log2 ≤ value := Nat.log2_self_le (Nat.ne_of_gt positive)
      have grows : Nat.pow 2 52 ≤ Nat.pow 2 value.log2 :=
        Nat.pow_le_pow_right (by decide) (by omega)
      omega
    have notExceeded : ¬ significand * Nat.pow 2 exponent.toNat < count * Nat.pow 2 0 := by
      have grows : significand * 1 ≤ significand * Nat.pow 2 exponent.toNat :=
        Nat.mul_le_mul_left _ (Nat.two_pow_pos _)
      have one : count * Nat.pow 2 0 = count := Nat.mul_one _
      omega
    rw [isExceededBy, shift]
    exact (decide_eq_false notExceeded).trans (decide_eq_false notLess).symm

end Binary64

/-! ## Limits -/

/-- The number of a setting is this whole number, from one on, as the format holds it. -/
structure JsonNumber.IsWhole (number : JsonNumber) (value : Nat) : Prop where
  positive : 1 ≤ value
  rounded : number.toBinary64 = Binary64.ofInt value
  isFinite : number.toBinary64.isFinite = true

/-- Settings keep whole numbers of 64 bits as they are. -/
theorem JsonNumber.isWhole_integer {value : Nat} (positive : 1 ≤ value)
    (bound : value ≤ Json.Literal.maxSignificand) : (integer value).IsWhole value :=
  ⟨positive, rfl, Binary64.isFinite_ofInt positive bound⟩

/-- A whole number from one on is a limit. -/
theorem Rule.limitOf?_whole {number : JsonNumber} {value : Nat} (whole : number.IsWhole value) :
    limitOf? (.number number) = some (Binary64.ofInt value) := by
  obtain ⟨positive, rounded, isFinite⟩ := whole
  rw [rounded] at isFinite
  obtain ⟨greater, _⟩ := Binary64.ofInt_whole positive isFinite
  simp only [limitOf?, rounded, isFinite, greater, Bool.and_true, if_true]

end CssLint
