import CssLint.Text.Blank
import CssLint.Text.Digit
import Mathlib.Data.Bool.AllAny

/-!
# Letters and signs

Letters are neither digits nor blank characters, and differ from all signs.  No blank
character is a digit, not even of hexadecimal numbers.
-/

namespace CssLint.Text

theorem ne_of_isAlpha {c other : Char} (alpha : c.isAlpha = true) (sign : other.isAlpha = false) :
    c ≠ other := by
  rintro rfl
  rw [alpha] at sign
  cases sign

theorem ne_of_isBlank {c other : Char} (blank : isBlank c = true) (sign : isBlank other = false) :
    c ≠ other := by
  rintro rfl
  rw [blank] at sign
  cases sign

/-- The blank characters one by one. -/
theorem mem_of_isBlank {c : Char} (blank : isBlank c = true) :
    c ∈ ['\n', '\t', ' ', '\r', '\x0c'] := by
  simpa [isBlank, or_assoc] using blank

theorem not_isBlank_of_isAlpha {c : Char} (alpha : c.isAlpha = true) : isBlank c = false := by
  have blanks : ∀ blank ∈ ['\n', '\t', ' ', '\r', '\x0c'], blank.isAlpha = false :=
    List.all_iff_forall_prop.1 (by decide)
  rw [← Bool.not_eq_true]
  intro blank
  rw [blanks c (mem_of_isBlank blank)] at alpha
  cases alpha

theorem not_isHexDigit_of_isBlank {c : Char} (blank : isBlank c = true) : isHexDigit c = false := by
  have blanks : ∀ blank ∈ ['\n', '\t', ' ', '\r', '\x0c'], isHexDigit blank = false :=
    List.all_iff_forall_prop.1 (by decide)
  exact blanks c (mem_of_isBlank blank)

theorem not_isDigit_of_isAlpha {c : Char} (alpha : c.isAlpha = true) : c.isDigit = false := by
  rw [← Bool.not_eq_true]
  intro digit
  delta Char.isAlpha Char.isUpper Char.isLower at alpha
  delta Char.isDigit at digit
  simp only [Bool.or_eq_true, Bool.and_eq_true, decide_eq_true_eq, ge_iff_le,
    UInt32.le_iff_toNat_le] at alpha digit
  change (65 ≤ c.val.toNat ∧ c.val.toNat ≤ 90) ∨ (97 ≤ c.val.toNat ∧ c.val.toNat ≤ 122) at alpha
  change 48 ≤ c.val.toNat ∧ c.val.toNat ≤ 57 at digit
  omega

end CssLint.Text
