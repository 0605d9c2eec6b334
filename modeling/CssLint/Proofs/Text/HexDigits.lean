import CssLint.Text.Blank
import CssLint.Text.Digit

/-!
# Numbers in hexadecimal digits

A number is written in hexadecimal with any number of zeros in front, and with letters of
either case.  Whichever way it is written, its digits have it as their value.
-/

namespace CssLint.Text

/-! ## Digits -/

theorem toNat_toLower (c : Char) :
    c.toLower.toNat = if 65 ≤ c.toNat ∧ c.toNat ≤ 90 then c.toNat + 32 else c.toNat := by
  have capital : (c.val ≥ 'A'.val ∧ c.val ≤ 'Z'.val) ↔ (65 ≤ c.toNat ∧ c.toNat ≤ 90) := by
    simp only [ge_iff_le, UInt32.le_iff_toNat_le]
    rfl
  unfold Char.toLower
  by_cases isCapital : 65 ≤ c.toNat ∧ c.toNat ≤ 90
  · have moved : (c.val + ('a'.val - 'A'.val)).toNat = c.toNat + 32 := by
      rw [UInt32.toNat_add]
      change (c.toNat + 32) % 4294967296 = c.toNat + 32
      omega
    rw [dif_pos (capital.2 isCapital), if_pos isCapital]
    exact moved
  · rw [dif_neg (mt capital.1 isCapital), if_neg isCapital]

/-- A digit's value by the character's number. -/
theorem hexDigit?_eq (c : Char) :
    hexDigit? c =
      if 48 ≤ c.toNat ∧ c.toNat ≤ 57 then some (c.toNat - 48)
      else if 97 ≤ c.toNat ∧ c.toNat ≤ 102 then some (c.toNat - 97 + 10)
      else if 65 ≤ c.toNat ∧ c.toNat ≤ 70 then some (c.toNat - 65 + 10)
      else none := by
  unfold hexDigit?
  delta Char.isDigit
  simp only [Bool.and_eq_true, decide_eq_true_eq, ge_iff_le, UInt32.le_iff_toNat_le, Char.le_def]
  rfl

/-- The value of a digit does not depend on its letter case. -/
theorem hexDigit?_toLower (c : Char) : hexDigit? c.toLower = hexDigit? c := by
  rw [hexDigit?_eq, hexDigit?_eq, toNat_toLower]
  split <;> grind

theorem hexDigit?_digitChar {value : Nat} (small : value < 16) :
    hexDigit? value.digitChar = some value := by
  have each : ∀ value : Fin 16, hexDigit? value.val.digitChar = some value.val := by decide
  exact each ⟨value, small⟩

/-! ## Values -/

theorem hexValue_concat (digits : List Char) (c : Char) :
    hexValue (digits ++ [c]) = 16 * hexValue digits + (hexDigit? c).getD 0 := by
  rw [hexValue, List.foldl_append]
  rfl

theorem hexValue_zeros (zeros : Nat) (digits : List Char) :
    hexValue (List.replicate zeros '0' ++ digits) = hexValue digits := by
  induction zeros with
  | zero => rfl
  | succ zeros inductionHypothesis => exact inductionHypothesis

theorem hexValue_lower (digits : List Char) : hexValue (lower digits) = hexValue digits := by
  simp only [hexValue, lower, List.foldl_map, hexDigit?_toLower]

theorem hexValue_toDigits (number : Nat) : hexValue (Nat.toDigits 16 number) = number := by
  -- The value is folded from the left, so the last digit is split off.
  induction number using Nat.strongRecOn with
  | ind number inductionHypothesis =>
      by_cases small : number < 16
      · rw [Nat.toDigits_of_lt_base small, ← List.nil_append [number.digitChar], hexValue_concat,
          hexDigit?_digitChar small]
        exact Nat.zero_add number
      · have last : number % 16 < 16 := Nat.mod_lt number (by decide)
        rw [Nat.toDigits_of_base_le (by decide) (Nat.le_of_not_lt small), hexValue_concat,
          inductionHypothesis (number / 16) (by omega), hexDigit?_digitChar last]
        exact Nat.div_add_mod number 16

theorem exists_digitChar_of_mem_toDigits {number : Nat} {c : Char}
    (member : c ∈ Nat.toDigits 16 number) : ∃ value < 16, c = Nat.digitChar value := by
  induction number using Nat.strongRecOn with
  | ind number inductionHypothesis =>
      by_cases small : number < 16
      · rw [Nat.toDigits_of_lt_base small, List.mem_singleton] at member
        exact ⟨number, small, member⟩
      · rw [Nat.toDigits_of_base_le (by decide) (Nat.le_of_not_lt small), List.mem_append,
          List.mem_singleton] at member
        rcases member with front | last
        · exact inductionHypothesis (number / 16) (by omega) front
        · exact ⟨number % 16, Nat.mod_lt number (by decide), last⟩

theorem lower_toDigits (number : Nat) :
    lower (Nat.toDigits 16 number) = Nat.toDigits 16 number := by
  have each : ∀ value : Fin 16, value.val.digitChar.toLower = value.val.digitChar := by decide
  have same : ∀ c ∈ Nat.toDigits 16 number, c.toLower = id c := by
    intro c member
    obtain ⟨value, small, rfl⟩ := exists_digitChar_of_mem_toDigits member
    exact each ⟨value, small⟩
  rw [lower, List.map_congr_left same, List.map_id]

/-! ## Numbers as they are written -/

/-- The digits write the number: they are its shortest hexadecimal digits behind zeros, up to letter
case. -/
def WritesHex (digits : List Char) (number : Nat) : Prop :=
  lower digits = (Nat.toDigits 16 number).leftpad digits.length '0'

instance (digits : List Char) (number : Nat) : Decidable (WritesHex digits number) :=
  inferInstanceAs (Decidable (_ = _))

namespace WritesHex

variable {digits : List Char} {number : Nat}

/-- A number is written by its shortest digits. -/
theorem toDigits (number : Nat) : WritesHex (Nat.toDigits 16 number) number := by
  rw [WritesHex, lower_toDigits, List.leftpad, Nat.sub_self]
  rfl

theorem ne_nil (writes : WritesHex digits number) : digits ≠ [] := by
  rintro rfl
  have padded : [] = List.replicate _ '0' ++ Nat.toDigits 16 number := writes
  exact Nat.toDigits_ne_nil (List.append_eq_nil_iff.1 padded.symm).2

theorem hexValue_eq (writes : WritesHex digits number) : hexValue digits = number := by
  rw [← hexValue_lower, writes, List.leftpad, hexValue_zeros, hexValue_toDigits]

theorem isHexDigit (writes : WritesHex digits number) {c : Char} (member : c ∈ digits) :
    isHexDigit c = true := by
  have small : c.toLower ∈ lower digits := List.mem_map_of_mem member
  rw [writes, List.leftpad, List.mem_append] at small
  rw [Text.isHexDigit, ← hexDigit?_toLower]
  rcases small with zero | shortest
  · rw [List.eq_of_mem_replicate zero]
    rfl
  · obtain ⟨value, isSmall, same⟩ := exists_digitChar_of_mem_toDigits shortest
    rw [same, hexDigit?_digitChar isSmall]
    rfl

end WritesHex

/-- A capital among zeros, and no zero in front of the number zero's own. -/
example : WritesHex ['0', '0', 'A', 'e'] 174 ∧ WritesHex ['0'] 0 ∧ ¬WritesHex [] 0 := by decide

end CssLint.Text
