import CssLint.Text.Blank

/-!
Numbers as they are written in a style sheet.

A number has an optional sign, digits, an optional fraction with at least one
digit, and an optional exponent with at least one digit. Its text is kept, for
nothing here depends on its value.
-/

namespace CssLint.Numeral

def startsDigit : List Char → Bool
  | [] => false
  | c :: _ => c.isDigit

def starts : List Char → Bool
  | '+' :: '.' :: text => startsDigit text
  | '-' :: '.' :: text => startsDigit text
  | '+' :: text => startsDigit text
  | '-' :: text => startsDigit text
  | '.' :: text => startsDigit text
  | text => startsDigit text

/-- The sign at the beginning of the text, if there is one, and what follows it. -/
def readSign : List Char → List Char × List Char
  | [] => ([], [])
  | c :: text => if c = '+' || c = '-' then ([c], text) else ([], c :: text)

/-- The digits at the beginning of the text, and what follows them. -/
def readDigits (text : List Char) : List Char × List Char :=
  (text.takeWhile Char.isDigit, text.dropWhile Char.isDigit)

/-- The fraction at the beginning of the text, if there is one, and what follows it. -/
def readFraction : List Char → List Char × List Char
  | [] => ([], [])
  | c :: text =>
    if c = '.' && startsDigit text then (c :: (readDigits text).1, (readDigits text).2)
    else ([], c :: text)

/-- The exponent at the beginning of the text, if there is one, and what follows it. -/
def readExponent : List Char → List Char × List Char
  | [] => ([], [])
  | c :: text =>
    let sign := readSign text
    if (c = 'e' || c = 'E') && startsDigit sign.2 then
      (c :: sign.1 ++ (readDigits sign.2).1, (readDigits sign.2).2)
    else ([], c :: text)

/-- The number at the beginning of the text as it is written, and what follows it. -/
def read (text : List Char) : List Char × List Char :=
  let sign := readSign text
  let whole := readDigits sign.2
  let fraction := readFraction whole.2
  let exponent := readExponent fraction.2
  (sign.1 ++ whole.1 ++ fraction.1 ++ exponent.1, exponent.2)

/-! ## Nothing is lost -/

theorem readSign_append (text : List Char) : (readSign text).1 ++ (readSign text).2 = text := by
  cases text with
  | nil => rfl
  | cons c text =>
      simp only [readSign]
      split <;> rfl

theorem readDigits_append (text : List Char) :
    (readDigits text).1 ++ (readDigits text).2 = text :=
  List.takeWhile_append_dropWhile

theorem readFraction_append (text : List Char) :
    (readFraction text).1 ++ (readFraction text).2 = text := by
  cases text with
  | nil => rfl
  | cons c text =>
      simp only [readFraction]
      split
      · simp [readDigits_append]
      · rfl

theorem readExponent_append (text : List Char) :
    (readExponent text).1 ++ (readExponent text).2 = text := by
  cases text with
  | nil => rfl
  | cons c text =>
      simp only [readExponent]
      split
      · simp [readDigits_append, readSign_append]
      · rfl

/-- The number and what follows it make up the text. -/
theorem read_append (text : List Char) : (read text).1 ++ (read text).2 = text := by
  simp only [read, List.append_assoc]
  rw [readExponent_append, readFraction_append, readDigits_append, readSign_append]

/-- Where a number begins, at least one character is read. -/
theorem read_ne_nil {text : List Char} (begins : starts text = true) : (read text).1 ≠ [] := by
  cases text with
  | nil => cases begins
  | cons c text =>
      by_cases sign : c = '+' ∨ c = '-'
      · simp [read, readSign, sign]
      · by_cases digit : c.isDigit = true
        · simp [read, readSign, sign, readDigits, digit]
        · have point : c = '.' ∧ startsDigit text = true := by
            unfold starts at begins
            split at begins <;> rename_i same <;> simp_all [startsDigit]
          obtain ⟨rfl, next⟩ := point
          simp [read, readSign, readDigits, readFraction, next]

theorem length_read_lt {text : List Char} (begins : starts text = true) :
    (read text).2.length < text.length := by
  have joined := congrArg List.length (read_append text)
  have positive := List.length_pos_iff.2 (read_ne_nil begins)
  rw [List.length_append] at joined
  omega

end CssLint.Numeral
