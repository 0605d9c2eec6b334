import CssLint.Text.Blank
import CssLint.Text.Digit

/-!
Names and their escapes.

A name is a run of letters, digits, hyphens, low lines and characters outside
ASCII; any other character takes part in it behind a backslash. An escape is a
backslash and up to six hexadecimal digits with one optional blank, or a
backslash and the character itself.
-/

namespace CssLint.Name

open Text

/-! ## Character classes -/

/-- The characters that may begin a name. -/
def isStart (c : Char) : Bool :=
  c.isAlpha || c == '_' || 0x80 ≤ c.toNat

/-- The characters that may stand in a name. -/
def isPart (c : Char) : Bool :=
  isStart c || c.isDigit || c == '-'

/-! ## Escapes -/

/-- Whether the text begins with an escape: a backslash that no line feed follows. -/
def startsEscape : List Char → Bool
  | '\\' :: '\n' :: _ => false
  | '\\' :: _ => true
  | _ => false

/-- What stands for the characters that cannot be written. -/
def replacement : Char := '\ufffd'

/-- The character with this number, unless there is none or it is zero. -/
def ofCode (code : Nat) : Char :=
  if code = 0 then replacement
  else if code.isValidChar then Char.ofNat code
  else replacement

/-- The text without the blank at its beginning, if there is one. -/
def dropBlank : List Char → List Char
  | [] => []
  | c :: text => if isBlank c then text else c :: text

/-- The longest run of at most `limit` characters with the property at the beginning of the
text, and what follows it. -/
def takeAtMost (property : Char → Bool) : Nat → List Char → List Char × List Char
  | 0, text => ([], text)
  | _ + 1, [] => ([], [])
  | limit + 1, c :: text =>
    if property c then
      let (run, rest) := takeAtMost property limit text
      (c :: run, rest)
    else ([], c :: text)

/-- The character that an escape stands for, and what follows it; the text begins behind the
backslash. -/
def readEscape : List Char → Char × List Char
  | [] => (replacement, [])
  | c :: text =>
    if isHexDigit c then
      let (digits, rest) := takeAtMost isHexDigit 5 text
      (ofCode (hexValue (c :: digits)), dropBlank rest)
    else (c, text)

theorem length_dropBlank_le (text : List Char) : (dropBlank text).length ≤ text.length := by
  cases text with
  | nil => exact Nat.le_refl _
  | cons c text => by_cases blank : isBlank c <;> simp [dropBlank, blank]

theorem takeAtMost_append (property : Char → Bool) (limit : Nat) (text : List Char) :
    (takeAtMost property limit text).1 ++ (takeAtMost property limit text).2 = text := by
  induction limit generalizing text with
  | zero => rfl
  | succ limit inductionHypothesis =>
      cases text with
      | nil => rfl
      | cons c text => by_cases holds : property c <;> simp [takeAtMost, holds, inductionHypothesis]

theorem length_takeAtMost_le (property : Char → Bool) (limit : Nat) (text : List Char) :
    (takeAtMost property limit text).2.length ≤ text.length := by
  have joined := congrArg List.length (takeAtMost_append property limit text)
  rw [List.length_append] at joined
  omega

theorem length_readEscape_le (text : List Char) : (readEscape text).2.length ≤ text.length := by
  cases text with
  | nil => exact Nat.le_refl _
  | cons c text =>
      by_cases digit : isHexDigit c
      · have := length_dropBlank_le (takeAtMost isHexDigit 5 text).2
        have := length_takeAtMost_le isHexDigit 5 text
        simp only [readEscape, digit, if_true, List.length_cons]
        omega
      · simp [readEscape, digit]

/-! ## Names -/

/-- Whether the text begins with a name that is no number: hyphens alone do not count, two do. -/
def starts : List Char → Bool
  | '-' :: text =>
    match text with
    | [] => false
    | c :: _ => c == '-' || isStart c || startsEscape text
  | [] => false
  | c :: text => isStart c || startsEscape (c :: text)

/-- The longest name at the beginning of the text with its escapes undone, and what follows
it. -/
def read (text : List Char) : List Char × List Char :=
  match text with
  | [] => ([], [])
  | c :: text =>
    if isPart c then
      let (name, rest) := read text
      (c :: name, rest)
    else if startsEscape (c :: text) then
      let escape := readEscape text
      let (name, rest) := read escape.2
      (escape.1 :: name, rest)
    else ([], c :: text)
termination_by text.length
decreasing_by
  · simp
  · have := length_readEscape_le text
    simp only [List.length_cons]
    omega

theorem length_read_le (text : List Char) : (read text).2.length ≤ text.length := by
  fun_induction read text with
  | case1 => exact Nat.le_refl _
  | case2 c text part name rest same inductionHypothesis =>
      rw [same] at inductionHypothesis
      exact Nat.le_succ_of_le inductionHypothesis
  | case3 c text part begins escape name rest same inductionHypothesis =>
      rw [same] at inductionHypothesis
      have := length_readEscape_le text
      simp only [List.length_cons]
      exact Nat.le_succ_of_le (Nat.le_trans inductionHypothesis this)
  | case4 => exact Nat.le_refl _

/-- Where a name begins, at least one character is read. -/
theorem length_read_lt {c : Char} {text : List Char} (begins : starts (c :: text) = true) :
    (read (c :: text)).2.length < (c :: text).length := by
  have ofRest := length_read_le text
  have ofEscape := length_readEscape_le text
  have afterEscape := length_read_le (readEscape text).2
  rw [read]
  split
  · simp only [List.length_cons]
    omega
  · rename_i notPart
    split
    · simp only [List.length_cons]
      omega
    · rename_i noEscape
      exfalso
      simp only [isPart, Bool.or_eq_true, beq_iff_eq, not_or] at notPart
      unfold starts at begins
      split at begins
      · rename_i same
        cases same
        exact notPart.2 rfl
      · rename_i same
        cases same
      · rename_i same
        cases same
        simp_all

end CssLint.Name
