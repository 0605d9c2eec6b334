import CssLint.Token.Name

/-!
Names inside selectors.

The names of selectors are those of tokens, with one difference: a backslash
at the very end of the text escapes nothing. Selectors keep names as they are
written, so names are only passed over here.
-/

namespace CssLint.Selector.Name

open Text CssLint.Name

/-- Whether the text begins with an escape: a backslash in front of a character that is no line
feed. -/
def startsEscape : List Char → Bool
  | '\\' :: c :: _ => c != '\n'
  | _ => false

/-- Whether the text begins with a name that is no number. -/
def starts : List Char → Bool
  | '-' :: text =>
    match text with
    | [] => false
    | c :: _ => c == '-' || isStart c || startsEscape text
  | [] => false
  | c :: text => isStart c || startsEscape (c :: text)

/-- What follows an escape; the text begins behind the backslash. -/
def dropEscape : List Char → List Char
  | [] => []
  | c :: text =>
    if isHexDigit c then dropBlank (takeAtMost isHexDigit 6 (c :: text)).2 else text

theorem length_dropEscape_le (text : List Char) : (dropEscape text).length ≤ text.length := by
  cases text with
  | nil => exact Nat.le_refl _
  | cons c text =>
      have := length_dropBlank_le (takeAtMost isHexDigit 6 (c :: text)).2
      have := length_takeAtMost_le isHexDigit 6 (c :: text)
      rw [dropEscape]
      split
      · omega
      · simp

/-- What follows the longest name at the beginning of the text. -/
def drop (text : List Char) : List Char :=
  match text with
  | [] => []
  | c :: text =>
    if isPart c then drop text
    else if startsEscape (c :: text) then drop (dropEscape text)
    else c :: text
termination_by text.length
decreasing_by
  · simp
  · have := length_dropEscape_le text
    simp only [List.length_cons]
    omega

theorem length_drop_le (text : List Char) : (drop text).length ≤ text.length := by
  fun_induction drop text with
  | case1 => exact Nat.le_refl _
  | case2 c text part inductionHypothesis => exact Nat.le_succ_of_le inductionHypothesis
  | case3 c text part begins inductionHypothesis =>
      have := length_dropEscape_le text
      simp only [List.length_cons]
      omega
  | case4 => exact Nat.le_refl _

/-- Where a name begins, at least one character is passed over. -/
theorem length_drop_lt {c : Char} {text : List Char} (begins : starts (c :: text) = true) :
    (drop (c :: text)).length < (c :: text).length := by
  have ofRest := length_drop_le text
  have ofEscape := length_dropEscape_le text
  have afterEscape := length_drop_le (dropEscape text)
  rw [drop]
  split
  · simp only [List.length_cons]
    omega
  · rename_i notPart
    split
    · simp only [List.length_cons]
      omega
    · exfalso
      simp only [isPart, Bool.or_eq_true, beq_iff_eq, not_or] at notPart
      unfold starts at begins
      split at begins
      · rename_i same
        cases same
        exact notPart.2 rfl
      · rename_i same
        cases same
      · rename_i same
        cases same
        simp_all

end CssLint.Selector.Name
