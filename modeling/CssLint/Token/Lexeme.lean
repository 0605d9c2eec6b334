import CssLint.Text.Bytes
import CssLint.Text.Span
import CssLint.Token.Reader

/-!
The lexemes of a style sheet: its tokens with the places they were read from.

Comments stand between lexemes and belong to none of them. A comment that is
never closed reaches to the end of the text. The list that `Lexeme.tokenize`
gives ends with one token for the end of the input.
-/

namespace CssLint

open Text

/-- A token and the place that it was read from. -/
structure Lexeme where
  token : Token
  span : Span
deriving Repr, DecidableEq

namespace Lexeme

/-! ## Comments -/

/-- What follows the comment that the text begins inside. -/
def skipComment (text : List Char) : List Char :=
  (behind? ['*', '/'] text).getD []

theorem length_skipComment_le (text : List Char) : (skipComment text).length ≤ text.length := by
  unfold skipComment
  cases found : behind? ['*', '/'] text with
  | none => exact Nat.zero_le _
  | some rest => exact length_le_of_behind? found

/-- The text without the comments at its beginning. -/
def skipComments (text : List Char) : List Char :=
  match _opened : after? ['/', '*'] text with
  | none => text
  | some inside => skipComments (skipComment inside)
termination_by text.length
decreasing_by
  have := length_skipComment_le inside
  have := length_lt_of_after? _opened
  omega

theorem length_skipComments_le (text : List Char) :
    (skipComments text).length ≤ text.length := by
  fun_induction skipComments text with
  | case1 => exact Nat.le_refl _
  | case2 text inside opened inductionHypothesis =>
      have := length_skipComment_le inside
      have := length_lt_of_after? opened
      omega

/-! ## Tokens with their places -/

/-- The lexemes of a text whose first byte has the number `offset`. -/
def ofTextAt (offset : Nat) (text : List Char) : List Lexeme :=
  match _found : skipComments text with
  | [] => []
  | c :: inside =>
    let token := Token.read c inside
    let start := offset + (byteCount text - byteCount (c :: inside))
    let stop := offset + (byteCount text - byteCount token.2)
    ⟨token.1, ⟨start, stop⟩⟩ :: ofTextAt stop token.2
termination_by text.length
decreasing_by
  have ofComments := length_skipComments_le text
  have ofToken := Token.length_read_le c inside
  simp only [_found, List.length_cons] at ofComments
  omega

def ofText (text : List Char) : List Lexeme :=
  ofTextAt 0 text

/-- The lexemes of a text and the token for its end. -/
def tokenize (text : List Char) : List Lexeme :=
  ofText text ++ [⟨.endOfInput, ⟨byteCount text, byteCount text⟩⟩]

end Lexeme

end CssLint
