import CssLint.Proofs.Selector.PlainText
import CssLint.Proofs.Token.ChangeLexemes
import CssLint.Proofs.Token.PlainRead

/-!
# Comments behind a text

A text has the same lexemes in front of a space whether a comment stands behind that
space or not, unless the text ends inside something that goes on.  The comment leaves one
more white space behind, and moves what follows.
-/

namespace CssLint

open Text
open Selector.Written (contains_iff_isInfix)

/-! ## Comments -/

/-- The comment with the given text inside. -/
def comment (body : List Char) : List Char :=
  '/' :: '*' :: (body ++ ['*', '/'])

theorem behind?_comment {body : List Char} (closed : contains ['*', '/'] body = false)
    (rest : List Char) : behind? ['*', '/'] (body ++ '*' :: '/' :: rest) = some rest := by
  have absent : ¬['*', '/'] <:+: body := by
    rw [← contains_iff_isInfix, closed]
    exact Bool.false_ne_true
  clear closed
  induction body with
  | nil => simp [behind?, after?]
  | cons c body inductionHypothesis =>
      rw [List.infix_cons_iff, not_or] at absent
      -- A star at the end of the body has the star of the end behind it, and no slash.
      have notHere : after? ['*', '/'] (c :: (body ++ '*' :: '/' :: rest)) = none := by
        by_cases star : c = '*'
        · subst star
          cases body with
          | nil => simp [after?]
          | cons d body =>
              have noSlash : d ≠ '/' := by
                rintro rfl
                exact absent.1 ⟨body, rfl⟩
              simp [after?, Ne.symm noSlash]
        · simp [after?, Ne.symm star]
      rw [List.cons_append, behind?, notHere, Option.none_or, inductionHypothesis absent.2]

namespace Lexeme

theorem skipComments_comment {body : List Char} (closed : contains ['*', '/'] body = false)
    (rest : List Char) : skipComments (comment body ++ rest) = skipComments rest := by
  have opened : after? ['/', '*'] (comment body ++ rest) = some (body ++ '*' :: '/' :: rest) := by
    simp [comment, after?]
  rw [skipComments]
  split
  · rename_i same
    rw [opened] at same
    cases same
  · rename_i inside same
    rw [opened] at same
    cases same
    rw [skipComment, behind?_comment closed, Option.getD_some]

/-- A comment only moves the lexemes behind it. -/
theorem ofTextAt_comment {body : List Char} (closed : contains ['*', '/'] body = false)
    (offset : Nat) (rest : List Char) :
    ofTextAt offset (comment body ++ rest) =
      ofTextAt (offset + byteCount (comment body)) rest := by
  have size := byteCount_le_of_suffix (suffix_skipComments rest)
  have place : offset +
      (byteCount (comment body) + byteCount rest - byteCount (skipComments rest)) =
      offset + byteCount (comment body) + (byteCount rest - byteCount (skipComments rest)) := by
    omega
  rw [← ofTextAt_skipComments offset, ← ofTextAt_skipComments (offset + byteCount (comment body)),
    skipComments_comment closed, byteCount_append, place]

theorem ofTextAt_space {rest : List Char} (ends : EndsBlanks rest) (offset : Nat) :
    ofTextAt offset (' ' :: rest) =
      ⟨.whitespace, ⟨offset, offset + 1⟩⟩ :: ofTextAt (offset + 1) rest := by
  have read : Token.read ' ' ([] ++ rest) = (.whitespace, rest) :=
    Token.read_blanks rfl (List.forall_mem_nil _) ends
  exact ofTextAt_token (by decide) read offset

/-- Behind a space and a comment, one more space and other lexemes stand where they would without
the comment, only further on. -/
theorem ofTextAt_space_comment {body rest : List Char}
    (closed : contains ['*', '/'] body = false) (ends : EndsBlanks rest) (offset : Nat) :
    ofTextAt offset (' ' :: (comment body ++ ' ' :: rest)) =
      ⟨.whitespace, ⟨offset, offset + 1⟩⟩ ::
        ⟨.whitespace, ⟨offset + 1 + byteCount (comment body),
          offset + 1 + byteCount (comment body) + 1⟩⟩ ::
        (ofTextAt (offset + 1) rest).map (shift (byteCount (comment body) + 1)) := by
  have begins : EndsBlanks (comment body ++ ' ' :: rest) := endsBlanks_cons rfl _
  have place : offset + 1 + byteCount (comment body) + 1 =
      byteCount (comment body) + 1 + (offset + 1) := by
    omega
  rw [ofTextAt_space begins, ofTextAt_comment closed, ofTextAt_space ends, ← ofTextAt_add, place]

end Lexeme

end CssLint
