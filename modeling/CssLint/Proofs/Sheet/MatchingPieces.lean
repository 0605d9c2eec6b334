import CssLint.Proofs.Sheet.JoinedItems
import CssLint.Proofs.Sheet.Matching
import CssLint.Proofs.Token.ChangeLexemes

/-!
# Pieces of lexemes that match

Lexemes that match one by one are pieces that match one by one: whether a brace is the
hole of a preprocessor depends on the lexeme in front and on whether the two touch.
-/

namespace CssLint.Sheet

open Text

/-- The same token at places that correspond.  Nothing is said about the places of white space, and
about the end of a string that a line feed breaks off. -/
structure Piece.Matches (corresponds : Nat → Nat → Prop) (piece changed : Piece) : Prop where
  token : changed.token = piece.token
  hole : changed.opensHole = piece.opensHole
  start : piece.token ≠ .whitespace → corresponds piece.span.start changed.span.start
  stop : piece.token ≠ .whitespace → piece.token ≠ .badString →
    corresponds piece.span.stop changed.span.stop

variable {corresponds : Nat → Nat → Prop}

theorem Piece.likens_matches : Likens (Piece.Matches corresponds) :=
  ⟨Piece.Matches.token, Piece.Matches.hole⟩

theorem Matching.append {same : Piece → Piece → Prop} {left left' right right' : List Piece}
    (first : Matching same left left') (second : Matching same right right') :
    Matching same (left ++ right) (left' ++ right') := by
  induction first with
  | nil => exact second
  | cons first _ inductionHypothesis => exact .cons first inductionHypothesis
  | blank white _ inductionHypothesis => exact .blank white inductionHypothesis

/-- Places correspond to one place only, and only one place corresponds to theirs. -/
def Steady (corresponds : Nat → Nat → Prop) : Prop :=
  ∀ {place changed other otherChanged : Nat}, corresponds place changed →
    corresponds other otherChanged → (changed = otherChanged ↔ place = other)

private theorem followsSigil_matches (steady : Steady corresponds) {previous before : Option Lexeme}
    (behind : Option.Rel (Lexeme.Matches corresponds) previous before) {lexeme changed : Lexeme}
    (same : lexeme.Matches corresponds changed) (solid : lexeme.token ≠ .whitespace) :
    Piece.followsSigil before changed = Piece.followsSigil previous lexeme := by
  cases behind with
  | none => rfl
  | @some previous before own =>
      rw [Piece.followsSigil, Piece.followsSigil, own.token]
      by_cases sigil : (previous.token == .delim '#' || previous.token == .delim '@') = true
      · have stop : corresponds previous.span.stop before.span.stop := by
          rw [Bool.or_eq_true, beq_iff_eq, beq_iff_eq] at sigil
          rcases sigil with hash | at_
          · exact own.stop (by rw [hash]; simp) (by rw [hash]; simp)
          · exact own.stop (by rw [at_]; simp) (by rw [at_]; simp)
        have touch : (changed.span.start == before.span.stop) =
            (lexeme.span.start == previous.span.stop) := by
          rw [Bool.eq_iff_iff, beq_iff_eq, beq_iff_eq]
          exact steady (same.start solid) stop
        rw [touch]
      · rw [Bool.eq_false_iff.2 sigil, Bool.false_and, Bool.false_and]

theorem matching_ofLexemesBehind (steady : Steady corresponds) {lexemes others : List Lexeme}
    (alike : List.Forall₂ (Lexeme.Matches corresponds) lexemes others)
    {previous before : Option Lexeme}
    (behind : Option.Rel (Lexeme.Matches corresponds) previous before) :
    Matching (Piece.Matches corresponds) (Piece.ofLexemesBehind previous lexemes)
      (Piece.ofLexemesBehind before others) := by
  induction alike generalizing previous before with
  | nil => exact .nil
  | @cons lexeme changed lexemes others same _ inductionHypothesis =>
      refine .cons ⟨same.token, ?_, same.start, same.stop⟩ (inductionHypothesis (.some same))
      by_cases curly : lexeme.token = .opening .curly
      · have follows := followsSigil_matches steady behind same (by rw [curly]; simp)
        simp only [same.token, follows]
      · have notCurly : (lexeme.token == .opening .curly) = false := beq_false_of_ne curly
        simp only [same.token, notCurly, Bool.false_and]

end CssLint.Sheet
