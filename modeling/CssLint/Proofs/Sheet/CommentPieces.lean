import CssLint.Proofs.Sheet.MatchingPieces
import CssLint.Proofs.Token.CommentRead

/-!
# Pieces around a comment

A comment behind a space leaves the pieces in front of it where they are and moves those
behind it.  It adds one piece of white space, which no reader of the sheet looks at.
-/

namespace CssLint

open Text
open Selector (Change Stops endsInEscape)

/-- Places up to a size stay, and those behind it move on. -/
def Passes (size distance : Nat) (place changed : Nat) : Prop :=
  (place ≤ size ∧ changed = place) ∨ (size < place ∧ changed = distance + place)

theorem steady_passes (size distance : Nat) : Sheet.Steady (Passes size distance) := by
  intro place changed other otherChanged first second
  unfold Passes at first second
  omega

/-! ## Lexemes -/

namespace Lexeme

/-- The same lexeme at the same place, in front of the size. -/
abbrev Stays (size : Nat) : Lexeme → Lexeme → Prop :=
  Matches fun place changed => place ≤ size ∧ changed = place

/-- In front of what is added the text keeps its lexemes. -/
theorem exists_front {text tail : List Char} {stops : Stops tail}
    (lexes : Lexes (.adding tail stops) text) (settled : endsInEscape text = false)
    (bare : EndsBare text) :
    ∃ lexemes, ofText (text ++ tail) = lexemes ++ ofTextAt (byteCount text) tail ∧
      List.Forall₂ (Stays (byteCount text)) (ofText text) lexemes := by
  have applied := Change.apply_adding stops text
  have expanded : (Change.adding tail stops).expand ([] ++ text) = text :=
    Change.expand_eq_self _ rfl text
  obtain ⟨lexemes, found, alike⟩ := lexes [] (text ++ tail) 0
    ⟨⟨Or.inr settled, Or.inl rfl⟩, Or.inl applied.symm⟩ (Or.inr bare)
    (by rw [expanded, byteCount_append, Nat.zero_add]; rfl)
  rw [expanded] at found
  refine ⟨lexemes, found, alike.imp fun lexeme changed same => ?_⟩
  have stays : ∀ {place changed : Nat},
      (Change.adding tail stops).Moves ([] ++ text) place changed →
      place ≤ byteCount text ∧ changed = place := by
    rintro _ _ ⟨front, back, joined, rfl, rfl⟩
    rw [List.nil_append] at joined
    rw [Change.expand_eq_self _ rfl, joined, byteCount_append]
    exact ⟨Nat.le_add_right _ _, rfl⟩
  exact ⟨same.token, fun solid => stays (same.start solid),
    fun solid whole => stays (same.stop solid whole)⟩

/-- What is alike to the same lexemes in front of a size passes what stands there. -/
theorem matches_of_stays {size : Nat} (distance : Nat) {own lexemes others : List Lexeme}
    (first : List.Forall₂ (Stays size) own lexemes)
    (second : List.Forall₂ (Stays size) own others) :
    List.Forall₂ (Matches (Passes size distance)) lexemes others := by
  induction first generalizing others with
  | nil =>
      cases second
      exact .nil
  | @cons lexeme changed _ _ same _ inductionHypothesis =>
      obtain _ | ⟨other, later⟩ := second
      refine .cons ⟨other.token.trans same.token.symm, fun solid => ?_, fun solid whole => ?_⟩
        (inductionHypothesis later)
      · rw [same.token] at solid
        obtain ⟨within, here⟩ := same.start solid
        rw [here]
        exact Or.inl ⟨within, (other.start solid).2⟩
      · rw [same.token] at solid whole
        obtain ⟨within, here⟩ := same.stop solid whole
        rw [here]
        exact Or.inl ⟨within, (other.stop solid whole).2⟩

/-- Behind the size lexemes move on. -/
theorem matches_shift (size distance : Nat) (text : List Char) :
    List.Forall₂ (Matches (Passes size distance)) (ofTextAt (size + 1) text)
      ((ofTextAt (size + 1) text).map (shift distance)) := by
  have tiled := tiled_ofTextAt (size + 1) text
  rw [List.forall₂_map_right_iff]
  refine List.forall₂_same.2 fun lexeme member => ⟨rfl, fun _ => ?_, fun _ _ => ?_⟩
  all_goals
    have inside := List.mem_append_left [⟨.endOfInput, ⟨size + 1 + byteCount text,
      size + 1 + byteCount text⟩⟩] member
    have start := tiled.ordered.1 lexeme inside
    have nonempty := tiled.nonempty lexeme inside (token_ne_endOfInput member)
    refine Or.inr ⟨?_, rfl⟩
    omega

end Lexeme

/-! ## Pieces -/

namespace Sheet

theorem Piece.ofLexemesBehind_append_cons (previous : Option Lexeme) (left : List Lexeme)
    (lexeme : Lexeme) (right : List Lexeme) :
    ofLexemesBehind previous (left ++ lexeme :: right) =
      ofLexemesBehind previous (left ++ [lexeme]) ++ ofLexemesBehind (some lexeme) right := by
  rw [List.append_cons, ofLexemesBehind_append, List.getLast?_concat, Option.some_or]

section Pieces

variable {text : List Char} (lexes : ∀ change, Lexeme.Lexes change text)
  (settled : endsInEscape text = false) (bare : Lexeme.EndsBare text)

include lexes settled bare

/-- Whether a comment stands behind a space or not, the pieces match. -/
theorem matching_comment {body rest : List Char} (closed : contains ['*', '/'] body = false)
    (ends : EndsBlanks rest) :
    Matching (Piece.Matches (Passes (byteCount text) (byteCount (comment body) + 1)))
      (Piece.ofText (text ++ ' ' :: rest))
      (Piece.ofText (text ++ ' ' :: (comment body ++ ' ' :: rest))) := by
  obtain ⟨lexemes, found, front⟩ :=
    Lexeme.exists_front (lexes (.adding _ (Selector.stops_space rest))) settled bare
  obtain ⟨others, found', front'⟩ :=
    Lexeme.exists_front (lexes (.adding _ (Selector.stops_space _))) settled bare
  have steady : Steady (Passes (byteCount text) (byteCount (comment body) + 1)) :=
    steady_passes _ _
  have space : ∀ span other : Span, Lexeme.Matches
      (Passes (byteCount text) (byteCount (comment body) + 1)) ⟨.whitespace, span⟩
      ⟨.whitespace, other⟩ := fun _ _ =>
    ⟨rfl, fun solid => absurd rfl solid, fun solid _ => absurd rfl solid⟩
  rw [Lexeme.ofTextAt_space ends] at found
  rw [Lexeme.ofTextAt_space_comment closed ends] at found'
  rw [Piece.ofText, Piece.ofText, found, found', Piece.ofLexemesBehind_append_cons,
    Piece.ofLexemesBehind_append_cons none others, Piece.ofLexemesBehind]
  refine Matching.append ?_ (.blank rfl ?_)
  · exact matching_ofLexemesBehind steady (List.rel_append
      (Lexeme.matches_of_stays _ front front') (.cons (space _ _) .nil)) .none
  · exact matching_ofLexemesBehind steady (Lexeme.matches_shift _ _ rest) (.some (space _ _))

/-- The pieces of an empty block behind a space. -/
theorem ofText_emptyBlock (rest : List Char) : ∃ front more,
    Piece.ofText (text ++ ' ' :: '\x7b' :: '\x7d' :: rest) =
      front ++ ⟨.opening .curly, ⟨byteCount text + 1, byteCount text + 2⟩, false⟩ ::
        ⟨.closing .curly, ⟨byteCount text + 2, byteCount text + 3⟩, false⟩ :: more := by
  obtain ⟨lexemes, found, -⟩ :=
    Lexeme.exists_front (lexes (.adding _ (Selector.stops_space _))) settled bare
  have ends : EndsBlanks ('\x7b' :: '\x7d' :: rest) := endsBlanks_cons rfl _
  rw [Lexeme.ofTextAt_space ends, Lexeme.ofTextAt_punctuation rfl,
    Lexeme.ofTextAt_punctuation rfl] at found
  rw [Piece.ofText, found, Piece.ofLexemesBehind_append_cons]
  exact ⟨_, _, rfl⟩

end Pieces

end Sheet

end CssLint
