import CssLint.Token.Lexeme

/-!
Lexemes as the parts of a style sheet.

A brace directly behind `#` or `@` is the hole of a preprocessor and opens no
block of a rule. Brackets in what is passed over close in the order in which they
open; a closing bracket of another kind than the one that is due is passed over
like any token.
-/

namespace CssLint.Sheet

/-- A lexeme, and whether it is the brace of a preprocessor's hole. -/
structure Piece where
  token : Token
  span : Span
  opensHole : Bool
deriving Repr, DecidableEq

namespace Piece

/-- Whether the lexeme stands directly behind `#` or `@`. -/
def followsSigil (previous : Option Lexeme) (lexeme : Lexeme) : Bool :=
  match previous with
  | none => false
  | some previous =>
    (previous.token == .delim '#' || previous.token == .delim '@') &&
      lexeme.span.start == previous.span.stop

/-- The pieces of the lexemes that stand behind `previous`. -/
def ofLexemesBehind (previous : Option Lexeme) : List Lexeme → List Piece
  | [] => []
  | lexeme :: lexemes =>
    ⟨lexeme.token, lexeme.span,
      lexeme.token == .opening .curly && followsSigil previous lexeme⟩ ::
      ofLexemesBehind (some lexeme) lexemes

def ofText (text : List Char) : List Piece :=
  ofLexemesBehind none (Lexeme.ofText text)

/-- Whether the piece is the brace that opens a block. -/
def opensBlock (piece : Piece) : Bool :=
  piece.token == .opening .curly && !piece.opensHole

def closesBlock (piece : Piece) : Bool :=
  piece.token == .closing .curly

def isSemicolon (piece : Piece) : Bool :=
  piece.token == .semicolon

def isColon (piece : Piece) : Bool :=
  piece.token == .colon

def isWhitespace (piece : Piece) : Bool :=
  piece.token == .whitespace

end Piece

/-! ## Passing over -/

/-- The pieces from the bracket on that closes a block of the given kind, where the pieces begin
inside that block and the block is itself inside those of `outer`. -/
def blockEnd (bracket : Bracket) (outer : List Bracket) : List Piece → List Piece
  | [] => []
  | piece :: pieces =>
    if piece.token = .closing bracket then
      match outer with
      | [] => piece :: pieces
      | next :: outer => blockEnd next outer pieces
    else
      match piece.token.opens? with
      | some nested => blockEnd nested (bracket :: outer) pieces
      | none => blockEnd bracket outer pieces

theorem length_blockEnd_le (bracket : Bracket) (outer : List Bracket) (pieces : List Piece) :
    (blockEnd bracket outer pieces).length ≤ pieces.length := by
  fun_induction blockEnd bracket outer pieces with
  | case1 => exact Nat.le_refl _
  | case2 => exact Nat.le_refl _
  | case3 => exact Nat.le_succ_of_le ‹_›
  | case4 => exact Nat.le_succ_of_le ‹_›
  | case5 => exact Nat.le_succ_of_le ‹_›

/-- What follows the first piece or, where it opens a block, what follows that block. -/
def skipComponent (piece : Piece) (pieces : List Piece) : List Piece :=
  match piece.token.opens? with
  | none => pieces
  | some bracket => (blockEnd bracket [] pieces).drop 1

theorem length_skipComponent_le (piece : Piece) (pieces : List Piece) :
    (skipComponent piece pieces).length ≤ pieces.length := by
  unfold skipComponent
  split
  · exact Nat.le_refl _
  · rename_i bracket _
    have := length_blockEnd_le bracket [] pieces
    rw [List.length_drop]
    omega

/-- The pieces from the first one on that has the property, where blocks are passed over. -/
def skipTo (property : Piece → Bool) (pieces : List Piece) : List Piece :=
  match pieces with
  | [] => []
  | piece :: pieces =>
    if property piece then piece :: pieces else skipTo property (skipComponent piece pieces)
termination_by pieces.length
decreasing_by
  exact Nat.lt_succ_of_le (length_skipComponent_le piece pieces)

theorem length_skipTo_le (property : Piece → Bool) (pieces : List Piece) :
    (skipTo property pieces).length ≤ pieces.length := by
  fun_induction skipTo property pieces with
  | case1 => exact Nat.le_refl _
  | case2 => exact Nat.le_refl _
  | case3 piece pieces _ inductionHypothesis =>
      have := length_skipComponent_le piece pieces
      simp only [List.length_cons]
      omega

/-- Where a first piece lacks the property, it is passed over. -/
theorem length_skipTo_cons_le {property : Piece → Bool} {piece : Piece}
    (lacks : property piece = false) (pieces : List Piece) :
    (skipTo property (piece :: pieces)).length ≤ pieces.length := by
  rw [skipTo]
  simp only [lacks]
  exact Nat.le_trans (length_skipTo_le ..) (length_skipComponent_le ..)

/-- Behind the first piece that has the property stand fewer pieces than before. -/
theorem length_tail_skipTo_le (property : Piece → Bool) (piece : Piece) (pieces : List Piece) :
    (skipTo property (piece :: pieces)).tail.length ≤ pieces.length := by
  have := length_skipTo_le property (piece :: pieces)
  simp only [List.length_tail, List.length_cons] at *
  omega

/-! ## Looking ahead -/

/-- Whether a block opens before the item ends, where `depth` brackets are open. All kinds of
bracket count alike. -/
def opensBlockWithin : Nat → List Piece → Bool
  | _, [] => false
  | depth, piece :: pieces =>
    if depth = 0 && piece.opensBlock then true
    else if depth = 0 && (piece.isSemicolon || piece.closesBlock) then false
    else if piece.token.closes?.isSome then opensBlockWithin (depth - 1) pieces
    else if piece.token.opens?.isSome then opensBlockWithin (depth + 1) pieces
    else opensBlockWithin depth pieces

def isCustomName (piece : Piece) : Bool :=
  match piece.token with
  | .ident name => ['-', '-'].isPrefixOf name
  | _ => false

/-- Whether the item is a custom property, whose value may hold anything. -/
def isCustomProperty (piece : Piece) (pieces : List Piece) : Bool :=
  isCustomName piece && (pieces.dropWhile Piece.isWhitespace).head?.any Piece.isColon

/-- Whether the item that begins with the first piece is a rule; otherwise it is a
declaration. -/
def startsRule (piece : Piece) (pieces : List Piece) : Bool :=
  !isCustomProperty piece pieces && opensBlockWithin 0 (piece :: pieces)

end CssLint.Sheet
