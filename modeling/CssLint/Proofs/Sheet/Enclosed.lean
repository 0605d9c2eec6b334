import CssLint.Proofs.Sheet.InBlock
import CssLint.Proofs.Sheet.Joined
import CssLint.Proofs.Sheet.PlainItems
import CssLint.Proofs.Token.PhraseRead

/-!
# Style sheets inside a block

A text of whole items may stand in the block of an at-rule as well as at the top.  The
style sheet of the at-rule is that of the text with other numbers and offsets, and with
the at-rule in the place of the root.
-/

namespace CssLint

open Sheet Text

namespace Stylesheet

/-- What opens the block. -/
def mediaFront : List Char :=
  ['@', 'm', 'e', 'd', 'i', 'a', ' ', 'm', '\x7b']

example : byteCount mediaFront = 9 := rfl

def mediaRule : AtRule :=
  ⟨['m', 'e', 'd', 'i', 'a'], ['m'], true⟩

/-- The text in the block of an at-rule. -/
def inMedia (text : List Char) : List Char :=
  mediaFront ++ (text ++ ['\x7d'])

/-- The style sheet below the at-rule: its nodes stand one number and `mediaFront` later, and the
at-rule takes the place of the root. -/
def enclose (sheet : Stylesheet) : Stylesheet :=
  let source := inMedia sheet.source
  ⟨source,
    (⟨.root, none, [1], ⟨0, byteCount source⟩⟩ ::
      ⟨.atRule mediaRule, some root, (sheet.children root).map (1 + ·), ⟨0, byteCount source⟩⟩ ::
      sheet.below.map (Node.renumber (1 + ·) (byteCount mediaFront))).toArray⟩

end Stylesheet

/-- The text is well nested, without marks of HTML comments outside of brackets, it ends with a
semicolon or a closing brace, and one more block may stand around its blocks. -/
structure Enclosable (text : List Char) : Prop where
  wellNested : Token.wellNested ((Lexeme.ofText text).map Lexeme.token) = true
  unmarked : ∀ token ∈ Token.outsideBrackets 0 ((Lexeme.ofText text).map Lexeme.token),
    token ≠ .commentOpen ∧ token ≠ .commentClose
  ends : ∃ last ∈ (Lexeme.ofText text).getLast?,
    (last.token = .semicolon ∨ last.token = .closing .curly) ∧ last.span.stop = byteCount text
  shallow : blockDepth (contents text).items < maxNesting

/-! ## Pieces -/

namespace Stylesheet

/-- The keyword, the blank, the name and the brace in front of the text. -/
private def frontLexemes : List Lexeme :=
  [⟨.atKeyword mediaRule.name, ⟨0, 6⟩⟩, ⟨.whitespace, ⟨6, 7⟩⟩, ⟨.ident mediaRule.params, ⟨7, 8⟩⟩,
    ⟨.opening .curly, ⟨8, 9⟩⟩]

private theorem ofText_mediaFront (text : List Char) :
    Lexeme.ofText (mediaFront ++ text) =
      frontLexemes ++ (Lexeme.ofText text).map (Lexeme.shift (byteCount mediaFront)) := by
  have keyword : Token.read '@' (['m', 'e', 'd', 'i', 'a'] ++ ' ' :: 'm' :: '\x7b' :: text) =
      (.atKeyword ['m', 'e', 'd', 'i', 'a'], ' ' :: 'm' :: '\x7b' :: text) :=
    Token.read_atKeyword (by simp) (List.all_iff_forall_prop.1 (by decide))
      (Selector.Written.stops_cons (by decide) (by decide) _)
  have blank : Token.read ' ' ([] ++ 'm' :: '\x7b' :: text) =
      (.whitespace, 'm' :: '\x7b' :: text) :=
    Token.read_blanks (by decide) (by simp) (endsBlanks_cons (by decide) _)
  have name : Token.read 'm' ([] ++ '\x7b' :: text) = (.ident ['m'], '\x7b' :: text) :=
    Token.read_letters (List.all_iff_forall_prop.1 (by decide)) (endsName_cons (by decide) text)
  have brace : Lexeme.ofTextAt 8 ('\x7b' :: text) =
      ⟨.opening .curly, ⟨8, 9⟩⟩ :: Lexeme.ofTextAt 9 text := Lexeme.ofTextAt_punctuation rfl 8 text
  have fourth : Lexeme.ofTextAt 7 ('m' :: '\x7b' :: text) =
      ⟨.ident ['m'], ⟨7, 8⟩⟩ :: Lexeme.ofTextAt 8 ('\x7b' :: text) :=
    Lexeme.ofTextAt_token (by decide) name 7
  have second : Lexeme.ofTextAt 6 (' ' :: 'm' :: '\x7b' :: text) =
      ⟨.whitespace, ⟨6, 7⟩⟩ :: Lexeme.ofTextAt 7 ('m' :: '\x7b' :: text) :=
    Lexeme.ofTextAt_token (by decide) blank 6
  have first : Lexeme.ofText (mediaFront ++ text) =
      ⟨.atKeyword mediaRule.name, ⟨0, 6⟩⟩ ::
        Lexeme.ofTextAt 6 (' ' :: 'm' :: '\x7b' :: text) :=
    Lexeme.ofTextAt_token (by decide) keyword 0
  have moved : Lexeme.ofTextAt 9 text =
      (Lexeme.ofText text).map (Lexeme.shift (byteCount mediaFront)) :=
    Lexeme.ofTextAt_add 9 0 text
  rw [first, second, fourth, brace, moved]
  rfl

private def keywordPiece : Piece :=
  ⟨.atKeyword mediaRule.name, ⟨0, 6⟩, false⟩

private def bracePiece : Piece :=
  ⟨.opening .curly, ⟨8, 9⟩, false⟩

private def preludePieces : List Piece :=
  [⟨.whitespace, ⟨6, 7⟩, false⟩, ⟨.ident mediaRule.params, ⟨7, 8⟩, false⟩]

private theorem pieces_mediaFront (text : List Char) :
    Piece.ofText (mediaFront ++ text) =
      keywordPiece :: (preludePieces ++ bracePiece ::
        (Piece.ofText text).map (Piece.shift (byteCount mediaFront))) := by
  have moved := Piece.ofLexemesBehind_shift (byteCount mediaFront) none (Lexeme.ofText text)
  have front : Piece.ofLexemesBehind none frontLexemes =
      keywordPiece :: (preludePieces ++ [bracePiece]) := rfl
  have last : frontLexemes.getLast?.or none = some ⟨.opening .curly, ⟨8, 9⟩⟩ := rfl
  rw [Option.map_none] at moved
  rw [Piece.ofText, ofText_mediaFront, Piece.ofLexemesBehind_append, front, last,
    Piece.ofLexemesBehind_some (by simp) (by simp), moved]
  rfl

end Stylesheet

/-- The brace behind the text. -/
private def closerOf (text : List Char) : Piece :=
  ⟨.closing .curly, ⟨byteCount text, byteCount text + 1⟩, false⟩

namespace Enclosable

open Stylesheet

variable {text : List Char}

private theorem ofText_closer (enclosable : Enclosable text) :
    Lexeme.ofText (text ++ ['\x7d']) =
      Lexeme.ofText text ++ [⟨.closing .curly, ⟨byteCount text, byteCount text + 1⟩⟩] := by
  obtain ⟨last, isLast, isMark, stop⟩ := enclosable.ends
  have member : last ∈ Lexeme.ofTextAt 0 text := List.mem_of_getLast? isLast
  have stop : last.span.stop = 0 + byteCount text := by rw [stop, Nat.zero_add]
  have behind : Lexeme.ofTextAt 0 (text ++ ['\x7d']) =
      Lexeme.ofTextAt 0 text ++ Lexeme.ofTextAt (0 + byteCount text) ['\x7d'] := by
    rcases isMark with semicolon | brace
    · exact Lexeme.ofTextAt_append_of_mark (.inl rfl) member (by rw [semicolon]; rfl) stop _
    · exact Lexeme.ofTextAt_append_of_mark (.inr rfl) member (by rw [brace]; rfl) stop _
  have closer : Lexeme.ofTextAt (byteCount text) ['\x7d'] =
      [⟨.closing .curly, ⟨byteCount text, byteCount text + 1⟩⟩] := by
    rw [Lexeme.ofTextAt_punctuation rfl, Lexeme.ofTextAt_nil]
  rw [Lexeme.ofText, behind, Nat.zero_add, closer]
  rfl

private theorem pieces_closer (enclosable : Enclosable text) :
    Piece.ofText (text ++ ['\x7d']) = Piece.ofText text ++ [closerOf text] := by
  rw [Piece.ofText, enclosable.ofText_closer, Piece.ofLexemesBehind_append]
  rfl

/-! ## Items -/

private theorem unmarked_ofText (enclosable : Enclosable text) : Unmarked (Piece.ofText text) := by
  rw [Unmarked, Piece.ofText, Piece.map_token_ofLexemesBehind]
  exact enclosable.unmarked

/-- With one level less the text has the same contents, also inside a block. -/
private theorem readItems_alone (enclosable : Enclosable text) :
    readItems (blockReader text (maxNesting - 1)) text true (Piece.ofText text) =
      contents text := by
  have alike := readItems_alike (readsAlike_blockReader text (maxNesting - 1)) false
    (Nat.le_of_lt_succ enclosable.shallow)
  have inBlock := readItems_inBlock (readsBlocks_blockReader text (maxNesting - 1))
    (nested_ofText enclosable.wellNested) enclosable.unmarked_ofText fun piece member =>
      stands_of_mem member
  exact inBlock.trans alike

/-- Inside a block that ends behind the text the contents are those of the text alone. -/
private theorem readItems_closer (enclosable : Enclosable text) :
    (readItems (blockReader (text ++ ['\x7d']) (maxNesting - 1)) (text ++ ['\x7d']) true
        (Piece.ofText text ++ [closerOf text])) =
      ⟨(contents text).items, (contents text).notices, [closerOf text]⟩ := by
  obtain ⟨items, last, notices, _, read⟩ :=
    readItems_append (readsBlocks_blockReader text (maxNesting - 1))
      (nested_ofText enclosable.wellNested) (fun piece member => stands_of_mem member)
      (Nat.le_refl (byteCount text)) true
  -- The brace ends an item that was not closed as the end of the text does.
  have alone : contents text =
      ⟨items ++ unclosedItems (byteCount text) last, notices, []⟩ := by
    have ofEnd := read [] [] (segmentEnd_nil text)
    simp only [List.append_nil, closeItem, ite_self, readItems_nil, Contents.prepend] at ofEnd
    exact enclosable.readItems_alone.symm.trans ofEnd
  have closes : (closerOf text).token = .closing .curly := rfl
  rw [read _ _ (segmentEnd_closing closes [] _), closeItem_closing closes, ite_self,
    readItems_of_closing closes, alone]
  simp [Contents.prepend]

/-- The block holds the contents of the text, moved, and reaches to the end. -/
private theorem readBlock_inMedia (enclosable : Enclosable text) :
    readBlock (blockReader (inMedia text) maxNesting) (byteCount (inMedia text))
        ((Piece.ofText (text ++ ['\x7d'])).map (Piece.shift (byteCount mediaFront))) =
      ⟨shiftItems (byteCount mediaFront) (contents text).items, (contents text).notices,
        byteCount (inMedia text), []⟩ := by
  have moved := readsMoved_blockReader mediaFront (text ++ ['\x7d']) maxNesting
    (Piece.ofText (text ++ ['\x7d']))
  have inside : readBlockContents (blockReader (text ++ ['\x7d']) maxNesting)
      (Piece.ofText (text ++ ['\x7d'])) =
      ⟨(contents text).items, (contents text).notices, [closerOf text]⟩ := by
    rw [enclosable.pieces_closer]
    exact enclosable.readItems_closer
  have size : byteCount (inMedia text) = byteCount mediaFront + (byteCount text + 1) := by
    rw [inMedia, byteCount_append, byteCount_append]
    rfl
  rw [readBlock, inMedia, moved, inside, ← inMedia, size]
  rfl

/-- Behind `mediaFront` and in front of a brace, the text is read as one at-rule with the contents
of the text, moved. -/
theorem items_inMedia (enclosable : Enclosable text) :
    (contents (inMedia text)).items =
      [⟨.atRule mediaRule, ⟨0, byteCount (inMedia text)⟩,
        shiftItems (byteCount mediaFront) (contents text).items⟩] := by
  have pieces := pieces_mediaFront (text ++ ['\x7d'])
  rw [← inMedia] at pieces
  have block := enclosable.readBlock_inMedia
  generalize (Piece.ofText (text ++ ['\x7d'])).map (Piece.shift (byteCount mediaFront)) = rest
    at pieces block
  have params : textBetween (inMedia text) 6 8 = mediaRule.params := by
    have boundary : OnBoundary mediaFront 6 := ⟨['@', 'm', 'e', 'd', 'i', 'a'], _, rfl, rfl⟩
    rw [inMedia, textBetween_append boundary (by decide)]
    decide
  have skips : skipTo endsAtRule (preludePieces ++ bracePiece :: rest) = bracePiece :: rest := by
    simp [preludePieces, bracePiece, skipTo, endsAtRule, Piece.isSemicolon, Piece.closesBlock,
      Piece.opensBlock, skipComponent, Token.opens?]
  have read : readItem (blockReader (inMedia text) maxNesting) (inMedia text) keywordPiece
      (preludePieces ++ bracePiece :: rest) =
      .ofItem (some ⟨.atRule mediaRule, ⟨0, byteCount (inMedia text)⟩,
        shiftItems (byteCount mediaFront) (contents text).items⟩) (contents text).notices [] := by
    rw [readItem_of_atKeyword rfl]
    simp only [readAtRule, skips]
    simp only [startOf, keywordPiece, bracePiece, params, block]
    rfl
  rw [contents, pieces, readItems_item (by rfl) (by rfl) read, readItems]
  rfl

end Enclosable

/-! ## The style sheet -/

namespace Stylesheet

theorem ofItems_enclose (text : List Char) (items : List Item) :
    ofItems (inMedia text) [⟨.atRule mediaRule, ⟨0, byteCount (inMedia text)⟩,
        shiftItems (byteCount mediaFront) items⟩] =
      (ofItems text items).enclose := by
  have renames : ∀ id : NodeId, 0 < id → 1 + id = 1 + id := fun _ _ => rfl
  have children := numbers_shift renames (byteCount mediaFront) Nat.one_pos items
  have nodes := nodesOf_shift renames (byteCount mediaFront) root Nat.one_pos items
  apply ext_of_toList
  · rw [enclose, source_ofItems, source_ofItems]
  · rw [nodes_ofItems]
    simp only [enclose, source_ofItems, children_ofItems, below_ofItems, numbers, nodesOf,
      Item.nodes, ← children, ← nodes, List.append_nil]
    rfl

/-- A text of whole items gives the same style sheet in the block of an at-rule, below it. -/
theorem ofText_inMedia {text : List Char} (enclosable : Enclosable text) :
    ofText (inMedia text) = (ofText text).enclose := by
  rw [ofText, enclosable.items_inMedia, ofItems_enclose]
  rfl

end Stylesheet

end CssLint
