import CssLint.Proofs.Sheet.PlainSelectors
import CssLint.Proofs.Sheet.Segment
import CssLint.Sheet.Reader

/-!
# Items of plain texts

Declarations of two names, and rules with a plain prelude, as items: each is read in
front of whatever follows it.
-/

namespace CssLint.Sheet

open Selector.Written Text

/-! ## Texts without sigils -/

private theorem ofLexemesBehind_of_isTame {lexemes : List Lexeme}
    (tame : ∀ lexeme ∈ lexemes, lexeme.token.isTame = true) (previous : Option Lexeme)
    (tamePrevious : ∀ lexeme ∈ previous, lexeme.token.isTame = true) :
    Piece.ofLexemesBehind previous lexemes = lexemes.map Piece.ofLexeme := by
  induction lexemes generalizing previous with
  | nil => rfl
  | cons lexeme lexemes inductionHypothesis =>
      have noSigil : Piece.followsSigil previous lexeme = false := by
        cases previous with
        | none => rfl
        | some before =>
            have tameBefore := tamePrevious before rfl
            have notHash : before.token ≠ .delim '#' := by
              intro same
              rw [same] at tameBefore
              cases tameBefore
            have notAt : before.token ≠ .delim '@' := by
              intro same
              rw [same] at tameBefore
              cases tameBefore
            simp [Piece.followsSigil, notHash, notAt]
      have later := inductionHypothesis
        (fun other member => tame other (List.mem_cons_of_mem lexeme member)) (some lexeme) (by
          rintro _ ⟨⟩
          exact tame lexeme List.mem_cons_self)
      rw [Piece.ofLexemesBehind, noSigil, Bool.and_false, later]
      rfl

/-- The pieces of a text whose tokens make no holes of the braces behind them. -/
theorem ofText_eq_piecesAt_of_isTame {text : List Char}
    (tame : ∀ piece ∈ piecesAt 0 text, piece.token.isTame = true) :
    Piece.ofText text = piecesAt 0 text := by
  apply ofLexemesBehind_of_isTame
  · intro lexeme member
    exact tame (Piece.ofLexeme lexeme) (List.mem_map_of_mem member)
  · rintro _ ⟨⟩

/-- The pieces of a text without sigils and digits. -/
theorem ofText_eq_piecesAt {text : List Char} (reads : Reads Token.isTame text [])
    (noDigit : NoDigit text) : Piece.ofText text = piecesAt 0 text := by
  have whole : NoDigit (text ++ []) := by
    rw [List.append_nil]
    exact noDigit
  obtain ⟨pieces, same, consists⟩ := reads whole 0
  rw [List.append_nil, piecesAt_nil, List.append_nil] at same
  apply ofText_eq_piecesAt_of_isTame
  rw [same]
  exact consists.all

/-! ## Blank characters -/

variable {inner : Option BlockReader} {source : List Char}

theorem readItems_blanks (blanks : Blanks) (nested : Bool) {rest : List Char}
    (ends : EndsBlanks rest) (offset : Nat) :
    readItems inner source nested (piecesAt offset (blanks.text ++ rest)) =
      readItems inner source nested (piecesAt (offset + byteCount blanks.text) rest) := by
  obtain ⟨text, blank⟩ := blanks
  cases text with
  | nil => rfl
  | cons c text =>
      have first := blank c List.mem_cons_self
      have read := Token.read_blanks first
        (fun other member => blank other (List.mem_cons_of_mem c member)) ends
      rw [piecesAt_token (ne_of_isBlank first (by decide)) read, readItems]
      simp [isFiller, Piece.isWhitespace]

/-! ## Items -/

/-- A piece that begins an item is read with it. -/
theorem readItems_item {nested : Bool} {piece : Piece} {pieces rest : List Piece}
    {items : List Item} {notices : List Notice} (notFiller : isFiller nested piece = false)
    (notClosing : piece.closesBlock = false)
    (read : readItem inner source piece pieces = ⟨items, notices, rest⟩) :
    readItems inner source nested (piece :: pieces) =
      (readItems inner source nested rest).prepend items notices := by
  rw [readItems]
  simp only [notFiller, notClosing, Bool.false_eq_true, dite_false, read]

/-- The contents of a block up to the brace that closes it. -/
theorem readBlock_of_closing {stop : Nat} {pieces rest : List Piece} {items : List Item}
    {notices : List Notice} {closer : Piece} (closes : closer.token = .closing .curly)
    (block : readBlockContents inner pieces = ⟨items, notices, closer :: rest⟩) :
    readBlock inner stop pieces = ⟨items, notices, closer.span.stop, rest⟩ := by
  simp only [readBlock, block, endBlock, closesBlock_of_closing closes, if_true]

/-! ## Declarations -/

/-- A name, a colon, a name and a semicolon are a declaration, whatever follows. -/
private theorem readItems_pair (nested : Bool) (name value : List Char)
    (first second third last : Span) (rest : List Piece) :
    readItems inner source nested
        (⟨.ident name, first, false⟩ :: ⟨.colon, second, false⟩ :: ⟨.ident value, third, false⟩ ::
          ⟨.semicolon, last, false⟩ :: rest) =
      (readItems inner source nested rest).prepend
        [⟨.declaration ⟨textBetween source first.start second.start,
            textBetween source second.stop last.start⟩, ⟨first.start, last.stop⟩, []⟩] [] := by
  have declares : startsRule ⟨.ident name, first, false⟩
      (⟨.colon, second, false⟩ :: ⟨.ident value, third, false⟩ :: ⟨.semicolon, last, false⟩ ::
        rest) = false := by
    simp [startsRule, opensBlockWithin, Piece.opensBlock, Piece.isSemicolon, Piece.closesBlock,
      Token.closes?, Token.opens?]
  have reads : readItem inner source ⟨.ident name, first, false⟩
      (⟨.colon, second, false⟩ :: ⟨.ident value, third, false⟩ :: ⟨.semicolon, last, false⟩ ::
        rest) = ⟨[⟨.declaration ⟨textBetween source first.start second.start,
            textBetween source second.stop last.start⟩, ⟨first.start, last.stop⟩, []⟩], [],
              rest⟩ := by
    simp [readItem, declares, readDeclaration, skipTo, endsName, endsValue, skipComponent,
      Piece.isColon, Piece.isSemicolon, Piece.closesBlock, Token.opens?, Contents.ofItem, startOf]
  rw [readItems]
  simp [isFiller, Piece.isWhitespace, Piece.isSemicolon, Piece.closesBlock, reads]

/-- A declaration of two names with blank characters in front. -/
structure PlainDeclaration where
  before : Blanks
  name : Word
  value : Word
  plainName : name.IsPlain
  plainValue : value.IsPlain

namespace PlainDeclaration

def text (declaration : PlainDeclaration) : List Char :=
  declaration.before.text ++
    (declaration.name.text ++ ':' :: (declaration.value.text ++ [';']))

theorem readItems (declaration : PlainDeclaration) (nested : Bool) (offset : Nat)
    (rest : List Char) :
    ∃ kind span, Sheet.readItems inner source nested (piecesAt offset (declaration.text ++ rest)) =
      (Sheet.readItems inner source nested
        (piecesAt (offset + byteCount declaration.text) rest)).prepend
        [⟨.declaration kind, span, []⟩] [] := by
  obtain ⟨before, name, value, plainName, plainValue⟩ := declaration
  have joined : PlainDeclaration.text ⟨before, name, value, plainName, plainValue⟩ ++ rest =
      before.text ++ (name.text ++ ':' :: (value.text ++ ';' :: rest)) := by
    simp [text]
  have afterName : EndsName (':' :: (value.text ++ ';' :: rest)) := endsName_cons (by decide) _
  have afterValue : EndsName (';' :: rest) := endsName_cons (by decide) _
  have size : offset +
      byteCount (PlainDeclaration.text ⟨before, name, value, plainName, plainValue⟩) =
      offset + byteCount before.text + byteCount name.text + byteCount [':'] +
        byteCount value.text + byteCount [';'] := by
    rw [text, ← List.singleton_append, byteCount_append, byteCount_append, byteCount_append,
      byteCount_append]
    simp only [Nat.add_assoc]
  rw [joined, readItems_blanks before nested (endsBlanks_of_bareStart name.bareStart _),
    piecesAt_letters name.ne_nil plainName afterName, piecesAt_punctuation rfl,
    piecesAt_letters value.ne_nil plainValue afterValue, piecesAt_punctuation rfl, size,
    readItems_pair]
  exact ⟨_, _, rfl⟩

theorem reads (declaration : PlainDeclaration) (rest : List Char) :
    Reads Token.isTame declaration.text rest := by
  have tame : ∀ token : Token, token.isQuiet = true → token.isTame = true :=
    fun _ => Token.isTame_of_isQuiet
  have afterName : EndsName (':' :: (declaration.value.text ++ [';']) ++ rest) :=
    endsName_cons (by decide) _
  have afterValue : EndsName ([';'] ++ rest) := endsName_cons (by decide) _
  have before : Reads Token.isTame declaration.before.text (declaration.name.text ++
      (':' :: (declaration.value.text ++ [';'])) ++ rest) := by
    rw [List.append_assoc]
    exact (Reads.blanks declaration.before
      (endsBlanks_of_bareStart declaration.name.bareStart _)).mono tame
  have name := (Reads.word declaration.plainName afterName).mono tame
  have colon := (@Reads.colon (declaration.value.text ++ [';'] ++ rest)).mono tame
  have value := (Reads.word declaration.plainValue afterValue).mono tame
  have semicolon : Reads Token.isTame [';'] rest :=
    .token (by decide) (fun _ => Token.read_punctuation rfl rest) rfl rfl rfl
  exact before.append (name.append (colon.append (value.append semicolon)))

end PlainDeclaration

/-- The declarations of a block, as they are written. -/
def declarationsText (declarations : List PlainDeclaration) : List Char :=
  declarations.flatMap PlainDeclaration.text

/-- The item is a declaration. -/
def Item.IsDeclaration (item : Item) : Prop :=
  ∃ declaration span, item = ⟨.declaration declaration, span, []⟩

theorem readItems_declarations (declarations : List PlainDeclaration) (nested : Bool)
    (offset : Nat) (rest : List Char) :
    ∃ items : List Item, (∀ item ∈ items, item.IsDeclaration) ∧
      readItems inner source nested (piecesAt offset (declarationsText declarations ++ rest)) =
        (readItems inner source nested
          (piecesAt (offset + byteCount (declarationsText declarations)) rest)).prepend
            items [] := by
  induction declarations generalizing offset with
  | nil =>
      refine ⟨[], ?_, rfl⟩
      intro item member
      cases member
  | cons declaration declarations inductionHypothesis =>
      obtain ⟨kind, span, here⟩ := declaration.readItems nested offset
        (declarationsText declarations ++ rest)
      obtain ⟨items, each, later⟩ := inductionHypothesis (offset + byteCount declaration.text)
      refine ⟨⟨.declaration kind, span, []⟩ :: items, ?_, ?_⟩
      · intro item member
        rcases List.mem_cons.1 member with rfl | behind
        · exact ⟨kind, span, rfl⟩
        · exact each item behind
      · have joined : declarationsText (declaration :: declarations) ++ rest =
            declaration.text ++ (declarationsText declarations ++ rest) := by
          simp [declarationsText]
        have size : offset + byteCount (declarationsText (declaration :: declarations)) =
            offset + byteCount declaration.text + byteCount (declarationsText declarations) := by
          rw [declarationsText, List.flatMap_cons, byteCount_append, Nat.add_assoc]
          rfl
        rw [joined, here, later, size]
        rfl

theorem reads_declarations (declarations : List PlainDeclaration) (rest : List Char) :
    Reads Token.isTame (declarationsText declarations) rest := by
  induction declarations with
  | nil => exact .nil rest
  | cons declaration declarations inductionHypothesis =>
      exact .append (declaration.reads _) inductionHypothesis

/-! ## Rules -/

theorem passes_of_isQuiet {piece : Piece} (quiet : piece.token.isQuiet = true) :
    piece.opensBlock = false ∧ piece.closesBlock = false ∧ piece.isSemicolon = false := by
  have notOpening : piece.token ≠ .opening .curly := by
    intro same
    rw [same] at quiet
    cases quiet
  have notClosing : piece.token ≠ .closing .curly := by
    intro same
    rw [same] at quiet
    cases quiet
  have notSemicolon : piece.token ≠ .semicolon := by
    intro same
    rw [same] at quiet
    cases quiet
  simp [Piece.opensBlock, Piece.isSemicolon, Piece.closesBlock, notOpening, notClosing,
    notSemicolon]

/-- A quiet piece begins a rule. -/
theorem begins_of_isQuiet {piece : Piece} (quiet : piece.token.isQuiet = true)
    (notBlank : piece.token ≠ .whitespace) :
    (∀ name, piece.token ≠ .atKeyword name) ∧ isCustomName piece = false ∧
      ∀ nested, isFiller nested piece = false := by
  obtain ⟨_, _, notSemicolon⟩ := passes_of_isQuiet quiet
  refine ⟨?_, ?_, ?_⟩
  · intro name keyword
    rw [keyword] at quiet
    cases quiet
  · unfold isCustomName
    split
    · rename_i name same
      rw [same] at quiet
      simpa [Token.isQuiet] using quiet
    · rfl
  · intro nested
    have notOpen : piece.token ≠ .commentOpen := by
      intro comment
      rw [comment] at quiet
      cases quiet
    have notClose : piece.token ≠ .commentClose := by
      intro comment
      rw [comment] at quiet
      cases quiet
    simp [isFiller, Piece.isWhitespace, notBlank, notSemicolon, notOpen, notClose]

/-- Looking ahead passes over quiet pieces, and so does the search for a block. -/
theorem passes_of_quiet {pieces : List Piece} (nested : Nested pieces)
    (quiet : ∀ piece ∈ pieces, piece.token.isQuiet = true) (rest : List Piece) :
    opensBlockWithin 0 (pieces ++ rest) = opensBlockWithin 0 rest ∧
      skipTo Piece.opensBlock (pieces ++ rest) = skipTo Piece.opensBlock rest := by
  induction nested with
  | nil => exact ⟨rfl, rfl⟩
  | @plain piece pieces notOpening notClosing later inductionHypothesis =>
      obtain ⟨notBlock, notEnd, notSemicolon⟩ := passes_of_isQuiet (quiet piece List.mem_cons_self)
      obtain ⟨ahead, found⟩ := inductionHypothesis fun other member =>
        quiet other (List.mem_cons_of_mem piece member)
      constructor
      · simp [opensBlockWithin, notBlock, notEnd, notSemicolon, notOpening, notClosing, ahead]
      · simp [skipTo, notBlock, skipComponent, notOpening, found]
  | @block bracket opener closer inside pieces opens nested closes later _ inductionHypothesis =>
      obtain ⟨notBlock, notEnd, notSemicolon⟩ := passes_of_isQuiet (quiet opener List.mem_cons_self)
      obtain ⟨ahead, found⟩ := inductionHypothesis fun other member =>
        quiet other (by simp [member])
      have opener_ := closes?_of_opens? opens
      have closer_ := closes?_of_closing closes
      constructor
      · simp [opensBlockWithin, notBlock, notEnd, notSemicolon, opens, opener_, closer_,
          opensBlockWithin_inside nested, ahead]
      · rw [List.cons_append, List.append_assoc, List.cons_append, skipTo]
        simp only [notBlock, if_false, Bool.false_eq_true, skipComponent_block opens nested closes,
          found]

end CssLint.Sheet
