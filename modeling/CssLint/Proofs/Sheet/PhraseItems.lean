import CssLint.Proofs.Sheet.PhrasePieces

/-!
# Items of phrases

Rules, at-rules and declarations whose texts are phrases: each is read as one item in
front of whatever follows its block or its semicolon.
-/

namespace CssLint.Sheet

open Selector.Written Text

/-! ## Phrases and names -/

def isPhraseChar (c : Char) : Bool :=
  c.isAlpha || c.isDigit || c == '-' || c == '.' || c == ' '

/-- Whether a text of letters, digits, hyphens, points and spaces begins with a letter and ends
with a letter or a digit. -/
def isPhrase (text : List Char) : Bool :=
  text.all isPhraseChar && text.head?.any Char.isAlpha &&
    text.getLast?.any fun c => c.isAlpha || c.isDigit

structure Phrase where
  text : List Char
  wellFormed : isPhrase text = true

/-- A name of letters. -/
structure LetterName where
  text : List Char
  nonempty : text ≠ []
  letters : ∀ c ∈ text, c.isAlpha = true

/-- A run of blank characters that is not empty. -/
structure Gap extends Blanks where
  nonempty : text ≠ []

namespace Phrase

theorem parts (phrase : Phrase) : ∀ c ∈ phrase.text, isPhrasePart c = true := by
  intro c member
  have wellFormed := phrase.wellFormed
  simp only [isPhrase, Bool.and_eq_true, List.all_eq_true] at wellFormed
  have char := wellFormed.1.1 c member
  simp only [isPhraseChar, Bool.or_eq_true, beq_iff_eq] at char
  rcases char with (((alpha | digit) | rfl) | rfl) | rfl
  · simp [isPhrasePart, alpha]
  · simp [isPhrasePart, digit]
  · decide
  · decide
  · decide

theorem exists_cons (phrase : Phrase) :
    ∃ c more, phrase.text = c :: more ∧ c.isAlpha = true := by
  have wellFormed := phrase.wellFormed
  simp only [isPhrase, Bool.and_eq_true] at wellFormed
  obtain ⟨⟨_, first⟩, _⟩ := wellFormed
  cases same : phrase.text with
  | nil => simp [same] at first
  | cons c more =>
      rw [same] at first
      exact ⟨c, more, rfl, first⟩

theorem bareStart (phrase : Phrase) : BareStart phrase.text := by
  obtain ⟨c, more, same, alpha⟩ := phrase.exists_cons
  exact ⟨c, more, same, isSpace_of_isWordPart (by simp [isWordPart, Char.isAlphanum, alpha])⟩

theorem bareEnd (phrase : Phrase) : BareEnd phrase.text := by
  have wellFormed := phrase.wellFormed
  simp only [isPhrase, Bool.and_eq_true] at wellFormed
  obtain ⟨_, last⟩ := wellFormed
  cases found : phrase.text.getLast? with
  | none => simp [found] at last
  | some c =>
      obtain ⟨init, same⟩ := List.getLast?_eq_some_iff.1 found
      rw [found, Option.any_some] at last
      have part : isWordPart c = true := by
        rw [isWordPart, Char.isAlphanum, last]
        rfl
      exact ⟨init, c, same, isSpace_of_isWordPart part⟩

end Phrase

theorem isPhrasePart_blanks (blanks : Blanks) : ∀ c ∈ blanks.text, isPhrasePart c = true :=
  fun c member => by simp [isPhrasePart, blanks.blank c member]

variable {inner : Option BlockReader} {source : List Char}

/-- What stands between two places is a phrase with blank characters around it. -/
theorem textBetween_phrase (front : List Char) (before : Blanks) (phrase : Phrase) (after : Blanks)
    (rest : List Char)
    (written : source = front ++ (before.text ++ phrase.text ++ after.text ++ rest)) :
    textBetween source (byteCount front)
        (byteCount front + byteCount (before.text ++ phrase.text ++ after.text)) = phrase.text := by
  rw [textBetween, written, slice_part]
  exact trim_append_append before.isSpace after.isSpace phrase.bareStart phrase.bareEnd

/-! ## Heads -/

/-- The keyword and the parameters of an at-rule. -/
structure AtHead where
  name : LetterName
  gap : Gap
  params : Phrase

/-- What stands in front of a block. -/
inductive BlockHead where
  | rule (selector : Phrase)
  | atRule (head : AtHead)

/-- What stands in front of a semicolon. -/
inductive LineHead where
  | atRule (head : AtHead)
  | declaration (name : LetterName) (gap : Blanks) (value : Phrase)

def AtHead.text (head : AtHead) : List Char :=
  '@' :: head.name.text ++ (head.gap.text ++ head.params.text)

namespace BlockHead

def text : BlockHead → List Char
  | rule selector => selector.text
  | atRule head => head.text

/-- The item of this head at the given byte. -/
def kind (offset : Nat) : BlockHead → Kind
  | rule selector => .rule ⟨selector.text, offset⟩
  | atRule head => .atRule ⟨head.name.text, head.params.text, true⟩

end BlockHead

namespace LineHead

def text : LineHead → List Char
  | atRule head => head.text
  | declaration name gap value => name.text ++ ':' :: (gap.text ++ value.text)

def kind : LineHead → Kind
  | atRule head => .atRule ⟨head.name.text, head.params.text, false⟩
  | declaration name _ value => .declaration ⟨name.text, value.text⟩

end LineHead

/-! ## At-rules -/

namespace AtHead

variable (head : AtHead) (after : Blanks)

/-- The text behind the keyword. -/
def tail : List Char :=
  head.gap.text ++ head.params.text ++ after.text

theorem text_append (rest : List Char) :
    head.text ++ after.text ++ rest = '@' :: head.name.text ++ (head.tail after ++ rest) := by
  simp [text, tail]

theorem byteCount_text : byteCount (head.text ++ after.text) =
    byteCount ('@' :: head.name.text) + byteCount (head.tail after) := by
  rw [← byteCount_append, ← List.append_nil (head.text ++ after.text), text_append,
    List.append_nil]

theorem isPhrasePart_tail : ∀ c ∈ head.tail after, isPhrasePart c = true :=
  List.forall_mem_append.2 ⟨List.forall_mem_append.2
    ⟨isPhrasePart_blanks head.gap.toBlanks, head.params.parts⟩, isPhrasePart_blanks after⟩

theorem read_keyword (rest : List Char) :
    Token.read '@' (head.name.text ++ (head.tail after ++ rest)) =
      (.atKeyword head.name.text, head.tail after ++ rest) := by
  refine Token.read_atKeyword head.name.nonempty head.name.letters ?_
  obtain ⟨c, more, same⟩ := List.exists_cons_of_ne_nil head.gap.nonempty
  have blank : c ∈ ['\n', '\t', ' ', '\r', '\x0c'] :=
    mem_of_isBlank (head.gap.blank c (by rw [same]; exact List.mem_cons_self))
  have stops : ∀ c ∈ ['\n', '\t', ' ', '\r', '\x0c'], Name.isPart c = false ∧ c ≠ '\\' :=
    List.all_iff_forall_prop.1 (by decide)
  obtain ⟨notPart, notEscape⟩ := stops c blank
  rw [tail, same]
  exact stops_cons notPart notEscape _

/-- The keyword of an at-rule, and the flat pieces behind it. -/
theorem piecesAt_text {rest : List Char} (ends : EndsPhrase rest) (offset : Nat) :
    ∃ pieces, piecesAt offset (head.text ++ after.text ++ rest) =
        ⟨.atKeyword head.name.text, ⟨offset, offset + byteCount ('@' :: head.name.text)⟩, false⟩ ::
          (pieces ++ piecesAt (offset + byteCount (head.text ++ after.text)) rest) ∧
      ∀ piece ∈ pieces, piece.token.isFlat = true := by
  obtain ⟨pieces, same, flats⟩ := piecesAt_phrase ends (head.isPhrasePart_tail after)
    (offset + byteCount ('@' :: head.name.text))
  refine ⟨pieces, ?_, flats⟩
  rw [text_append, piecesAt_token (by decide) (head.read_keyword after rest), same, byteCount_text,
    Nat.add_assoc]

theorem endsAtRule_of_isFlat (piece : Piece) (flat : piece.token.isFlat = true) :
    endsAtRule piece = false := by
  obtain ⟨_, _, noBlock, noEnd, noSemicolon, _⟩ := Piece.lacks_of_isFlat flat
  rw [endsAtRule, noBlock, noEnd, noSemicolon]
  rfl

/-- The parameters stand between the keyword and the sign that ends them. -/
theorem textBetween_params {front rest : List Char}
    (written : source = front ++ (head.text ++ after.text ++ rest)) :
    textBetween source (byteCount front + byteCount ('@' :: head.name.text))
      (byteCount front + byteCount (head.text ++ after.text)) = head.params.text := by
  have placed : source = (front ++ '@' :: head.name.text) ++
      (head.gap.text ++ head.params.text ++ after.text ++ rest) := by
    rw [written, text_append, tail]
    simp
  have between := textBetween_phrase (front ++ '@' :: head.name.text) head.gap.toBlanks head.params
    after rest placed
  rwa [byteCount_append, Nat.add_assoc, ← tail, ← byteCount_text] at between

theorem readItems_block (nested : Bool) {front body : List Char} {items : List Item}
    {notices : List Notice} {closer : Piece} {rest : List Piece}
    (closes : closer.token = .closing .curly)
    (block : readBlockContents inner (piecesAt (byteCount front +
      byteCount (head.text ++ after.text) + byteCount ['\x7b']) body) =
        ⟨items, notices, closer :: rest⟩)
    (written : source = front ++ (head.text ++ after.text ++ '\x7b' :: body)) :
    readItems inner source nested
        (piecesAt (byteCount front) (head.text ++ after.text ++ '\x7b' :: body)) =
      (readItems inner source nested rest).prepend
        [⟨.atRule ⟨head.name.text, head.params.text, true⟩,
          ⟨byteCount front, closer.span.stop⟩, items⟩] notices := by
  obtain ⟨pieces, same, flats⟩ := head.piecesAt_text after
    (endsPhrase_cons (show '\x7b' ∈ phraseEnds by decide) body) (byteCount front)
  rw [same, piecesAt_punctuation rfl]
  refine readItems_item (by simp [isFiller, Piece.isWhitespace, Piece.isSemicolon])
    (by simp [Piece.closesBlock]) ?_
  rw [readItem_of_atKeyword rfl, readAtRule, skipTo_flat endsAtRule_of_isFlat flats (by rfl)]
  simp only [startOf, head.textBetween_params after written, readBlock_of_closing closes block]
  rfl

theorem readItems_line (nested : Bool) {front behind : List Char}
    (written : source = front ++ (head.text ++ after.text ++ ';' :: behind)) :
    readItems inner source nested
        (piecesAt (byteCount front) (head.text ++ after.text ++ ';' :: behind)) =
      (readItems inner source nested (piecesAt (byteCount front +
        byteCount (head.text ++ after.text) + byteCount [';']) behind)).prepend
        [⟨.atRule ⟨head.name.text, head.params.text, false⟩, ⟨byteCount front,
          byteCount front + byteCount (head.text ++ after.text) + byteCount [';']⟩, []⟩] [] := by
  obtain ⟨pieces, same, flats⟩ := head.piecesAt_text after
    (endsPhrase_cons (show ';' ∈ phraseEnds by decide) behind) (byteCount front)
  rw [same, piecesAt_punctuation rfl]
  refine readItems_item (by simp [isFiller, Piece.isWhitespace, Piece.isSemicolon])
    (by simp [Piece.closesBlock]) ?_
  rw [readItem_of_atKeyword rfl, readAtRule, skipTo_flat endsAtRule_of_isFlat flats (by rfl)]
  simp only [startOf, head.textBetween_params after written]
  rfl

end AtHead

/-! ## Rules -/

/-- A name that begins with a letter begins a rule or a declaration. -/
theorem begins_of_alpha {name : List Char}
    (begins : ∃ c more, name = c :: more ∧ c.isAlpha = true) (span : Span) (nested : Bool)
    (pieces : List Piece) :
    isFiller nested ⟨.ident name, span, false⟩ = false ∧
      (⟨.ident name, span, false⟩ : Piece).closesBlock = false ∧
      isCustomProperty ⟨.ident name, span, false⟩ pieces = false := by
  obtain ⟨c, more, rfl, alpha⟩ := begins
  have notHyphen : c ≠ '-' := ne_of_isAlpha alpha (by decide)
  simp [isFiller, Piece.isWhitespace, Piece.isSemicolon, Piece.closesBlock, isCustomProperty,
    isCustomName, Ne.symm notHyphen]

theorem Phrase.readItems_rule (selector : Phrase) (after : Blanks) (nested : Bool)
    {front body : List Char} {items : List Item} {notices : List Notice} {closer : Piece}
    {rest : List Piece} (closes : closer.token = .closing .curly)
    (block : readBlockContents inner (piecesAt (byteCount front +
      byteCount (selector.text ++ after.text) + byteCount ['\x7b']) body) =
        ⟨items, notices, closer :: rest⟩)
    (written : source = front ++ (selector.text ++ after.text ++ '\x7b' :: body)) :
    readItems inner source nested
        (piecesAt (byteCount front) (selector.text ++ after.text ++ '\x7b' :: body)) =
      (readItems inner source nested rest).prepend
        [⟨.rule ⟨selector.text, byteCount front⟩, ⟨byteCount front, closer.span.stop⟩, items⟩]
        notices := by
  obtain ⟨c, more, begins, alpha⟩ := selector.exists_cons
  have head : selector.text ++ after.text = c :: (more ++ after.text) := by
    rw [begins, List.cons_append]
  have parts : ∀ c ∈ selector.text ++ after.text, isPhrasePart c = true :=
    List.forall_mem_append.2 ⟨selector.parts, isPhrasePart_blanks after⟩
  have prelude_ : slice source (byteCount front)
      (byteCount front + byteCount (selector.text ++ after.text)) =
        selector.text ++ after.text := by
    rw [written, slice_part]
  have nothing : ∀ c ∈ ([] : List Char), isSpace c = true := by simp
  have trimmed : trim (selector.text ++ after.text) = selector.text :=
    trim_append_append nothing after.isSpace selector.bareStart selector.bareEnd
  have bare : trimStart (selector.text ++ after.text) = selector.text ++ after.text :=
    trimStart_eq_self (selector.bareStart.append after.text)
  rw [head] at parts
  obtain ⟨name, stop, pieces, same, flats⟩ := piecesAt_phrase_alpha
    (endsPhrase_cons (show '\x7b' ∈ phraseEnds by decide) body) alpha
    (List.forall_mem_cons.1 parts).2 (byteCount front)
  rw [← head, piecesAt_punctuation rfl] at same
  obtain ⟨notFiller, notClosing, notCustom⟩ := begins_of_alpha ⟨c, name, rfl, alpha⟩
    ⟨byteCount front, stop⟩ nested (pieces ++ ⟨.opening .curly, ⟨_, _⟩, false⟩ :: piecesAt _ body)
  have flatsWhole : ∀ piece ∈ (⟨.ident (c :: name), ⟨byteCount front, stop⟩, false⟩ :: pieces :
      List Piece), piece.token.isFlat = true := List.forall_mem_cons.2 ⟨rfl, flats⟩
  have ahead := opensBlockWithin_flat flatsWhole
  have found := @skipTo_flat Piece.opensBlock
    (fun _ flat => (Piece.lacks_of_isFlat flat).2.2.1) _ flatsWhole
  rw [same]
  refine readItems_item notFiller notClosing ?_
  rw [readItem_of_not_atKeyword (by simp), startsRule, notCustom, ← List.cons_append, ahead,
    readRule, ← List.cons_append, found (by rfl)]
  simp only [opensBlockWithin, prelude_, trimmed, bare, readBlock_of_closing closes block,
    Nat.sub_self, Nat.add_zero]
  rfl

/-! ## Declarations -/

theorem LetterName.isSpace (name : LetterName) : ∀ c ∈ name.text, isSpace c = false :=
  fun c member => isSpace_of_isWordPart
    (by simp [isWordPart, Char.isAlphanum, name.letters c member])

theorem LetterName.trim_text (name : LetterName) : trim name.text = name.text :=
  trim_eq_self (bareStart_of_forall name.nonempty name.isSpace)
    (bareEnd_of_forall name.nonempty name.isSpace)

theorem LetterName.exists_cons (name : LetterName) :
    ∃ c more, name.text = c :: more ∧ c.isAlpha = true := by
  obtain ⟨c, more, same⟩ := List.exists_cons_of_ne_nil name.nonempty
  exact ⟨c, more, same, name.letters c (by rw [same]; exact List.mem_cons_self)⟩

/-- A name, a colon and flat pieces up to a semicolon are read as a declaration. -/
private theorem readItem_declaration (name : LetterName) (first second third : Span)
    {pieces : List Piece} (flats : ∀ piece ∈ pieces, piece.token.isFlat = true)
    (rest : List Piece) :
    readItem inner source ⟨.ident name.text, first, false⟩
        (⟨.colon, second, false⟩ :: (pieces ++ ⟨.semicolon, third, false⟩ :: rest)) =
      ⟨[⟨.declaration ⟨textBetween source first.start second.start,
        textBetween source second.stop third.start⟩, ⟨first.start, third.stop⟩, []⟩], [],
        rest⟩ := by
  obtain ⟨-, -, notCustom⟩ := begins_of_alpha name.exists_cons first false
    (⟨.colon, second, false⟩ :: (pieces ++ ⟨.semicolon, third, false⟩ :: rest))
  have noBlock : opensBlockWithin 0 (⟨.ident name.text, first, false⟩ ::
      ⟨.colon, second, false⟩ :: (pieces ++ ⟨.semicolon, third, false⟩ :: rest)) = false :=
    opensBlockWithin_flat flats _
  have named : skipTo endsName (⟨.ident name.text, first, false⟩ ::
      ⟨.colon, second, false⟩ :: (pieces ++ ⟨.semicolon, third, false⟩ :: rest)) =
        ⟨.colon, second, false⟩ :: (pieces ++ ⟨.semicolon, third, false⟩ :: rest) := by
    simp [skipTo, endsName, endsValue, skipComponent, Piece.isColon, Piece.isSemicolon,
      Piece.closesBlock, Token.opens?]
  have lacks : ∀ piece : Piece, piece.token.isFlat = true → endsValue piece = false := by
    intro piece flat
    obtain ⟨_, _, _, noEnd, noSemicolon, _⟩ := Piece.lacks_of_isFlat flat
    rw [endsValue, noEnd, noSemicolon]
    rfl
  have valued : skipTo endsValue (pieces ++ ⟨.semicolon, third, false⟩ :: rest) =
      ⟨.semicolon, third, false⟩ :: rest := skipTo_flat lacks flats rfl rest
  rw [readItem_of_not_atKeyword (by simp), startsRule, notCustom, noBlock, readDeclaration, named]
  simp only [valued, startOf]
  rfl

theorem readItems_declaration (name : LetterName) (gap : Blanks) (value : Phrase)
    (after : Blanks) (nested : Bool) {front behind : List Char}
    (written : source = front ++ (name.text ++ ':' :: (gap.text ++ value.text) ++ after.text ++
      ';' :: behind)) :
    readItems inner source nested (piecesAt (byteCount front)
        (name.text ++ ':' :: (gap.text ++ value.text) ++ after.text ++ ';' :: behind)) =
      (readItems inner source nested (piecesAt (byteCount front +
        byteCount (name.text ++ ':' :: (gap.text ++ value.text) ++ after.text) + byteCount [';'])
          behind)).prepend
        [⟨.declaration ⟨name.text, value.text⟩, ⟨byteCount front, byteCount front +
          byteCount (name.text ++ ':' :: (gap.text ++ value.text) ++ after.text) +
            byteCount [';']⟩, []⟩] [] := by
  have parts : ∀ c ∈ gap.text ++ value.text ++ after.text, isPhrasePart c = true :=
    List.forall_mem_append.2 ⟨List.forall_mem_append.2
      ⟨isPhrasePart_blanks gap, value.parts⟩, isPhrasePart_blanks after⟩
  have joined : name.text ++ ':' :: (gap.text ++ value.text) ++ after.text ++ ';' :: behind =
      name.text ++ ':' :: (gap.text ++ value.text ++ after.text ++ ';' :: behind) := by simp
  have size : byteCount front +
      byteCount (name.text ++ ':' :: (gap.text ++ value.text) ++ after.text) =
      byteCount front + byteCount name.text + byteCount [':'] +
        byteCount (gap.text ++ value.text ++ after.text) := by
    simp only [byteCount_append, byteCount_cons, byteCount_nil, Nat.add_zero, Nat.add_assoc]
  obtain ⟨pieces, same, flats⟩ := piecesAt_phrase
    (endsPhrase_cons (show ';' ∈ phraseEnds by decide) behind) parts
    (byteCount front + byteCount name.text + byteCount [':'])
  rw [piecesAt_punctuation rfl] at same
  have ofName : textBetween source (byteCount front) (byteCount front + byteCount name.text) =
      name.text := by
    rw [textBetween, written, joined, slice_part, name.trim_text]
  have ofValue := textBetween_phrase (front ++ (name.text ++ [':'])) gap value after
    (';' :: behind) (written.trans (by simp))
  rw [byteCount_append, byteCount_append, ← Nat.add_assoc] at ofValue
  obtain ⟨notFiller, notClosing, -⟩ := begins_of_alpha name.exists_cons
    ⟨byteCount front, byteCount front + byteCount name.text⟩ nested []
  rw [joined, piecesAt_letters name.nonempty name.letters (endsName_cons (by decide) _),
    piecesAt_punctuation rfl, same, size]
  refine readItems_item notFiller notClosing ?_
  rw [readItem_declaration name _ _ _ flats, ofName, ofValue]

/-! ## Items with heads -/

/-- A head in front of a block is read as an item with the contents of the block. -/
theorem BlockHead.readItems (head : BlockHead) (after : Blanks) (nested : Bool)
    {front body : List Char} {items : List Item} {notices : List Notice} {closer : Piece}
    {rest : List Piece} (closes : closer.token = .closing .curly)
    (block : readBlockContents inner (piecesAt (byteCount front +
      byteCount (head.text ++ after.text) + byteCount ['\x7b']) body) =
        ⟨items, notices, closer :: rest⟩)
    (written : source = front ++ (head.text ++ after.text ++ '\x7b' :: body)) :
    Sheet.readItems inner source nested
        (piecesAt (byteCount front) (head.text ++ after.text ++ '\x7b' :: body)) =
      (Sheet.readItems inner source nested rest).prepend
        [⟨head.kind (byteCount front), ⟨byteCount front, closer.span.stop⟩, items⟩] notices := by
  cases head with
  | rule selector => exact selector.readItems_rule after nested closes block written
  | atRule head => exact head.readItems_block after nested closes block written

/-- A head in front of a semicolon is read as an item without a block. -/
theorem LineHead.readItems (head : LineHead) (after : Blanks) (nested : Bool)
    {front behind : List Char}
    (written : source = front ++ (head.text ++ after.text ++ ';' :: behind)) :
    Sheet.readItems inner source nested
        (piecesAt (byteCount front) (head.text ++ after.text ++ ';' :: behind)) =
      (Sheet.readItems inner source nested (piecesAt (byteCount front +
        byteCount (head.text ++ after.text) + byteCount [';']) behind)).prepend
        [⟨head.kind, ⟨byteCount front,
          byteCount front + byteCount (head.text ++ after.text) + byteCount [';']⟩, []⟩] [] := by
  cases head with
  | atRule head => exact head.readItems_line after nested written
  | declaration name gap value =>
      exact readItems_declaration name gap value after nested written

/-! ## Heads without sigils -/

theorem AtHead.splits (head : AtHead) (after : Blanks) {rest : List Char}
    (ends : EndsPhrase rest) : Splits (head.text ++ after.text) rest := by
  have keyword : Splits ('@' :: head.name.text) (head.tail after ++ rest) :=
    .token (by decide) (head.read_keyword after rest) rfl
  have joined : head.text ++ after.text = '@' :: head.name.text ++ head.tail after := by
    simpa using head.text_append after []
  rw [joined]
  exact keyword.append (.phrase (head.isPhrasePart_tail after) ends)

theorem BlockHead.splits (head : BlockHead) (after : Blanks) {rest : List Char}
    (ends : EndsPhrase rest) : Splits (head.text ++ after.text) rest := by
  cases head with
  | rule selector =>
      exact .phrase (List.forall_mem_append.2 ⟨selector.parts, isPhrasePart_blanks after⟩) ends
  | atRule head => exact head.splits after ends

theorem LineHead.splits (head : LineHead) (after : Blanks) {rest : List Char}
    (ends : EndsPhrase rest) : Splits (head.text ++ after.text) rest := by
  cases head with
  | atRule head => exact head.splits after ends
  | declaration name gap value =>
      have colon : Splits [':'] (gap.text ++ value.text ++ after.text ++ rest) :=
        .token (by decide) (Token.read_punctuation rfl _) rfl
      have named : Splits name.text ([':'] ++ (gap.text ++ value.text ++ after.text) ++ rest) :=
        .phrase (fun c member => by simp [isPhrasePart, name.letters c member])
          (endsPhrase_cons (by decide) _)
      have valued : Splits (gap.text ++ value.text ++ after.text) rest :=
        .phrase (List.forall_mem_append.2 ⟨List.forall_mem_append.2
          ⟨isPhrasePart_blanks gap, value.parts⟩, isPhrasePart_blanks after⟩) ends
      have whole := named.append (colon.append valued)
      simpa [text] using whole

/-- Heads begin with a letter or the sign of a keyword. -/
theorem BlockHead.endsBlanks (head : BlockHead) (after : Blanks) (rest : List Char) :
    EndsBlanks (head.text ++ after.text ++ rest) := by
  rw [List.append_assoc]
  cases head with
  | rule selector => exact endsBlanks_of_bareStart selector.bareStart _
  | atRule head => exact endsBlanks_cons (by decide) _

theorem LineHead.endsBlanks (head : LineHead) (after : Blanks) (rest : List Char) :
    EndsBlanks (head.text ++ after.text ++ rest) := by
  rw [List.append_assoc]
  cases head with
  | atRule head => exact endsBlanks_cons (by decide) _
  | declaration name gap value =>
      exact endsBlanks_of_bareStart
        ((bareStart_of_forall name.nonempty name.isSpace).append _) _

end CssLint.Sheet
