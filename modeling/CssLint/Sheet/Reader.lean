import CssLint.Sheet.Item
import CssLint.Sheet.Notice
import CssLint.Sheet.Piece
import CssLint.Text.Blank

/-!
Reading the contents of a style sheet.

The contents are items one behind the other: at-rules, and rules and
declarations, which are told apart by what comes first, the brace of a block or
the end of the item. A block holds contents again. Blocks stand at most
`maxNesting` deep; what is deeper is passed over. Whatever the text, something is
read, with notices about what did not fit.
-/

namespace CssLint.Sheet

open Text

/-! ## Results -/

/-- What was read: the items, the notices in the order in which they came up, and the pieces that
follow. -/
structure Contents where
  items : List Item
  notices : List Notice
  rest : List Piece

def Contents.prepend (contents : Contents) (items : List Item) (notices : List Notice) :
    Contents :=
  ⟨items ++ contents.items, notices ++ contents.notices, contents.rest⟩

/-- The contents of one item, if there is one. -/
def Contents.ofItem (item : Option Item) (notices : List Notice) (rest : List Piece) : Contents :=
  ⟨item.toList, notices, rest⟩

/-- A reader for the contents of a block, which stops at the brace that closes it and never
leaves more than it is given. -/
structure BlockReader where
  read : List Piece → Contents
  length_le : ∀ pieces, (read pieces).rest.length ≤ pieces.length

/-- What was read of a block: its items, the notices, where it ends, and what follows. -/
structure Block where
  items : List Item
  notices : List Notice
  stop : Nat
  rest : List Piece

/-! ## Blocks -/

/-- The block with the given contents, which the next piece closes; one that is not closed
reaches to `stop`, the end of the text. -/
def endBlock (stop : Nat) (contents : Contents) : Block :=
  match contents.rest with
  | [] => ⟨contents.items, contents.notices ++ [.unclosedBlock], stop, []⟩
  | piece :: rest =>
    if piece.closesBlock then ⟨contents.items, contents.notices, piece.span.stop, rest⟩
    else ⟨contents.items, contents.notices ++ [.unclosedBlock], stop, piece :: rest⟩

/-- The contents of a block whose opening brace is in front of the pieces; they are passed over
if there is no reader for them. -/
def readBlockContents (inner : Option BlockReader) (pieces : List Piece) : Contents :=
  match inner with
  | none => ⟨[], [.nestedTooDeeply], blockEnd .curly [] pieces⟩
  | some reader => reader.read pieces

def readBlock (inner : Option BlockReader) (stop : Nat) (pieces : List Piece) : Block :=
  endBlock stop (readBlockContents inner pieces)

theorem length_endBlock_le (stop : Nat) (contents : Contents) :
    (endBlock stop contents).rest.length ≤ contents.rest.length := by
  unfold endBlock
  split
  · exact Nat.zero_le _
  · rename_i same
    rw [same]
    split
    · exact Nat.le_succ _
    · exact Nat.le_refl _

theorem length_readBlock_le (inner : Option BlockReader) (stop : Nat) (pieces : List Piece) :
    (readBlock inner stop pieces).rest.length ≤ pieces.length := by
  refine Nat.le_trans (length_endBlock_le ..) ?_
  cases inner with
  | none => exact length_blockEnd_le ..
  | some reader => exact reader.length_le pieces

/-! ## Items -/

/-- Where the first piece begins; the end of the text if there is none. -/
def startOf (stop : Nat) : List Piece → Nat
  | [] => stop
  | piece :: _ => piece.span.start

/-- Whether the piece ends an at-rule without a block or opens its block. -/
def endsAtRule (piece : Piece) : Bool :=
  piece.isSemicolon || piece.closesBlock || piece.opensBlock

def endsValue (piece : Piece) : Bool :=
  piece.isSemicolon || piece.closesBlock

def endsName (piece : Piece) : Bool :=
  piece.isColon || endsValue piece

/-- The text of the source from `start` to `stop` without white space at its ends. -/
def textBetween (source : List Char) (start stop : Nat) : List Char :=
  trim (slice source start stop)

/-- The at-rule whose keyword is `piece`. A brace that closes the enclosing block ends it too. -/
def readAtRule (inner : Option BlockReader) (source name : List Char) (piece : Piece)
    (pieces : List Piece) : Contents :=
  let behind := skipTo endsAtRule pieces
  let stop := startOf (byteCount source) behind
  let params := textBetween source piece.span.stop stop
  match behind with
  | [] =>
    .ofItem (some ⟨.atRule ⟨name, params, false⟩, ⟨piece.span.start, stop⟩, []⟩) [] []
  | last :: rest =>
    if last.isSemicolon then
      .ofItem (some ⟨.atRule ⟨name, params, false⟩, ⟨piece.span.start, last.span.stop⟩, []⟩) []
        rest
    else if last.opensBlock then
      let block := readBlock inner (byteCount source) rest
      .ofItem
        (some ⟨.atRule ⟨name, params, true⟩, ⟨piece.span.start, block.stop⟩, block.items⟩)
        block.notices block.rest
    else
      .ofItem (some ⟨.atRule ⟨name, params, false⟩, ⟨piece.span.start, stop⟩, []⟩) []
        (last :: rest)

/-- The rule that begins with `piece`. One without a block reaches to the end of the text and is
dropped. -/
def readRule (inner : Option BlockReader) (source : List Char) (piece : Piece)
    (pieces : List Piece) : Contents :=
  match skipTo Piece.opensBlock (piece :: pieces) with
  | [] => .ofItem none [.ruleWithoutBlock] []
  | brace :: rest =>
    let prelude_ := slice source piece.span.start brace.span.start
    let offset := piece.span.start + (byteCount prelude_ - byteCount (trimStart prelude_))
    let block := readBlock inner (byteCount source) rest
    .ofItem
      (some ⟨.rule ⟨trim prelude_, offset⟩, ⟨piece.span.start, block.stop⟩, block.items⟩)
      block.notices block.rest

/-- The declaration that begins with `piece`. What has no colon is none and is passed over. -/
def readDeclaration (source : List Char) (piece : Piece) (pieces : List Piece) : Contents :=
  match skipTo endsName (piece :: pieces) with
  | [] => .ofItem none [.invalidDeclaration] []
  | colon :: value =>
    if colon.isColon then
      let behind := skipTo endsValue value
      let stop := startOf (byteCount source) behind
      let declaration : Declaration :=
        ⟨textBetween source piece.span.start colon.span.start,
          textBetween source colon.span.stop stop⟩
      match behind with
      | [] => .ofItem (some ⟨.declaration declaration, ⟨piece.span.start, stop⟩, []⟩) [] []
      | last :: rest =>
        if last.isSemicolon then
          .ofItem
            (some ⟨.declaration declaration, ⟨piece.span.start, last.span.stop⟩, []⟩) [] rest
        else
          .ofItem (some ⟨.declaration declaration, ⟨piece.span.start, stop⟩, []⟩) []
            (last :: rest)
    else .ofItem none [.invalidDeclaration] (colon :: value)

def readItem (inner : Option BlockReader) (source : List Char) (piece : Piece)
    (pieces : List Piece) : Contents :=
  match piece.token with
  | .atKeyword name => readAtRule inner source name piece pieces
  | _ =>
    if startsRule piece pieces then readRule inner source piece pieces
    else readDeclaration source piece pieces

/-! ## What items leave -/

theorem length_readAtRule_le (inner : Option BlockReader) (source name : List Char)
    (piece : Piece) (pieces : List Piece) :
    (readAtRule inner source name piece pieces).rest.length ≤ pieces.length := by
  have ofSkip := length_skipTo_le endsAtRule pieces
  simp only [readAtRule]
  split
  · exact Nat.zero_le _
  · rename_i last rest same
    have ofBlock := length_readBlock_le inner (byteCount source) rest
    rw [same, List.length_cons] at ofSkip
    split
    · exact Nat.le_of_succ_le ofSkip
    · split
      · exact Nat.le_trans ofBlock (Nat.le_of_succ_le ofSkip)
      · exact ofSkip

theorem length_readRule_le (inner : Option BlockReader) (source : List Char)
    (piece : Piece) (pieces : List Piece) :
    (readRule inner source piece pieces).rest.length ≤ pieces.length := by
  have ofSkip := length_tail_skipTo_le Piece.opensBlock piece pieces
  unfold readRule
  split
  · exact Nat.zero_le _
  · rename_i brace rest same
    have ofBlock := length_readBlock_le inner (byteCount source) rest
    rw [same, List.tail_cons] at ofSkip
    exact Nat.le_trans ofBlock ofSkip

theorem length_readDeclaration_le {piece : Piece} (goesOn : endsValue piece = false)
    (source : List Char) (pieces : List Piece) :
    (readDeclaration source piece pieces).rest.length ≤ pieces.length := by
  have ofTail := length_tail_skipTo_le endsName piece pieces
  unfold readDeclaration
  split
  · exact Nat.zero_le _
  · rename_i colon value same
    rw [same, List.tail_cons] at ofTail
    split
    · have ofValue := length_skipTo_le endsValue value
      simp only
      split
      · exact Nat.zero_le _
      · rename_i behind
        rw [behind, List.length_cons] at ofValue
        split
        · exact Nat.le_trans (Nat.le_of_succ_le ofValue) ofTail
        · exact Nat.le_trans ofValue ofTail
    · rename_i noColon
      have lacks : endsName piece = false := by
        cases isColon : piece.isColon with
        | false => simp [endsName, isColon, goesOn]
        | true =>
            rw [skipTo] at same
            simp only [endsName, isColon, Bool.true_or, if_true, List.cons.injEq] at same
            exact absurd (same.1 ▸ isColon) noColon
      have := length_skipTo_cons_le lacks pieces
      rw [same] at this
      exact this

theorem length_readItem_le {piece : Piece} (goesOn : endsValue piece = false)
    (inner : Option BlockReader) (source : List Char) (pieces : List Piece) :
    (readItem inner source piece pieces).rest.length ≤ pieces.length := by
  unfold readItem
  split
  · exact length_readAtRule_le ..
  · split
    · exact length_readRule_le ..
    · exact length_readDeclaration_le goesOn ..

/-! ## Contents -/

/-- Whether the piece means nothing between items; outside of blocks the marks of an HTML comment
are ignored too. -/
def isFiller (nested : Bool) (piece : Piece) : Bool :=
  piece.isWhitespace || piece.isSemicolon ||
    (!nested && (piece.token == .commentOpen || piece.token == .commentClose))

/-- The contents up to the brace that closes the enclosing block; outside of blocks up to the end
of the text, and closing braces are passed over. -/
def readItems (inner : Option BlockReader) (source : List Char) (nested : Bool)
    (pieces : List Piece) : Contents :=
  match pieces with
  | [] => ⟨[], [], []⟩
  | piece :: pieces =>
    if _filler : isFiller nested piece then readItems inner source nested pieces
    else if _closes : piece.closesBlock then
      if nested then ⟨[], [], piece :: pieces⟩
      else (readItems inner source nested pieces).prepend [] [.unmatchedBrace]
    else
      let first := readItem inner source piece pieces
      (readItems inner source nested first.rest).prepend first.items first.notices
termination_by pieces.length
decreasing_by
  · simp
  · simp
  · apply Nat.lt_succ_of_le
    apply length_readItem_le
    simp only [isFiller, Bool.or_eq_true, not_or] at _filler
    simp [endsValue, _closes, _filler.1.2]

theorem length_readItems_le (inner : Option BlockReader) (source : List Char) (nested : Bool)
    (pieces : List Piece) :
    (readItems inner source nested pieces).rest.length ≤ pieces.length := by
  fun_induction readItems inner source nested pieces with
  | case1 => exact Nat.le_refl _
  | case2 => exact Nat.le_succ_of_le ‹_›
  | case3 => exact Nat.le_refl _
  | case4 => exact Nat.le_succ_of_le ‹_›
  | case5 piece pieces filler closes first inductionHypothesis =>
      refine Nat.le_succ_of_le (Nat.le_trans inductionHypothesis ?_)
      apply length_readItem_le
      simp only [isFiller, Bool.or_eq_true, not_or] at filler
      simp [endsValue, closes, filler.1.2]

/-- The reader for blocks, where at most `levels` of them may stand inside each other. -/
def blockReader (source : List Char) : Nat → Option BlockReader
  | 0 => none
  | levels + 1 =>
    some ⟨readItems (blockReader source levels) source true, length_readItems_le _ _ _⟩

/-- How deep the blocks of rules and at-rules may stand inside each other. -/
def maxNesting : Nat := 256

def contents (source : List Char) : Contents :=
  readItems (blockReader source maxNesting) source false (Piece.ofText source)

end CssLint.Sheet

namespace CssLint.Stylesheet

def ofText (source : List Char) : Stylesheet :=
  ofItems source (Sheet.contents source).items

end CssLint.Stylesheet
