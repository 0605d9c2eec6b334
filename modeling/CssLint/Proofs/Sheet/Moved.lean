import CssLint.Proofs.Text.Places
import CssLint.Proofs.Token.Lexemes
import CssLint.Sheet.Reader

/-!
# Moved contents

Text in front moves the contents of a text and changes nothing else about them: the
reader looks at pieces and at the text between them, never at offsets by themselves.
-/

namespace CssLint.Sheet

open Text

/-! ## Moving -/

def Piece.shift (distance : Nat) (piece : Piece) : Piece :=
  ⟨piece.token, piece.span.shift distance, piece.opensHole⟩

section Simp

variable (distance : Nat) (piece : Piece)

@[simp] theorem Piece.shift_token : (piece.shift distance).token = piece.token := rfl

@[simp] theorem Piece.shift_start :
    (piece.shift distance).span.start = distance + piece.span.start := rfl

@[simp] theorem Piece.shift_stop :
    (piece.shift distance).span.stop = distance + piece.span.stop := rfl

@[simp] theorem Piece.shift_opensBlock :
    (piece.shift distance).opensBlock = piece.opensBlock := rfl

@[simp] theorem Piece.shift_closesBlock :
    (piece.shift distance).closesBlock = piece.closesBlock := rfl

@[simp] theorem Piece.shift_isSemicolon :
    (piece.shift distance).isSemicolon = piece.isSemicolon := rfl

@[simp] theorem Piece.shift_isColon : (piece.shift distance).isColon = piece.isColon := rfl

@[simp] theorem isFiller_shift (inBlock : Bool) :
    isFiller inBlock (piece.shift distance) = isFiller inBlock piece := rfl

end Simp

def Kind.shift (distance : Nat) : Kind → Kind
  | .rule style => .rule ⟨style.selector, distance + style.offset⟩
  | kind => kind

mutual

def Item.shift (distance : Nat) : Item → Item
  | ⟨kind, span, items⟩ => ⟨kind.shift distance, span.shift distance, shiftItems distance items⟩

def shiftItems (distance : Nat) : List Item → List Item
  | [] => []
  | item :: items => item.shift distance :: shiftItems distance items

end

theorem shiftItems_append (distance : Nat) (left right : List Item) :
    shiftItems distance (left ++ right) =
      shiftItems distance left ++ shiftItems distance right := by
  induction left with
  | nil => rfl
  | cons item left inductionHypothesis =>
      simp only [List.cons_append, shiftItems, inductionHypothesis]

def Contents.shift (distance : Nat) (contents : Contents) : Contents :=
  ⟨shiftItems distance contents.items, contents.notices,
    contents.rest.map (Piece.shift distance)⟩

def Block.shift (distance : Nat) (block : Block) : Block :=
  ⟨shiftItems distance block.items, block.notices, distance + block.stop,
    block.rest.map (Piece.shift distance)⟩

theorem Contents.shift_prepend (distance : Nat) (contents : Contents) (items : List Item)
    (notices : List Notice) :
    (contents.prepend items notices).shift distance =
      (contents.shift distance).prepend (shiftItems distance items) notices := by
  simp [Contents.prepend, Contents.shift, shiftItems_append]

/-! ## Searching -/

section Search

variable (distance : Nat)

theorem blockEnd_shift (bracket : Bracket) (outer : List Bracket) (pieces : List Piece) :
    blockEnd bracket outer (pieces.map (Piece.shift distance)) =
      (blockEnd bracket outer pieces).map (Piece.shift distance) := by
  fun_induction blockEnd bracket outer pieces with
  | case1 => rfl
  | case2 bracket piece pieces closes => simp [blockEnd, closes]
  | case3 bracket piece pieces closes next outer inductionHypothesis =>
      simpa [blockEnd, closes] using inductionHypothesis
  | case4 bracket outer piece pieces notClosing nested opens inductionHypothesis =>
      simpa [blockEnd, notClosing, opens] using inductionHypothesis
  | case5 bracket outer piece pieces notClosing notOpening inductionHypothesis =>
      simpa [blockEnd, notClosing, notOpening] using inductionHypothesis

theorem skipComponent_shift (piece : Piece) (pieces : List Piece) :
    skipComponent (piece.shift distance) (pieces.map (Piece.shift distance)) =
      (skipComponent piece pieces).map (Piece.shift distance) := by
  cases opens : piece.token.opens? with
  | none => simp [skipComponent, opens]
  | some bracket => simp [skipComponent, opens, blockEnd_shift]

theorem skipTo_shift {property : Piece → Bool}
    (same : ∀ piece, property (piece.shift distance) = property piece) (pieces : List Piece) :
    skipTo property (pieces.map (Piece.shift distance)) =
      (skipTo property pieces).map (Piece.shift distance) := by
  fun_induction skipTo property pieces with
  | case1 => simp [skipTo]
  | case2 piece pieces holds =>
      have holds' := (same piece).trans holds
      simp [skipTo, holds']
  | case3 piece pieces lacks inductionHypothesis =>
      have lacks' : property (piece.shift distance) ≠ true := by rwa [same]
      rw [List.map_cons, skipTo, if_neg lacks', skipComponent_shift, inductionHypothesis]

theorem opensBlockWithin_shift (depth : Nat) (pieces : List Piece) :
    opensBlockWithin depth (pieces.map (Piece.shift distance)) = opensBlockWithin depth pieces := by
  induction pieces generalizing depth with
  | nil => rfl
  | cons piece pieces inductionHypothesis =>
      simp only [List.map_cons, opensBlockWithin, inductionHypothesis]
      rfl

theorem isCustomProperty_shift (piece : Piece) (pieces : List Piece) :
    isCustomProperty (piece.shift distance) (pieces.map (Piece.shift distance)) =
      isCustomProperty piece pieces := by
  have ahead : ((pieces.map (Piece.shift distance)).dropWhile Piece.isWhitespace).head?.any
      Piece.isColon = (pieces.dropWhile Piece.isWhitespace).head?.any Piece.isColon := by
    induction pieces with
    | nil => rfl
    | cons first pieces inductionHypothesis =>
        have blank : (first.shift distance).isWhitespace = first.isWhitespace := rfl
        by_cases holds : first.isWhitespace = true
        · simpa [blank, holds] using inductionHypothesis
        · simp only [List.map_cons, List.dropWhile_cons, blank, holds, if_false,
            Bool.false_eq_true]
          rfl
  rw [isCustomProperty, isCustomProperty, ahead]
  rfl

theorem startsRule_shift (piece : Piece) (pieces : List Piece) :
    startsRule (piece.shift distance) (pieces.map (Piece.shift distance)) =
      startsRule piece pieces := by
  rw [startsRule, startsRule, isCustomProperty_shift, ← List.map_cons, opensBlockWithin_shift]

theorem startOf_shift (stop : Nat) (pieces : List Piece) :
    startOf (distance + stop) (pieces.map (Piece.shift distance)) =
      distance + startOf stop pieces := by
  cases pieces <;> rfl

theorem endBlock_shift (stop : Nat) (contents : Contents) :
    endBlock (distance + stop) (contents.shift distance) =
      (endBlock stop contents).shift distance := by
  obtain ⟨items, notices, rest⟩ := contents
  cases rest with
  | nil => rfl
  | cons piece rest =>
      by_cases closes : piece.closesBlock = true
      · simp [endBlock, Contents.shift, Block.shift, closes]
      · simp [endBlock, Contents.shift, Block.shift, closes]

end Search

/-! ## Items -/

section Items

variable {front text : List Char} {inner moved : Option BlockReader}

/-- The second reader reads moved blocks as the first one reads them where they were. -/
def ReadsMoved (front : List Char) (inner moved : Option BlockReader) : Prop :=
  ∀ pieces, readBlockContents moved (pieces.map (Piece.shift (byteCount front))) =
    (readBlockContents inner pieces).shift (byteCount front)

theorem textBetween_shift (front text : List Char) (start stop : Nat) :
    textBetween (front ++ text) (byteCount front + start) (byteCount front + stop) =
      textBetween text start stop := by
  rw [textBetween, textBetween, slice_byteCount_add]

theorem readBlock_shift (reads : ReadsMoved front inner moved) (stop : Nat)
    (pieces : List Piece) :
    readBlock moved (byteCount front + stop) (pieces.map (Piece.shift (byteCount front))) =
      (readBlock inner stop pieces).shift (byteCount front) := by
  rw [readBlock, readBlock, reads, endBlock_shift]

theorem readAtRule_shift (reads : ReadsMoved front inner moved) (name : List Char)
    (piece : Piece) (pieces : List Piece) :
    readAtRule moved (front ++ text) name (piece.shift (byteCount front))
        (pieces.map (Piece.shift (byteCount front))) =
      (readAtRule inner text name piece pieces).shift (byteCount front) := by
  have skips : skipTo endsAtRule (pieces.map (Piece.shift (byteCount front))) =
      (skipTo endsAtRule pieces).map (Piece.shift (byteCount front)) :=
    skipTo_shift (byteCount front) (fun _ => rfl) pieces
  have params := textBetween_shift front text piece.span.stop
    (startOf (byteCount text) (skipTo endsAtRule pieces))
  simp only [readAtRule, skips, byteCount_append, startOf_shift, Piece.shift_stop, params]
  cases skipTo endsAtRule pieces with
  | nil => rfl
  | cons last rest =>
      by_cases semicolon : last.isSemicolon = true
      · simp [semicolon, Contents.ofItem, Contents.shift, shiftItems, Item.shift, Kind.shift,
          Span.shift]
      · by_cases opens : last.opensBlock = true
        · simp [semicolon, opens, Contents.ofItem, Contents.shift, shiftItems, Item.shift,
            Kind.shift, Span.shift, Block.shift, readBlock_shift reads]
        · simp [semicolon, opens, Contents.ofItem, Contents.shift, shiftItems, Item.shift,
            Kind.shift, Span.shift, startOf]

theorem readRule_shift (reads : ReadsMoved front inner moved) (piece : Piece)
    (pieces : List Piece) :
    readRule moved (front ++ text) (piece.shift (byteCount front))
        (pieces.map (Piece.shift (byteCount front))) =
      (readRule inner text piece pieces).shift (byteCount front) := by
  have skips : skipTo Piece.opensBlock ((piece :: pieces).map (Piece.shift (byteCount front))) =
      (skipTo Piece.opensBlock (piece :: pieces)).map (Piece.shift (byteCount front)) :=
    skipTo_shift (byteCount front) (fun _ => rfl) (piece :: pieces)
  rw [List.map_cons] at skips
  simp only [readRule, skips]
  cases skipTo Piece.opensBlock (piece :: pieces) with
  | nil => rfl
  | cons brace rest =>
      simp [slice_byteCount_add, readBlock_shift reads, Contents.ofItem, Contents.shift, shiftItems,
        Item.shift, Kind.shift, Span.shift, Block.shift, Nat.add_assoc]

theorem readDeclaration_shift (piece : Piece) (pieces : List Piece) :
    readDeclaration (front ++ text) (piece.shift (byteCount front))
        (pieces.map (Piece.shift (byteCount front))) =
      (readDeclaration text piece pieces).shift (byteCount front) := by
  have skips : skipTo endsName ((piece :: pieces).map (Piece.shift (byteCount front))) =
      (skipTo endsName (piece :: pieces)).map (Piece.shift (byteCount front)) :=
    skipTo_shift (byteCount front) (fun _ => rfl) (piece :: pieces)
  rw [List.map_cons] at skips
  simp only [readDeclaration, skips]
  cases skipTo endsName (piece :: pieces) with
  | nil => rfl
  | cons colon value =>
      by_cases isColon : colon.isColon = true
      · have skipsValue : skipTo endsValue (value.map (Piece.shift (byteCount front))) =
            (skipTo endsValue value).map (Piece.shift (byteCount front)) :=
          skipTo_shift (byteCount front) (fun _ => rfl) value
        simp only [List.map_cons, Piece.shift_isColon, isColon, if_true, skipsValue,
          byteCount_append, startOf_shift, Piece.shift_stop, Piece.shift_start, textBetween_shift]
        cases skipTo endsValue value with
        | nil => rfl
        | cons last rest =>
            by_cases semicolon : last.isSemicolon = true
            · simp [semicolon, Contents.ofItem, Contents.shift, shiftItems, Item.shift, Kind.shift,
                Span.shift]
            · simp [semicolon, Contents.ofItem, Contents.shift, shiftItems, Item.shift, Kind.shift,
                Span.shift, startOf]
      · simp [isColon, Contents.ofItem, Contents.shift, shiftItems]

theorem readItem_shift (reads : ReadsMoved front inner moved) (piece : Piece)
    (pieces : List Piece) :
    readItem moved (front ++ text) (piece.shift (byteCount front))
        (pieces.map (Piece.shift (byteCount front))) =
      (readItem inner text piece pieces).shift (byteCount front) := by
  simp only [readItem, Piece.shift_token]
  split
  · exact readAtRule_shift reads _ piece pieces
  · rw [startsRule_shift]
    split
    · exact readRule_shift reads piece pieces
    · exact readDeclaration_shift piece pieces

theorem readItems_shift (text : List Char) (reads : ReadsMoved front inner moved) (inBlock : Bool)
    (pieces : List Piece) :
    readItems moved (front ++ text) inBlock (pieces.map (Piece.shift (byteCount front))) =
      (readItems inner text inBlock pieces).shift (byteCount front) := by
  fun_induction readItems inner text inBlock pieces with
  | case1 => simp [readItems, Contents.shift, shiftItems]
  | case2 piece pieces filler inductionHypothesis =>
      rw [List.map_cons, readItems]
      simp only [isFiller_shift, filler, dite_true, inductionHypothesis]
  | case3 piece pieces filler closes nested =>
      subst nested
      rw [List.map_cons, readItems]
      simp only [isFiller_shift, filler, Piece.shift_closesBlock, closes, dite_true, dite_false,
        if_true, Bool.false_eq_true]
      rfl
  | case4 piece pieces filler closes nested inductionHypothesis =>
      have outside : inBlock = false := (Bool.not_eq_true inBlock).mp nested
      subst outside
      rw [List.map_cons, readItems]
      simp only [isFiller_shift, filler, Piece.shift_closesBlock, closes, dite_true, dite_false,
        if_false, Bool.false_eq_true, inductionHypothesis, Contents.shift_prepend]
      rfl
  | case5 piece pieces filler closes first inductionHypothesis =>
      rw [List.map_cons, readItems]
      simp only [isFiller_shift, filler, Piece.shift_closesBlock, closes, dite_false,
        Bool.false_eq_true, readItem_shift reads, Contents.shift_prepend, ← inductionHypothesis]
      rfl

end Items

theorem readsMoved_blockReader (front text : List Char) (levels : Nat) :
    ReadsMoved front (blockReader text levels) (blockReader (front ++ text) levels) := by
  induction levels with
  | zero =>
      intro pieces
      simp [readBlockContents, blockReader, blockEnd_shift, Contents.shift, shiftItems]
  | succ levels inductionHypothesis => exact readItems_shift text inductionHypothesis true

end CssLint.Sheet
