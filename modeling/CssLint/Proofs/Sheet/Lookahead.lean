import CssLint.Proofs.Sheet.BlockEnds
import CssLint.Proofs.Sheet.Numbered

/-!
# The lookahead and the reader of rules

The lookahead tells rules from declarations by a count of open brackets, and the reader of
rules then looks for the brace of the block with a stack of them.  Where the brackets of the
item are closed in order the reader finds what the lookahead promised: one rule, which ends
inside the block that it stands in.  A bracket that closes another than the last is where
they part.
-/

namespace CssLint.Sheet

open Text

/-- Whether the brackets of the first item are closed in order, up to its end and, if it has a
block, up to the end of that. -/
def itemInOrder (pieces : List Piece) : Bool :=
  closesInOrder endsAtRule [] pieces &&
    match skipTo endsAtRule pieces with
    | [] => true
    | last :: rest => !last.opensBlock || blockInOrder rest

section Rule

variable {source : List Char} {piece : Piece} {pieces : List Piece}

/-- A rule that the lookahead sees is read as one, over component values of the block around it. -/
theorem readRule_of_startsRule (levels : Nat) (inOrder : itemInOrder (piece :: pieces) = true)
    (starts : startsRule piece pieces = true) :
    ∃ style stop inside,
      (readRule (blockReader source levels) source piece pieces).items =
        [⟨.rule style, ⟨piece.span.start, stop⟩, inside⟩] ∧
      Steps (piece :: pieces) (readRule (blockReader source levels) source piece pieces).rest := by
  simp only [itemInOrder, Bool.and_eq_true] at inOrder
  obtain ⟨ofHead, ofBlock⟩ := inOrder
  obtain ⟨brace, rest, found, foundEnd, opens⟩ := exists_brace_of_startsRule ofHead starts
  have start : Steps (piece :: pieces) (piece :: pieces) := .refl
  have toBrace := start.skipTo endsAtRule fun _ => closesBlock_of_endsAtRule
  rw [foundEnd] at toBrace ofBlock
  simp only [opens, Bool.not_true, Bool.false_or] at ofBlock
  have behind := toBrace.endBlock (byteCount source) opens
    (rest_readBlockContents source levels ofBlock)
  simp only [readRule, found]
  exact ⟨_, _, _, rfl, behind⟩

/-- What the lookahead sees no block in ends before a block opens, or is a custom property. -/
theorem headIs_of_not_startsRule (inOrder : closesInOrder endsAtRule [] (piece :: pieces) = true)
    (lacks : startsRule piece pieces = false) :
    isCustomProperty piece pieces = true ∨
      HeadIs endsValue (skipTo endsAtRule (piece :: pieces)) := by
  cases custom : isCustomProperty piece pieces with
  | true => exact .inl rfl
  | false =>
      refine .inr fun last member => ?_
      have ends := headIs_skipTo endsAtRule (piece :: pieces) last member
      have unseen : last.opensBlock = false := by
        have seen := opensBlockWithin_eq inOrder
        simp only [startsRule, custom, Bool.not_false, Bool.true_and] at lacks
        rw [lacks, Option.mem_def.1 member] at seen
        simpa using seen.symm
      simpa [endsAtRule, unseen, endsValue] using ends

/-- Where the brackets of an item are closed in order, whatever stands around it and however deep
its block may be read, the lookahead and the readers agree.  Of an item that it takes for a rule
one rule is read, which becomes the last child of its parent, and no closing brace of the
block around it is passed over; in any other item, unless it is a custom property, a semicolon, a
closing brace or the end comes before a block. -/
theorem startsRule_agrees (source : List Char) (levels : Nat) (piece : Piece) (pieces : List Piece)
    (inOrder : itemInOrder (piece :: pieces) = true) :
    let contents := readRule (blockReader source levels) source piece pieces
    (startsRule piece pieces = true →
      ∃ style stop inside,
        contents.items = [⟨.rule style, ⟨piece.span.start, stop⟩, inside⟩] ∧
        (∀ (sheet : Stylesheet) (parent : NodeId), parent < sheet.size →
          let larger := Stylesheet.appendItems sheet parent contents.items
          larger.children parent = sheet.children parent ++ [sheet.size] ∧
            larger.parent? sheet.size = some parent ∧ larger.rule? sheet.size = some style) ∧
        Steps (piece :: pieces) contents.rest ∧
        blockEnd .curly [] contents.rest = blockEnd .curly [] (piece :: pieces)) ∧
      (startsRule piece pieces = false →
        isCustomProperty piece pieces = true ∨
          HeadIs endsValue (skipTo endsAtRule (piece :: pieces))) := by
  intro contents
  refine ⟨fun starts => ?_, headIs_of_not_startsRule (Bool.and_eq_true_iff.1 inOrder).1⟩
  obtain ⟨style, stop, inside, items, steps⟩ : ∃ style stop inside,
      contents.items = [⟨.rule style, ⟨piece.span.start, stop⟩, inside⟩] ∧
        Steps (piece :: pieces) contents.rest := readRule_of_startsRule levels inOrder starts
  refine ⟨style, stop, inside, items, fun sheet parent within => ?_, steps, steps.blockEnd_eq⟩
  have children := Stylesheet.children_appendItems sheet within contents.items
  have node := Stylesheet.node?_appendItems sheet within (.rule style) ⟨piece.span.start, stop⟩
    inside []
  rw [← items] at node
  refine ⟨?_, ?_, ?_⟩
  · rw [children, items]
    rfl
  · rw [Stylesheet.parent?, node]
    rfl
  · simp only [Stylesheet.rule?, Stylesheet.kind?, node, Option.map_some]

/-- A rule with a hole and brackets that close nothing, in front of its block and in it. -/
theorem startsRule_agrees_strayBrackets :
    let source := "a)#\x7bb\x7d[c]\x7b]d\x7b\x7d)\x7d\x7de\x7b\x7d".toList
    let later := (Piece.ofText source).drop 1
    let first : Piece := ⟨.ident ['a'], ⟨0, 1⟩, false⟩
    itemInOrder (first :: later) = true ∧ startsRule first later = true ∧
      blockEnd .curly [] (readRule (blockReader source 255) source first later).rest =
        blockEnd .curly [] (first :: later) := by
  intro source later first
  have inOrder : itemInOrder (first :: later) = true := by decide +kernel
  have starts : startsRule first later = true := by decide +kernel
  obtain ⟨style, stop, inside, -, -, -, ends⟩ :=
    (startsRule_agrees source 255 first later inOrder).1 starts
  exact ⟨inOrder, starts, ends⟩

/-- The lookahead closes the square bracket with the round one, and so sees the block behind it.
The reader does not see that block, and takes the brace that closes the block of `a` for a part of
the selector. -/
theorem startsRule_agrees_outOfOrder :
    let source := "a\x7b[(])\x7b\x7d]\x7db\x7b\x7d".toList
    let later := (Piece.ofText source).drop 3
    let first : Piece := ⟨.opening .square, ⟨2, 3⟩, false⟩
    Piece.ofText source = (Piece.ofText source).take 2 ++ first :: later ∧
      startsRule first later = true ∧
      blockEnd .curly [] (readRule (blockReader source 255) source first later).rest ≠
        blockEnd .curly [] (first :: later) ∧
      (Stylesheet.ofText source).rules.map (fun (_, style) => style.selector) =
        ["a".toList, "[(])\x7b\x7d]\x7db".toList] := by
  decide +kernel

end Rule

end CssLint.Sheet
