import CssLint.Proofs.Sheet.Matching

/-!
# Heads of items

What an item is, up to the brace of its block: where there is no block, all that is read
of the item; otherwise its kind, where it begins, and the pieces behind the brace.  The
reader of items completes the head with what the block holds, so whatever holds of all
heads holds of all items, and only the blocks are left to an induction.
-/

namespace CssLint.Sheet

open Text

/-- An item as it is known in front of its block. -/
inductive ItemHead where
  | whole (contents : Contents)
  | block (kind : Kind) (start : Nat) (rest : List Piece)

/-- The item that has a block with the given contents, and what follows it; a block that is not
closed reaches to `stop`. -/
def blockItem (stop : Nat) (kind : Kind) (start : Nat) (contents : Contents) : Contents :=
  let block := endBlock stop contents
  .ofItem (some ⟨kind, ⟨start, block.stop⟩, block.items⟩) block.notices block.rest

namespace ItemHead

/-- What is read of the item, where `read` gives the contents of blocks. -/
def complete (stop : Nat) (read : List Piece → Contents) : ItemHead → Contents
  | whole contents => contents
  | block kind start rest => blockItem stop kind start (read rest)

/-- The head of the at-rule whose keyword is `piece`. -/
def ofAtRule (source name : List Char) (piece : Piece) (pieces : List Piece) : ItemHead :=
  match skipTo endsAtRule pieces with
  | [] => .whole (readAtRule none source name piece pieces)
  | last :: rest =>
    if last.opensBlock then
      .block (.atRule ⟨name, textBetween source piece.span.stop last.span.start, true⟩)
        piece.span.start rest
    else .whole (readAtRule none source name piece pieces)

/-- The head of the rule that begins with `piece`. -/
def ofRule (source : List Char) (piece : Piece) (pieces : List Piece) : ItemHead :=
  match skipTo Piece.opensBlock (piece :: pieces) with
  | [] => .whole (.ofItem none [.ruleWithoutBlock] [])
  | brace :: rest =>
    .block (.rule (styleBetween source piece.span.start brace.span.start)) piece.span.start rest

/-- The head of the item that begins with `piece`. -/
def ofPieces (source : List Char) (piece : Piece) (pieces : List Piece) : ItemHead :=
  match piece.token with
  | .atKeyword name => ofAtRule source name piece pieces
  | _ =>
    if startsRule piece pieces then ofRule source piece pieces
    else .whole (readDeclaration source piece pieces)

/-! ## What heads there are -/

section Cases

variable {source : List Char} {piece : Piece} {pieces : List Piece}

theorem ofPieces_of_atKeyword {name : List Char} (keyword : piece.token = .atKeyword name) :
    ofPieces source piece pieces = ofAtRule source name piece pieces := by
  simp only [ofPieces, keyword]

theorem ofPieces_of_not_atKeyword (other : ∀ name, piece.token ≠ .atKeyword name) :
    ofPieces source piece pieces =
      if startsRule piece pieces then ofRule source piece pieces
      else .whole (readDeclaration source piece pieces) := by
  unfold ofPieces
  split
  · rename_i name same
    exact absurd same (other name)
  · rfl

/-- Everything that the head of an item can be. -/
theorem ofPieces_cases {motive : ItemHead → Prop}
    (line : ∀ name, piece.token = .atKeyword name →
      (∀ last ∈ (skipTo endsAtRule pieces).head?, last.opensBlock = false) →
      motive (.whole (readAtRule none source name piece pieces)))
    (atRule : ∀ name brace rest, piece.token = .atKeyword name →
      skipTo endsAtRule pieces = brace :: rest → brace.opensBlock = true →
      motive (.block (.atRule ⟨name, textBetween source piece.span.stop brace.span.start, true⟩)
        piece.span.start rest))
    (dropped : startsRule piece pieces = true → skipTo Piece.opensBlock (piece :: pieces) = [] →
      motive (.whole (.ofItem none [.ruleWithoutBlock] [])))
    (rule : ∀ brace rest, startsRule piece pieces = true →
      skipTo Piece.opensBlock (piece :: pieces) = brace :: rest →
      motive (.block (.rule (styleBetween source piece.span.start brace.span.start))
        piece.span.start rest))
    (declaration : startsRule piece pieces = false →
      motive (.whole (readDeclaration source piece pieces))) :
    motive (ofPieces source piece pieces) := by
  by_cases keyword : ∃ name, piece.token = .atKeyword name
  · obtain ⟨name, keyword⟩ := keyword
    rw [ofPieces_of_atKeyword keyword, ofAtRule.eq_def]
    split
    · rename_i none
      exact line name keyword (by simp [none])
    · rename_i brace rest found
      split
      · rename_i opens
        exact atRule name brace rest keyword found opens
      · rename_i closed
        exact line name keyword (by simpa [found] using closed)
  · rw [ofPieces_of_not_atKeyword fun name same => keyword ⟨name, same⟩]
    split
    · rename_i starts
      unfold ofRule
      split
      · rename_i none
        exact dropped starts none
      · rename_i brace rest found
        exact rule brace rest starts found
    · rename_i starts
      exact declaration (Bool.not_eq_true _ ▸ starts)

/-- The brace of a block stands among the pieces of its item. -/
theorem exists_brace_of_block :
    ∀ kind start rest, ofPieces source piece pieces = .block kind start rest →
      ∃ brace, brace :: rest <:+ piece :: pieces ∧ brace.opensBlock = true := by
  apply ofPieces_cases (motive := fun head => ∀ kind start rest, head = .block kind start rest →
    ∃ brace, brace :: rest <:+ piece :: pieces ∧ brace.opensBlock = true)
  case line => exact fun _ _ _ kind start rest same => nomatch same
  case dropped => exact fun _ _ kind start rest same => nomatch same
  case declaration => exact fun _ kind start rest same => nomatch same
  case atRule =>
    intro name brace rest _ found opens kind start behind same
    cases same
    have suffix := found ▸ suffix_skipTo endsAtRule pieces
    exact ⟨brace, suffix.trans (List.suffix_cons piece pieces), opens⟩
  case rule =>
    intro brace rest _ found kind start behind same
    cases same
    have opens := headIs_skipTo Piece.opensBlock (piece :: pieces)
    have suffix := suffix_skipTo Piece.opensBlock (piece :: pieces)
    rw [found] at opens suffix
    exact ⟨brace, suffix, opens brace rfl⟩

theorem length_rest_le {kind : Kind} {start : Nat} {rest : List Piece}
    (head : ofPieces source piece pieces = .block kind start rest) :
    rest.length ≤ pieces.length := by
  obtain ⟨brace, suffix, -⟩ := exists_brace_of_block kind start rest head
  exact Nat.le_of_succ_le_succ suffix.length_le

end Cases

end ItemHead

/-! ## Items -/

/-- The reader of items completes the head of the item with what its block holds. -/
theorem readItem_eq (inner : Option BlockReader) (source : List Char) (piece : Piece)
    (pieces : List Piece) :
    readItem inner source piece pieces =
      (ItemHead.ofPieces source piece pieces).complete (byteCount source)
        (readBlockContents inner) := by
  by_cases keyword : ∃ name, piece.token = .atKeyword name
  · obtain ⟨name, keyword⟩ := keyword
    rw [readItem_of_atKeyword keyword, ItemHead.ofPieces_of_atKeyword keyword,
      ItemHead.ofAtRule.eq_def]
    cases found : skipTo endsAtRule pieces with
    | nil => simp only [readAtRule, found, ItemHead.complete]
    | cons last rest =>
        simp only [readAtRule, found]
        by_cases opens : last.opensBlock = true
        · have notSemicolon : last.isSemicolon = false := by
            simp only [Piece.opensBlock, Bool.and_eq_true, beq_iff_eq] at opens
            simp [Piece.isSemicolon, opens.1]
          simp only [notSemicolon, opens, if_true, Bool.false_eq_true, if_false, startOf]
          rfl
        · simp only [opens, if_false, Bool.false_eq_true, ItemHead.complete]
  · have other : ∀ name, piece.token ≠ .atKeyword name := fun name same => keyword ⟨name, same⟩
    rw [readItem_of_not_atKeyword other, ItemHead.ofPieces_of_not_atKeyword other]
    split
    · rw [readRule.eq_def, ItemHead.ofRule.eq_def]
      cases skipTo Piece.opensBlock (piece :: pieces) with
      | nil => rfl
      | cons brace rest => rfl
    · rfl

end CssLint.Sheet
