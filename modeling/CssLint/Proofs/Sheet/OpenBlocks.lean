import CssLint.Proofs.Sheet.Heads

/-!
# Counting the open blocks

The readers of blocks are one for each level, and each knows how many levels are left.
The same contents are read by one reader that carries a count of the open blocks along:
it counts up in front of what a block holds and down behind it, and passes over a block
where the count has reached `maxNesting`.  The count is the same in front of and behind
whatever is read.
-/

namespace CssLint.Sheet

open Text

/-- Contents, and how many blocks are open behind them. -/
structure Counted where
  contents : Contents
  depth : Nat

def Counted.prepend (counted : Counted) (items : List Item) (notices : List Notice) : Counted :=
  ⟨counted.contents.prepend items notices, counted.depth⟩

/-- The contents of a block where `depth` blocks are open around it, when `read` reads it with one
more. -/
def countBlock (read : Nat → List Piece → Counted) (depth : Nat) (pieces : List Piece) : Counted :=
  if maxNesting ≤ depth then ⟨⟨[], [.nestedTooDeeply], blockEnd .curly [] pieces⟩, depth⟩
  else
    let inside := read (depth + 1) pieces
    ⟨inside.contents, inside.depth - 1⟩

/-- The contents of at most `limit` pieces, where `depth` blocks are open in front of them. -/
def countItemsWithin (source : List Char) : Nat → Nat → Bool → List Piece → Counted
  | _, depth, _, [] => ⟨⟨[], [], []⟩, depth⟩
  | 0, depth, _, piece :: pieces => ⟨⟨[], [], piece :: pieces⟩, depth⟩
  | limit + 1, depth, nested, piece :: pieces =>
    if isFiller nested piece then countItemsWithin source limit depth nested pieces
    else if piece.closesBlock then
      if nested then ⟨⟨[], [], piece :: pieces⟩, depth⟩
      else (countItemsWithin source limit depth nested pieces).prepend [] [.unmatchedBrace]
    else
      match ItemHead.ofPieces source piece pieces with
      | .whole first =>
        (countItemsWithin source limit depth nested first.rest).prepend first.items first.notices
      | .block kind start rest =>
        let inside := countBlock (fun depth => countItemsWithin source limit depth true) depth rest
        let first := blockItem (byteCount source) kind start inside.contents
        (countItemsWithin source limit inside.depth nested first.rest).prepend first.items
          first.notices

/-- The contents up to the brace that closes the enclosing block, read with a count of the open
blocks that is `depth` in front of them. -/
def readCounting (source : List Char) (depth : Nat) (nested : Bool) (pieces : List Piece) :
    Counted :=
  countItemsWithin source pieces.length depth nested pieces

/-! ## One reader for all levels -/

/-- A block is read as the reader for the level reads it, and the count is back where it was. -/
theorem countBlock_eq {source : List Char} {read : Nat → List Piece → Counted} {depth : Nat}
    {pieces : List Piece}
    (reads : read (depth + 1) pieces =
      ⟨readItems (blockReader source (maxNesting - (depth + 1))) source true pieces, depth + 1⟩) :
    countBlock read depth pieces =
      ⟨readBlockContents (blockReader source (maxNesting - depth)) pieces, depth⟩ := by
  unfold countBlock
  split
  · rename_i full
    rw [Nat.sub_eq_zero_of_le full]
    rfl
  · rename_i free
    have levels : maxNesting - depth = (maxNesting - (depth + 1)) + 1 := by omega
    simp only [reads, levels, Nat.add_sub_cancel]
    rfl

theorem countItemsWithin_eq (source : List Char) {limit : Nat} {pieces : List Piece}
    (within : pieces.length ≤ limit) (depth : Nat) (nested : Bool) :
    countItemsWithin source limit depth nested pieces =
      ⟨readItems (blockReader source (maxNesting - depth)) source nested pieces, depth⟩ := by
  induction limit generalizing depth nested pieces with
  | zero =>
      obtain rfl := List.length_eq_zero_iff.1 (Nat.le_zero.1 within)
      rw [countItemsWithin, readItems_nil]
  | succ limit inductionHypothesis =>
      cases pieces with
      | nil => rw [countItemsWithin, readItems_nil]
      | cons piece pieces =>
          have later : pieces.length ≤ limit := Nat.le_of_succ_le_succ within
          rw [countItemsWithin, readItems]
          simp only [dite_eq_ite]
          split
          · exact inductionHypothesis later depth nested
          rename_i filler
          split
          · split
            · rfl
            · rw [inductionHypothesis later depth nested]
              rfl
          rename_i goesOn
          have endsLater : endsValue piece = false := by
            simp only [isFiller, Bool.or_eq_true, not_or] at filler
            simp [endsValue, goesOn, filler.1.2]
          have item := length_readItem_le endsLater (blockReader source (maxNesting - depth)) source
            pieces
          have left := Nat.le_trans item later
          rw [readItem_eq] at left ⊢
          cases head : ItemHead.ofPieces source piece pieces with
          | whole first =>
              rw [head] at left
              dsimp only [ItemHead.complete] at left ⊢
              rw [inductionHypothesis left depth nested]
              rfl
          | block kind start rest =>
              have inside := Nat.le_trans (ItemHead.length_rest_le head) later
              rw [head] at left
              dsimp only [ItemHead.complete] at left ⊢
              rw [countBlock_eq (inductionHypothesis inside (depth + 1) true)]
              dsimp only
              rw [inductionHypothesis left depth nested]
              rfl

/-- To count the open blocks is to use the reader for the levels that are left, and leaves the count
as it was. -/
theorem readCounting_eq (source : List Char) (depth : Nat) (nested : Bool) (pieces : List Piece) :
    readCounting source depth nested pieces =
      ⟨readItems (blockReader source (maxNesting - depth)) source nested pieces, depth⟩ :=
  countItemsWithin_eq source (Nat.le_refl _) depth nested

end CssLint.Sheet
