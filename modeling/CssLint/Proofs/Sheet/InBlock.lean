import CssLint.Proofs.Sheet.Segment

/-!
# Contents inside a block

Contents are read at the top of a text and inside a block by the same steps, but for the
marks of HTML comments, which only the top ignores, and for the number of blocks that may
still be entered.  Without such marks outside of brackets, and with a level to spare, both
readings agree.
-/

namespace CssLint

/-- The tokens that stand in no bracket, where `depth` brackets are open. -/
def Token.outsideBrackets : Nat → List Token → List Token
  | _, [] => []
  | depth, token :: tokens =>
    if token.opens?.isSome then outsideBrackets (depth + 1) tokens
    else if token.closes?.isSome then outsideBrackets (depth - 1) tokens
    else if depth = 0 then token :: outsideBrackets depth tokens
    else outsideBrackets depth tokens

namespace Sheet

open Text

/-! ## Outside of brackets -/

/-- No mark of an HTML comment stands outside of brackets. -/
def Unmarked (pieces : List Piece) : Prop :=
  ∀ token ∈ Token.outsideBrackets 0 (pieces.map Piece.token),
    token ≠ .commentOpen ∧ token ≠ .commentClose

private theorem opens?_of_closing {token : Token} {bracket : Bracket}
    (closes : token = .closing bracket) : token.opens? = none := by
  rw [closes]
  rfl

private theorem outsideBrackets_inside {inside : List Piece} (nested : Nested inside)
    (depth : Nat) (tokens : List Token) :
    Token.outsideBrackets (depth + 1) (inside.map Piece.token ++ tokens) =
      Token.outsideBrackets (depth + 1) tokens := by
  induction nested generalizing depth tokens with
  | nil => rfl
  | plain notOpening notClosing _ inductionHypothesis =>
      simp [Token.outsideBrackets, notOpening, notClosing, inductionHypothesis]
  | block opens _ closes _ insideHypothesis laterHypothesis =>
      simp [Token.outsideBrackets, opens, closes?_of_closing closes, opens?_of_closing closes,
        insideHypothesis, laterHypothesis]

private theorem outsideBrackets_block {bracket : Bracket} {opener closer : Piece}
    {inside pieces : List Piece} (opens : opener.token.opens? = some bracket)
    (nested : Nested inside) (closes : closer.token = .closing bracket) :
    Token.outsideBrackets 0 ((opener :: (inside ++ closer :: pieces)).map Piece.token) =
      Token.outsideBrackets 0 (pieces.map Piece.token) := by
  simp [Token.outsideBrackets, opens, outsideBrackets_inside nested, closes?_of_closing closes,
    opens?_of_closing closes]

private def isOpener (piece : Piece) : Bool :=
  piece.token.opens?.isSome

private def isCloser (piece : Piece) : Bool :=
  piece.token.closes?.isSome

private theorem Nested.countP_eq {pieces : List Piece} (nested : Nested pieces) :
    pieces.countP isOpener = pieces.countP isCloser := by
  induction nested with
  | nil => rfl
  | plain notOpening notClosing _ inductionHypothesis =>
      simpa [isOpener, isCloser, notOpening, notClosing] using inductionHypothesis
  | block opens _ closes _ insideHypothesis laterHypothesis =>
      simp only [List.countP_cons, List.countP_append, isOpener, isCloser, opens,
        closes?_of_opens? opens, opens?_of_closing closes, closes?_of_closing closes,
        Option.isSome_some, Option.isSome_none, Bool.false_eq_true, if_true,
        if_false] at insideHypothesis laterHypothesis ⊢
      omega

/-- An end of pieces with a closing bracket begins in front of the bracket or behind it. -/
private theorem suffix_cases {inside pieces rest : List Piece} {closer : Piece}
    (suffix : rest <:+ inside ++ closer :: pieces) :
    (∃ late, late <:+ inside ∧ rest = late ++ closer :: pieces) ∨ rest <:+ pieces := by
  obtain ⟨front, same⟩ := suffix
  rcases List.append_eq_append_iff.1 same with ⟨late, rfl, rfl⟩ | ⟨early, rfl, behind⟩
  · exact .inl ⟨late, ⟨front, rfl⟩, rfl⟩
  · cases early with
    | nil => exact .inl ⟨[], List.nil_suffix, behind.symm⟩
    | cons first early => exact .inr ⟨early, (List.cons.inj behind).2.symm⟩

/-- An end that begins inside a block closes more brackets than it opens. -/
private theorem countP_lt_of_closing {bracket : Bracket} {closer : Piece} {late pieces : List Piece}
    (closes : closer.token = .closing bracket) (later : Nested pieces)
    (fewer : late.countP isOpener ≤ late.countP isCloser) :
    (late ++ closer :: pieces).countP isOpener < (late ++ closer :: pieces).countP isCloser := by
  have opener : isOpener closer = false := by rw [isOpener, opens?_of_closing closes]; rfl
  have closer_ : isCloser closer = true := by rw [isCloser, closes?_of_closing closes]; rfl
  have same := later.countP_eq
  simp only [List.countP_append, List.countP_cons, opener, closer_, Bool.false_eq_true, if_true,
    if_false]
  omega

private theorem Nested.countP_le {pieces rest : List Piece} (nested : Nested pieces)
    (suffix : rest <:+ pieces) : rest.countP isOpener ≤ rest.countP isCloser := by
  induction nested generalizing rest with
  | nil =>
      rw [List.suffix_nil.1 suffix]
      exact Nat.le_refl _
  | plain notOpening notClosing later inductionHypothesis =>
      rcases List.suffix_cons_iff.1 suffix with rfl | behind
      · exact Nat.le_of_eq (Nested.plain notOpening notClosing later).countP_eq
      · exact inductionHypothesis behind
  | block opens nested closes later insideHypothesis laterHypothesis =>
      rcases List.suffix_cons_iff.1 suffix with rfl | behind
      · exact Nat.le_of_eq (Nested.block opens nested closes later).countP_eq
      · rcases suffix_cases behind with ⟨late, ofInside, rfl⟩ | ofLater
        · exact Nat.le_of_lt (countP_lt_of_closing closes later (insideHypothesis ofInside))
        · exact laterHypothesis ofLater

/-- What stands outside of brackets in a well-nested end of well-nested pieces stands outside of
brackets in all of them: such an end does not begin inside a block. -/
private theorem outsideBrackets_subset {pieces rest : List Piece} (nested : Nested pieces)
    (nestedRest : Nested rest) (suffix : rest <:+ pieces) :
    Token.outsideBrackets 0 (rest.map Piece.token) ⊆
      Token.outsideBrackets 0 (pieces.map Piece.token) := by
  induction nested with
  | nil => rw [List.suffix_nil.1 suffix]; exact List.Subset.refl _
  | plain notOpening notClosing later inductionHypothesis =>
      rcases List.suffix_cons_iff.1 suffix with rfl | behind
      · exact List.Subset.refl _
      · intro token member
        have inside := inductionHypothesis behind member
        simp [Token.outsideBrackets, notOpening, notClosing, inside]
  | @block bracket opener closer inside pieces opens nested closes later _ inductionHypothesis =>
      rcases List.suffix_cons_iff.1 suffix with rfl | behind
      · exact List.Subset.refl _
      · rcases suffix_cases behind with ⟨late, ofInside, rfl⟩ | ofLater
        · have fewer := countP_lt_of_closing closes later (nested.countP_le ofInside)
          exact absurd nestedRest.countP_eq (Nat.ne_of_lt fewer)
        · rw [outsideBrackets_block opens nested closes]
          exact inductionHypothesis ofLater

theorem Unmarked.suffix {pieces rest : List Piece} (unmarked : Unmarked pieces)
    (nested : Nested pieces) (nestedRest : Nested rest) (suffix : rest <:+ pieces) :
    Unmarked rest :=
  fun token member => unmarked token (outsideBrackets_subset nested nestedRest suffix member)

/-! ## At the top and in a block -/

section Top

variable {base : List Char} {inner : List Char → Option BlockReader} {piece : Piece}
  {pieces : List Piece}

/-- An item leaves whole items. -/
private theorem nested_readItem (reads : ReadsBlocks base inner) (nested : Nested (piece :: pieces))
    (stand : ∀ other ∈ piece :: pieces, Stands base other) (goesOn : endsValue piece = false) :
    Nested (readItem (inner base) base piece pieces).rest ∧
      (readItem (inner base) base piece pieces).rest <:+ pieces := by
  obtain ⟨outcome, within, read⟩ :=
    readItem_append reads nested stand goesOn (Nat.le_refl (byteCount base))
  have read := read [] [] (segmentEnd_nil base)
  rw [List.append_nil, List.append_nil] at read
  rw [read]
  cases outcome with
  | closed items notices later =>
      rw [Outcome.contents, List.append_nil]
      exact within
  | unclosed kind start => exact ⟨.nil, List.nil_suffix⟩

private theorem isFiller_eq (nested : Nested (piece :: pieces))
    (unmarked : Unmarked (piece :: pieces)) : isFiller false piece = isFiller true piece := by
  have notMark : piece.token ≠ .commentOpen ∧ piece.token ≠ .commentClose := by
    cases nested with
    | plain notOpening notClosing later =>
        exact unmarked piece.token (by simp [Token.outsideBrackets, notOpening, notClosing])
    | block opens _ _ _ =>
        constructor <;> (intro same; rw [same] at opens; cases opens)
  simp [isFiller, notMark.1, notMark.2]

/-- Well-nested contents without marks of HTML comments are the same at the top of a text and
inside a block. -/
theorem readItems_inBlock (reads : ReadsBlocks base inner) (nested : Nested pieces)
    (unmarked : Unmarked pieces) (stand : ∀ other ∈ pieces, Stands base other) :
    readItems (inner base) base true pieces = readItems (inner base) base false pieces := by
  -- What an item leaves is an end of the pieces, so the induction is on their number.
  induction length : pieces.length using Nat.strongRecOn generalizing pieces with
  | ind size inductionHypothesis =>
      cases pieces with
      | nil => rw [readItems_nil, readItems_nil]
      | cons piece pieces =>
          subst length
          have same := isFiller_eq nested unmarked
          have later : ∀ rest, Nested rest → rest <:+ pieces →
              readItems (inner base) base true rest = readItems (inner base) base false rest :=
            fun rest nestedRest suffix =>
              inductionHypothesis rest.length (Nat.lt_succ_of_le suffix.length_le) nestedRest
                (unmarked.suffix nested nestedRest (suffix.trans (List.suffix_cons piece pieces)))
                (fun other member =>
                  stand other (List.mem_cons_of_mem piece (suffix.subset member))) rfl
          rw [readItems, readItems]
          by_cases filler : isFiller true piece = true
          · simp only [same, filler, dite_true]
            exact later pieces (nested_tail_of_isFiller nested filler) (List.suffix_refl pieces)
          · have notClosing := not_closesBlock_of_nested nested
            have goesOn : endsValue piece = false := by
              simp only [isFiller, Bool.or_eq_true, not_or, Bool.not_eq_true] at filler
              simp [endsValue, filler.1.2, notClosing]
            obtain ⟨nestedRest, suffix⟩ := nested_readItem reads nested stand goesOn
            simp only [same, filler, notClosing, dite_false, Bool.false_eq_true]
            rw [later _ nestedRest suffix]

end Top

/-! ## Depth -/

mutual

def Item.blockDepth : Item → Nat
  | ⟨kind, _, items⟩ => if kind.lacksBlock then 0 else blockDepth items + 1

/-- How deep the blocks of rules and at-rules stand inside each other. -/
def blockDepth : List Item → Nat
  | [] => 0
  | item :: items => max item.blockDepth (blockDepth items)

end

theorem blockDepth_append (left right : List Item) :
    blockDepth (left ++ right) = max (blockDepth left) (blockDepth right) := by
  induction left with
  | nil => simp [blockDepth]
  | cons item left inductionHypothesis =>
      rw [List.cons_append, blockDepth, blockDepth, inductionHypothesis, Nat.max_assoc]

section Depth

variable {levels : Nat} {fewer more : Option BlockReader} {source : List Char} {piece : Piece}
  {pieces : List Piece}

/-- Blocks in which the second reader finds fewer levels than these are read alike by both. -/
def ReadsAlike (levels : Nat) (fewer more : Option BlockReader) : Prop :=
  ∀ pieces, blockDepth (readBlockContents more pieces).items < levels →
    readBlockContents fewer pieces = readBlockContents more pieces

/-- An item with this block has one level more than the block. -/
private theorem ReadsAlike.readBlock (alike : ReadsAlike levels fewer more) {kind : Kind}
    (hasBlock : kind.lacksBlock = false) {span : Span} {stop : Nat} {notices : List Notice}
    {rest : List Piece}
    (shallow : blockDepth (Contents.ofItem
      (some ⟨kind, span, (readBlock more stop pieces).items⟩) notices rest).items ≤ levels) :
    readBlock fewer stop pieces = readBlock more stop pieces := by
  have inside : blockDepth (readBlockContents more pieces).items < levels := by
    simp only [Contents.ofItem, Option.toList_some, blockDepth, Item.blockDepth, hasBlock,
      Bool.false_eq_true, if_false, Nat.max_zero, Sheet.readBlock, items_endBlock] at shallow
    exact shallow
  rw [Sheet.readBlock, Sheet.readBlock, alike pieces inside]

private theorem readAtRule_alike (alike : ReadsAlike levels fewer more) {name : List Char}
    (shallow : blockDepth (readAtRule more source name piece pieces).items ≤ levels) :
    readAtRule fewer source name piece pieces = readAtRule more source name piece pieces := by
  simp only [readAtRule] at shallow ⊢
  generalize skipTo endsAtRule pieces = behind at shallow ⊢
  cases behind with
  | nil => rfl
  | cons last rest =>
      simp only at shallow ⊢
      split
      · rfl
      · rename_i notSemicolon
        split
        · rename_i opens
          rw [if_neg notSemicolon, if_pos opens] at shallow
          rw [alike.readBlock rfl shallow]
        · rfl

private theorem readRule_alike (alike : ReadsAlike levels fewer more)
    (shallow : blockDepth (readRule more source piece pieces).items ≤ levels) :
    readRule fewer source piece pieces = readRule more source piece pieces := by
  unfold readRule at shallow ⊢
  generalize skipTo Piece.opensBlock (piece :: pieces) = found at shallow ⊢
  cases found with
  | nil => rfl
  | cons brace rest =>
      simp only at shallow ⊢
      rw [alike.readBlock rfl shallow]

private theorem readItem_alike (alike : ReadsAlike levels fewer more)
    (shallow : blockDepth (readItem more source piece pieces).items ≤ levels) :
    readItem fewer source piece pieces = readItem more source piece pieces := by
  by_cases keyword : ∃ name, piece.token = .atKeyword name
  · obtain ⟨name, keyword⟩ := keyword
    rw [readItem_of_atKeyword keyword] at shallow ⊢
    rw [readItem_of_atKeyword keyword, readAtRule_alike alike shallow]
  · have step := readItem_of_not_atKeyword fun name same => keyword ⟨name, same⟩
    rw [step] at shallow ⊢
    rw [step]
    split
    · rename_i starts
      rw [if_pos starts] at shallow
      exact readRule_alike alike shallow
    · rfl

theorem readItems_alike (alike : ReadsAlike levels fewer more) (inBlock : Bool)
    (shallow : blockDepth (readItems more source inBlock pieces).items ≤ levels) :
    readItems fewer source inBlock pieces = readItems more source inBlock pieces := by
  fun_induction readItems more source inBlock pieces with
  | case1 => rw [readItems]
  | case2 piece pieces filler inductionHypothesis =>
      rw [readItems]
      simp only [filler, dite_true]
      exact inductionHypothesis shallow
  | case3 piece pieces filler closes nested =>
      subst nested
      rw [readItems]
      simp only [filler, closes, dite_true, dite_false, if_true, Bool.false_eq_true]
  | case4 piece pieces filler closes outside inductionHypothesis =>
      have top : inBlock = false := (Bool.not_eq_true inBlock).mp outside
      subst top
      rw [readItems]
      simp only [filler, closes, dite_true, dite_false, if_false, Bool.false_eq_true]
      rw [inductionHypothesis shallow]
  | case5 piece pieces filler closes first inductionHypothesis =>
      rw [Contents.prepend, blockDepth_append] at shallow
      have item := readItem_alike alike (Nat.le_trans (Nat.le_max_left _ _) shallow)
      rw [readItems]
      simp only [filler, closes, dite_false, Bool.false_eq_true, item]
      rw [inductionHypothesis (Nat.le_trans (Nat.le_max_right _ _) shallow)]

end Depth

/-- Blocks are read alike with a level to spare. -/
theorem readsAlike_blockReader (source : List Char) (levels : Nat) :
    ReadsAlike levels (blockReader source levels) (blockReader source (levels + 1)) := by
  induction levels with
  | zero => exact fun pieces shallow => absurd shallow (Nat.not_lt_zero _)
  | succ levels inductionHypothesis =>
      exact fun pieces shallow =>
        readItems_alike inductionHypothesis true (Nat.le_of_lt_succ shallow)

end Sheet

end CssLint
