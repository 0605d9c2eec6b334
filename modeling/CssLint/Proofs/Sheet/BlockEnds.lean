import CssLint.Proofs.Sheet.OpenBlocks
import CssLint.Proofs.Sheet.Steps

/-!
# Ends of blocks

A block that is read ends at the brace at which it ends where it is passed over, as long
as its brackets are closed in order.  The reason is that an item is a run of steps over
component values: the reader goes through a block as the search for its end does, whatever
the items in it are, and so does not see how deep the block stands.
-/

namespace CssLint.Sheet

open Text

section Items

variable {source : List Char} {inner : Option BlockReader} {piece brace : Piece}
  {pieces rest : List Piece}

/-! ## Items without blocks -/

theorem closesBlock_of_endsAtRule (lacks : endsAtRule piece = false) :
    piece.closesBlock = false := by
  simp only [endsAtRule, Bool.or_eq_false_iff] at lacks
  exact lacks.1.2

private theorem closesBlock_of_endsValue (lacks : endsValue piece = false) :
    piece.closesBlock = false := by
  simp only [endsValue, Bool.or_eq_false_iff] at lacks
  exact lacks.2

private theorem closesBlock_of_endsName (lacks : endsName piece = false) :
    piece.closesBlock = false := by
  simp only [endsName, Bool.or_eq_false_iff] at lacks
  exact closesBlock_of_endsValue lacks.2

/-- A step over a piece that stands for itself. -/
private theorem Steps.over_token {token : Token} (steps : Steps pieces (piece :: rest))
    (same : piece.token = token) (notClosing : token ≠ .closing .curly)
    (notOpening : token.opens? = none) : Steps pieces rest := by
  refine steps.tail ?_ (same ▸ notOpening)
  rw [Piece.closesBlock, same]
  exact beq_false_of_ne notClosing

/-- An at-rule without a block ends behind its semicolon, or in front of what ends the block around
it. -/
theorem steps_readAtRule {name : List Char} (keyword : piece.token = .atKeyword name)
    (noBlock : ∀ last ∈ (skipTo endsAtRule pieces).head?, last.opensBlock = false) :
    Steps (piece :: pieces) (readAtRule inner source name piece pieces).rest := by
  have first : Steps (piece :: pieces) pieces :=
    Steps.refl.over_token keyword (by simp) rfl
  have behind := first.skipTo endsAtRule fun _ => closesBlock_of_endsAtRule
  rw [readAtRule.eq_def]
  cases found : skipTo endsAtRule pieces with
  | nil =>
      rw [found] at behind
      exact behind
  | cons last rest =>
      rw [found] at behind noBlock
      have closed := noBlock last rfl
      dsimp only
      split
      · rename_i semicolon
        exact behind.over_token (eq_of_beq semicolon) (by simp) rfl
      · simp only [closed, Bool.false_eq_true, if_false]
        exact behind

/-- A declaration ends behind its semicolon, or in front of what ends the block around it. -/
theorem steps_readDeclaration :
    Steps (piece :: pieces) (readDeclaration source piece pieces).rest := by
  have start : Steps (piece :: pieces) (piece :: pieces) := .refl
  have toColon := start.skipTo endsName fun _ => closesBlock_of_endsName
  rw [readDeclaration.eq_def]
  cases found : skipTo endsName (piece :: pieces) with
  | nil =>
      rw [found] at toColon
      exact toColon
  | cons colon value =>
      rw [found] at toColon
      dsimp only
      split
      · rename_i isColon
        have toValue := toColon.over_token (eq_of_beq isColon) (by simp) rfl
        have behind := toValue.skipTo endsValue fun _ => closesBlock_of_endsValue
        cases foundEnd : skipTo endsValue value with
        | nil =>
            rw [foundEnd] at behind
            exact behind
        | cons last rest =>
            rw [foundEnd] at behind
            dsimp only
            split
            · rename_i semicolon
              exact behind.over_token (eq_of_beq semicolon) (by simp) rfl
            · exact behind
      · exact toColon

/-! ## Heads of items -/

/-- The search for the brace of a rule only steps to the place that the lookahead saw. -/
theorem exists_brace_of_startsRule
    (inOrder : closesInOrder endsAtRule [] (piece :: pieces) = true)
    (starts : startsRule piece pieces = true) :
    ∃ brace rest, skipTo Piece.opensBlock (piece :: pieces) = brace :: rest ∧
      skipTo endsAtRule (piece :: pieces) = brace :: rest ∧ brace.opensBlock = true := by
  simp only [startsRule, Bool.and_eq_true] at starts
  have seen := starts.2
  rw [opensBlockWithin_eq inOrder] at seen
  cases found : skipTo endsAtRule (piece :: pieces) with
  | nil => simp [found] at seen
  | cons brace rest =>
      have opens : brace.opensBlock = true := by simpa [found] using seen
      refine ⟨brace, rest, ?_, rfl, opens⟩
      rw [← skipTo_opensBlock, found, skipTo]
      exact if_pos opens

/-- The head of an item ends behind an item without a block, and otherwise in front of the brace of
the block. -/
def ItemHead.EndsIn (pieces : List Piece) : ItemHead → Prop
  | whole contents => Steps pieces contents.rest
  | block _ _ rest => ∃ brace, brace.opensBlock = true ∧ Steps pieces (brace :: rest)

theorem ItemHead.endsIn_ofPieces (source : List Char)
    (inOrder : closesInOrder endsAtRule [] (piece :: pieces) = true) :
    (ItemHead.ofPieces source piece pieces).EndsIn (piece :: pieces) := by
  apply ItemHead.ofPieces_cases (motive := ItemHead.EndsIn (piece :: pieces))
  case line => exact fun name keyword noBlock => steps_readAtRule keyword noBlock
  case declaration => exact fun _ => steps_readDeclaration
  case atRule =>
    intro name brace rest keyword found opens
    have first : Steps (piece :: pieces) pieces :=
      Steps.refl.over_token keyword (by simp) rfl
    have behind := first.skipTo endsAtRule fun _ => closesBlock_of_endsAtRule
    exact ⟨brace, opens, found ▸ behind⟩
  case dropped =>
    intro starts none
    obtain ⟨brace, rest, found, -, -⟩ := exists_brace_of_startsRule inOrder starts
    rw [none] at found
    cases found
  case rule =>
    intro brace rest starts found
    obtain ⟨_, _, same, foundEnd, opens⟩ := exists_brace_of_startsRule inOrder starts
    have start : Steps (piece :: pieces) (piece :: pieces) := .refl
    have behind := start.skipTo endsAtRule fun _ => closesBlock_of_endsAtRule
    cases found.symm.trans same
    exact ⟨brace, opens, foundEnd ▸ behind⟩

/-! ## Items with blocks -/

theorem rest_endBlock (stop : Nat) {contents : Contents}
    (closed : HeadIs Piece.closesBlock contents.rest) :
    (endBlock stop contents).rest = contents.rest.drop 1 := by
  unfold endBlock
  split
  · rename_i none
    rw [none]
    rfl
  · rename_i closer rest same
    rw [same] at closed ⊢
    simp only [closed closer rfl, if_true, List.drop_succ_cons, List.drop_zero]

theorem headIs_closesBlock_blockEnd (pieces : List Piece) :
    HeadIs Piece.closesBlock (blockEnd .curly [] pieces) :=
  headIs_blockEnd [] .curly pieces (by simp)

/-- A block that is read up to its end is a step for the block around it. -/
theorem Steps.endBlock (stop : Nat) {contents : Contents} (steps : Steps pieces (brace :: rest))
    (opens : brace.opensBlock = true) (ends : contents.rest = blockEnd .curly [] rest) :
    Steps pieces (Sheet.endBlock stop contents).rest := by
  have curly := token_of_opensBlock opens
  have behind := steps.past (by simp [Piece.closesBlock, curly])
  rw [skipComponent, curly] at behind
  rw [rest_endBlock stop (ends ▸ headIs_closesBlock_blockEnd rest), ends]
  exact behind

/-- An item is a run of steps if its block is read up to the end of the block. -/
theorem steps_readItem (inOrder : closesInOrder endsAtRule [] (piece :: pieces) = true)
    (reads : ∀ brace rest, brace.opensBlock = true → Steps (piece :: pieces) (brace :: rest) →
      (readBlockContents inner rest).rest = blockEnd .curly [] rest) :
    Steps (piece :: pieces) (readItem inner source piece pieces).rest := by
  have ends := ItemHead.endsIn_ofPieces source inOrder
  rw [readItem_eq]
  cases head : ItemHead.ofPieces source piece pieces with
  | whole contents =>
      rw [head] at ends
      exact ends
  | block kind start rest =>
      rw [head] at ends
      obtain ⟨brace, opens, steps⟩ := ends
      exact steps.endBlock (byteCount source) opens (reads brace rest opens steps)

/-! ## Contents -/

/-- Where component values lead up to a brace that closes a block, that block is the one around
them. -/
theorem Steps.eq_blockEnd (steps : Steps pieces rest) (closed : HeadIs Piece.closesBlock rest) :
    rest = blockEnd .curly [] pieces := by
  rw [← steps.blockEnd_eq]
  cases rest with
  | nil => rfl
  | cons closer rest =>
      have closing : closer.token = .closing .curly := eq_of_beq (closed closer rfl)
      simp only [blockEnd, closing, if_true]

/-- What means nothing between items opens and closes nothing. -/
theorem Steps.filler (steps : Steps pieces (piece :: rest)) {inBlock : Bool}
    (filler : isFiller inBlock piece = true) : Steps pieces rest := by
  simp only [isFiller, Bool.or_eq_true, Bool.and_eq_true, beq_iff_eq] at filler
  rcases filler with (blank | semicolon) | ⟨_, opened | closed⟩
  · exact steps.over_token (eq_of_beq blank) (by simp) rfl
  · exact steps.over_token (eq_of_beq semicolon) (by simp) rfl
  · exact steps.over_token opened (by simp) rfl
  · exact steps.over_token closed (by simp) rfl

/-- The items of a block in order are runs of steps, one behind the other. -/
theorem steps_readItems (source : List Char)
    (reads : ∀ pieces, blockInOrder pieces = true →
      (readBlockContents inner pieces).rest = blockEnd .curly [] pieces)
    (inOrder : blockInOrder pieces = true) :
    Steps pieces (readItems inner source true pieces).rest := by
  generalize nested : true = inBlock
  fun_induction readItems inner source inBlock pieces with
  | case1 => exact .refl
  | case2 piece pieces filler inductionHypothesis =>
      have first : Steps (piece :: pieces) pieces := Steps.refl.filler filler
      exact first.trans (inductionHypothesis (first.inOrder inOrder))
  | case3 => exact .refl
  | case4 piece pieces _ _ outside => exact absurd nested.symm outside
  | case5 piece pieces _ _ first inductionHypothesis =>
      have item : Steps (piece :: pieces) first.rest := by
        refine steps_readItem (closesInOrder_of_blockInOrder inOrder)
          fun brace rest opens steps => ?_
        exact reads rest (blockInOrder_inside opens (steps.inOrder inOrder))
      exact item.trans (inductionHypothesis (item.inOrder inOrder))

end Items

/-- However many levels are left, the contents of a block in order end where the block does. -/
theorem rest_readBlockContents (source : List Char) (levels : Nat) {pieces : List Piece}
    (inOrder : blockInOrder pieces = true) :
    (readBlockContents (blockReader source levels) pieces).rest = blockEnd .curly [] pieces := by
  induction levels generalizing pieces with
  | zero => rfl
  | succ levels inductionHypothesis =>
      have steps := steps_readItems source (fun pieces inOrder => inductionHypothesis inOrder)
        inOrder
      exact steps.eq_blockEnd (headIs_readItems _ source pieces)

/-! ## Well-nested blocks -/

theorem blockInOrder_of_nested {inside : List Piece} (nested : Nested inside) {closer : Piece}
    (closes : closer.token = .closing .curly) (rest : List Piece) :
    blockInOrder (inside ++ closer :: rest) = true := by
  rw [blockInOrder, nested.closesInOrder_append, closesInOrder]
  simp [closesBlock_of_closing closes]

/-- A well-nested block ends at the brace behind it: where it is passed over, where it is read with
any count of open blocks, which is left as it was, and where it is read with any number of levels
left, be it none. -/
theorem blockEnds_wellNested {inside : List Piece} {closer : Piece}
    (wellNested : Token.wellNested (inside.map Piece.token) = true)
    (closes : closer.token = .closing .curly) (source : List Char) (rest : List Piece) :
    blockEnd .curly [] (inside ++ closer :: rest) = closer :: rest ∧
      (∀ depth,
        let read := readCounting source depth true (inside ++ closer :: rest)
        read.contents.rest = closer :: rest ∧ read.depth = depth ∧
          read.contents = readItems (blockReader source (maxNesting - depth)) source true
            (inside ++ closer :: rest)) ∧
      ∀ levels stop,
        let block := readBlock (blockReader source levels) stop (inside ++ closer :: rest)
        block.rest = rest ∧ block.stop = closer.span.stop := by
  have nested := nested_of_wellNested wellNested
  have passed := blockEnd_closing nested closes rest
  have read := fun levels => rest_readBlockContents source levels
    (blockInOrder_of_nested nested closes rest)
  refine ⟨passed, fun depth => ?_, fun levels stop => ?_⟩
  · have contents := read (maxNesting - depth + 1)
    rw [readCounting_eq]
    exact ⟨contents.trans passed, rfl, rfl⟩
  · have ends := (read levels).trans passed
    simp only [readBlock, endBlock, ends, closesBlock_of_closing closes, if_true, and_self]

/-- A block with an item of each sort, where one level is left and where none is. -/
theorem blockEnds_wellNested_eachSort :
    let inside := Piece.ofText
      "a #\x7bb\x7d (c) \x7b d: e \x7d @m \x7b f \x7b\x7d \x7d --g: \x7b ; \x7d h: i".toList
    let closer : Piece := ⟨.closing .curly, ⟨47, 48⟩, false⟩
    Token.wellNested (inside.map Piece.token) = true ∧
      ∀ source rest,
        (readCounting source 255 true (inside ++ closer :: rest)).contents.rest = closer :: rest ∧
          (readCounting source 255 true (inside ++ closer :: rest)).depth = 255 ∧
          (readBlock (blockReader source 0) 48 (inside ++ closer :: rest)).rest = rest := by
  intro inside closer
  have wellNested : Token.wellNested (inside.map Piece.token) = true := by decide +kernel
  refine ⟨wellNested, fun source rest => ?_⟩
  obtain ⟨-, counted, read⟩ :=
    blockEnds_wellNested wellNested (show closer.token = .closing .curly from rfl) source rest
  exact ⟨(counted 255).1, (counted 255).2.1, (read 0 48).1⟩

end CssLint.Sheet
