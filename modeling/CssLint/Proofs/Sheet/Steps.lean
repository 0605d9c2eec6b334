import CssLint.Proofs.Sheet.Within

/-!
# Steps over component values

The reader and its lookahead go through an item in steps: over one piece, or over a whole
block where the piece opens one.  A step never goes past the brace that closes the block
around it, so from everywhere on the way the end of that block is found at the same place.

The lookahead only counts brackets and the reader keeps a stack of them.  The two find
the same place where every closing bracket closes the one that was opened last.
-/

namespace CssLint

/-! ## Open brackets -/

namespace Token

/-- The brackets that are open behind a token where `opened` are open in front of it, the last one
first; none if the token closes another bracket than the last.  A closing bracket that closes
nothing changes nothing. -/
def openBehind? (opened : List Bracket) (token : Token) : Option (List Bracket) :=
  match token.opens?, token.closes?, opened with
  | some bracket, _, _ => some (bracket :: opened)
  | none, some bracket, last :: outer => if last = bracket then some outer else none
  | none, _, _ => some opened

variable {token : Token} {bracket : Bracket}

theorem openBehind?_of_opens? (opens : token.opens? = some bracket)
    (opened : List Bracket) : openBehind? opened token = some (bracket :: opened) := by
  simp only [openBehind?, opens]

theorem openBehind?_of_plain (notOpening : token.opens? = none)
    (notClosing : token.closes? = none) (opened : List Bracket) :
    openBehind? opened token = some opened := by
  simp only [openBehind?, notOpening, notClosing]

theorem openBehind?_closing (last closed : Bracket) (outer : List Bracket) :
    openBehind? (last :: outer) (.closing closed) =
      if last = closed then some outer else none := by
  rfl

end Token

namespace Sheet

open Text

variable {piece : Piece} {pieces rest other : List Piece}

/-! ## Ends of blocks -/

/-- To leave a block and the blocks around it is to leave it and then those around it. -/
theorem blockEnd_leave (nested bracket : Bracket) (inside outer : List Bracket)
    (pieces : List Piece) :
    blockEnd nested (inside ++ bracket :: outer) pieces =
      blockEnd bracket outer ((blockEnd nested inside pieces).drop 1) := by
  induction pieces generalizing nested inside with
  | nil => rfl
  | cons piece pieces inductionHypothesis =>
      rw [blockEnd.eq_def, blockEnd.eq_def nested inside]
      dsimp only
      split
      · cases inside with
        | nil => rfl
        | cons next inside => exact inductionHypothesis next inside
      · split
        · exact inductionHypothesis _ (nested :: inside)
        · exact inductionHypothesis nested inside

/-- A block ends where it ends from behind any component value in it. -/
theorem blockEnd_skipComponent {bracket : Bracket} (goesOn : piece.token ≠ .closing bracket)
    (outer : List Bracket) (pieces : List Piece) :
    blockEnd bracket outer (skipComponent piece pieces) =
      blockEnd bracket outer (piece :: pieces) := by
  rw [blockEnd.eq_def bracket outer (piece :: pieces), skipComponent]
  dsimp only
  rw [if_neg goesOn]
  cases piece.token.opens? with
  | none => rfl
  | some nested => exact (blockEnd_leave nested bracket [] outer pieces).symm

/-! ## Steps -/

/-- The second pieces are what is left of the first behind some component values, none of which is
the brace that closes the block around them. -/
inductive Steps (pieces : List Piece) : List Piece → Prop
  | refl : Steps pieces pieces
  | past {piece : Piece} {rest : List Piece} (steps : Steps pieces (piece :: rest))
      (goesOn : piece.closesBlock = false) : Steps pieces (skipComponent piece rest)

namespace Steps

theorem trans (first : Steps pieces rest) (second : Steps rest other) : Steps pieces other := by
  induction second with
  | refl => exact first
  | past _ goesOn inductionHypothesis => exact inductionHypothesis.past goesOn

/-- A step over a piece that opens nothing. -/
theorem tail (steps : Steps pieces (piece :: rest)) (goesOn : piece.closesBlock = false)
    (notOpening : piece.token.opens? = none) : Steps pieces rest := by
  have next := steps.past goesOn
  rwa [skipComponent, notOpening] at next

/-- The block around the pieces ends at the same place from the beginning and from the end of the
steps. -/
theorem blockEnd_eq (steps : Steps pieces rest) :
    blockEnd .curly [] rest = blockEnd .curly [] pieces := by
  induction steps with
  | refl => rfl
  | @past piece rest _ goesOn inductionHypothesis =>
      have notClosing : piece.token ≠ .closing .curly := by
        simpa [Piece.closesBlock] using goesOn
      rw [blockEnd_skipComponent notClosing, inductionHypothesis]

/-- A search that stops at closing braces only steps. -/
theorem skipTo (property : Piece → Bool)
    (stops : ∀ piece, property piece = false → piece.closesBlock = false)
    (steps : Steps pieces rest) : Steps pieces (skipTo property rest) := by
  fun_induction Sheet.skipTo property rest with
  | case1 => exact steps
  | case2 => exact steps
  | case3 piece rest lacks inductionHypothesis =>
      exact inductionHypothesis (steps.past (stops piece (Bool.not_eq_true _ ▸ lacks)))

end Steps

/-- A search may first look for something that it would find as well. -/
theorem skipTo_skipTo {property wider : Piece → Bool}
    (imp : ∀ piece, property piece = true → wider piece = true) (pieces : List Piece) :
    skipTo property (skipTo wider pieces) = skipTo property pieces := by
  fun_induction skipTo wider pieces with
  | case1 => rfl
  | case2 => rfl
  | case3 piece pieces lacks inductionHypothesis =>
      have lacks' : property piece = false := by
        cases has : property piece with
        | false => rfl
        | true => exact absurd (imp piece has) lacks
      rw [inductionHypothesis, skipTo.eq_def _ (piece :: pieces)]
      simp only [lacks', Bool.false_eq_true, if_false]

/-! ## Brackets in order -/

/-- Whether brackets are closed in order, up to a piece outside of them that `ends` what they stand
in: a closing bracket closes the one that was opened last, or stands where none is open. -/
def closesInOrder (ends : Piece → Bool) : List Bracket → List Piece → Bool
  | _, [] => true
  | opened, piece :: pieces =>
    if opened.isEmpty && ends piece then true
    else
      match Token.openBehind? opened piece.token with
      | none => false
      | some opened => closesInOrder ends opened pieces

section InOrder

variable {ends wider : Piece → Bool} {bracket : Bracket} {opened : List Bracket}

/-- What is in order up to a later end is so up to an earlier one. -/
theorem closesInOrder_of_imp (imp : ∀ piece, ends piece = true → wider piece = true)
    (inOrder : closesInOrder ends opened pieces = true) :
    closesInOrder wider opened pieces = true := by
  induction pieces generalizing opened with
  | nil => rfl
  | cons piece pieces inductionHypothesis =>
      rw [closesInOrder] at inOrder ⊢
      split
      · rfl
      rename_i goesOn
      have goesOn' : ¬(opened.isEmpty && ends piece) = true := by
        simp only [Bool.and_eq_true] at goesOn ⊢
        exact fun stops => goesOn ⟨stops.1, imp piece stops.2⟩
      rw [if_neg goesOn'] at inOrder
      cases behind : Token.openBehind? opened piece.token with
      | none => simp [behind] at inOrder
      | some opened =>
          simp only [behind] at inOrder ⊢
          exact inductionHypothesis inOrder

/-- While brackets are open, the pieces up to the one that closes the first of them are in order
whatever ends what is around it, and the count of the lookahead is back at zero there. -/
theorem opensBlockWithin_leave (inner : List Bracket) {outer : List Bracket}
    (inOrder : closesInOrder ends (bracket :: (inner ++ outer)) pieces = true) :
    opensBlockWithin (inner.length + 1) pieces =
        opensBlockWithin 0 ((blockEnd bracket inner pieces).drop 1) ∧
      closesInOrder ends outer ((blockEnd bracket inner pieces).drop 1) = true := by
  induction pieces generalizing bracket inner with
  | nil => exact ⟨rfl, rfl⟩
  | cons piece pieces inductionHypothesis =>
      rw [closesInOrder] at inOrder
      simp only [List.isEmpty_cons, Bool.false_and, Bool.false_eq_true, if_false] at inOrder
      simp only [opensBlockWithin, Nat.add_one_ne_zero, decide_false, Bool.false_and,
        Bool.false_eq_true, if_false, Nat.add_one_sub_one, blockEnd]
      cases opens : piece.token.opens? with
      | some nested =>
          have notClosing : piece.token ≠ .closing bracket := by
            intro same
            rw [same] at opens
            cases opens
          simp only [Token.openBehind?_of_opens? opens] at inOrder
          simp only [closes?_of_opens? opens, notClosing, if_false]
          exact inductionHypothesis (bracket :: inner) inOrder
      | none =>
          cases closes : piece.token.closes? with
          | none =>
              have notClosing : piece.token ≠ .closing bracket := by
                intro same
                rw [same] at closes
                cases closes
              simp only [Token.openBehind?_of_plain opens closes] at inOrder
              simp only [notClosing, if_false]
              exact inductionHypothesis inner inOrder
          | some closed =>
              have closing := eq_closing_of_closes? closes
              rw [closing, Token.openBehind?_closing] at inOrder
              by_cases due : bracket = closed
              · subst due
                simp only [if_true] at inOrder
                simp only [closing, if_true]
                cases inner with
                | nil => exact ⟨rfl, inOrder⟩
                | cons next inner => exact inductionHypothesis inner inOrder
              · simp [due] at inOrder

/-- What is in order from a piece on is in order behind the component value that begins there. -/
theorem closesInOrder_skipComponent (goesOn : ends piece = false)
    (inOrder : closesInOrder ends [] (piece :: pieces) = true) :
    closesInOrder ends [] (skipComponent piece pieces) = true := by
  rw [closesInOrder] at inOrder
  simp only [List.isEmpty_nil, Bool.true_and, goesOn, Bool.false_eq_true, if_false] at inOrder
  rw [skipComponent]
  cases opens : piece.token.opens? with
  | some bracket =>
      simp only [Token.openBehind?_of_opens? opens] at inOrder
      exact (opensBlockWithin_leave [] inOrder).2
  | none =>
      -- A bracket that closes nothing is passed over like any piece.
      cases closes : piece.token.closes? with
      | none => simpa only [Token.openBehind?, opens, closes] using inOrder
      | some bracket => simpa only [Token.openBehind?, opens, closes] using inOrder

/-- The lookahead goes behind a component value with its count unchanged. -/
theorem opensBlockWithin_skipComponent (goesOn : endsAtRule piece = false)
    (inOrder : closesInOrder endsAtRule [] (piece :: pieces) = true) :
    opensBlockWithin 0 (piece :: pieces) = opensBlockWithin 0 (skipComponent piece pieces) := by
  have separate := goesOn
  simp only [endsAtRule, Bool.or_eq_false_iff] at separate
  rw [closesInOrder] at inOrder
  simp only [List.isEmpty_nil, Bool.true_and, goesOn, Bool.false_eq_true, if_false] at inOrder
  simp only [opensBlockWithin, separate.1.1, separate.1.2, separate.2, decide_true, Bool.true_and,
    Bool.or_self, Bool.false_eq_true, if_false, skipComponent]
  cases opens : piece.token.opens? with
  | some bracket =>
      simp only [Token.openBehind?_of_opens? opens] at inOrder
      simp only [closes?_of_opens? opens, Option.isSome_none, Option.isSome_some,
        Bool.false_eq_true, if_false, if_true]
      exact (opensBlockWithin_leave [] inOrder).1
  | none => simp only [Option.isSome_none, Bool.false_eq_true, if_false, Nat.zero_sub, ite_self]

/-- Where brackets are closed in order, the lookahead sees what the search for the end of the item
finds. -/
theorem opensBlockWithin_eq (inOrder : closesInOrder endsAtRule [] pieces = true) :
    opensBlockWithin 0 pieces = (skipTo endsAtRule pieces).head?.any Piece.opensBlock := by
  fun_induction skipTo endsAtRule pieces with
  | case1 => rfl
  | case2 piece pieces ends =>
      rw [List.head?_cons, Option.any_some, opensBlockWithin]
      simp only [endsAtRule, Bool.or_eq_true] at ends
      cases opens : piece.opensBlock with
      | true => rfl
      | false =>
          simp only [opens, Bool.false_eq_true, or_false] at ends
          simp [ends]
  | case3 piece pieces lacks inductionHypothesis =>
      have goesOn : endsAtRule piece = false := by simpa using lacks
      rw [opensBlockWithin_skipComponent goesOn inOrder]
      exact inductionHypothesis (closesInOrder_skipComponent goesOn inOrder)

/-- The block of a rule is found where the lookahead saw it. -/
theorem skipTo_opensBlock (pieces : List Piece) :
    skipTo Piece.opensBlock (skipTo endsAtRule pieces) = skipTo Piece.opensBlock pieces := by
  apply skipTo_skipTo
  intro piece opens
  rw [endsAtRule, opens, Bool.or_true]

/-! ## Blocks in order -/

/-- Whether the brackets of a block are closed in order, up to the brace that closes the block. -/
def blockInOrder (pieces : List Piece) : Bool :=
  closesInOrder Piece.closesBlock [] pieces

theorem Steps.inOrder (steps : Steps pieces rest) (inOrder : blockInOrder pieces = true) :
    blockInOrder rest = true := by
  induction steps with
  | refl => exact inOrder
  | past _ goesOn inductionHypothesis =>
      exact closesInOrder_skipComponent goesOn inductionHypothesis

/-- The end of the block ends what is open in it. -/
theorem closesInOrder_of_append_curly (opened : List Bracket)
    (inOrder : closesInOrder Piece.closesBlock (opened ++ [.curly]) pieces = true) :
    closesInOrder Piece.closesBlock opened pieces = true := by
  induction pieces generalizing opened with
  | nil => rfl
  | cons piece pieces inductionHypothesis =>
      have within : (opened ++ [Bracket.curly]).isEmpty = false := by
        cases opened with
        | nil => rfl
        | cons last outer => rfl
      rw [closesInOrder] at inOrder ⊢
      simp only [within, Bool.false_and, Bool.false_eq_true, if_false] at inOrder
      split
      · rfl
      rename_i goesOn
      cases opens : piece.token.opens? with
      | some bracket =>
          simp only [Token.openBehind?_of_opens? opens] at inOrder ⊢
          exact inductionHypothesis (bracket :: opened) inOrder
      | none =>
          cases closes : piece.token.closes? with
          | none =>
              simp only [Token.openBehind?_of_plain opens closes] at inOrder ⊢
              exact inductionHypothesis opened inOrder
          | some closed =>
              have closing := eq_closing_of_closes? closes
              rw [closing] at inOrder ⊢
              cases opened with
              | nil =>
                  -- The bracket is no brace, so it cannot close the block.
                  have other : Bracket.curly ≠ closed := by
                    intro same
                    simp [Piece.closesBlock, closing, ← same] at goesOn
                  simp [Token.openBehind?_closing, other] at inOrder
              | cons last outer =>
                  rw [List.cons_append, Token.openBehind?_closing] at inOrder
                  rw [Token.openBehind?_closing]
                  by_cases due : last = closed
                  · simp only [due, if_true] at inOrder ⊢
                    exact inductionHypothesis outer inOrder
                  · simp [due] at inOrder

theorem token_of_opensBlock (opens : piece.opensBlock = true) :
    piece.token = .opening .curly := by
  simp only [Piece.opensBlock, Bool.and_eq_true, beq_iff_eq] at opens
  exact opens.1

/-- A block in order holds blocks in order. -/
theorem blockInOrder_inside {brace : Piece} (opens : brace.opensBlock = true)
    (inOrder : blockInOrder (brace :: rest) = true) : blockInOrder rest = true := by
  have curly : brace.token = .opening .curly := token_of_opensBlock opens
  have goesOn : brace.closesBlock = false := by simp [Piece.closesBlock, curly]
  rw [blockInOrder, closesInOrder] at inOrder
  simp only [goesOn, Bool.and_false, Bool.false_eq_true, if_false, curly] at inOrder
  exact closesInOrder_of_append_curly [] inOrder

/-- An item of a block in order is in order. -/
theorem closesInOrder_of_blockInOrder (inOrder : blockInOrder pieces = true) :
    closesInOrder endsAtRule [] pieces = true := by
  refine closesInOrder_of_imp (fun piece closes => ?_) inOrder
  simp only [endsAtRule, closes, Bool.or_true, Bool.true_or]

/-- Well-nested pieces are in order wherever they stand in a block. -/
theorem Nested.closesInOrder_append {inside : List Piece} (nested : Nested inside)
    (opened : List Bracket) (rest : List Piece) :
    closesInOrder Piece.closesBlock opened (inside ++ rest) =
      closesInOrder Piece.closesBlock opened rest := by
  induction nested generalizing opened rest with
  | nil => rfl
  | @plain piece pieces notOpening notClosing _ inductionHypothesis =>
      have goesOn : piece.closesBlock = false := by
        cases closes : piece.closesBlock with
        | false => rfl
        | true =>
            rw [eq_of_beq closes] at notClosing
            cases notClosing
      rw [List.cons_append, closesInOrder]
      simp only [goesOn, Bool.and_false, Bool.false_eq_true, if_false,
        Token.openBehind?_of_plain notOpening notClosing, inductionHypothesis]
  | @block bracket opener closer inside pieces opens _ closes _ insideHypothesis laterHypothesis =>
      have goesOn : opener.closesBlock = false := by
        cases closing : opener.closesBlock with
        | false => rfl
        | true =>
            rw [eq_of_beq closing] at opens
            cases opens
      rw [List.cons_append, closesInOrder]
      simp only [goesOn, Bool.and_false, Bool.false_eq_true, if_false,
        Token.openBehind?_of_opens? opens, List.append_assoc, insideHypothesis]
      rw [List.cons_append, closesInOrder]
      simp only [List.isEmpty_cons, Bool.false_and, Bool.false_eq_true, if_false, closes,
        Token.openBehind?_closing, if_true, laterHypothesis]

end InOrder

end Sheet

end CssLint
