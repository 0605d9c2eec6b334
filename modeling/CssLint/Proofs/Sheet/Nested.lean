import CssLint.Sheet.Reader

/-!
# Well-nested pieces

Tokens are well nested when every bracket is closed by its own kind, the one that
was opened last first.  The searches of the reader pass over well-nested pieces
without looking at what follows them.
-/

namespace CssLint

/-- Whether the tokens close the given open brackets, the last one first, and all brackets that
they open themselves. -/
def Token.closeAll (opened : List Bracket) : List Token → Bool
  | [] => opened.isEmpty
  | token :: tokens =>
    match token.opens?, token.closes? with
    | some bracket, _ => closeAll (bracket :: opened) tokens
    | none, some bracket =>
      match opened with
      | [] => false
      | last :: opened => last == bracket && closeAll opened tokens
    | none, none => closeAll opened tokens

/-- Whether every bracket is closed by its own kind in the order of a stack. -/
def Token.wellNested (tokens : List Token) : Bool :=
  closeAll [] tokens

namespace Sheet

/-- Pieces without brackets and whole blocks, one behind the other. -/
inductive Nested : List Piece → Prop
  | nil : Nested []
  | plain {piece : Piece} {pieces : List Piece} (notOpening : piece.token.opens? = none)
      (notClosing : piece.token.closes? = none) (later : Nested pieces) : Nested (piece :: pieces)
  | block {bracket : Bracket} {opener closer : Piece} {inside pieces : List Piece}
      (opens : opener.token.opens? = some bracket) (nested : Nested inside)
      (closes : closer.token = .closing bracket) (later : Nested pieces) :
      Nested (opener :: (inside ++ closer :: pieces))

theorem Nested.append {left right : List Piece} (first : Nested left) (second : Nested right) :
    Nested (left ++ right) := by
  induction first with
  | nil => exact second
  | plain notOpening notClosing _ inductionHypothesis =>
      exact .plain notOpening notClosing inductionHypothesis
  | block opens nested closes _ _ inductionHypothesis =>
      rw [List.cons_append, List.append_assoc, List.cons_append]
      exact .block opens nested closes inductionHypothesis

/-! ## From tokens to pieces -/

theorem eq_closing_of_closes? {token : Token} {bracket : Bracket}
    (closes : token.closes? = some bracket) : token = .closing bracket := by
  cases token with
  | closing other =>
      cases closes
      rfl
  | _ => cases closes

/-- Pieces that close what is open are well nested up to the bracket that closes the last. -/
private theorem nested_of_closeAll (opened : List Bracket) (pieces : List Piece)
    (closed : Token.closeAll opened (pieces.map Piece.token) = true) :
    match opened with
    | [] => Nested pieces
    | last :: opened => ∃ inside closer later, pieces = inside ++ closer :: later ∧
        Nested inside ∧ closer.token = .closing last ∧
        Token.closeAll opened (later.map Piece.token) = true := by
  induction length : pieces.length using Nat.strongRecOn generalizing opened pieces with
  | ind size inductionHypothesis =>
      cases pieces with
      | nil =>
          cases opened with
          | nil => exact .nil
          | cons last opened => cases closed
      | cons piece pieces =>
          subst length
          rw [List.map_cons, Token.closeAll] at closed
          cases opens : piece.token.opens? with
          | some bracket =>
              simp only [opens] at closed
              obtain ⟨inside, closer, later, rfl, nested, closes, rest⟩ :=
                inductionHypothesis _ (Nat.lt_succ_self _) (bracket :: opened) pieces closed rfl
              have shorter : later.length < (piece :: (inside ++ closer :: later)).length := by
                simp only [List.length_cons, List.length_append]
                omega
              have behind := inductionHypothesis _ shorter opened later rest rfl
              cases opened with
              | nil => exact .block opens nested closes behind
              | cons last opened =>
                  obtain ⟨inside', closer', later', rfl, nested', closes', rest'⟩ := behind
                  refine ⟨piece :: (inside ++ closer :: inside'), closer', later', ?_,
                    .block opens nested closes nested', closes', rest'⟩
                  simp
          | none =>
              cases closes : piece.token.closes? with
              | some bracket =>
                  cases opened with
                  | nil => simp [opens, closes] at closed
                  | cons last opened =>
                      simp only [opens, closes, Bool.and_eq_true, beq_iff_eq] at closed
                      obtain ⟨rfl, rest⟩ := closed
                      exact ⟨[], piece, pieces, rfl, .nil, eq_closing_of_closes? closes, rest⟩
              | none =>
                  simp only [opens, closes] at closed
                  have behind :=
                    inductionHypothesis _ (Nat.lt_succ_self _) opened pieces closed rfl
                  cases opened with
                  | nil => exact .plain opens closes behind
                  | cons last opened =>
                      obtain ⟨inside, closer, later, rfl, nested, closes', rest⟩ := behind
                      exact ⟨piece :: inside, closer, later, rfl, .plain opens closes nested,
                        closes', rest⟩

theorem nested_of_wellNested {pieces : List Piece}
    (wellNested : Token.wellNested (pieces.map Piece.token) = true) : Nested pieces :=
  nested_of_closeAll [] pieces wellNested

/-! ## Passing over -/

private theorem ne_closing_of_opens? {token : Token} {bracket : Bracket}
    (opens : token.opens? = some bracket) (other : Bracket) : token ≠ .closing other := by
  rintro rfl
  cases opens

private theorem ne_closing_of_closes? {token : Token} (notClosing : token.closes? = none)
    (bracket : Bracket) : token ≠ .closing bracket := by
  rintro rfl
  cases notClosing

theorem blockEnd_append {inside : List Piece} (nested : Nested inside) (bracket : Bracket)
    (outer : List Bracket) (rest : List Piece) :
    blockEnd bracket outer (inside ++ rest) = blockEnd bracket outer rest := by
  induction nested generalizing bracket outer rest with
  | nil => rfl
  | plain notOpening notClosing _ inductionHypothesis =>
      simp only [List.cons_append, blockEnd, ne_closing_of_closes? notClosing, notOpening,
        if_false, inductionHypothesis]
  | block opens _ closes _ insideHypothesis laterHypothesis =>
      simp only [List.cons_append, List.append_assoc, blockEnd, ne_closing_of_opens? opens, opens,
        if_false, insideHypothesis, closes, if_true, laterHypothesis]

/-- Well-nested pieces end where the bracket around them closes. -/
theorem blockEnd_closing {inside : List Piece} (nested : Nested inside) {closer : Piece}
    {bracket : Bracket} (closes : closer.token = .closing bracket) (rest : List Piece) :
    blockEnd bracket [] (inside ++ closer :: rest) = closer :: rest := by
  simp only [blockEnd_append nested, blockEnd, closes, if_true]

theorem skipComponent_block {opener closer : Piece} {bracket : Bracket} {inside : List Piece}
    (opens : opener.token.opens? = some bracket) (nested : Nested inside)
    (closes : closer.token = .closing bracket) (rest : List Piece) :
    skipComponent opener (inside ++ closer :: rest) = rest := by
  simp only [skipComponent, opens, blockEnd_closing nested closes, List.drop_succ_cons,
    List.drop_zero]

/-- Every piece at the beginning, if there is one, has the property. -/
def HeadIs (property : Piece → Bool) (pieces : List Piece) : Prop :=
  ∀ piece ∈ pieces.head?, property piece = true

theorem skipTo_of_headIs {property : Piece → Bool} {pieces : List Piece}
    (head : HeadIs property pieces) : skipTo property pieces = pieces := by
  cases pieces with
  | nil => rw [skipTo]
  | cons piece pieces => simp [skipTo, head piece rfl]

/-- Searching well-nested pieces finds the same place whatever follows, as long as the search ends
there. -/
theorem skipTo_append {pieces : List Piece} (nested : Nested pieces) (property : Piece → Bool) :
    ∃ found, Nested found ∧ found <:+ pieces ∧ HeadIs property found ∧
      ∀ rest, HeadIs property rest → skipTo property (pieces ++ rest) = found ++ rest := by
  induction nested with
  | nil =>
      exact ⟨[], .nil, List.suffix_refl _, by simp [HeadIs], fun rest => skipTo_of_headIs⟩
  | @plain piece pieces notOpening notClosing later inductionHypothesis =>
      by_cases here : property piece = true
      · refine ⟨piece :: pieces, .plain notOpening notClosing later, List.suffix_refl _,
          by simp [HeadIs, here], fun rest _ => ?_⟩
        simp [skipTo, here]
      · obtain ⟨found, nested, suffix, head, same⟩ := inductionHypothesis
        refine ⟨found, nested, suffix.trans (List.suffix_cons _ _), head, fun rest ends => ?_⟩
        simp [skipTo, here, skipComponent, notOpening, same rest ends]
  | @block bracket opener closer inside pieces opens nested closes later _ inductionHypothesis =>
      by_cases here : property opener = true
      · refine ⟨_, .block opens nested closes later, List.suffix_refl _, by simp [HeadIs, here],
          fun rest _ => ?_⟩
        simp [skipTo, here]
      · obtain ⟨found, nested', suffix, head, same⟩ := inductionHypothesis
        have behind : pieces <:+ opener :: (inside ++ closer :: pieces) :=
          ⟨opener :: (inside ++ [closer]), by simp⟩
        refine ⟨found, nested', suffix.trans behind, head, fun rest ends => ?_⟩
        rw [List.cons_append, List.append_assoc, List.cons_append, skipTo]
        simp only [here, if_false, Bool.false_eq_true, skipComponent_block opens nested closes,
          same rest ends]

/-! ## Looking ahead -/

theorem closes?_of_opens? {token : Token} {bracket : Bracket}
    (opens : token.opens? = some bracket) : token.closes? = none := by
  cases token with
  | closing other => cases opens
  | _ => rfl

theorem closes?_of_closing {token : Token} {bracket : Bracket}
    (closes : token = .closing bracket) : token.closes? = some bracket := by
  rw [closes]
  rfl

theorem opensBlockWithin_inside {inside : List Piece} (nested : Nested inside)
    (depth : Nat) (rest : List Piece) :
    opensBlockWithin (depth + 1) (inside ++ rest) = opensBlockWithin (depth + 1) rest := by
  induction nested generalizing depth rest with
  | nil => rfl
  | plain notOpening notClosing _ inductionHypothesis =>
      simp [opensBlockWithin, notOpening, notClosing, inductionHypothesis]
  | block opens _ closes _ insideHypothesis laterHypothesis =>
      have opener := closes?_of_opens? opens
      have closer := closes?_of_closing closes
      simp [opensBlockWithin, opens, opener, closer, insideHypothesis, laterHypothesis]

private theorem not_opensBlock {piece : Piece} (notOpening : piece.token.opens? = none) :
    piece.opensBlock = false := by
  have different : piece.token ≠ .opening .curly := by
    intro same
    rw [same] at notOpening
    cases notOpening
  simp [Piece.opensBlock, different]

private theorem not_endsValue {piece : Piece} {bracket : Bracket}
    (opens : piece.token.opens? = some bracket) : endsValue piece = false := by
  have notSemicolon : piece.token ≠ .semicolon := by
    intro same
    rw [same] at opens
    cases opens
  simp [endsValue, Piece.isSemicolon, Piece.closesBlock, notSemicolon, ne_closing_of_opens? opens]

theorem opensBlockWithin_of_headIs {rest : List Piece} (ends : HeadIs endsValue rest) :
    opensBlockWithin 0 rest = false := by
  cases rest with
  | nil => rfl
  | cons piece rest =>
      have ends := ends piece rfl
      have notOpening : piece.opensBlock = false := by
        cases opens : piece.token.opens? with
        | none => exact not_opensBlock opens
        | some bracket =>
            rw [not_endsValue opens] at ends
            cases ends
      simp only [endsValue] at ends
      simp [opensBlockWithin, notOpening, ends]

/-- Looking ahead over well-nested pieces does not depend on what follows, as long as the item ends
there: either no block opens, or the search for it finds a whole one. -/
theorem opensBlockWithin_append {pieces : List Piece} (nested : Nested pieces) :
    (∀ rest, HeadIs endsValue rest → opensBlockWithin 0 (pieces ++ rest) = false) ∨
      ∃ brace inside closer later, brace.opensBlock = true ∧ Nested inside ∧
        closer.token = .closing .curly ∧ Nested later ∧
        brace :: (inside ++ closer :: later) <:+ pieces ∧
        ∀ rest, opensBlockWithin 0 (pieces ++ rest) = true ∧
          skipTo Piece.opensBlock (pieces ++ rest) =
            brace :: (inside ++ closer :: (later ++ rest)) := by
  induction nested with
  | nil => exact Or.inl fun rest => opensBlockWithin_of_headIs
  | @plain piece pieces notOpening notClosing later inductionHypothesis =>
      have notBlock := not_opensBlock notOpening
      by_cases ends : endsValue piece = true
      · refine Or.inl fun rest _ => ?_
        simp only [endsValue] at ends
        simp [opensBlockWithin, notBlock, ends]
      · simp only [endsValue, Bool.not_eq_true] at ends
        have step : ∀ rest, opensBlockWithin 0 (piece :: (pieces ++ rest)) =
            opensBlockWithin 0 (pieces ++ rest) := by
          intro rest
          simp [opensBlockWithin, notBlock, ends, notOpening, notClosing]
        rcases inductionHypothesis with without | ⟨brace, inside, closer, behind, opens, nested,
          closes, nested', suffix, found⟩
        · exact Or.inl fun rest ending => (step rest).trans (without rest ending)
        · refine Or.inr ⟨brace, inside, closer, behind, opens, nested, closes, nested',
            suffix.trans (List.suffix_cons _ _), fun rest => ?_⟩
          refine ⟨(step rest).trans (found rest).1, ?_⟩
          simp [skipTo, notBlock, skipComponent, notOpening, (found rest).2]
  | @block bracket opener closer inside pieces opens nested closes later _ inductionHypothesis =>
      by_cases here : opener.opensBlock = true
      · have curly : opener.token = .opening .curly := by
          simp only [Piece.opensBlock, Bool.and_eq_true, beq_iff_eq] at here
          exact here.1
        have same : bracket = .curly := by
          rw [curly] at opens
          exact (Option.some.inj opens).symm
        subst same
        refine Or.inr ⟨opener, inside, closer, pieces, here, nested, closes, later,
          List.suffix_refl _, fun rest => ?_⟩
        simp [opensBlockWithin, skipTo, here]
      · have ends := not_endsValue opens
        simp only [endsValue] at ends
        have opener_ := closes?_of_opens? opens
        have closer_ := closes?_of_closing closes
        have step : ∀ rest, opensBlockWithin 0 (opener :: (inside ++ closer :: (pieces ++ rest))) =
            opensBlockWithin 0 (pieces ++ rest) := by
          intro rest
          simp [opensBlockWithin, here, ends, opens, opener_, closer_,
            opensBlockWithin_inside nested]
        rcases inductionHypothesis with without | ⟨brace, inside', closer', behind, opens', nested',
          closes', later', suffix, found⟩
        · refine Or.inl fun rest ending => ?_
          simpa using (step rest).trans (without rest ending)
        · have ofBlock : pieces <:+ opener :: (inside ++ closer :: pieces) :=
            ⟨opener :: (inside ++ [closer]), by simp⟩
          refine Or.inr ⟨brace, inside', closer', behind, opens', nested', closes', later',
            suffix.trans ofBlock, fun rest => ?_⟩
          rw [List.cons_append, List.append_assoc, List.cons_append]
          refine ⟨(step rest).trans (found rest).1, ?_⟩
          rw [skipTo]
          simp only [here, if_false, Bool.false_eq_true, skipComponent_block opens nested closes,
            (found rest).2]

/-- Whether an item is a custom property does not depend on what follows either. -/
theorem isCustomProperty_append (piece : Piece) (pieces : List Piece) {rest : List Piece}
    (ends : HeadIs endsValue rest) :
    isCustomProperty piece (pieces ++ rest) = isCustomProperty piece pieces := by
  have ofRest : (rest.dropWhile Piece.isWhitespace).head?.any Piece.isColon = false := by
    cases rest with
    | nil => rfl
    | cons last rest =>
        have ends := ends last rfl
        simp only [endsValue, Piece.isSemicolon, Piece.closesBlock, Bool.or_eq_true,
          beq_iff_eq] at ends
        have notBlank : last.isWhitespace = false := by
          rcases ends with semicolon | closing
          · simp [Piece.isWhitespace, semicolon]
          · simp [Piece.isWhitespace, closing]
        have notColon : last.isColon = false := by
          rcases ends with semicolon | closing
          · simp [Piece.isColon, semicolon]
          · simp [Piece.isColon, closing]
        simp [notBlank, notColon]
  have same : ((pieces ++ rest).dropWhile Piece.isWhitespace).head?.any Piece.isColon =
      (pieces.dropWhile Piece.isWhitespace).head?.any Piece.isColon := by
    induction pieces with
    | nil => simpa using ofRest
    | cons first pieces inductionHypothesis =>
        by_cases blank : first.isWhitespace = true
        · simpa [blank] using inductionHypothesis
        · simp [blank]
  rw [isCustomProperty, isCustomProperty, same]

end Sheet

end CssLint
