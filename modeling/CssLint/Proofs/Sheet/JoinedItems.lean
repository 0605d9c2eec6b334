import CssLint.Proofs.Sheet.Moved
import CssLint.Proofs.Sheet.Segment

/-!
# Items of joined texts

A text that is well nested and leaves nothing open at its end, a semicolon, and any
other text: together they hold the items of the first and then those of the second.
The semicolon ends the last item of the first text where the end of the text would.
-/

namespace CssLint

open Sheet Text

/-- The text is well nested, and a semicolon behind it is a token by itself. -/
structure SelfContained (text : List Char) : Prop where
  wellNested : Token.wellNested ((Lexeme.ofText text).map Lexeme.token) = true
  closed : (Lexeme.ofText (text ++ [';'])).map Lexeme.token =
    (Lexeme.ofText text).map Lexeme.token ++ [.semicolon]

/-! ## Pieces -/

theorem SelfContained.ofText_append {first : List Char} (selfContained : SelfContained first)
    (second : List Char) :
    Lexeme.ofText (first ++ ';' :: second) =
      Lexeme.ofText first ++
        ⟨.semicolon, ⟨byteCount first, byteCount first + 1⟩⟩ ::
          (Lexeme.ofText second).map (Lexeme.shift (byteCount first + 1)) := by
  rcases Lexeme.ofTextAt_append_mark (.inl rfl) 0 first with settles | taken
  · have moved := Lexeme.ofTextAt_add (byteCount first + 1) 0 second
    rw [Lexeme.ofText, settles, Nat.zero_add, Lexeme.ofTextAt_punctuation rfl]
    exact congrArg (fun lexemes => Lexeme.ofText first ++ _ :: lexemes) moved
  · have lengths := congrArg List.length selfContained.closed
    simp only [List.length_map, List.length_append, List.length_singleton] at lengths
    exact absurd (lengths ▸ taken.length) (Nat.not_succ_le_self _)

namespace Sheet

theorem Piece.map_token_ofLexemesBehind (previous : Option Lexeme) (lexemes : List Lexeme) :
    (ofLexemesBehind previous lexemes).map Piece.token = lexemes.map Lexeme.token := by
  induction lexemes generalizing previous with
  | nil => rfl
  | cons lexeme lexemes inductionHypothesis =>
      simp only [ofLexemesBehind, List.map_cons, inductionHypothesis]

theorem Piece.ofLexemesBehind_append (previous : Option Lexeme) (left right : List Lexeme) :
    ofLexemesBehind previous (left ++ right) =
      ofLexemesBehind previous left ++ ofLexemesBehind (left.getLast?.or previous) right := by
  induction left generalizing previous with
  | nil => rfl
  | cons lexeme left inductionHypothesis =>
      simp only [List.cons_append, ofLexemesBehind, inductionHypothesis]
      cases left with
      | nil => rfl
      | cons next left => simp [List.getLast?_cons]

/-- Only `#` and `@` can make a hole of a brace behind them. -/
theorem Piece.ofLexemesBehind_some {previous : Lexeme} (notHash : previous.token ≠ .delim '#')
    (notAt : previous.token ≠ .delim '@') (lexemes : List Lexeme) :
    ofLexemesBehind (some previous) lexemes = ofLexemesBehind none lexemes := by
  cases lexemes with
  | nil => rfl
  | cons lexeme lexemes => simp [ofLexemesBehind, followsSigil, notHash, notAt]

theorem Piece.ofLexemesBehind_shift (distance : Nat) (previous : Option Lexeme)
    (lexemes : List Lexeme) :
    ofLexemesBehind (previous.map (Lexeme.shift distance))
        (lexemes.map (Lexeme.shift distance)) =
      (ofLexemesBehind previous lexemes).map (shift distance) := by
  induction lexemes generalizing previous with
  | nil => rfl
  | cons lexeme lexemes inductionHypothesis =>
      have later := inductionHypothesis (some lexeme)
      have sigil : followsSigil (previous.map (Lexeme.shift distance))
          (lexeme.shift distance) = followsSigil previous lexeme := by
        cases previous with
        | none => rfl
        | some previous =>
            have same : (distance + lexeme.span.start == distance + previous.span.stop) =
                (lexeme.span.start == previous.span.stop) := by
              rw [Bool.eq_iff_iff]
              simp
            simp [followsSigil, Lexeme.shift, Span.shift, same]
      simp only [Option.map_some] at later
      simp only [List.map_cons, ofLexemesBehind, later, sigil]
      rfl

theorem ofText_append {first : List Char} (selfContained : SelfContained first)
    (second : List Char) :
    Piece.ofText (first ++ ';' :: second) =
      Piece.ofText first ++
        ⟨.semicolon, ⟨byteCount first, byteCount first + 1⟩, false⟩ ::
          (Piece.ofText second).map (Piece.shift (byteCount first + 1)) := by
  have moved := Piece.ofLexemesBehind_shift (byteCount first + 1) none (Lexeme.ofText second)
  rw [Option.map_none] at moved
  rw [Piece.ofText, selfContained.ofText_append, Piece.ofLexemesBehind_append,
    Piece.ofLexemesBehind, Piece.ofLexemesBehind_some (by simp) (by simp), moved]
  rfl

theorem Piece.exists_lexeme {previous : Option Lexeme} {lexemes : List Lexeme} {piece : Piece}
    (member : piece ∈ ofLexemesBehind previous lexemes) :
    ∃ lexeme ∈ lexemes, lexeme.token = piece.token ∧ lexeme.span = piece.span := by
  induction lexemes generalizing previous with
  | nil => cases member
  | cons lexeme lexemes inductionHypothesis =>
      rcases List.mem_cons.1 member with rfl | later
      · exact ⟨lexeme, List.mem_cons_self, rfl, rfl⟩
      · obtain ⟨found, inside, same⟩ := inductionHypothesis later
        exact ⟨found, List.mem_cons_of_mem _ inside, same⟩

/-- All pieces of a text stand on its characters. -/
theorem stands_of_mem {text : List Char} {piece : Piece} (member : piece ∈ Piece.ofText text) :
    Stands text piece := by
  obtain ⟨lexeme, inside, -, same⟩ := Piece.exists_lexeme member
  have boundary : OnBoundary ([] ++ text) lexeme.span.start ∧
      OnBoundary ([] ++ text) lexeme.span.stop := Lexeme.onBoundary_of_mem inside
  rw [same] at boundary
  exact boundary

/-! ## Items -/

theorem nested_ofText {text : List Char}
    (wellNested : Token.wellNested ((Lexeme.ofText text).map Lexeme.token) = true) :
    Nested (Piece.ofText text) := by
  apply nested_of_wellNested
  rw [Piece.ofText, Piece.map_token_ofLexemesBehind]
  exact wellNested

/-- The items of joined texts; `last` is an item of the first that nothing in it ends. -/
theorem contents_append {first : List Char} (selfContained : SelfContained first) :
    ∃ (items : List Item) (last : Option (Kind × Nat)),
      (∀ item ∈ last, item.1.lacksBlock = true) ∧
      (contents first).items = items ++ unclosedItems (byteCount first) last ∧
      ∀ second, (contents (first ++ ';' :: second)).items =
        items ++ unclosedItems (byteCount first + 1) last ++
          shiftItems (byteCount first + 1) (contents second).items := by
  obtain ⟨items, last, notices, lacks, read⟩ :=
    readItems_append (readsBlocks_blockReader first maxNesting)
      (nested_ofText selfContained.wellNested)
      (fun piece member => stands_of_mem member) (Nat.le_refl (byteCount first)) false
  refine ⟨items, last, lacks, ?_, fun second => ?_⟩
  · have read := read [] [] (segmentEnd_nil first)
    simp only [List.append_nil, closeItem, ite_self, readItems_nil] at read
    rw [contents, read]
    simp [Contents.prepend]
  · have joined : first ++ ';' :: second = (first ++ [';']) ++ second := by simp
    have size : byteCount (first ++ [';']) = byteCount first + 1 := byteCount_append first [';']
    have reads := readsMoved_blockReader (first ++ [';']) second maxNesting
    rw [← joined] at reads
    have moved : readItems (blockReader (first ++ ';' :: second) maxNesting)
        (first ++ ';' :: second) false
        ((Piece.ofText second).map (Piece.shift (byteCount first + 1))) =
        (contents second).shift (byteCount first + 1) := by
      have ofFront := readItems_shift second reads false (Piece.ofText second)
      rw [size, ← joined] at ofFront
      exact ofFront
    let semicolon : Piece := ⟨.semicolon, ⟨byteCount first, byteCount first + 1⟩, false⟩
    have filler : readItems (blockReader (first ++ ';' :: second) maxNesting)
        (first ++ ';' :: second) false
        (semicolon :: (Piece.ofText second).map (Piece.shift (byteCount first + 1))) =
        (contents second).shift (byteCount first + 1) := by
      rw [← moved, readItems]
      rfl
    have ending : SegmentEnd (byteCount first) (first ++ ';' :: second)
        (semicolon :: (Piece.ofText second).map (Piece.shift (byteCount first + 1))) :=
      ⟨by simp [HeadIs, endsValue, Piece.isSemicolon, semicolon], rfl⟩
    have read := read _ _ ending
    have close : closeItem (byteCount first)
        (semicolon :: (Piece.ofText second).map (Piece.shift (byteCount first + 1))) =
        (byteCount first + 1,
          (Piece.ofText second).map (Piece.shift (byteCount first + 1))) := rfl
    rw [close] at read
    rw [contents, ofText_append selfContained, read]
    cases last with
    | none => simp [filler, Contents.prepend, Contents.shift]
    | some last => simp [moved, Contents.prepend, Contents.shift]

end Sheet

end CssLint
