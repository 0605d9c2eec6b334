import CssLint.Proofs.Sheet.Within

/-!
# Sheets that match

Two texts match when their tokens are alike one by one, up to more white space in the
second.  The reader never looks at white space and sees places only through the text
between them, so it finds the same items in both: where the text in front of a block
stands between two pieces of the first, that in the second stands between those
that are like them.
-/

namespace CssLint.Sheet

open Text

/-! ## Pieces -/

/-- A relation between pieces that tells apart whatever the reader tells apart. -/
structure Likens (same : Piece → Piece → Prop) : Prop where
  token : ∀ {piece changed : Piece}, same piece changed → changed.token = piece.token
  hole : ∀ {piece changed : Piece}, same piece changed → changed.opensHole = piece.opensHole

/-- The pieces match one by one, but the second ones may hold more white space. -/
inductive Matching (same : Piece → Piece → Prop) : List Piece → List Piece → Prop
  | nil : Matching same [] []
  | cons {piece changed : Piece} {pieces others : List Piece} (first : same piece changed)
      (later : Matching same pieces others) :
      Matching same (piece :: pieces) (changed :: others)
  | blank {piece : Piece} {pieces others : List Piece} (white : piece.isWhitespace = true)
      (later : Matching same pieces others) : Matching same pieces (piece :: others)

/-- The pieces match from the first one on. -/
inductive Met (same : Piece → Piece → Prop) : List Piece → List Piece → Prop
  | nil : Met same [] []
  | cons {piece changed : Piece} {pieces others : List Piece} (first : same piece changed)
      (later : Matching same pieces others) : Met same (piece :: pieces) (changed :: others)

variable {same : Piece → Piece → Prop} {piece changed : Piece} {pieces others : List Piece}

namespace Likens

variable (likens : Likens same) (first : same piece changed)

include likens first

theorem opensBlock : changed.opensBlock = piece.opensBlock := by
  rw [Piece.opensBlock, likens.token first, likens.hole first, Piece.opensBlock]

theorem closesBlock : changed.closesBlock = piece.closesBlock := by
  rw [Piece.closesBlock, likens.token first, Piece.closesBlock]

theorem isSemicolon : changed.isSemicolon = piece.isSemicolon := by
  rw [Piece.isSemicolon, likens.token first, Piece.isSemicolon]

theorem isColon : changed.isColon = piece.isColon := by
  rw [Piece.isColon, likens.token first, Piece.isColon]

theorem isWhitespace : changed.isWhitespace = piece.isWhitespace := by
  rw [Piece.isWhitespace, likens.token first, Piece.isWhitespace]

theorem endsAtRule : Sheet.endsAtRule changed = Sheet.endsAtRule piece := by
  rw [Sheet.endsAtRule, likens.isSemicolon first, likens.closesBlock first,
    likens.opensBlock first, Sheet.endsAtRule]

theorem endsValue : Sheet.endsValue changed = Sheet.endsValue piece := by
  rw [Sheet.endsValue, likens.isSemicolon first, likens.closesBlock first, Sheet.endsValue]

theorem endsName : Sheet.endsName changed = Sheet.endsName piece := by
  rw [Sheet.endsName, likens.isColon first, likens.endsValue first, Sheet.endsName]

theorem isFiller (inBlock : Bool) :
    Sheet.isFiller inBlock changed = Sheet.isFiller inBlock piece := by
  rw [Sheet.isFiller, likens.isWhitespace first, likens.isSemicolon first, likens.token first,
    Sheet.isFiller]

end Likens

theorem token_of_isWhitespace (white : piece.isWhitespace = true) : piece.token = .whitespace :=
  eq_of_beq white

/-- Of the tests that the reader makes, white space passes none. -/
theorem tests_of_isWhitespace (white : piece.isWhitespace = true) :
    piece.opensBlock = false ∧ piece.closesBlock = false ∧ piece.isSemicolon = false ∧
      piece.isColon = false := by
  have token := token_of_isWhitespace white
  refine ⟨?_, ?_, ?_, ?_⟩
  · rw [Piece.opensBlock, token]
    rfl
  · rw [Piece.closesBlock, token]
    rfl
  · rw [Piece.isSemicolon, token]
    rfl
  · rw [Piece.isColon, token]
    rfl

/-- Pieces that match do so from the first one on, unless the second ones begin with white space. -/
theorem Matching.met (matching : Matching same pieces others)
    (solid : HeadIs (fun piece => !piece.isWhitespace) others) : Met same pieces others := by
  cases matching with
  | nil => exact .nil
  | cons first later => exact .cons first later
  | blank white later =>
      have notWhite := solid _ rfl
      simp [white] at notWhite

/-! ## Searching -/

theorem headIs_skipTo (property : Piece → Bool) (pieces : List Piece) :
    HeadIs property (skipTo property pieces) := by
  fun_induction skipTo property pieces with
  | case1 =>
      intro piece member
      cases member
  | case2 piece pieces has =>
      rintro _ ⟨⟩
      exact has
  | case3 piece pieces _ inductionHypothesis => exact inductionHypothesis

section Searching

variable (likens : Likens same)

include likens

theorem blockEnd_matching (matching : Matching same pieces others) (bracket : Bracket)
    (outer : List Bracket) :
    Met same (blockEnd bracket outer pieces) (blockEnd bracket outer others) := by
  induction matching generalizing bracket outer with
  | nil => exact .nil
  | cons first later inductionHypothesis =>
      unfold blockEnd
      rw [likens.token first]
      split
      · cases outer with
        | nil => exact .cons first later
        | cons next outer => exact inductionHypothesis next outer
      · split
        · exact inductionHypothesis _ _
        · exact inductionHypothesis _ _
  | @blank piece pieces others white later inductionHypothesis =>
      have passes : blockEnd bracket outer (piece :: others) = blockEnd bracket outer others := by
        conv_lhs => unfold blockEnd
        rw [token_of_isWhitespace white, if_neg (by simp)]
        rfl
      rw [passes]
      exact inductionHypothesis bracket outer

theorem skipComponent_matching (first : same piece changed)
    (later : Matching same pieces others) :
    Matching same (skipComponent piece pieces) (skipComponent changed others) := by
  rw [skipComponent, skipComponent, likens.token first]
  split
  · exact later
  · rename_i bracket _
    have met := blockEnd_matching likens later bracket []
    generalize blockEnd bracket [] pieces = behind at met ⊢
    generalize blockEnd bracket [] others = behind' at met ⊢
    cases met with
    | nil => exact .nil
    | cons _ left => exact left

theorem skipTo_matching {property : Piece → Bool}
    (keeps : ∀ {piece changed : Piece}, same piece changed → property changed = property piece)
    (solid : ∀ {piece : Piece}, piece.isWhitespace = true → property piece = false)
    (matching : Matching same pieces others) :
    Met same (skipTo property pieces) (skipTo property others) := by
  induction length : others.length using Nat.strongRecOn generalizing pieces others with
  | ind size inductionHypothesis =>
      cases matching with
      | nil =>
          rw [skipTo]
          exact .nil
      | @cons piece changed pieces others first later =>
          rw [skipTo, skipTo, keeps first]
          split
          · exact .cons first later
          · refine inductionHypothesis _ ?_ (skipComponent_matching likens first later) rfl
            rw [← length]
            exact Nat.lt_succ_of_le (length_skipComponent_le changed others)
      | @blank piece pieces others white later =>
          have passes : skipTo property (piece :: others) = skipTo property others := by
            rw [skipTo, if_neg (by simp [solid white]), skipComponent,
              token_of_isWhitespace white]
            rfl
          rw [passes]
          exact inductionHypothesis _ (by rw [← length]; exact Nat.lt_succ_self _) later rfl

theorem opensBlockWithin_matching (matching : Matching same pieces others) (depth : Nat) :
    opensBlockWithin depth others = opensBlockWithin depth pieces := by
  induction matching generalizing depth with
  | nil => rfl
  | cons first later inductionHypothesis =>
      simp only [opensBlockWithin, likens.opensBlock first, likens.isSemicolon first,
        likens.closesBlock first, likens.token first, inductionHypothesis]
  | blank white later inductionHypothesis =>
      obtain ⟨opens, closes, semicolon, -⟩ := tests_of_isWhitespace white
      rw [opensBlockWithin, opens, closes, semicolon, token_of_isWhitespace white]
      simpa [Token.closes?, Token.opens?] using inductionHypothesis depth

theorem startsRule_matching (first : same piece changed)
    (later : Matching same pieces others) :
    startsRule changed others = startsRule piece pieces := by
  have colon : ((others.dropWhile Piece.isWhitespace).head?.any Piece.isColon) =
      ((pieces.dropWhile Piece.isWhitespace).head?.any Piece.isColon) := by
    clear first
    induction later with
    | nil => rfl
    | @cons piece changed _ _ first later inductionHypothesis =>
        by_cases white : piece.isWhitespace = true
        · rw [List.dropWhile_cons_of_pos white,
            List.dropWhile_cons_of_pos ((likens.isWhitespace first).trans white), inductionHypothesis]
        · rw [List.dropWhile_cons_of_neg white,
            List.dropWhile_cons_of_neg (by rwa [likens.isWhitespace first])]
          exact likens.isColon first
    | blank white later inductionHypothesis =>
        rw [List.dropWhile_cons_of_pos white, inductionHypothesis]
  rw [startsRule, isCustomProperty, colon, isCustomName, likens.token first,
    opensBlockWithin_matching likens (.cons first later), startsRule, isCustomProperty, isCustomName]

end Searching

/-! ## Items -/

/-- The style rule whose selector stands between two places of the source. -/
def styleBetween (source : List Char) (start stop : Nat) : StyleRule :=
  let prelude_ := slice source start stop
  ⟨trim prelude_, start + (byteCount prelude_ - byteCount (trimStart prelude_))⟩

/-- The same kind of block, where the text in front of it reaches from a first piece to a brace. -/
inductive HeadMatches (source other : List Char) (first first' brace brace' : Piece) :
    Kind → Kind → Prop
  | rule (ahead : first.span.start ≤ brace.span.start) :
      HeadMatches source other first first' brace brace'
        (.rule (styleBetween source first.span.start brace.span.start))
        (.rule (styleBetween other first'.span.start brace'.span.start))
  | atRule {name : List Char} (keyword : first.token = .atKeyword name)
      (ahead : first.span.stop ≤ brace.span.start) :
      HeadMatches source other first first' brace brace'
        (.atRule ⟨name, textBetween source first.span.stop brace.span.start, true⟩)
        (.atRule ⟨name, textBetween other first'.span.stop brace'.span.start, true⟩)

/-- The same kind of item without a block. -/
inductive LineMatches : Kind → Kind → Prop
  | atRule {header header' : AtRule} : LineMatches (.atRule header) (.atRule header')
  | declaration {declaration declaration' : Declaration} :
      LineMatches (.declaration declaration) (.declaration declaration')

/-- The same items: what stands in front of a block stands between pieces that are alike, and
what the block holds stands behind that. -/
inductive ItemsMatch (same : Piece → Piece → Prop) (source other : List Char) :
    List Item → List Item → Prop
  | nil : ItemsMatch same source other [] []
  | line {kind kind' : Kind} {span span' : Span} {items items' : List Item}
      (own : LineMatches kind kind') (later : ItemsMatch same source other items items') :
      ItemsMatch same source other (⟨kind, span, []⟩ :: items) (⟨kind', span', []⟩ :: items')
  | block {first first' brace brace' : Piece} {rest : List Piece} {kind kind' : Kind}
      {stop stop' : Nat} {inside inside' items items' : List Item} (begins : same first first')
      (opens : same brace brace') (solid : first.token ≠ .whitespace)
      (curly : brace.token = .opening .curly) (known : first ∈ Piece.ofText source)
      (own : HeadMatches source other first first' brace brace' kind kind')
      (followed : brace :: rest <:+ Piece.ofText source)
      (hollow : HeadIs Piece.closesBlock rest → inside = [])
      (before : brace.span.stop ≤ stop)
      (behind : ∀ item ∈ inside, brace.span.stop ≤ item.span.start)
      (within : ItemsMatch same source other inside inside')
      (later : ItemsMatch same source other items items') :
      ItemsMatch same source other (⟨kind, ⟨first.span.start, stop⟩, inside⟩ :: items)
        (⟨kind', ⟨first'.span.start, stop'⟩, inside'⟩ :: items')

variable {source other : List Char}

theorem ItemsMatch.append {left left' right right' : List Item}
    (first : ItemsMatch same source other left left')
    (second : ItemsMatch same source other right right') :
    ItemsMatch same source other (left ++ right) (left' ++ right') := by
  induction first with
  | nil => exact second
  | line own _ inductionHypothesis => exact .line own inductionHypothesis
  | block begins opens solid curly known own followed hollow before behind within _ _
      inductionHypothesis =>
      exact .block begins opens solid curly known own followed hollow before behind within
        inductionHypothesis

theorem LaidOut.start_le {levels start stop : Nat} {items : List Item}
    (laid : LaidOut source levels start stop items) : ∀ item ∈ items, start ≤ item.span.start := by
  induction laid with
  | nil =>
      intro item member
      cases member
  | cons own after _ _ _ _ ofLater =>
      intro item member
      rcases List.mem_cons.1 member with rfl | later
      · exact after
      · exact Nat.le_trans (Nat.le_trans after own.forward) (ofLater item later)

/-! ## Reading -/

/-- The same items were read, and what is left matches. -/
structure ContentsMatch (same : Piece → Piece → Prop) (source other : List Char)
    (contents changed : Contents) : Prop where
  items : ItemsMatch same source other contents.items changed.items
  rest : Matching same contents.rest changed.rest

/-- The readers read the same in blocks that match, and nothing in a block that is closed at once. -/
def ReadsMatching (same : Piece → Piece → Prop) (source other : List Char)
    (inner inner' : Option BlockReader) : Prop :=
  ∀ pieces others, pieces <:+ Piece.ofText source → Matching same pieces others →
    ItemsMatch same source other (readBlockContents inner pieces).items
      (readBlockContents inner' others).items ∧
    Met same (readBlockContents inner pieces).rest (readBlockContents inner' others).rest ∧
    (HeadIs Piece.closesBlock pieces → (readBlockContents inner pieces).items = [])

theorem items_readItems_of_closes {inner : Option BlockReader}
    (closes : HeadIs Piece.closesBlock pieces) :
    (readItems inner source true pieces).items = [] := by
  cases pieces with
  | nil => rw [readItems_nil]
  | cons piece pieces => rw [readItems_of_closing (eq_of_beq (closes piece rfl))]

section Items

variable (likens : Likens same) {levels : Nat} {inner inner' : Option BlockReader}

include likens

theorem readBlock_matching (reads : ReadsMatching same source other inner inner')
    (suffix : pieces <:+ Piece.ofText source) (matching : Matching same pieces others)
    (stop stop' : Nat) :
    ItemsMatch same source other (readBlock inner stop pieces).items
      (readBlock inner' stop' others).items ∧
    Matching same (readBlock inner stop pieces).rest (readBlock inner' stop' others).rest := by
  obtain ⟨items, rest, -⟩ := reads pieces others suffix matching
  rw [readBlock, readBlock]
  generalize readBlockContents inner pieces = contents at items rest ⊢
  generalize readBlockContents inner' others = contents' at items rest ⊢
  obtain ⟨_, _, behind⟩ := contents
  obtain ⟨_, _, behind'⟩ := contents'
  cases rest with
  | nil => exact ⟨items, .nil⟩
  | cons first later =>
      rw [endBlock, endBlock]
      simp only [likens.closesBlock first]
      split
      · exact ⟨items, later⟩
      · exact ⟨items, .cons first later⟩

/-- An item with a block behind the text between two pieces. -/
private theorem block_matching (reads : ReadsMatching same source other inner inner')
    (soundly : ReadsSoundly source levels inner) {first first' brace brace' : Piece}
    {rest rest' : List Piece} (followed : brace :: rest <:+ Piece.ofText source)
    (matching : Matching same rest rest') (begins : same first first') (opens : same brace brace')
    (solid : first.token ≠ .whitespace) (curly : brace.opensBlock = true)
    (known : first ∈ Piece.ofText source) {kind kind' : Kind}
    (own : HeadMatches source other first first' brace brace' kind kind') :
    ContentsMatch same source other
      (.ofItem (some ⟨kind, ⟨first.span.start, (readBlock inner (byteCount source) rest).stop⟩,
          (readBlock inner (byteCount source) rest).items⟩)
        (readBlock inner (byteCount source) rest).notices
        (readBlock inner (byteCount source) rest).rest)
      (.ofItem (some ⟨kind', ⟨first'.span.start, (readBlock inner' (byteCount other) rest').stop⟩,
          (readBlock inner' (byteCount other) rest').items⟩)
        (readBlock inner' (byteCount other) rest').notices
        (readBlock inner' (byteCount other) rest').rest) := by
  have inOrder := (inOrder_ofText source).suffix followed
  have ofRest : rest <:+ Piece.ofText source := (List.suffix_cons brace rest).trans followed
  obtain ⟨items, left⟩ := readBlock_matching likens reads ofRest matching (byteCount source)
    (byteCount other)
  have sound := soundly.readBlock (inOrder.suffix (List.suffix_cons brace rest))
  have opened : brace.span.stop ≤ startOf (byteCount source) rest :=
    inOrder.stop_le (List.suffix_refl rest)
  rw [Piece.opensBlock, Bool.and_eq_true] at curly
  exact ⟨.block begins opens solid (eq_of_beq curly.1) known own followed
    (fun closes =>
      (items_endBlock _ _).trans ((reads rest rest' ofRest matching).2.2 closes))
    (Nat.le_trans opened sound.start)
    (fun item member => Nat.le_trans opened (sound.laid.start_le item member)) items .nil, left⟩

theorem readAtRule_matching (reads : ReadsMatching same source other inner inner')
    (soundly : ReadsSoundly source levels inner)
    (here : piece :: pieces <:+ Piece.ofText source)
    (first : same piece changed) (later : Matching same pieces others)
    {name : List Char} (keyword : piece.token = .atKeyword name) :
    ContentsMatch same source other (readAtRule inner source name piece pieces)
      (readAtRule inner' other name changed others) := by
  have met := skipTo_matching likens likens.endsAtRule (fun white => by
    obtain ⟨opens, closes, semicolon, -⟩ := tests_of_isWhitespace white
    rw [endsAtRule, opens, closes, semicolon]
    rfl) later
  have inOrder := (inOrder_ofText source).suffix here
  have suffix := suffix_skipTo endsAtRule pieces
  have ahead := (suffix.trans (List.suffix_cons piece pieces)).trans here
  have stop := inOrder.stop_le suffix
  simp only [readAtRule]
  generalize skipTo endsAtRule pieces = behind at met ahead stop ⊢
  generalize skipTo endsAtRule others = behind' at met ⊢
  cases met with
  | nil => exact ⟨.line .atRule .nil, .nil⟩
  | @cons last last' rest rest' opens left =>
      simp only [likens.isSemicolon opens, likens.opensBlock opens]
      split
      · exact ⟨.line .atRule .nil, left⟩
      · split
        · rename_i curly
          exact block_matching likens reads soundly ahead left first opens (by rw [keyword]; simp)
            curly (here.subset List.mem_cons_self) (.atRule keyword stop)
        · exact ⟨.line .atRule .nil, .cons opens left⟩

theorem readRule_matching (reads : ReadsMatching same source other inner inner')
    (soundly : ReadsSoundly source levels inner)
    (here : piece :: pieces <:+ Piece.ofText source)
    (first : same piece changed) (later : Matching same pieces others)
    (solid : piece.token ≠ .whitespace) :
    ContentsMatch same source other (readRule inner source piece pieces)
      (readRule inner' other changed others) := by
  have met := skipTo_matching likens likens.opensBlock
    (fun white => (tests_of_isWhitespace white).1) (.cons first later)
  have inOrder := (inOrder_ofText source).suffix here
  have suffix := suffix_skipTo Piece.opensBlock (piece :: pieces)
  have ahead := suffix.trans here
  have start := inOrder.startOf_le suffix
  have found : HeadIs Piece.opensBlock (skipTo Piece.opensBlock (piece :: pieces)) :=
    headIs_skipTo _ _
  simp only [readRule]
  generalize skipTo Piece.opensBlock (piece :: pieces) = behind at met ahead start found ⊢
  generalize skipTo Piece.opensBlock (changed :: others) = behind' at met ⊢
  cases met with
  | nil => exact ⟨.nil, .nil⟩
  | @cons brace brace' rest rest' opens left =>
      exact block_matching likens reads soundly ahead left first opens solid (found brace rfl)
        (here.subset List.mem_cons_self) (.rule start)

theorem readDeclaration_matching (first : same piece changed)
    (later : Matching same pieces others) :
    ContentsMatch same source other (readDeclaration source piece pieces)
      (readDeclaration other changed others) := by
  have met := skipTo_matching likens likens.endsName (fun white => by
    obtain ⟨-, closes, semicolon, colon⟩ := tests_of_isWhitespace white
    rw [endsName, endsValue, closes, semicolon, colon]
    rfl) (.cons first later)
  simp only [readDeclaration]
  generalize skipTo endsName (piece :: pieces) = behind at met ⊢
  generalize skipTo endsName (changed :: others) = behind' at met ⊢
  cases met with
  | nil => exact ⟨.nil, .nil⟩
  | cons colon value =>
      simp only [likens.isColon colon]
      split
      · have metValue := skipTo_matching likens likens.endsValue (fun white => by
          obtain ⟨-, closes, semicolon, -⟩ := tests_of_isWhitespace white
          rw [endsValue, closes, semicolon]
          rfl) value
        generalize skipTo endsValue _ = behind at metValue ⊢
        generalize skipTo endsValue _ = behind' at metValue ⊢
        cases metValue with
        | nil => exact ⟨.line .declaration .nil, .nil⟩
        | cons last left =>
            simp only [likens.isSemicolon last]
            split
            · exact ⟨.line .declaration .nil, left⟩
            · exact ⟨.line .declaration .nil, .cons last left⟩
      · exact ⟨.nil, .cons colon value⟩

theorem readItem_matching (reads : ReadsMatching same source other inner inner')
    (soundly : ReadsSoundly source levels inner)
    (here : piece :: pieces <:+ Piece.ofText source)
    (first : same piece changed) (later : Matching same pieces others)
    (solid : piece.token ≠ .whitespace) :
    ContentsMatch same source other (readItem inner source piece pieces)
      (readItem inner' other changed others) := by
  rw [readItem, readItem, likens.token first]
  split
  · rename_i name keyword
    exact readAtRule_matching likens reads soundly here first later keyword
  · rw [startsRule_matching likens first later]
    split
    · exact readRule_matching likens reads soundly here first later solid
    · exact readDeclaration_matching likens first later

theorem readItems_matching (reads : ReadsMatching same source other inner inner')
    (soundly : ReadsSoundly source levels inner) (inBlock : Bool)
    (here : pieces <:+ Piece.ofText source) (matching : Matching same pieces others) :
    ContentsMatch same source other (readItems inner source inBlock pieces)
      (readItems inner' other inBlock others) := by
  induction length : others.length using Nat.strongRecOn generalizing pieces others with
  | ind size inductionHypothesis =>
      cases matching with
      | nil =>
          rw [readItems, readItems]
          exact ⟨.nil, .nil⟩
      | @blank piece _ others white later =>
          have filler : isFiller inBlock piece = true := by
            rw [isFiller, white]
            rfl
          have passes : readItems inner' other inBlock (piece :: others) =
              readItems inner' other inBlock others := by
            rw [readItems, dif_pos filler]
          rw [passes]
          exact inductionHypothesis _ (by rw [← length]; exact Nat.lt_succ_self _) here later rfl
      | @cons piece changed pieces others first later =>
          have shorter : others.length < size := by
            rw [← length]
            exact Nat.lt_succ_self _
          have ofLater := inductionHypothesis _ shorter
            ((List.suffix_cons piece pieces).trans here) later rfl
          rw [readItems, readItems]
          simp only [likens.isFiller first, likens.closesBlock first]
          split
          · exact ofLater
          · rename_i filler
            split
            · split
              · exact ⟨.nil, .cons first later⟩
              · exact ⟨ofLater.items, ofLater.rest⟩
            · rename_i goesOn
              have solid : piece.token ≠ .whitespace := by
                intro white
                exact filler (by rw [isFiller, Piece.isWhitespace, white]; rfl)
              have item := readItem_matching likens reads soundly here first later solid
              have sound := sound_readItem soundly ((inOrder_ofText source).suffix here)
              have left : (readItem inner' other changed others).rest.length ≤ others.length :=
                length_readItem_le (by
                  rw [likens.endsValue first]
                  simp only [isFiller, Bool.or_eq_true, not_or] at filler
                  simp [endsValue, goesOn, filler.1.2]) inner' other others
              have behind := inductionHypothesis _ (Nat.lt_of_le_of_lt left shorter)
                (sound.rest.trans here) item.rest rfl
              exact ⟨item.items.append behind.items, behind.rest⟩

theorem readsMatching_blockReader (levels : Nat) :
    ReadsMatching same source other (blockReader source levels)
      (blockReader other levels) := by
  induction levels with
  | zero =>
      intro pieces others _ matching
      exact ⟨.nil, blockEnd_matching likens matching .curly [], fun _ => rfl⟩
  | succ levels inductionHypothesis =>
      intro pieces others here matching
      have contents := readItems_matching likens inductionHypothesis
        (readsSoundly_blockReader source levels) true here matching
      refine ⟨contents.items, contents.rest.met fun piece member => ?_, items_readItems_of_closes⟩
      have closes := headIs_readItems (blockReader other levels) other others piece member
      cases white : piece.isWhitespace with
      | false => simp [white]
      | true =>
          rw [(tests_of_isWhitespace white).2.1] at closes
          cases closes

/-- Where the pieces of two texts match, so do the items. -/
theorem contents_matching
    (matching : Matching same (Piece.ofText source) (Piece.ofText other)) :
    ItemsMatch same source other (contents source).items (contents other).items :=
  (readItems_matching likens (readsMatching_blockReader likens maxNesting)
    (readsSoundly_blockReader source maxNesting) false (List.suffix_refl _) matching).items

end Items

end CssLint.Sheet
