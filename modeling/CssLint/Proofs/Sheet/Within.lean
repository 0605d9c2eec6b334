import CssLint.Proofs.Sheet.Occurrences
import CssLint.Proofs.Sheet.JoinedItems
import CssLint.Proofs.Text.Trim
import CssLint.Proofs.Token.Tiles

/-!
# Items inside their text

Whatever the text, the items that are read of it stand in it one behind the other, and
what the block of an item holds stands between the ends of the item.  The selector of a
style rule is found where the rule says, and blocks stand no deeper inside each other
than the reader goes.
-/

namespace CssLint.Sheet

open Text

/-! ## Searching -/

theorem suffix_blockEnd (bracket : Bracket) (outer : List Bracket) (pieces : List Piece) :
    blockEnd bracket outer pieces <:+ pieces := by
  fun_induction blockEnd bracket outer pieces with
  | case1 => exact List.suffix_refl _
  | case2 => exact List.suffix_refl _
  | case3 _ piece pieces _ _ _ inductionHypothesis =>
      exact inductionHypothesis.trans (List.suffix_cons piece pieces)
  | case4 _ _ piece pieces _ _ _ inductionHypothesis =>
      exact inductionHypothesis.trans (List.suffix_cons piece pieces)
  | case5 _ _ piece pieces _ _ inductionHypothesis =>
      exact inductionHypothesis.trans (List.suffix_cons piece pieces)

/-- A block is passed over up to the bracket that closes it, or to the end. -/
theorem headIs_blockEnd (outer : List Bracket) (bracket : Bracket) (pieces : List Piece)
    (closes : ∀ last ∈ (bracket :: outer).getLast?, last = .curly) :
    HeadIs Piece.closesBlock (blockEnd bracket outer pieces) := by
  fun_induction blockEnd bracket outer pieces with
  | case1 =>
      intro piece member
      cases member
  | case2 bracket piece pieces closing =>
      rintro _ ⟨⟩
      rw [closes bracket rfl] at closing
      exact closesBlock_of_closing closing
  | case3 bracket piece pieces _ next outer inductionHypothesis =>
      exact inductionHypothesis fun last member => closes last (by simpa using member)
  | case4 bracket outer piece pieces _ nested _ inductionHypothesis =>
      exact inductionHypothesis fun last member => closes last (by simpa using member)
  | case5 bracket outer piece pieces _ _ inductionHypothesis => exact inductionHypothesis closes

theorem suffix_skipComponent (piece : Piece) (pieces : List Piece) :
    skipComponent piece pieces <:+ pieces := by
  unfold skipComponent
  split
  · exact List.suffix_refl _
  · exact (List.drop_suffix 1 _).trans (suffix_blockEnd _ [] pieces)

theorem suffix_skipTo (property : Piece → Bool) (pieces : List Piece) :
    skipTo property pieces <:+ pieces := by
  fun_induction skipTo property pieces with
  | case1 => exact List.suffix_refl _
  | case2 => exact List.suffix_refl _
  | case3 piece pieces _ inductionHypothesis =>
      exact (inductionHypothesis.trans (suffix_skipComponent piece pieces)).trans
        (List.suffix_cons piece pieces)

/-! ## Pieces one behind the other -/

/-- The pieces stand on the characters of the text, one behind the other. -/
structure InOrder (source : List Char) (pieces : List Piece) : Prop where
  stand : ∀ piece ∈ pieces, Stands source piece
  forward : ∀ piece ∈ pieces, piece.span.start ≤ piece.span.stop
  apart : pieces.Pairwise fun first second => first.span.stop ≤ second.span.start

section InOrder

variable {source : List Char} {piece : Piece} {pieces rest : List Piece}

theorem InOrder.suffix (inOrder : InOrder source pieces) (suffix : rest <:+ pieces) :
    InOrder source rest where
  stand := fun piece member => inOrder.stand piece (suffix.subset member)
  forward := fun piece member => inOrder.forward piece (suffix.subset member)
  apart := inOrder.apart.sublist suffix.sublist

/-- What follows a piece begins where the piece ends, or behind. -/
theorem InOrder.stop_le (inOrder : InOrder source (piece :: pieces)) (suffix : rest <:+ pieces) :
    piece.span.stop ≤ startOf (byteCount source) rest := by
  cases rest with
  | nil => exact (inOrder.stand piece List.mem_cons_self).2.le
  | cons next rest =>
      exact (List.pairwise_cons.1 inOrder.apart).1 next (suffix.subset List.mem_cons_self)

theorem InOrder.startOf_le (inOrder : InOrder source pieces) (suffix : rest <:+ pieces) :
    startOf (byteCount source) pieces ≤ startOf (byteCount source) rest := by
  cases pieces with
  | nil =>
      obtain rfl := List.suffix_nil.1 suffix
      exact Nat.le_refl _
  | cons piece pieces =>
      rcases List.suffix_cons_iff.1 suffix with rfl | later
      · exact Nat.le_refl _
      · exact Nat.le_trans (inOrder.forward piece List.mem_cons_self) (inOrder.stop_le later)

theorem InOrder.onBoundary_startOf (inOrder : InOrder source pieces) :
    OnBoundary source (startOf (byteCount source) pieces) := by
  cases pieces with
  | nil => exact ⟨source, [], (List.append_nil source).symm, rfl⟩
  | cons piece pieces => exact (inOrder.stand piece List.mem_cons_self).1

private theorem map_span_ofLexemesBehind (previous : Option Lexeme) (lexemes : List Lexeme) :
    (Piece.ofLexemesBehind previous lexemes).map Piece.span = lexemes.map Lexeme.span := by
  induction lexemes generalizing previous with
  | nil => rfl
  | cons lexeme lexemes inductionHypothesis =>
      simp only [Piece.ofLexemesBehind, List.map_cons, inductionHypothesis]

theorem inOrder_ofText (source : List Char) : InOrder source (Piece.ofText source) := by
  have spans := map_span_ofLexemesBehind none (Lexeme.ofText source)
  have tiled := Lexeme.tiled_ofTextAt 0 source
  constructor
  · exact fun piece member => stands_of_mem member
  · intro piece member
    have listed : piece.span ∈ (Lexeme.ofText source).map Lexeme.span :=
      spans ▸ List.mem_map_of_mem member
    obtain ⟨lexeme, inside, same⟩ := List.mem_map.1 listed
    rw [← same]
    exact Nat.le_of_lt (tiled.nonempty lexeme (List.mem_append_left _ inside)
      (Lexeme.token_ne_endOfInput inside))
  · have apart : ((Lexeme.ofText source).map Lexeme.span).Pairwise
        fun first second => first.stop ≤ second.start :=
      List.pairwise_map.2 (tiled.ordered.2.sublist (List.sublist_append_left _ _))
    rw [← spans] at apart
    exact List.pairwise_map.1 apart

end InOrder

/-! ## Items one behind the other -/

/-- The span has its ends in the source, and a style rule its selector inside the span. -/
structure Placed (source : List Char) (kind : Kind) (span : Span) : Prop where
  forward : span.start ≤ span.stop
  start : OnBoundary source span.start
  stop : OnBoundary source span.stop
  selector : ∀ style, kind = .rule style →
    OnBoundary source style.offset ∧
      slice source style.offset (style.offset + byteCount style.selector) = style.selector ∧
      span.start ≤ style.offset ∧ style.offset + byteCount style.selector ≤ span.stop

/-- The items stand one behind the other between two places of the source, and stand at most so many
levels deep. -/
inductive LaidOut (source : List Char) : Nat → Nat → Nat → List Item → Prop
  | nil {levels start stop : Nat} : LaidOut source levels start stop []
  | cons {levels start stop : Nat} {kind : Kind} {span : Span} {inside items : List Item}
      (own : Placed source kind span) (after : start ≤ span.start) (before : span.stop ≤ stop)
      (within : LaidOut source levels span.start span.stop inside)
      (later : LaidOut source (levels + 1) span.stop stop items) :
      LaidOut source (levels + 1) start stop (⟨kind, span, inside⟩ :: items)

namespace LaidOut

variable {source : List Char} {levels start middle stop : Nat}

theorem mono {items : List Item} (laid : LaidOut source levels start stop items)
    {outerStart outerStop : Nat} (after : outerStart ≤ start) (before : stop ≤ outerStop) :
    LaidOut source levels outerStart outerStop items := by
  induction laid generalizing outerStart with
  | nil => exact .nil
  | cons own after_ before_ within _ _ inductionHypothesis =>
      exact .cons own (Nat.le_trans after after_) (Nat.le_trans before_ before) within
        (inductionHypothesis (Nat.le_refl _) before)

theorem append {left right : List Item} (first : LaidOut source levels start middle left)
    (second : LaidOut source levels middle stop right) (early : start ≤ middle)
    (late : middle ≤ stop) : LaidOut source levels start stop (left ++ right) := by
  induction first with
  | nil => exact second.mono early (Nat.le_refl _)
  | cons own after before within _ _ inductionHypothesis =>
      exact .cons own after (Nat.le_trans before late) within
        (inductionHypothesis second before late)

end LaidOut

/-! ## Reading -/

/-- What was read of the pieces leaves an end of them, and its items stand in front of that end. -/
structure Sound (source : List Char) (levels : Nat) (pieces : List Piece) (contents : Contents) :
    Prop where
  rest : contents.rest <:+ pieces
  laid : LaidOut source levels (startOf (byteCount source) pieces)
    (startOf (byteCount source) contents.rest) contents.items

/-- A block of these pieces ends between them, behind what it holds. -/
structure SoundBlock (source : List Char) (levels : Nat) (pieces : List Piece) (block : Block) :
    Prop where
  rest : block.rest <:+ pieces
  boundary : OnBoundary source block.stop
  laid : LaidOut source levels (startOf (byteCount source) pieces) block.stop block.items
  start : startOf (byteCount source) pieces ≤ block.stop
  stop : block.stop ≤ startOf (byteCount source) block.rest

/-- The contents of blocks are read soundly, up to the brace that closes the block or to the end
of the text. -/
def ReadsSoundly (source : List Char) (levels : Nat) (inner : Option BlockReader) : Prop :=
  ∀ pieces, InOrder source pieces →
    Sound source levels pieces (readBlockContents inner pieces) ∧
      HeadIs Piece.closesBlock (readBlockContents inner pieces).rest

section Items

variable {source : List Char} {levels : Nat} {inner : Option BlockReader} {piece : Piece}
  {pieces rest : List Piece}

private theorem onBoundary_end (source : List Char) : OnBoundary source (byteCount source) :=
  ⟨source, [], (List.append_nil source).symm, rfl⟩

theorem ReadsSoundly.readBlock (reads : ReadsSoundly source levels inner)
    (inOrder : InOrder source pieces) :
    SoundBlock source levels pieces (readBlock inner (byteCount source) pieces) := by
  obtain ⟨sound, closes⟩ := reads pieces inOrder
  rw [Sheet.readBlock]
  generalize readBlockContents inner pieces = contents at sound closes ⊢
  obtain ⟨items, notices, behind⟩ := contents
  have ahead := inOrder.startOf_le sound.rest
  cases behind with
  | nil => exact ⟨List.nil_suffix, onBoundary_end source, sound.laid, ahead, Nat.le_refl _⟩
  | cons closer rest =>
      have stands := (inOrder.suffix sound.rest).stand closer List.mem_cons_self
      have forward := (inOrder.suffix sound.rest).forward closer List.mem_cons_self
      simp only [endBlock, closes closer rfl, if_true]
      exact ⟨(List.suffix_cons closer rest).trans sound.rest, stands.2,
        sound.laid.mono (Nat.le_refl _) forward, Nat.le_trans ahead forward,
        (inOrder.suffix sound.rest).stop_le (List.suffix_refl rest)⟩

/-- An item without a block that ends in front of what is left. -/
private theorem sound_line (inOrder : InOrder source (piece :: pieces)) {kind : Kind}
    (lacks : ∀ style, kind ≠ .rule style) {stop : Nat} (boundary : OnBoundary source stop)
    (forward : piece.span.start ≤ stop) (before : stop ≤ startOf (byteCount source) rest)
    (notices : List Notice) (suffix : rest <:+ piece :: pieces) :
    Sound source (levels + 1) (piece :: pieces)
      (.ofItem (some ⟨kind, ⟨piece.span.start, stop⟩, []⟩) notices rest) where
  rest := suffix
  laid := .cons ⟨forward, (inOrder.stand piece List.mem_cons_self).1, boundary,
    fun style same => absurd same (lacks style)⟩ (Nat.le_refl _) before .nil .nil

/-- An item with a block behind its first pieces. -/
private theorem sound_block (inOrder : InOrder source (piece :: pieces)) {kind : Kind}
    {block : Block} (sound : SoundBlock source levels rest block) (suffix : rest <:+ pieces)
    (selector : ∀ style, kind = .rule style →
      OnBoundary source style.offset ∧
        slice source style.offset (style.offset + byteCount style.selector) = style.selector ∧
        piece.span.start ≤ style.offset ∧
        style.offset + byteCount style.selector ≤ startOf (byteCount source) rest) :
    Sound source (levels + 1) (piece :: pieces)
      (.ofItem (some ⟨kind, ⟨piece.span.start, block.stop⟩, block.items⟩) block.notices
        block.rest) := by
  have around : piece.span.start ≤ startOf (byteCount source) rest :=
    inOrder.startOf_le (suffix.trans (List.suffix_cons piece pieces))
  refine ⟨(sound.rest.trans suffix).trans (List.suffix_cons piece pieces),
    .cons ⟨Nat.le_trans around sound.start, (inOrder.stand piece List.mem_cons_self).1,
      sound.boundary, fun style same => ?_⟩ (Nat.le_refl _) sound.stop
      (sound.laid.mono around (Nat.le_refl _)) .nil⟩
  obtain ⟨boundary, written, after, before⟩ := selector style same
  exact ⟨boundary, written, after, Nat.le_trans before sound.start⟩

/-- Nothing was found in front of what is left. -/
private theorem sound_nothing (notices : List Notice) (suffix : rest <:+ pieces) :
    Sound source levels pieces (.ofItem none notices rest) :=
  ⟨suffix, .nil⟩

theorem sound_readAtRule (reads : ReadsSoundly source levels inner)
    (inOrder : InOrder source (piece :: pieces)) (name : List Char) :
    Sound source (levels + 1) (piece :: pieces) (readAtRule inner source name piece pieces) := by
  have suffix := suffix_skipTo endsAtRule pieces
  have forward := inOrder.forward piece List.mem_cons_self
  simp only [readAtRule]
  cases found : skipTo endsAtRule pieces with
  | nil =>
      exact sound_line inOrder (by simp) (onBoundary_end source)
        (inOrder.stand piece List.mem_cons_self).1.le (Nat.le_refl _) _ List.nil_suffix
  | cons last rest =>
      rw [found] at suffix
      have behind : rest <:+ pieces := (List.suffix_cons last rest).trans suffix
      have later := inOrder.suffix (suffix.trans (List.suffix_cons piece pieces))
      have before : piece.span.start ≤ last.span.start :=
        Nat.le_trans forward (inOrder.stop_le suffix)
      simp only
      split
      · exact sound_line inOrder (by simp) (later.stand last List.mem_cons_self).2
          (Nat.le_trans before (later.forward last List.mem_cons_self))
          (later.stop_le (List.suffix_refl rest)) _
          (behind.trans (List.suffix_cons piece pieces))
      · split
        · exact sound_block inOrder (reads.readBlock (later.suffix (List.suffix_cons last rest)))
            behind (by simp)
        · exact sound_line inOrder (by simp) (later.stand last List.mem_cons_self).1 before
            (Nat.le_refl _) _ (suffix.trans (List.suffix_cons piece pieces))

theorem sound_readDeclaration (inOrder : InOrder source (piece :: pieces)) :
    Sound source (levels + 1) (piece :: pieces) (readDeclaration source piece pieces) := by
  have suffix := suffix_skipTo endsName (piece :: pieces)
  unfold readDeclaration
  split
  · exact sound_nothing _ List.nil_suffix
  · rename_i colon value found
    rw [found] at suffix
    split
    · have ofValue := suffix_skipTo endsValue value
      simp only
      cases foundValue : skipTo endsValue value with
      | nil =>
          exact sound_line inOrder (by simp) (onBoundary_end source)
            (inOrder.stand piece List.mem_cons_self).1.le (Nat.le_refl _) _ List.nil_suffix
      | cons last rest =>
          rw [foundValue] at ofValue
          have behind : last :: rest <:+ piece :: pieces :=
            (ofValue.trans (List.suffix_cons colon value)).trans suffix
          have later := inOrder.suffix behind
          have before : piece.span.start ≤ last.span.start := inOrder.startOf_le behind
          simp only
          split
          · exact sound_line inOrder (by simp) (later.stand last List.mem_cons_self).2
              (Nat.le_trans before (later.forward last List.mem_cons_self))
              (later.stop_le (List.suffix_refl rest)) _
              ((List.suffix_cons last rest).trans behind)
          · exact sound_line inOrder (by simp) (later.stand last List.mem_cons_self).1 before
              (Nat.le_refl _) _ behind
    · exact sound_nothing _ suffix

/-- A trimmed part of the source stands behind the white space at the beginning of the part. -/
private theorem trim_slice {start stop : Nat} (first : OnBoundary source start)
    (second : OnBoundary source stop) (forward : start ≤ stop) :
    let part := slice source start stop
    let offset := start + (byteCount part - byteCount (trimStart part))
    OnBoundary source offset ∧ slice source offset (offset + byteCount (trim part)) = trim part ∧
      start ≤ offset ∧ offset + byteCount (trim part) ≤ stop := by
  intro part offset
  obtain ⟨left, right, split, start_, stop_⟩ := exists_slice first second forward
  obtain ⟨early, late, parts, trimmed, -⟩ := exists_trim part
  have sizes := congrArg byteCount parts
  have size : byteCount part - byteCount (trimStart part) = byteCount early := by
    rw [trimmed, sizes, byteCount_append early, Nat.add_sub_cancel_right]
  have place : offset = byteCount (left ++ early) := by
    rw [byteCount_append, start_, ← size]
  have whole : source = (left ++ early) ++ (trim part ++ (late ++ right)) := by
    calc
      source = left ++ (part ++ right) := split
      _ = left ++ ((early ++ (trim part ++ late)) ++ right) := by rw [← parts]
      _ = (left ++ early) ++ (trim part ++ (late ++ right)) := by simp only [List.append_assoc]
  have written := slice_part (left ++ early) (trim part) (late ++ right)
  rw [← whole, ← place] at written
  refine ⟨⟨left ++ early, _, whole, place.symm⟩, written, Nat.le_add_right _ _, ?_⟩
  simp only [byteCount_append] at sizes place
  have total : start + byteCount part = stop := stop_
  omega

theorem sound_readRule (reads : ReadsSoundly source levels inner)
    (inOrder : InOrder source (piece :: pieces)) :
    Sound source (levels + 1) (piece :: pieces) (readRule inner source piece pieces) := by
  have suffix := suffix_skipTo Piece.opensBlock (piece :: pieces)
  unfold readRule
  split
  · exact sound_nothing _ List.nil_suffix
  · rename_i brace rest found
    rw [found] at suffix
    have later := inOrder.suffix suffix
    have behind : rest <:+ pieces := by
      rcases List.suffix_cons_iff.1 suffix with same | inside
      · exact (List.cons.inj same).2 ▸ List.suffix_refl rest
      · exact (List.suffix_cons brace rest).trans inside
    refine sound_block inOrder (reads.readBlock (later.suffix (List.suffix_cons brace rest))) behind
      ?_
    rintro _ ⟨⟩
    obtain ⟨boundary, written, after, before⟩ :=
      trim_slice (inOrder.stand piece List.mem_cons_self).1
        (later.stand brace List.mem_cons_self).1 (inOrder.startOf_le suffix)
    have opened : brace.span.start ≤ startOf (byteCount source) rest :=
      Nat.le_trans (later.forward brace List.mem_cons_self) (later.stop_le (List.suffix_refl rest))
    exact ⟨boundary, written, after, Nat.le_trans before opened⟩

theorem sound_readItem (reads : ReadsSoundly source levels inner)
    (inOrder : InOrder source (piece :: pieces)) :
    Sound source (levels + 1) (piece :: pieces) (readItem inner source piece pieces) := by
  unfold readItem
  split
  · exact sound_readAtRule reads inOrder _
  · split
    · exact sound_readRule reads inOrder
    · exact sound_readDeclaration inOrder

theorem sound_readItems (reads : ReadsSoundly source levels inner) (inBlock : Bool)
    (pieces : List Piece) (inOrder : InOrder source pieces) :
    Sound source (levels + 1) pieces (readItems inner source inBlock pieces) := by
  -- What is passed over in front of contents only moves their beginning.
  have skipped : ∀ {piece : Piece} {pieces : List Piece} {contents : Contents} {notices},
      InOrder source (piece :: pieces) → Sound source (levels + 1) pieces contents →
      Sound source (levels + 1) (piece :: pieces) (contents.prepend [] notices) :=
    fun {piece pieces _ _} inOrder sound =>
      ⟨sound.rest.trans (List.suffix_cons piece pieces),
        sound.laid.mono (inOrder.startOf_le (List.suffix_cons piece pieces)) (Nat.le_refl _)⟩
  fun_induction readItems inner source inBlock pieces with
  | case1 => exact ⟨List.suffix_refl _, .nil⟩
  | case2 piece pieces _ inductionHypothesis =>
      exact @skipped _ _ _ [] inOrder
        (inductionHypothesis (inOrder.suffix (List.suffix_cons piece pieces)))
  | case3 => exact ⟨List.suffix_refl _, .nil⟩
  | case4 piece pieces _ _ _ inductionHypothesis =>
      exact skipped inOrder
        (inductionHypothesis (inOrder.suffix (List.suffix_cons piece pieces)))
  | case5 piece pieces _ _ first inductionHypothesis =>
      have sound := sound_readItem reads inOrder
      have ahead := inOrder.suffix sound.rest
      have later := inductionHypothesis ahead
      exact ⟨later.rest.trans sound.rest,
        sound.laid.append later.laid (inOrder.startOf_le sound.rest)
          (ahead.startOf_le later.rest)⟩

theorem headIs_readItems (inner : Option BlockReader) (source : List Char)
    (pieces : List Piece) :
    HeadIs Piece.closesBlock (readItems inner source true pieces).rest := by
  generalize nested : true = inBlock
  fun_induction readItems inner source inBlock pieces with
  | case1 =>
      intro piece member
      cases member
  | case2 piece pieces _ inductionHypothesis => exact inductionHypothesis
  | case3 piece pieces _ closes =>
      rintro _ ⟨⟩
      exact closes
  | case4 piece pieces _ _ outside => exact absurd nested.symm outside
  | case5 piece pieces _ _ first inductionHypothesis => exact inductionHypothesis

end Items

theorem readsSoundly_blockReader (source : List Char) (levels : Nat) :
    ReadsSoundly source levels (blockReader source levels) := by
  induction levels with
  | zero =>
      -- No block is entered here: its pieces are passed over, and it holds nothing.
      intro pieces _
      refine ⟨⟨suffix_blockEnd .curly [] pieces, .nil⟩, headIs_blockEnd [] .curly pieces ?_⟩
      rintro _ ⟨⟩
      rfl
  | succ levels inductionHypothesis =>
      exact fun pieces inOrder =>
        ⟨sound_readItems inductionHypothesis true pieces inOrder, headIs_readItems _ source pieces⟩

/-- The items of a text stand in it one behind the other, at most one level deeper than blocks may
stand inside each other. -/
theorem laidOut_contents (source : List Char) :
    LaidOut source (maxNesting + 1) 0 (byteCount source) (contents source).items := by
  have inOrder := inOrder_ofText source
  have sound := sound_readItems (readsSoundly_blockReader source maxNesting) false
    (Piece.ofText source) inOrder
  exact sound.laid.mono (Nat.zero_le _) (inOrder.suffix sound.rest).onBoundary_startOf.le

/-! ## Rules that fit -/

/-- The rule and its selector end within so many bytes. -/
def Occurrence.Fits (size : Nat) (occurrence : Occurrence) : Prop :=
  occurrence.start ≤ size ∧
    occurrence.style.offset + byteCount occurrence.style.selector ≤ size

/-- Every style rule of the forest stands in the source with its selector. -/
theorem LaidOut.placed {source : List Char} {levels start stop : Nat} {items : List Item}
    (laid : LaidOut source levels start stop items) (above : List Kind) :
    ∀ occurrence ∈ occurrencesIn above items,
      ∃ span, Placed source (.rule occurrence.style) span ∧ span.start = occurrence.start := by
  induction laid generalizing above with
  | nil =>
      intro occurrence member
      cases member
  | @cons levels start stop kind span inside items own _ _ _ _ ofInside ofLater =>
      intro occurrence member
      rw [occurrencesIn] at member
      rcases List.mem_append.1 member with here | later
      · cases kind with
        | rule style =>
            rcases List.mem_cons.1 here with rfl | below
            · exact ⟨span, own, rfl⟩
            · exact ofInside _ occurrence below
        | root => exact ofInside _ occurrence here
        | atRule header => exact ofInside _ occurrence here
        | declaration declaration => exact ofInside _ occurrence here
      · exact ofLater above occurrence later

theorem LaidOut.fits {source : List Char} {levels start stop : Nat} {items : List Item}
    (laid : LaidOut source levels start stop items) (above : List Kind) :
    ∀ occurrence ∈ occurrencesIn above items, occurrence.Fits (byteCount source) := by
  intro occurrence member
  obtain ⟨span, own, first⟩ := laid.placed above occurrence member
  obtain ⟨_, _, _, before⟩ := own.selector _ rfl
  exact ⟨first ▸ own.start.le, Nat.le_trans before own.stop.le⟩

end CssLint.Sheet
