import CssLint.Proofs.Sheet.Nested
import CssLint.Proofs.Text.Places

/-!
# Items of a segment

A segment is a well-nested run of pieces up to a semicolon, a closing brace or the
end of the text.  What is read of a segment depends neither on what follows it nor
on the text behind its last piece; only where an item that the segment leaves open
ends is decided there.
-/

namespace CssLint.Sheet

open Text

/-! ## Texts and places -/

/-- The piece begins and ends between characters of the text. -/
def Stands (base : List Char) (piece : Piece) : Prop :=
  OnBoundary base piece.span.start ∧ OnBoundary base piece.span.stop

theorem textBetween_append {base : List Char} {start stop : Nat} (boundary : OnBoundary base start)
    (within : stop ≤ byteCount base) (more : List Char) :
    textBetween (base ++ more) start stop = textBetween base start stop := by
  rw [textBetween, textBetween, slice_append boundary within]

/-- A segment of the source ends at `place`, in front of `rest`. -/
structure SegmentEnd (place : Nat) (source : List Char) (rest : List Piece) : Prop where
  head : HeadIs endsValue rest
  start : startOf (byteCount source) rest = place

/-- Where an item ends that is open at `place`, and what follows it: a semicolon belongs to the
item. -/
def closeItem (place : Nat) : List Piece → Nat × List Piece
  | [] => (place, [])
  | last :: rest => if last.isSemicolon then (last.span.stop, rest) else (place, last :: rest)

/-- Whether a node is one that no block follows: a declaration, or an at-rule without a block. -/
def Kind.lacksBlock : Kind → Bool
  | .atRule header => !header.hasBlock
  | .declaration _ => true
  | _ => false

/-- What the reader of items makes of the beginning of a segment: contents that are closed inside
it with the pieces that follow them, or an item without a block that the segment leaves open. -/
inductive Outcome where
  | closed (items : List Item) (notices : List Notice) (later : List Piece)
  | unclosed (kind : Kind) (start : Nat)

namespace Outcome

def contents (place : Nat) (rest : List Piece) : Outcome → Contents
  | closed items notices later => ⟨items, notices, later ++ rest⟩
  | unclosed kind start =>
      ⟨[⟨kind, ⟨start, (closeItem place rest).1⟩, []⟩], [], (closeItem place rest).2⟩

/-- What follows the outcome is a segment again and stands in the given pieces; only items without
a block are left open. -/
def Within (pieces : List Piece) : Outcome → Prop
  | closed _ _ later => Nested later ∧ later <:+ pieces
  | unclosed kind _ => kind.lacksBlock = true

end Outcome

/-! ## Blocks -/

/-- Whole blocks are read alike whatever follows them, in the pieces and in the text. -/
def ReadsBlocks (base : List Char) (inner : List Char → Option BlockReader) : Prop :=
  ∀ inside closer, Nested inside → closer.token = .closing .curly →
    (∀ piece ∈ inside, Stands base piece) → Stands base closer →
    ∃ items notices, ∀ more rest,
      readBlockContents (inner (base ++ more)) (inside ++ closer :: rest) =
        ⟨items, notices, closer :: rest⟩

theorem closesBlock_of_closing {piece : Piece} (closes : piece.token = .closing .curly) :
    piece.closesBlock = true := by
  simp [Piece.closesBlock, closes]

theorem ReadsBlocks.readBlock {base : List Char} {inner : List Char → Option BlockReader}
    (reads : ReadsBlocks base inner) {inside : List Piece} {closer : Piece}
    (nested : Nested inside) (closes : closer.token = .closing .curly)
    (stand : ∀ piece ∈ inside, Stands base piece) (stands : Stands base closer) :
    ∃ items notices, ∀ more stop rest,
      readBlock (inner (base ++ more)) stop (inside ++ closer :: rest) =
        ⟨items, notices, closer.span.stop, rest⟩ := by
  obtain ⟨items, notices, read⟩ := reads inside closer nested closes stand stands
  refine ⟨items, notices, fun more stop rest => ?_⟩
  simp only [Sheet.readBlock, read, endBlock, closesBlock_of_closing closes, if_true]

/-! ## At-rules -/

section Items

variable {base : List Char} {inner : List Char → Option BlockReader} {place : Nat}
  {pieces : List Piece} {piece : Piece}

private theorem headIs_of_imp {property other : Piece → Bool} {rest : List Piece}
    (imp : ∀ piece, property piece = true → other piece = true) (head : HeadIs property rest) :
    HeadIs other rest :=
  fun piece member => imp piece (head piece member)

private theorem not_isSemicolon_of_closesBlock {piece : Piece} (closes : piece.closesBlock = true) :
    piece.isSemicolon = false ∧ piece.opensBlock = false ∧ piece.isColon = false := by
  simp only [Piece.closesBlock, beq_iff_eq] at closes
  simp [Piece.isSemicolon, Piece.opensBlock, Piece.isColon, closes]

private theorem opensBlock_of_isSemicolon {piece : Piece} (semicolon : piece.isSemicolon = true) :
    piece.opensBlock = false ∧ piece.isColon = false := by
  simp only [Piece.isSemicolon, beq_iff_eq] at semicolon
  simp [Piece.opensBlock, Piece.isColon, semicolon]

/-- A well-nested run does not begin with a closing brace. -/
theorem not_closesBlock_of_nested (nested : Nested (piece :: pieces)) :
    piece.closesBlock = false := by
  cases nested with
  | plain _ notClosing _ =>
      cases closes : piece.closesBlock with
      | false => rfl
      | true =>
          simp only [Piece.closesBlock, beq_iff_eq] at closes
          rw [closes] at notClosing
          cases notClosing
  | block opens _ _ _ =>
      cases closes : piece.closesBlock with
      | false => rfl
      | true =>
          simp only [Piece.closesBlock, beq_iff_eq] at closes
          rw [closes] at opens
          cases opens

private theorem nested_of_not_opening (nested : Nested (piece :: pieces))
    (notOpening : piece.token.opens? = none) : Nested pieces := by
  cases nested with
  | plain _ _ later => exact later
  | block opens _ _ _ =>
      rw [notOpening] at opens
      cases opens

private theorem opens?_of_isSemicolon {piece : Piece} (semicolon : piece.isSemicolon = true) :
    piece.token.opens? = none := by
  simp only [Piece.isSemicolon, beq_iff_eq] at semicolon
  rw [semicolon]
  rfl

/-- A brace at the beginning of a well-nested run has its block. -/
private theorem exists_block (nested : Nested (piece :: pieces)) (opens : piece.opensBlock = true) :
    ∃ inside closer later, pieces = inside ++ closer :: later ∧ Nested inside ∧
      closer.token = .closing .curly ∧ Nested later := by
  simp only [Piece.opensBlock, Bool.and_eq_true, beq_iff_eq] at opens
  cases nested with
  | plain notOpening _ _ =>
      rw [opens.1] at notOpening
      cases notOpening
  | block opens' nested closes later =>
      rw [opens.1] at opens'
      cases opens'
      exact ⟨_, _, _, rfl, nested, closes, later⟩

theorem readAtRule_append (reads : ReadsBlocks base inner) (nested : Nested pieces)
    (stand : ∀ other ∈ pieces, Stands base other) (stands : Stands base piece)
    (within : place ≤ byteCount base) (name : List Char) :
    ∃ outcome : Outcome, outcome.Within pieces ∧
      ∀ more rest, SegmentEnd place (base ++ more) rest →
        readAtRule (inner (base ++ more)) (base ++ more) name piece (pieces ++ rest) =
          outcome.contents place rest := by
  obtain ⟨found, nestedFound, suffix, head, skips⟩ := skipTo_append nested endsAtRule
  have ends : ∀ other, endsValue other = true → endsAtRule other = true := by
    intro other ending
    simp only [endsValue] at ending
    simp [endsAtRule, ending]
  have skips : ∀ more rest, SegmentEnd place (base ++ more) rest →
      skipTo endsAtRule (pieces ++ rest) = found ++ rest :=
    fun more rest ending => skips rest (headIs_of_imp ends ending.head)
  cases found with
  | nil =>
      refine ⟨.unclosed (.atRule ⟨name, textBetween base piece.span.stop place, false⟩)
        piece.span.start, rfl, fun more rest ending => ?_⟩
      have text := textBetween_append stands.2 within more
      simp only [readAtRule, skips more rest ending, List.nil_append, ending.start, text,
        Outcome.contents]
      cases rest with
      | nil => rfl
      | cons last rest =>
          have last_ := ending.head last rfl
          by_cases semicolon : last.isSemicolon = true
          · simp [Contents.ofItem, closeItem, semicolon]
          · simp only [endsValue, semicolon, Bool.false_or] at last_
            have notBlock := (not_isSemicolon_of_closesBlock last_).2.1
            simp [Contents.ofItem, closeItem, semicolon, notBlock]
  | cons last later =>
      have standing : ∀ other ∈ last :: later, Stands base other :=
        fun other member => stand other (suffix.subset member)
      have standsLast := standing last List.mem_cons_self
      have text := textBetween_append stands.2 standsLast.1.le
      have ending := head last rfl
      have notClosing := not_closesBlock_of_nested nestedFound
      by_cases semicolon : last.isSemicolon = true
      · refine ⟨.closed
          [⟨.atRule ⟨name, textBetween base piece.span.stop last.span.start, false⟩,
            ⟨piece.span.start, last.span.stop⟩, []⟩] [] later,
          ⟨nested_of_not_opening nestedFound (opens?_of_isSemicolon semicolon),
            (List.suffix_cons _ _).trans suffix⟩, fun more rest ending => ?_⟩
        simp [readAtRule, skips more rest ending, startOf, text, semicolon, Contents.ofItem,
          Outcome.contents]
      · have opens : last.opensBlock = true := by
          simpa [endsAtRule, semicolon, notClosing] using ending
        obtain ⟨inside, closer, behind, rfl, nestedInside, closes, nestedBehind⟩ :=
          exists_block nestedFound opens
        obtain ⟨items, notices, block⟩ := reads.readBlock nestedInside closes
          (fun other member => standing other (by simp [member])) (standing closer (by simp))
        have ofBlock : behind <:+ last :: (inside ++ closer :: behind) :=
          ⟨last :: (inside ++ [closer]), by simp⟩
        refine ⟨.closed
          [⟨.atRule ⟨name, textBetween base piece.span.stop last.span.start, true⟩,
            ⟨piece.span.start, closer.span.stop⟩, items⟩] notices behind,
          ⟨nestedBehind, ofBlock.trans suffix⟩, fun more rest ending => ?_⟩
        simp [readAtRule, skips more rest ending, startOf, text, semicolon, opens, block,
          Contents.ofItem, Outcome.contents]

/-! ## Rules and declarations -/

private theorem tail_suffix_tail {α : Type} {first second : α} {left right : List α}
    (suffix : first :: left <:+ second :: right) : left <:+ right := by
  rcases List.suffix_cons_iff.1 suffix with same | later
  · cases same
    exact List.suffix_refl _
  · exact (List.suffix_cons _ _).trans later

theorem readDeclaration_append (nested : Nested (piece :: pieces))
    (stand : ∀ other ∈ piece :: pieces, Stands base other)
    (goesOn : endsValue piece = false) (within : place ≤ byteCount base) :
    ∃ outcome : Outcome, outcome.Within pieces ∧
      ∀ more rest, SegmentEnd place (base ++ more) rest →
        readDeclaration (base ++ more) piece (pieces ++ rest) = outcome.contents place rest := by
  have stands := stand piece List.mem_cons_self
  have ends : ∀ other, endsValue other = true → endsName other = true := by
    intro other ending
    simp [endsName, ending]
  obtain ⟨found, nestedFound, suffix, head, skips⟩ := skipTo_append nested endsName
  have skips : ∀ more rest, SegmentEnd place (base ++ more) rest →
      skipTo endsName (piece :: (pieces ++ rest)) = found ++ rest :=
    fun more rest ending => skips rest (headIs_of_imp ends ending.head)
  cases found with
  | nil =>
      refine ⟨.closed [] [.invalidDeclaration] [], ⟨.nil, List.nil_suffix⟩,
        fun more rest ending => ?_⟩
      simp only [readDeclaration, skips more rest ending, List.nil_append]
      cases rest with
      | nil => rfl
      | cons last rest =>
          have notColon : last.isColon = false := by
            have last_ := ending.head last rfl
            simp only [endsValue, Bool.or_eq_true] at last_
            rcases last_ with semicolon | closing
            · exact (opensBlock_of_isSemicolon semicolon).2
            · exact (not_isSemicolon_of_closesBlock closing).2.2
          simp [notColon, Contents.ofItem, Outcome.contents]
  | cons last later =>
      have standing : ∀ other ∈ last :: later, Stands base other :=
        fun other member => stand other (suffix.subset member)
      have standsLast := standing last List.mem_cons_self
      have property := textBetween_append stands.1 standsLast.1.le
      have ending := head last rfl
      have notClosing := not_closesBlock_of_nested nestedFound
      by_cases colon : last.isColon = true
      · have notOpening : last.token.opens? = none := by
          simp only [Piece.isColon, beq_iff_eq] at colon
          rw [colon]
          rfl
        have nestedLater := nested_of_not_opening nestedFound notOpening
        have suffixLater := tail_suffix_tail suffix
        obtain ⟨value, nestedValue, suffixValue, headValue, skipsValue⟩ :=
          skipTo_append nestedLater endsValue
        cases value with
        | nil =>
            refine ⟨.unclosed
              (.declaration ⟨textBetween base piece.span.start last.span.start,
                textBetween base last.span.stop place⟩) piece.span.start,
              rfl, fun more rest ending => ?_⟩
            have text := textBetween_append standsLast.2 within more
            simp only [readDeclaration, skips more rest ending, List.cons_append, colon, if_true,
              skipsValue rest ending.head, List.nil_append, ending.start, property, text,
              Outcome.contents]
            cases rest with
            | nil => rfl
            | cons end_ rest =>
                by_cases semicolon : end_.isSemicolon = true
                · simp [Contents.ofItem, closeItem, semicolon]
                · simp [Contents.ofItem, closeItem, semicolon]
        | cons end_ behind =>
            have standsEnd : Stands base end_ :=
              standing end_ (List.mem_cons_of_mem _ (suffixValue.subset List.mem_cons_self))
            have semicolon : end_.isSemicolon = true := by
              simpa [endsValue, not_closesBlock_of_nested nestedValue] using headValue end_ rfl
            have text := textBetween_append standsLast.2 standsEnd.1.le
            refine ⟨.closed
              [⟨.declaration ⟨textBetween base piece.span.start last.span.start,
                  textBetween base last.span.stop end_.span.start⟩,
                ⟨piece.span.start, end_.span.stop⟩, []⟩] [] behind,
              ⟨nested_of_not_opening nestedValue (opens?_of_isSemicolon semicolon),
                ((List.suffix_cons _ _).trans suffixValue).trans suffixLater⟩,
              fun more rest ending => ?_⟩
            simp [readDeclaration, skips more rest ending, colon, skipsValue rest ending.head,
              startOf, property, text, semicolon, Contents.ofItem, Outcome.contents]
      · have semicolon : last.isSemicolon = true := by
          simpa [endsName, endsValue, colon, notClosing] using ending
        have behind : last :: later <:+ pieces := by
          rcases List.suffix_cons_iff.1 suffix with same | behind
          · cases same
            simp [endsValue, semicolon] at goesOn
          · exact behind
        refine ⟨.closed [] [.invalidDeclaration] (last :: later), ⟨nestedFound, behind⟩,
          fun more rest ending => ?_⟩
        simp [readDeclaration, skips more rest ending, colon, Contents.ofItem, Outcome.contents]

theorem readRule_append (reads : ReadsBlocks base inner)
    (stand : ∀ other ∈ piece :: pieces, Stands base other) {brace closer : Piece}
    {inside later : List Piece} (nested : Nested inside) (closes : closer.token = .closing .curly)
    (nestedLater : Nested later) (suffix : brace :: (inside ++ closer :: later) <:+ piece :: pieces)
    (skips : ∀ rest, skipTo Piece.opensBlock (piece :: (pieces ++ rest)) =
      brace :: (inside ++ closer :: (later ++ rest))) :
    ∃ outcome : Outcome, outcome.Within pieces ∧
      ∀ more rest, readRule (inner (base ++ more)) (base ++ more) piece (pieces ++ rest) =
        outcome.contents place rest := by
  have standing : ∀ other ∈ brace :: (inside ++ closer :: later), Stands base other :=
    fun other member => stand other (suffix.subset member)
  have stands := stand piece List.mem_cons_self
  have standsBrace := standing brace List.mem_cons_self
  have text := slice_append stands.1 standsBrace.1.le
  obtain ⟨items, notices, block⟩ := reads.readBlock nested closes
    (fun other member => standing other (by simp [member])) (standing closer (by simp))
  have ofBlock : later <:+ inside ++ closer :: later := ⟨inside ++ [closer], by simp⟩
  let prelude_ := slice base piece.span.start brace.span.start
  refine ⟨.closed
    [⟨.rule ⟨trim prelude_,
        piece.span.start + (byteCount prelude_ - byteCount (trimStart prelude_))⟩,
      ⟨piece.span.start, closer.span.stop⟩, items⟩] notices later,
    ⟨nestedLater, ofBlock.trans (tail_suffix_tail suffix)⟩, fun more rest => ?_⟩
  simp [readRule, skips rest, text, block, Contents.ofItem, Outcome.contents, prelude_]

/-! ## Items -/

theorem readItem_of_atKeyword {piece : Piece} {name : List Char}
    (keyword : piece.token = .atKeyword name) (inner : Option BlockReader) (source : List Char)
    (pieces : List Piece) :
    readItem inner source piece pieces = readAtRule inner source name piece pieces := by
  simp only [readItem, keyword]

theorem readItem_of_not_atKeyword {piece : Piece}
    (noKeyword : ∀ name, piece.token ≠ .atKeyword name) (inner : Option BlockReader)
    (source : List Char) (pieces : List Piece) :
    readItem inner source piece pieces =
      if startsRule piece pieces then readRule inner source piece pieces
      else readDeclaration source piece pieces := by
  unfold readItem
  split
  · rename_i name keyword
    exact absurd keyword (noKeyword name)
  · rfl

theorem readItem_append (reads : ReadsBlocks base inner) (nested : Nested (piece :: pieces))
    (stand : ∀ other ∈ piece :: pieces, Stands base other)
    (goesOn : endsValue piece = false) (within : place ≤ byteCount base) :
    ∃ outcome : Outcome, outcome.Within pieces ∧
      ∀ more rest, SegmentEnd place (base ++ more) rest →
        readItem (inner (base ++ more)) (base ++ more) piece (pieces ++ rest) =
          outcome.contents place rest := by
  by_cases keyword : ∃ name, piece.token = .atKeyword name
  · obtain ⟨name, keyword⟩ := keyword
    have notOpening : piece.token.opens? = none := by
      rw [keyword]
      rfl
    obtain ⟨outcome, inside, read⟩ := readAtRule_append reads
      (nested_of_not_opening nested notOpening)
      (fun other member => stand other (List.mem_cons_of_mem _ member))
      (stand piece List.mem_cons_self) within name
    exact ⟨outcome, inside, fun more rest ending =>
      (readItem_of_atKeyword keyword _ _ _).trans (read more rest ending)⟩
  · have noKeyword : ∀ name, piece.token ≠ .atKeyword name :=
      fun name same => keyword ⟨name, same⟩
    have step := readItem_of_not_atKeyword noKeyword
    have custom : ∀ rest, HeadIs endsValue rest →
        isCustomProperty piece (pieces ++ rest) = isCustomProperty piece pieces :=
      fun rest => isCustomProperty_append piece pieces
    obtain ⟨declaration, insideDeclaration, readDeclaration_⟩ :=
      readDeclaration_append nested stand goesOn within
    rcases opensBlockWithin_append nested with without | ⟨brace, inside, closer, later, _, nested',
      closes, nestedLater, suffix, found⟩
    · refine ⟨declaration, insideDeclaration, fun more rest ending => ?_⟩
      have starts : startsRule piece (pieces ++ rest) = false := by
        rw [startsRule, ← List.cons_append, without rest ending.head, Bool.and_false]
      rw [step, starts]
      exact readDeclaration_ more rest ending
    · by_cases isCustom : isCustomProperty piece pieces = true
      · refine ⟨declaration, insideDeclaration, fun more rest ending => ?_⟩
        have starts : startsRule piece (pieces ++ rest) = false := by
          rw [startsRule, custom rest ending.head, isCustom]
          rfl
        rw [step, starts]
        exact readDeclaration_ more rest ending
      · obtain ⟨rule, insideRule, readRule_⟩ := readRule_append reads stand nested' closes
          nestedLater suffix fun rest => (found rest).2
        refine ⟨rule, insideRule, fun more rest ending => ?_⟩
        have starts : startsRule piece (pieces ++ rest) = true := by
          rw [startsRule, custom rest ending.head, ← List.cons_append, (found rest).1]
          simp [isCustom]
        rw [step, starts]
        exact readRule_ more rest

/-! ## Segments -/

private theorem contents_prepend_prepend (contents : Contents) (first second : List Item)
    (early late : List Notice) :
    (contents.prepend second late).prepend first early =
      contents.prepend (first ++ second) (early ++ late) := by
  simp [Contents.prepend]

theorem nested_tail_of_isFiller {inBlock : Bool} (nested : Nested (piece :: pieces))
    (filler : isFiller inBlock piece = true) : Nested pieces := by
  apply nested_of_not_opening nested
  simp only [isFiller, Piece.isWhitespace, Piece.isSemicolon, Bool.or_eq_true, Bool.and_eq_true,
    beq_iff_eq] at filler
  rcases filler with (blank | semicolon) | ⟨_, opened | closed⟩
  · rw [blank]
    rfl
  · rw [semicolon]
    rfl
  · rw [opened]
    rfl
  · rw [closed]
    rfl

/-- The item without a block that a segment may leave open, ended at `stop`. -/
def unclosedItems (stop : Nat) (last : Option (Kind × Nat)) : List Item :=
  last.toList.map fun (kind, start) => ⟨kind, ⟨start, stop⟩, []⟩

/-- What a segment gives: contents, and an item that the pieces behind the segment end. -/
theorem readItems_append (reads : ReadsBlocks base inner) (nested : Nested pieces)
    (stand : ∀ other ∈ pieces, Stands base other) (within : place ≤ byteCount base)
    (inBlock : Bool) :
    ∃ (items : List Item) (last : Option (Kind × Nat)) (notices : List Notice),
      (∀ item ∈ last, item.1.lacksBlock = true) ∧
      ∀ more rest, SegmentEnd place (base ++ more) rest →
        readItems (inner (base ++ more)) (base ++ more) inBlock (pieces ++ rest) =
          (readItems (inner (base ++ more)) (base ++ more) inBlock
            (if last.isSome then (closeItem place rest).2 else rest)).prepend
            (items ++ unclosedItems (closeItem place rest).1 last) notices := by
  induction length : pieces.length using Nat.strongRecOn generalizing pieces with
  | ind size inductionHypothesis =>
      cases pieces with
      | nil => exact ⟨[], none, [], by simp, fun more rest _ => rfl⟩
      | cons piece pieces =>
          subst length
          have standLater : ∀ other ∈ pieces, Stands base other :=
            fun other member => stand other (List.mem_cons_of_mem _ member)
          by_cases filler : isFiller inBlock piece = true
          · obtain ⟨items, last, notices, lacks, read⟩ := inductionHypothesis _
              (Nat.lt_succ_self _) (nested_tail_of_isFiller nested filler) standLater rfl
            refine ⟨items, last, notices, lacks, fun more rest ending => ?_⟩
            rw [List.cons_append, readItems]
            simp only [filler, dite_true]
            exact read more rest ending
          · have notClosing := not_closesBlock_of_nested nested
            have goesOn : endsValue piece = false := by
              simp only [isFiller, Bool.or_eq_true, not_or, Bool.not_eq_true] at filler
              simp [endsValue, filler.1.2, notClosing]
            have step : ∀ more rest,
                readItems (inner (base ++ more)) (base ++ more) inBlock
                  (piece :: (pieces ++ rest)) =
                (readItems (inner (base ++ more)) (base ++ more) inBlock
                  (readItem (inner (base ++ more)) (base ++ more) piece
                    (pieces ++ rest)).rest).prepend
                  (readItem (inner (base ++ more)) (base ++ more) piece (pieces ++ rest)).items
                  (readItem (inner (base ++ more)) (base ++ more) piece
                    (pieces ++ rest)).notices := by
              intro more rest
              rw [readItems]
              simp [filler, notClosing]
            obtain ⟨outcome, inside, read⟩ := readItem_append reads nested stand goesOn within
            cases outcome with
            | unclosed kind start =>
                refine ⟨[], some (kind, start), [], ?_, fun more rest ending => ?_⟩
                · rintro _ ⟨⟩
                  exact inside
                · rw [List.cons_append, step, read more rest ending]
                  rfl
            | closed items notices later =>
                obtain ⟨nestedLater, suffix⟩ := inside
                have shorter : later.length < (piece :: pieces).length :=
                  Nat.lt_succ_of_le suffix.length_le
                obtain ⟨items', last, notices', lacks, read'⟩ :=
                  inductionHypothesis _ shorter nestedLater
                    (fun other member => standLater other (suffix.subset member)) rfl
                refine ⟨items ++ items', last, notices ++ notices', lacks,
                  fun more rest ending => ?_⟩
                rw [List.cons_append, step, read more rest ending]
                simp only [Outcome.contents]
                rw [read' more rest ending, contents_prepend_prepend, List.append_assoc]

end Items

/-! ## Ends of segments -/

theorem items_endBlock (stop : Nat) (contents : Contents) :
    (endBlock stop contents).items = contents.items := by
  unfold endBlock
  split
  · rfl
  · split <;> rfl

theorem readItems_nil (inner : Option BlockReader) (source : List Char) (inBlock : Bool) :
    readItems inner source inBlock [] = ⟨[], [], []⟩ := by
  rw [readItems]

theorem segmentEnd_nil (base : List Char) : SegmentEnd (byteCount base) (base ++ []) [] where
  head := by
    intro piece member
    cases member
  start := by rw [List.append_nil, startOf]

section Closing

variable {closer : Piece} (closes : closer.token = .closing .curly) (rest : List Piece)
include closes

theorem segmentEnd_closing (source : List Char) :
    SegmentEnd closer.span.start source (closer :: rest) :=
  ⟨by simp [HeadIs, endsValue, closesBlock_of_closing closes], rfl⟩

theorem closeItem_closing (place : Nat) :
    closeItem place (closer :: rest) = (place, closer :: rest) := by
  simp [closeItem, (not_isSemicolon_of_closesBlock (closesBlock_of_closing closes)).1]

/-- The contents of a block end in front of the brace that closes it. -/
theorem readItems_of_closing (inner : Option BlockReader) (source : List Char) :
    readItems inner source true (closer :: rest) = ⟨[], [], closer :: rest⟩ := by
  have notFiller : isFiller true closer = false := by
    simp [isFiller, Piece.isWhitespace, Piece.isSemicolon, closes]
  rw [readItems]
  simp [notFiller, closesBlock_of_closing closes]

end Closing

/-! ## Blocks of every depth -/

theorem readsBlocks_blockReader (base : List Char) (levels : Nat) :
    ReadsBlocks base fun source => blockReader source levels := by
  induction levels with
  | zero =>
      intro inside closer nested closes stand stands
      exact ⟨[], [.nestedTooDeeply], fun more rest => by
        simp only [readBlockContents, blockReader, blockEnd_closing nested closes]⟩
  | succ levels inductionHypothesis =>
      intro inside closer nested closes stand stands
      obtain ⟨items, last, notices, _, read⟩ :=
        readItems_append inductionHypothesis nested stand stands.1.le true
      refine ⟨items ++ unclosedItems closer.span.start last, notices, fun more rest => ?_⟩
      simp only [readBlockContents, blockReader]
      rw [read more (closer :: rest) (segmentEnd_closing closes rest _),
        closeItem_closing closes, ite_self, readItems_of_closing closes]
      simp [Contents.prepend]

end CssLint.Sheet
