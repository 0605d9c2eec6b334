import CssLint.Proofs.Selector.PlainEntries
import CssLint.Proofs.Sheet.PlainItems
import CssLint.Proofs.Token.Tiles

/-!
# Rules of plain texts

A plain prelude and a block are read as a rule with the items of the block: its
selector is the text of the prelude, and it begins where the prelude does.
-/

namespace CssLint

open Text

namespace Sheet

open Selector.Written

/-! ## Preludes -/

variable {levels : Nat}

/-- A prelude with the blank characters behind it. -/
def headText (prelude_ : Prelude (Argument levels)) (after : Blanks) : List Char :=
  prelude_.text (Argument.form levels) ++ after.text

theorem trim_headText (prelude_ : Prelude (Argument levels)) (after : Blanks) :
    trim (headText prelude_ after) = prelude_.text (Argument.form levels) ∧
      trimStart (headText prelude_ after) = headText prelude_ after := by
  have bareStart := prelude_.bareStart (Argument.form levels)
  have nothing : ∀ c ∈ ([] : List Char), isSpace c = true := by simp
  have trimmed := trim_append_append nothing after.isSpace bareStart
    (prelude_.bareEnd (Argument.form levels))
  exact ⟨trimmed, trimStart_eq_self (bareStart.append after.text)⟩

theorem isSelectorChar_headText {prelude_ : Prelude (Argument levels)}
    (plain : prelude_.IsPlain (Argument.IsPlain levels)) (after : Blanks) :
    ∀ c ∈ headText prelude_ after, isSelectorChar c = true :=
  spreading_isSelectorChar.append _ _ (inert_prelude plain).chars
    (spreading_isSelectorChar.blanks after)

theorem not_isDigit_of_isSelectorChar {c : Char} (selects : isSelectorChar c = true) :
    c.isDigit = false := by
  have signs : ∀ c ∈ selectorSigns, c.isDigit = false := List.all_iff_forall_prop.1 (by decide)
  have blanks : ∀ c ∈ ['\n', '\t', ' ', '\r', '\x0c'], c.isDigit = false :=
    List.all_iff_forall_prop.1 (by decide)
  simp only [isSelectorChar, Bool.or_eq_true, List.contains_iff_mem] at selects
  rcases selects with (alpha | blank) | sign
  · exact not_isDigit_of_isAlpha alpha
  · exact blanks c (mem_of_isBlank blank)
  · exact signs c sign

theorem noDigit_headText {prelude_ : Prelude (Argument levels)}
    (plain : prelude_.IsPlain (Argument.IsPlain levels)) (after : Blanks) :
    NoDigit (headText prelude_ after) :=
  fun c member => not_isDigit_of_isSelectorChar (isSelectorChar_headText plain after c member)

theorem readsQuiet_headText {prelude_ : Prelude (Argument levels)}
    (plain : prelude_.IsPlain (Argument.IsPlain levels)) (after : Blanks) (body : List Char) :
    Reads Token.isQuiet (headText prelude_ after) ('\x7b' :: body) := by
  have ends : EndsName ('\x7b' :: body) := endsName_cons (by decide) body
  apply Reads.append
  · exact readsQuiet_prelude (readsArguments levels) plain (endsName_blanks after ends)
  · exact .blanks after (endsBlanks_cons (by decide) body)

/-! ## Rules -/

/-- Where a plain prelude begins, so does the first of its pieces, and a brace follows the last. -/
private theorem pieces_headText {prelude_ : Prelude (Argument levels)}
    (plain : prelude_.IsPlain (Argument.IsPlain levels)) (after : Blanks) {body : List Char}
    (noDigit : NoDigit body) (offset : Nat) :
    ∃ piece pieces, piecesAt offset (headText prelude_ after ++ '\x7b' :: body) =
        piece :: (pieces ++ ⟨.opening .curly, ⟨offset + byteCount (headText prelude_ after),
          offset + byteCount (headText prelude_ after) + byteCount ['\x7b']⟩, false⟩ ::
          piecesAt (offset + byteCount (headText prelude_ after) + byteCount ['\x7b']) body) ∧
      Consists Token.isQuiet (piece :: pieces) ∧ piece.span.start = offset ∧
      piece.token ≠ .whitespace := by
  have digits : NoDigit (headText prelude_ after ++ '\x7b' :: body) := by
    intro c member
    rcases List.mem_append.1 member with ofHead | behind
    · exact noDigit_headText plain after c ofHead
    · rcases List.mem_cons.1 behind with rfl | ofBody
      · decide
      · exact noDigit c ofBody
  obtain ⟨pieces, same, consists⟩ := readsQuiet_headText plain after body digits offset
  rw [piecesAt_punctuation rfl] at same
  obtain ⟨c, more, head, notSpace⟩ := (prelude_.bareStart (Argument.form levels)).append after.text
  have head : headText prelude_ after = c :: more := head
  have notSlash : c ≠ '/' := by
    rintro rfl
    have selects := isSelectorChar_headText plain after '/' (by simp [head])
    exact absurd selects (by decide)
  have notBlank := not_isBlank_of_not_isSpace notSpace
  have first : ∃ stop rest, piecesAt offset (headText prelude_ after ++ '\x7b' :: body) =
      ⟨(Token.read c (more ++ '\x7b' :: body)).1, ⟨offset, stop⟩, false⟩ :: rest := by
    rw [head, List.cons_append, piecesAt, Lexeme.ofTextAt_cons notSlash]
    exact ⟨_, _, rfl⟩
  obtain ⟨stop, rest, begins⟩ := first
  cases pieces with
  | nil =>
      have starts := congrArg (fun list => (list.head?.map fun piece => piece.span.start))
        (begins.symm.trans same)
      have positive := Char.utf8Size_pos c
      simp only [head, byteCount_cons, List.head?_cons, Option.map_some, List.nil_append,
        Option.some.injEq] at starts
      omega
  | cons piece pieces =>
      have equal := (List.cons.inj (begins.symm.trans same)).1
      refine ⟨piece, pieces, same, consists, ?_, ?_⟩
      · rw [← equal]
      · rw [← equal]
        exact Token.read_ne_whitespace notBlank _

/-- A plain prelude in front of a block is read as a rule with the contents of the block. -/
theorem readItems_rule {prelude_ : Prelude (Argument levels)}
    (plain : prelude_.IsPlain (Argument.IsPlain levels)) (after : Blanks)
    {front body : List Char} (noDigit : NoDigit body) {inner : Option BlockReader}
    (nested : Bool) {items : List Item} {notices : List Notice} {closer : Piece}
    {rest : List Piece} (closes : closer.token = .closing .curly)
    (block : readBlockContents inner (piecesAt (byteCount front +
      byteCount (headText prelude_ after) + byteCount ['\x7b']) body) =
        ⟨items, notices, closer :: rest⟩)
    {source : List Char} (written : source = front ++ (headText prelude_ after ++ '\x7b' :: body)) :
    readItems inner source nested
        (piecesAt (byteCount front) (headText prelude_ after ++ '\x7b' :: body)) =
      (readItems inner source nested rest).prepend
        [⟨.rule ⟨prelude_.text (Argument.form levels), byteCount front⟩,
          ⟨byteCount front, closer.span.stop⟩, items⟩] notices := by
  obtain ⟨piece, pieces, same, consists, start, notBlank⟩ :=
    pieces_headText plain after noDigit (byteCount front)
  have quiet := consists.all piece List.mem_cons_self
  obtain ⟨_, notClosing, _⟩ := passes_of_isQuiet quiet
  obtain ⟨noKeyword, notCustom, notFiller⟩ := begins_of_isQuiet quiet notBlank
  let brace : Piece := ⟨.opening .curly, ⟨byteCount front + byteCount (headText prelude_ after),
    byteCount front + byteCount (headText prelude_ after) + byteCount ['\x7b']⟩, false⟩
  let behind := piecesAt (byteCount front + byteCount (headText prelude_ after) +
    byteCount ['\x7b']) body
  have opens : brace.opensBlock = true := rfl
  obtain ⟨ahead, found⟩ := passes_of_quiet consists.nested consists.all (brace :: behind)
  have starts : startsRule piece (pieces ++ brace :: behind) = true := by
    have opening : opensBlockWithin 0 (piece :: (pieces ++ brace :: behind)) = true := by
      refine ahead.trans ?_
      simp [opensBlockWithin, opens]
    rw [startsRule, opening, isCustomProperty, notCustom]
    rfl
  have search : skipTo Piece.opensBlock (piece :: (pieces ++ brace :: behind)) =
      brace :: behind := by
    refine found.trans ?_
    rw [skipTo, opens, if_pos rfl]
  have text : slice source (byteCount front) brace.span.start = headText prelude_ after := by
    rw [written]
    exact slice_part front _ _
  obtain ⟨trimmed, begins⟩ := trim_headText prelude_ after
  have read : readItem inner source piece (pieces ++ brace :: behind) =
      ⟨[⟨.rule ⟨prelude_.text (Argument.form levels), byteCount front⟩,
        ⟨byteCount front, closer.span.stop⟩, items⟩], notices, rest⟩ := by
    rw [readItem_of_not_atKeyword noKeyword, if_pos starts, readRule, search]
    simp only [start, text, trimmed, begins, Nat.sub_self, Nat.add_zero, behind,
      readBlock_of_closing closes block, Contents.ofItem, Option.toList_some]
  rw [same]
  exact readItems_item (notFiller nested) notClosing read

end Sheet

end CssLint
