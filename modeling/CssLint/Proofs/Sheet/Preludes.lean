import CssLint.Proofs.Sheet.Braces
import CssLint.Proofs.Sheet.Heads
import CssLint.Proofs.Sheet.Steps

/-!
# Preludes of style rules

The prelude of a style rule is the text from where the rule begins up to the brace of its
block.  Every style rule of a text, however deep it stands, begins with a piece of the
text from which the search for a brace leads to its block, and its selector is the trimmed
prelude.
-/

namespace CssLint.Sheet

open Text

/-- The text from a rule that begins at `start` up to the brace of its block. -/
def preludeAt (source : List Char) (start : Nat) : List Char :=
  let pieces := (Piece.ofText source).dropWhile fun piece => piece.span.start < start
  slice source start (startOf (byteCount source) (skipTo Piece.opensBlock pieces))

/-- The style rule begins with a piece of the source, and its selector ends in front of the brace
that a search from there finds. -/
structure Begins (source : List Char) (occurrence : Occurrence) (piece brace : Piece)
    (pieces rest : List Piece) : Prop where
  suffix : piece :: pieces <:+ Piece.ofText source
  found : skipTo Piece.opensBlock (piece :: pieces) = brace :: rest
  start : occurrence.start = piece.span.start
  style : occurrence.style = styleBetween source piece.span.start brace.span.start

/-- All style rules of the forest begin with pieces of the source. -/
def AllBegin (source : List Char) (items : List Item) : Prop :=
  ∀ above, ∀ occurrence ∈ occurrencesIn above items,
    ∃ piece brace pieces rest, Begins source occurrence piece brace pieces rest

variable {source : List Char}

/-! ## Places -/

/-- The pieces from one on are those that begin where it does, or later. -/
theorem dropWhile_start {piece : Piece} {pieces : List Piece}
    (suffix : piece :: pieces <:+ Piece.ofText source) :
    ((Piece.ofText source).dropWhile fun other => other.span.start < piece.span.start) =
      piece :: pieces := by
  obtain ⟨front, whole⟩ := suffix
  have apart := (inOrder_ofText source).apart
  rw [← whole, List.pairwise_append] at apart
  have earlier : ∀ other ∈ front, decide (other.span.start < piece.span.start) = true := by
    intro other member
    have known : other ∈ Piece.ofText source := whole ▸ List.mem_append_left _ member
    have forward := Piece.start_lt_stop known
    have before := apart.2.2 other member piece List.mem_cons_self
    exact decide_eq_true (Nat.lt_of_lt_of_le forward before)
  rw [← whole, List.dropWhile_append_of_pos earlier,
    List.dropWhile_cons_of_neg (by simp)]

section Begins

variable {occurrence : Occurrence} {piece brace : Piece} {pieces rest : List Piece}
  (begins : Begins source occurrence piece brace pieces rest)

include begins

theorem Begins.prelude_eq :
    preludeAt source occurrence.start = slice source piece.span.start brace.span.start := by
  rw [preludeAt, begins.start, dropWhile_start begins.suffix, begins.found]
  rfl

/-- The selector of a style rule is its trimmed prelude. -/
theorem Begins.selector_eq :
    occurrence.style.selector = trim (preludeAt source occurrence.start) := by
  rw [begins.prelude_eq, begins.style]
  rfl

/-- The prelude stands in the source where the rule begins, in front of the brace. -/
theorem Begins.exists_split :
    ∃ left more, source = left ++ (preludeAt source occurrence.start ++ '\x7b' :: more) ∧
      byteCount left = occurrence.start := by
  have ofBrace : brace :: rest <:+ piece :: pieces :=
    begins.found ▸ suffix_skipTo Piece.opensBlock (piece :: pieces)
  have opens : brace.opensBlock = true := by
    have head := headIs_skipTo Piece.opensBlock (piece :: pieces)
    rw [begins.found] at head
    exact head brace rfl
  have inOrder := (inOrder_ofText source).suffix begins.suffix
  have known : brace ∈ Piece.ofText source :=
    begins.suffix.subset (ofBrace.subset List.mem_cons_self)
  obtain ⟨front, more, braced, size⟩ := Piece.exists_brace known (token_of_opensBlock opens)
  obtain ⟨left, right, whole, start, stop⟩ :=
    exists_slice (inOrder.stand piece List.mem_cons_self).1 (stands_of_mem known).1
      (inOrder.startOf_le ofBrace)
  refine ⟨left, more, ?_, start.trans begins.start.symm⟩
  have ends : byteCount (left ++ slice source piece.span.start brace.span.start) =
      byteCount front := by
    rw [byteCount_append, start, size, stop]
  have same : (left ++ slice source piece.span.start brace.span.start) ++ right =
      front ++ '\x7b' :: more := by
    rw [List.append_assoc, ← whole, braced]
  rw [begins.prelude_eq, ← (append_inj_of_byteCount same ends).2]
  exact whole

end Begins

/-! ## Forests -/

namespace AllBegin

theorem nil : AllBegin source [] :=
  fun _ _ member => nomatch member

theorem append {left right : List Item} (first : AllBegin source left)
    (second : AllBegin source right) : AllBegin source (left ++ right) := by
  intro above occurrence member
  rw [occurrencesIn_append] at member
  exact (List.mem_append.1 member).elim (first above occurrence) (second above occurrence)

/-- An item that is no style rule, in front of what its block holds. -/
theorem other {kind : Kind} {span : Span} {inside : List Item}
    (lacks : ∀ style, kind ≠ .rule style) (within : AllBegin source inside) :
    AllBegin source [⟨kind, span, inside⟩] := by
  intro above occurrence member
  rw [occurrencesIn, occurrencesIn, List.append_nil] at member
  cases kind with
  | rule style => exact absurd rfl (lacks style)
  | root => exact within _ occurrence member
  | atRule header => exact within _ occurrence member
  | declaration declaration => exact within _ occurrence member

theorem rule {piece brace : Piece} {pieces rest : List Piece} {stop : Nat} {inside : List Item}
    (suffix : piece :: pieces <:+ Piece.ofText source)
    (found : skipTo Piece.opensBlock (piece :: pieces) = brace :: rest)
    (within : AllBegin source inside) :
    AllBegin source [⟨.rule (styleBetween source piece.span.start brace.span.start),
      ⟨piece.span.start, stop⟩, inside⟩] := by
  intro above occurrence member
  rw [occurrencesIn, occurrencesIn, List.append_nil] at member
  rcases List.mem_cons.1 member with same | below
  · subst same
    exact ⟨piece, brace, pieces, rest, suffix, found, rfl, rfl⟩
  · exact within _ occurrence below

end AllBegin

/-! ## Reading -/

section Items

variable {levels : Nat} {piece : Piece} {pieces : List Piece}

/-- An at-rule without a block holds no style rules. -/
private theorem allBegin_readAtRule {inner : Option BlockReader} {name : List Char}
    (noBlock : ∀ last ∈ (skipTo endsAtRule pieces).head?, last.opensBlock = false) :
    AllBegin source (readAtRule inner source name piece pieces).items := by
  rw [readAtRule.eq_def]
  cases found : skipTo endsAtRule pieces with
  | nil => exact .other (by simp) .nil
  | cons last rest =>
      have closed := noBlock last (by rw [found]; rfl)
      dsimp only
      split
      · exact .other (by simp) .nil
      · rw [if_neg (by simp [closed])]
        exact .other (by simp) .nil

private theorem allBegin_readDeclaration :
    AllBegin source (readDeclaration source piece pieces).items := by
  rw [readDeclaration.eq_def]
  split
  · exact .nil
  · split
    · dsimp only
      split
      · exact .other (by simp) .nil
      · split
        · exact .other (by simp) .nil
        · exact .other (by simp) .nil
    · exact .nil

/-- The style rules of an item begin with pieces if those of its block do. -/
theorem allBegin_readItem {inner : Option BlockReader}
    (reads : ∀ rest, rest <:+ Piece.ofText source →
      AllBegin source (readBlockContents inner rest).items)
    (suffix : piece :: pieces <:+ Piece.ofText source) :
    AllBegin source (readItem inner source piece pieces).items := by
  rw [readItem_eq]
  apply ItemHead.ofPieces_cases (motive := fun head =>
    AllBegin source (head.complete (byteCount source) (readBlockContents inner)).items)
  case line => exact fun name _ noBlock => allBegin_readAtRule noBlock
  case declaration => exact fun _ => allBegin_readDeclaration
  case dropped => exact fun _ _ => .nil
  case atRule =>
    intro name brace rest _ found _
    have behind : brace :: rest <:+ pieces := found ▸ suffix_skipTo endsAtRule pieces
    have inside := reads rest
      (((List.suffix_cons brace rest).trans behind).trans
        ((List.suffix_cons piece pieces).trans suffix))
    rw [← items_endBlock (byteCount source)] at inside
    exact .other (by simp) inside
  case rule =>
    intro brace rest _ found
    have behind : brace :: rest <:+ piece :: pieces :=
      found ▸ suffix_skipTo Piece.opensBlock (piece :: pieces)
    have inside := reads rest (((List.suffix_cons brace rest).trans behind).trans suffix)
    rw [← items_endBlock (byteCount source)] at inside
    exact .rule suffix found inside

theorem allBegin_readItems
    (reads : ∀ rest, rest <:+ Piece.ofText source →
      AllBegin source (readBlockContents (blockReader source levels) rest).items)
    (nested : Bool) (suffix : pieces <:+ Piece.ofText source) :
    AllBegin source (readItems (blockReader source levels) source nested pieces).items := by
  fun_induction readItems (blockReader source levels) source nested pieces with
  | case1 => exact .nil
  | case2 piece pieces _ inductionHypothesis =>
      exact inductionHypothesis ((List.suffix_cons piece pieces).trans suffix)
  | case3 => exact .nil
  | case4 piece pieces _ _ _ inductionHypothesis =>
      exact inductionHypothesis ((List.suffix_cons piece pieces).trans suffix)
  | case5 piece pieces _ _ first inductionHypothesis =>
      have sound := sound_readItem (readsSoundly_blockReader source levels)
        ((inOrder_ofText source).suffix suffix)
      exact (allBegin_readItem reads suffix).append
        (inductionHypothesis (sound.rest.trans suffix))

end Items

theorem allBegin_readBlockContents (levels : Nat) (pieces : List Piece)
    (suffix : pieces <:+ Piece.ofText source) :
    AllBegin source (readBlockContents (blockReader source levels) pieces).items := by
  induction levels generalizing pieces with
  | zero => exact .nil
  | succ levels inductionHypothesis => exact allBegin_readItems inductionHypothesis true suffix

/-- Every style rule of a text begins with a piece of the text. -/
theorem allBegin_contents (source : List Char) : AllBegin source (contents source).items :=
  allBegin_readItems (allBegin_readBlockContents maxNesting) false (List.suffix_refl _)

end CssLint.Sheet
