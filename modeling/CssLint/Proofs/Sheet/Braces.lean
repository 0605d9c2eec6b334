import CssLint.Proofs.Sheet.AlikeForests

/-!
# Braces of rules

Where the block of a style rule begins: at a brace of the text, behind the selector and
the white space around it.  A rule of which it is known where its selector stands, in
front of a space and a brace, has its block at that brace.
-/

namespace CssLint.Sheet

open Text

/-! ## Pieces -/

section Pieces

variable {source : List Char}

/-- A brace of the sheet is a brace of the text. -/
theorem Piece.exists_brace {brace : Piece} (member : brace ∈ Piece.ofText source)
    (curly : brace.token = .opening .curly) :
    ∃ front more, source = front ++ '\x7b' :: more ∧ byteCount front = brace.span.start := by
  obtain ⟨lexeme, inside, token, span⟩ := Piece.exists_lexeme member
  have ofStart : lexeme ∈ Lexeme.ofTextAt (byteCount []) source := inside
  obtain ⟨front, c, more, joined, rfl⟩ := Lexeme.exists_read ofStart
  have punctuation : Token.ofPunctuation? '\x7b' = some (Token.read c more).1 := by
    rw [show (Token.read c more).1 = _ from token.trans curly]
    rfl
  obtain rfl := (Token.eq_of_read_punctuation punctuation).1
  exact ⟨front, more, joined, congrArg Span.start span⟩

theorem Piece.start_lt_stop {piece : Piece} (member : piece ∈ Piece.ofText source) :
    piece.span.start < piece.span.stop := by
  obtain ⟨lexeme, inside, -, span⟩ := Piece.exists_lexeme member
  rw [← span]
  exact (Lexeme.tiled_ofTextAt 0 source).nonempty lexeme (List.mem_append_left _ inside)
    (Lexeme.token_ne_endOfInput inside)

/-- What follows a piece of the text is known from where the piece begins. -/
theorem eq_of_suffix_of_start {piece other : Piece} {rest more : List Piece}
    (first : piece :: rest <:+ Piece.ofText source) (second : other :: more <:+ Piece.ofText source)
    (same : piece.span.start = other.span.start) : rest = more := by
  have inside : ∀ {piece other : Piece} {rest more : List Piece},
      other :: more <:+ Piece.ofText source → piece.span.start = other.span.start →
      piece :: rest <:+ other :: more → rest = more := by
    intro piece other rest more here same suffix
    rcases List.suffix_cons_iff.1 suffix with whole | later
    · exact (List.cons.inj whole).2
    · have apart := (List.pairwise_cons.1 ((inOrder_ofText source).suffix here).apart).1 piece
        (later.subset List.mem_cons_self)
      have wide := Piece.start_lt_stop (here.subset List.mem_cons_self)
      omega
  rcases List.suffix_or_suffix_of_suffix first second with shorter | longer
  · exact inside second same shorter
  · exact (inside first same.symm longer).symm

end Pieces

/-! ## Selectors in front of braces -/

variable {source : List Char}

/-- The source around a style rule, whose selector stands between white space. -/
theorem exists_styleBetween {start stop : Nat} (first : OnBoundary source start)
    (second : OnBoundary source stop) (ordered : start ≤ stop) :
    let style := styleBetween source start stop
    ∃ left early late right, slice source start stop = early ++ (style.selector ++ late) ∧
      source = left ++ (slice source start stop ++ right) ∧ byteCount left = start ∧
      byteCount (left ++ early) = style.offset ∧
      byteCount (left ++ slice source start stop) = stop ∧
      (∀ c ∈ early, isSpace c = true) ∧ ∀ c ∈ late, isSpace c = true := by
  intro style
  obtain ⟨left, right, whole, start_, stop_⟩ := exists_slice first second ordered
  obtain ⟨early, late, parts, trimmed, spaceEarly, spaceLate⟩ :=
    exists_trim (slice source start stop)
  refine ⟨left, early, late, right, parts, whole, start_, ?_, ?_, spaceEarly, spaceLate⟩
  · have sizes := congrArg byteCount parts
    rw [byteCount_append early] at sizes
    rw [byteCount_append, start_]
    simp only [style, styleBetween]
    rw [trimmed, sizes, Nat.add_sub_cancel_right]
  · rw [byteCount_append, start_, stop_]

/-- A rule whose selector is known to stand in front of a brace has its block there. -/
theorem brace_of_styleBetween {front selector rest : List Char}
    (whole : source = front ++ (selector ++ ' ' :: '\x7b' :: rest)) {start stop : Nat}
    (first : OnBoundary source start) (ordered : start ≤ stop)
    (brace : ∃ left more, source = left ++ '\x7b' :: more ∧ byteCount left = stop)
    (same : styleBetween source start stop = ⟨selector, byteCount front⟩) :
    stop = byteCount (front ++ selector) + 1 ∧
      ∃ left early, front = left ++ early ∧ byteCount left = start ∧
        ∀ c ∈ early, isSpace c = true := by
  obtain ⟨ahead, more, braced, size⟩ := brace
  have second : OnBoundary source stop := ⟨ahead, _, braced, size⟩
  obtain ⟨left, early, late, right, part, joined, start_, offset, stop_, spaceEarly, spaceLate⟩ :=
    exists_styleBetween first second ordered
  rw [same] at part offset
  simp only at part offset
  rw [part] at joined stop_
  have fronts : left ++ early = front := by
    have wholes : (left ++ early) ++ (selector ++ (late ++ right)) =
        front ++ (selector ++ ' ' :: '\x7b' :: rest) := by
      rw [← whole, joined]
      simp only [List.append_assoc]
    exact (append_inj_of_byteCount wholes offset).1
  have behind : late ++ right = ' ' :: '\x7b' :: rest := by
    have wholes : (front ++ selector) ++ (late ++ right) =
        (front ++ selector) ++ ' ' :: '\x7b' :: rest := by
      rw [List.append_assoc front, List.append_assoc front, ← whole, joined, ← fronts]
      simp only [List.append_assoc]
    exact List.append_cancel_left wholes
  have aheads : right = '\x7b' :: more := by
    have wholes : (left ++ (early ++ (selector ++ late))) ++ right = ahead ++ '\x7b' :: more := by
      rw [← braced, joined, List.append_assoc]
    exact (append_inj_of_byteCount wholes (stop_.trans size.symm)).2
  refine ⟨?_, left, early, fronts.symm, start_, spaceEarly⟩
  obtain rfl : late = [' '] := by
    subst aheads
    cases late with
    | nil => cases behind
    | cons c late =>
        obtain ⟨rfl, later⟩ := List.cons.inj behind
        cases late with
        | nil => rfl
        | cons d late =>
            obtain ⟨rfl, -⟩ := List.cons.inj later
            have space := spaceLate _ (List.mem_cons_of_mem _ List.mem_cons_self)
            cases space
  have blank : byteCount [' '] = 1 := rfl
  rw [← stop_, ← fronts]
  simp only [byteCount_append, blank]
  omega

/-! ## Rules of a forest -/

/-- The style rule is found in the forest. -/
def HoldsRule (rule : StyleRule) (items : List Item) : Prop :=
  ∃ above, ∃ occurrence ∈ occurrencesIn above items, occurrence.style = rule

section HoldsRule

variable {rule : StyleRule} {source other : List Char} {levels start stop : Nat}
  {items items' : List Item}

theorem HoldsRule.cases {kind : Kind} {span : Span} {inside : List Item}
    (holds : HoldsRule rule (⟨kind, span, inside⟩ :: items)) :
    kind = .rule rule ∨ HoldsRule rule inside ∨ HoldsRule rule items := by
  obtain ⟨above, occurrence, member, rfl⟩ := holds
  rw [occurrencesIn] at member
  rcases List.mem_append.1 member with here | later
  · cases kind with
    | rule style =>
        rcases List.mem_cons.1 here with rfl | below
        · exact Or.inl rfl
        · exact Or.inr (Or.inl ⟨_, occurrence, below, rfl⟩)
    | root => exact Or.inr (Or.inl ⟨_, occurrence, here, rfl⟩)
    | atRule header => exact Or.inr (Or.inl ⟨_, occurrence, here, rfl⟩)
    | declaration declaration => exact Or.inr (Or.inl ⟨_, occurrence, here, rfl⟩)
  · exact Or.inr (Or.inr ⟨above, occurrence, later, rfl⟩)

theorem HoldsRule.ne_nil (holds : HoldsRule rule items) : items ≠ [] := by
  rintro rfl
  obtain ⟨above, occurrence, member, -⟩ := holds
  cases member

theorem LaidOut.start_le_offset (laid : LaidOut source levels start stop items)
    (holds : HoldsRule rule items) : start ≤ rule.offset := by
  induction laid with
  | nil => exact absurd rfl holds.ne_nil
  | cons own after before _ _ ofInside ofLater =>
      have forward := own.forward
      rcases holds.cases with rfl | inside | later
      · exact Nat.le_trans after (own.selector rule rfl).2.2.1
      · exact Nat.le_trans after (ofInside inside)
      · exact Nat.le_trans (Nat.le_trans after forward) (ofLater later)

theorem LaidOut.start_from (laid : LaidOut source levels start stop items) {early : Nat}
    (behind : ∀ item ∈ items, early ≤ item.span.start) :
    LaidOut source levels early stop items := by
  cases laid with
  | nil => exact .nil
  | cons own after before within later =>
      exact .cons own (behind _ List.mem_cons_self) before within later

end HoldsRule

/-- A block begins behind the first piece in front of it. -/
theorem HeadMatches.start_le {source other : List Char} {first first' brace brace' : Piece}
    {kind kind' : Kind} (own : HeadMatches source other first first' brace brace' kind kind')
    (known : first ∈ Piece.ofText source) : first.span.start ≤ brace.span.start := by
  cases own with
  | rule ahead => exact ahead
  | atRule _ ahead => exact Nat.le_trans (Nat.le_of_lt (Piece.start_lt_stop known)) ahead

/-- A rule of the forest begins with a piece, and its block with a brace. -/
theorem ItemsMatch.exists_head {same : Piece → Piece → Prop} {source other : List Char}
    {items items' : List Item} (matches_ : ItemsMatch same source other items items')
    {rule : StyleRule} (holds : HoldsRule rule items) :
    ∃ first first' brace brace' rest kind, first ∈ Piece.ofText source ∧
      brace :: rest <:+ Piece.ofText source ∧ brace.token = .opening .curly ∧
      HeadMatches source other first first' brace brace' (.rule rule) kind := by
  induction matches_ with
  | nil => exact absurd rfl holds.ne_nil
  | line own _ inductionHypothesis =>
      rcases holds.cases with rfl | inside | later
      · cases own
      · exact absurd rfl inside.ne_nil
      · exact inductionHypothesis later
  | block _ _ _ curly known own followed _ _ _ _ _ ofWithin ofLater =>
      rcases holds.cases with rfl | inside | later
      · exact ⟨_, _, _, _, _, _, known, followed, curly, own⟩
      · exact ofWithin inside
      · exact ofLater later

theorem Matching.refl (pieces : List Piece) :
    Matching (fun piece changed => changed = piece) pieces pieces := by
  induction pieces with
  | nil => exact .nil
  | cons piece pieces inductionHypothesis => exact .cons rfl inductionHypothesis

/-- A rule of a text begins with a piece of the text, and its block with a brace. -/
theorem exists_head_of_holdsRule {source : List Char} {rule : StyleRule}
    (holds : HoldsRule rule (contents source).items) :
    ∃ first first' brace brace' rest kind, first ∈ Piece.ofText source ∧
      brace :: rest <:+ Piece.ofText source ∧ brace.token = .opening .curly ∧
      HeadMatches source source first first' brace brace' (.rule rule) kind :=
  (contents_matching
    ⟨fun same => congrArg Piece.token same, fun same => congrArg Piece.opensHole same⟩
    (Matching.refl (Piece.ofText source))).exists_head holds

/-- The selector of a rule has no white space at its ends. -/
theorem HoldsRule.bare {source : List Char} {rule : StyleRule}
    (holds : HoldsRule rule (contents source).items) (some : rule.selector ≠ []) :
    BareStart rule.selector ∧ BareEnd rule.selector := by
  obtain ⟨first, _, brace, _, _, _, _, _, _, own⟩ := exists_head_of_holdsRule holds
  generalize written : Kind.rule rule = kind at own
  cases own with
  | rule =>
      obtain rfl := Kind.rule.inj written
      exact bare_trim some
  | atRule => cases written

/-! ## Blocks -/

section Blocks

variable {front selector tail : List Char} {same : Piece → Piece → Prop} {other : List Char}
  {levels start stop : Nat} {items items' : List Item}

/-- A rule whose selector stands in front of a space and a brace has its block there. -/
theorem HeadMatches.brace_start {first first' brace brace' : Piece} {rest : List Piece}
    {kind : Kind} (own : HeadMatches (front ++ selector ++ ' ' :: '\x7b' :: tail) other first first' brace brace'
      (.rule ⟨selector, byteCount front⟩) kind)
    (known : first ∈ Piece.ofText (front ++ selector ++ ' ' :: '\x7b' :: tail))
    (followed : brace :: rest <:+ Piece.ofText (front ++ selector ++ ' ' :: '\x7b' :: tail))
    (curly : brace.token = .opening .curly) :
    brace.span.start = byteCount (front ++ selector) + 1 ∧
      ∃ left early, front = left ++ early ∧ byteCount left = first.span.start ∧
        ∀ c ∈ early, isSpace c = true := by
  generalize written : Kind.rule ⟨selector, byteCount front⟩ = rule at own
  cases own with
  | rule ahead =>
      exact brace_of_styleBetween (List.append_assoc ..) (stands_of_mem known).1 ahead
        (Piece.exists_brace (followed.subset List.mem_cons_self) curly)
        (Kind.rule.inj written).symm
  | atRule => cases written

/-- The block of the rule ends inside the forest. -/
theorem ItemsMatch.lt_stop
    (matches_ : ItemsMatch same (front ++ selector ++ ' ' :: '\x7b' :: tail) other items items')
    (laid : LaidOut (front ++ selector ++ ' ' :: '\x7b' :: tail) levels start stop items)
    (holds : HoldsRule ⟨selector, byteCount front⟩ items) :
    byteCount (front ++ selector) + 1 < stop := by
  induction matches_ generalizing levels start stop with
  | nil => exact absurd rfl holds.ne_nil
  | line own _ inductionHypothesis =>
      cases laid with
      | cons _ _ _ _ ofLater =>
          rcases holds.cases with rfl | inside | later
          · cases own
          · exact absurd rfl inside.ne_nil
          · exact inductionHypothesis ofLater later
  | @block _ _ brace _ _ _ _ _ _ _ _ _ _ begins opens solid curly known own followed hollow before
      behind _ _ ofWithin ofLater =>
      cases laid with
      | cons _ _ within laidInside laidLater =>
          rcases holds.cases with rfl | inside | later
          · obtain ⟨place, -⟩ := own.brace_start known followed curly
            have wide := Piece.start_lt_stop (followed.subset List.mem_cons_self)
            simp only at within
            omega
          · exact Nat.lt_of_lt_of_le (ofWithin laidInside inside) within
          · exact ofLater laidLater later

end Blocks

end CssLint.Sheet
