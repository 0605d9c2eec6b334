import CssLint.Proofs.Selector.ChangeEntries
import CssLint.Proofs.Selector.ChangeStandard
import CssLint.Proofs.Sheet.AlikeForests
import CssLint.Proofs.Sheet.MatchingPieces
import CssLint.Proofs.Rule.Findings

/-!
# Style sheets with carriage returns

Where no escape takes a line feed, a carriage return in front of every line feed leaves
the tokens as they are.  So the items are the same, at the places that stand for theirs,
and the texts in front of the blocks get carriage returns like the source.
-/

namespace CssLint.Sheet

open Text
open Selector (Change callEnds entries escapesFeed not_mem_resolve resolve)

variable {source : List Char}

/-! ## Pieces -/

/-- The pieces of the longer text stand at the places that stand for those of the text. -/
theorem matching_lineEnds (spared : escapesFeed source = false) :
    Matching (Piece.Matches (lineEnds.Moves source)) (Piece.ofText source)
      (Piece.ofText (lineEnds.expand source)) := by
  have lexes : Lexeme.Lexes lineEnds source := by
    rcases Lexeme.lexes_or_takesBrace source with all | ⟨ends, -⟩
    · exact all lineEnds
    · exact ends lineEnds rfl
  have leaves : lineEnds.Leaves True source (lineEnds.expand source) :=
    ⟨⟨Or.inl rfl, Or.inr spared⟩, Or.inl (List.append_nil _).symm⟩
  obtain ⟨lexemes, found, alike⟩ := lexes [] (lineEnds.expand source) 0 leaves (Or.inl rfl)
    (Nat.zero_add _)
  have behind : Lexeme.ofTextAt (byteCount (lineEnds.expand ([] ++ source))) lineEnds.tail = [] :=
    Lexeme.ofTextAt_nil _
  rw [behind, List.append_nil] at found
  rw [← found] at alike
  exact matching_ofLexemesBehind Change.Moves.eq_iff alike .none

/-! ## Texts in front of blocks -/

/-- The same node, whose text is changed like the source around it. -/
inductive Expands (source : List Char) : Kind → Kind → Prop
  | rule {style other : StyleRule} (selector : other.selector = lineEnds.expand style.selector)
      (place : ∃ left right, source = left ++ (style.selector ++ right) ∧
        byteCount left = style.offset ∧ byteCount (lineEnds.expand left) = other.offset) :
      Expands source (.rule style) (.rule other)
  | atRule {header other : AtRule} (params : other.params = lineEnds.expand header.params)
      (part : header.params ⊆ source) : Expands source (.atRule header) (.atRule other)

theorem styleBetween_lineEnds {start changed stop otherChanged : Nat}
    (first : lineEnds.Moves source start changed)
    (second : lineEnds.Moves source stop otherChanged) :
    Expands source (.rule (styleBetween source start stop))
      (.rule (styleBetween (lineEnds.expand source) changed otherChanged)) := by
  obtain ⟨left, middle, right, same, here, there, part, changedPart⟩ := first.exists_slice second
  obtain ⟨early, late, parts, trimmed, -⟩ := exists_trim middle
  have size : byteCount middle - byteCount (trimStart middle) = byteCount early := by
    have sizes := congrArg byteCount parts
    rw [byteCount_append early] at sizes
    rw [trimmed, sizes, Nat.add_sub_cancel_right]
  have changedSize : byteCount (lineEnds.expand middle) -
      byteCount (trimStart (lineEnds.expand middle)) = byteCount (lineEnds.expand early) := by
    have sizes := congrArg (fun text => byteCount (lineEnds.expand text)) parts
    simp only [lineEnds.expand_append early, byteCount_append] at sizes
    rw [lineEnds.trimStart_expand, trimmed, sizes, Nat.add_sub_cancel_right]
  refine .rule ?_ ⟨left ++ early, late ++ right, ?_, ?_, ?_⟩
  · simp only [styleBetween, part, changedPart, lineEnds.trim_expand]
  · simp only [styleBetween, part]
    have whole : middle ++ right = early ++ (trim middle ++ (late ++ right)) := by
      rw [← List.append_assoc (trim middle), ← List.append_assoc early, ← parts]
    rw [same, whole, List.append_assoc]
  · simp only [styleBetween, part]
    rw [byteCount_append, here, size]
  · simp only [styleBetween, changedPart]
    rw [lineEnds.expand_append, byteCount_append, there, changedSize]

theorem HeadMatches.expands {first first' brace brace' : Piece} {kind kind' : Kind}
    (begins : Piece.Matches (lineEnds.Moves source) first first')
    (opens : Piece.Matches (lineEnds.Moves source) brace brace')
    (solid : first.token ≠ .whitespace) (curly : brace.token = .opening .curly)
    (own : HeadMatches source (lineEnds.expand source) first first' brace brace' kind kind') :
    SameBlock kind kind' ∧ Expands source kind kind' := by
  have stop := opens.start (by rw [curly]; simp)
  cases own with
  | rule => exact ⟨.rule, styleBetween_lineEnds (begins.start solid) stop⟩
  | atRule keyword =>
      have start := begins.stop solid (by rw [keyword]; simp)
      obtain ⟨left, middle, right, same, -, -, here, there⟩ := start.exists_slice stop
      refine ⟨.atRule rfl, .atRule ?_ ?_⟩
      · rw [textBetween, textBetween, here, there, lineEnds.trim_expand]
      · simp only [textBetween, here]
        rw [same]
        exact List.Subset.trans (trim_subset middle)
          (List.Subset.trans (List.subset_append_left middle right)
            (List.subset_append_right left _))

/-- The items of the longer text are those of the text. -/
theorem forestsAlike_lineEnds {items items' : List Item}
    (same : ItemsMatch (Piece.Matches (lineEnds.Moves source)) source (lineEnds.expand source)
      items items') :
    ForestsAlike (lineEnds.Moves source) (Expands source) (Expands source) items items' := by
  induction same with
  | nil => exact .nil
  | line own _ inductionHypothesis => exact .line own inductionHypothesis
  | block begins opens solid curly _ own _ _ _ _ _ _ ofWithin ofLater =>
      obtain ⟨sameBlock, expands⟩ := own.expands begins opens solid curly
      exact .block sameBlock expands (begins.start solid) (Or.inr expands) ofWithin ofLater

/-- The rules of the longer text are those of the text. -/
theorem occurrences_lineEnds (spared : escapesFeed source = false) :
    List.Forall₂ (OccurrencesAlike (lineEnds.Moves source) (Expands source) (Expands source))
      (occurrencesIn [] (contents source).items)
      (occurrencesIn [] (contents (lineEnds.expand source)).items) :=
  (forestsAlike_lineEnds
    (contents_matching Piece.likens_matches (matching_lineEnds spared))).occurrences .nil

/-! ## Selectors -/

theorem nestingEntries?_expands {kind other : Kind} (sameBlock : SameBlock kind other)
    (expands : Expands source kind other) :
    other.nestingEntries? = kind.nestingEntries?.map fun entries => entries.map lineEnds.expand := by
  cases expands with
  | rule selector =>
      rw [Kind.nestingEntries?, selector, Selector.entries_expand]
      rfl
  | atRule params =>
      cases sameBlock with
      | atRule name =>
          rw [Kind.nestingEntries?, Kind.nestingEntries?, params, name, Selector.entries_expand]
          split <;> rfl

section Occurrences

variable {occurrence changed : Occurrence}
  (alike : OccurrencesAlike (lineEnds.Moves source) (Expands source) (Expands source) occurrence
    changed)

include alike

theorem entriesAround_lineEnds :
    changed.above.filterMap Kind.nestingEntries? =
      (occurrence.above.filterMap Kind.nestingEntries?).map
        fun entries => entries.map lineEnds.expand := by
  have above := alike.above
  generalize occurrence.above = kinds at above
  generalize changed.above = others at above
  induction above with
  | nil => rfl
  | cons first _ inductionHypothesis =>
      rw [List.filterMap_cons, List.filterMap_cons, nestingEntries?_expands first.1 first.2,
        inductionHypothesis]
      cases Kind.nestingEntries? _ <;> rfl

theorem style_lineEnds : changed.style.selector = lineEnds.expand occurrence.style.selector := by
  cases alike.style with
  | rule selector => exact selector

theorem resolve_lineEnds (entry : List Char) :
    resolve (changed.above.filterMap Kind.nestingEntries?) (lineEnds.expand entry) =
      (resolve (occurrence.above.filterMap Kind.nestingEntries?) entry).map lineEnds.expand := by
  have applied : lineEnds.apply = lineEnds.expand := funext (Change.apply_eq_expand rfl)
  have noNesting : '&' ∉ lineEnds.tail := List.not_mem_nil
  have resolved := Selector.resolve_apply noNesting
    (occurrence.above.filterMap Kind.nestingEntries?) entry
  rw [applied] at resolved
  rw [entriesAround_lineEnds alike, resolved]

/-- The selectors that are measured get carriage returns like the source. -/
theorem selectors_lineEnds (ends : callEnds false occurrence.style.selector = false)
    (resolved : ∀ entry ∈ entries occurrence.style.selector,
      ∀ selector ∈ resolve (occurrence.above.filterMap Kind.nestingEntries?) entry,
        callEnds false selector = false) :
    changed.selectors = occurrence.selectors.map fun selectors =>
      selectors.map lineEnds.expand := by
  have flat : ((entries occurrence.style.selector).map lineEnds.expand).flatMap
      (resolve (changed.above.filterMap Kind.nestingEntries?)) =
      ((entries occurrence.style.selector).flatMap
        (resolve (occurrence.above.filterMap Kind.nestingEntries?))).map lineEnds.expand := by
    simp only [List.flatMap_map, resolve_lineEnds alike, List.map_flatMap]
  have standard : ∀ selector ∈ (entries occurrence.style.selector).flatMap
      (resolve (occurrence.above.filterMap Kind.nestingEntries?)),
      (Selector.isStandard ∘ lineEnds.expand) selector = Selector.isStandard selector := by
    intro selector member
    obtain ⟨entry, inEntries, inside⟩ := List.mem_flatMap.1 member
    exact Selector.isStandard_expand rfl (Or.inr (resolved entry inEntries selector inside))
  have ownRule : Selector.isStandardRule (lineEnds.expand occurrence.style.selector) =
      Selector.isStandardRule occurrence.style.selector := Selector.isStandardRule_expand rfl _
  have own : Selector.isStandard (lineEnds.expand occurrence.style.selector) =
      Selector.isStandard occurrence.style.selector :=
    Selector.isStandard_expand rfl (Or.inr ends)
  rw [Occurrence.selectors, Occurrence.selectors, style_lineEnds alike, alike.blocks,
    inKeyframes_alike alike.above]
  simp only [ownRule, own, Selector.entries_expand, flat, List.filter_map,
    List.filter_congr standard]
  split
  · rfl
  · split
    · rfl
    · split <;> rfl

end Occurrences

end CssLint.Sheet
