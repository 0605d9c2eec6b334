import CssLint.Proofs.Sheet.Matching
import CssLint.Proofs.Sheet.Occurrences

/-!
# Rules of forests that are alike

Two forests are alike when they have the same items, and a relation holds between those
with a block.  Then their style rules are alike one by one, with what is around them and
with whether they hold blocks.
-/

namespace CssLint.Sheet

open Text

/-- What the related first elements all have. -/
theorem forall_mem_of_forall₂ {α β : Type} {related : α → β → Prop} {property : α → Prop}
    (all : ∀ first second, related first second → property first) {left : List α}
    {right : List β} (same : List.Forall₂ related left right) : ∀ first ∈ left, property first := by
  induction same with
  | nil => exact fun _ member => nomatch member
  | cons first _ inductionHypothesis =>
      exact List.forall_mem_cons.2 ⟨all _ _ first, inductionHypothesis⟩

/-- For every one of the first elements there is one of the second that is related to it. -/
theorem exists_mem_of_forall₂ {α β : Type} {related : α → β → Prop} {left : List α}
    {right : List β} (same : List.Forall₂ related left right) {first : α} (member : first ∈ left) :
    ∃ second ∈ right, related first second := by
  induction same with
  | nil => cases member
  | cons here _ inductionHypothesis =>
      rcases List.mem_cons.1 member with rfl | later
      · exact ⟨_, List.mem_cons_self, here⟩
      · obtain ⟨second, inside, found⟩ := inductionHypothesis later
        exact ⟨second, List.mem_cons_of_mem _ inside, found⟩

/-- Two style rules, or two at-rules of one name. -/
inductive SameBlock : Kind → Kind → Prop
  | rule {style other : StyleRule} : SameBlock (.rule style) (.rule other)
  | atRule {header other : AtRule} (name : other.name = header.name) :
      SameBlock (.atRule header) (.atRule other)

/-- Forests with the same items: `starts` relates where items with a block begin, `head` what they
are, and `outer` what they are to the rules inside them. -/
inductive ForestsAlike (starts : Nat → Nat → Prop) (head outer : Kind → Kind → Prop) :
    List Item → List Item → Prop
  | nil : ForestsAlike starts head outer [] []
  | line {kind other : Kind} {span changed : Span} {items others : List Item}
      (own : LineMatches kind other) (later : ForestsAlike starts head outer items others) :
      ForestsAlike starts head outer (⟨kind, span, []⟩ :: items) (⟨other, changed, []⟩ :: others)
  | block {kind other : Kind} {span changed : Span} {inside within items others : List Item}
      (same : SameBlock kind other) (own : head kind other)
      (begins : starts span.start changed.start) (encloses : inside = [] ∨ outer kind other)
      (below : ForestsAlike starts head outer inside within)
      (later : ForestsAlike starts head outer items others) :
      ForestsAlike starts head outer (⟨kind, span, inside⟩ :: items)
        (⟨other, changed, within⟩ :: others)

/-- Two style rules that begin alike, with alike selectors, inside nodes that are alike. -/
structure OccurrencesAlike (starts : Nat → Nat → Prop) (head outer : Kind → Kind → Prop)
    (occurrence changed : Occurrence) : Prop where
  style : head (.rule occurrence.style) (.rule changed.style)
  start : starts occurrence.start changed.start
  blocks : changed.holdsBlocks = occurrence.holdsBlocks
  above : List.Forall₂ (fun kind other => SameBlock kind other ∧ outer kind other)
    occurrence.above changed.above

variable {starts : Nat → Nat → Prop} {head outer : Kind → Kind → Prop} {items others : List Item}

theorem ForestsAlike.any_isBlock (alike : ForestsAlike starts head outer items others) :
    (others.any fun item => item.kind.isBlock) = items.any fun item => item.kind.isBlock := by
  induction alike with
  | nil => rfl
  | line own _ inductionHypothesis =>
      rw [List.any_cons, List.any_cons, inductionHypothesis]
      cases own <;> rfl
  | block same _ _ _ _ _ _ inductionHypothesis =>
      rw [List.any_cons, List.any_cons, inductionHypothesis]
      cases same <;> rfl

theorem ForestsAlike.eq_nil (alike : ForestsAlike starts head outer [] others) : others = [] := by
  cases alike
  rfl

/-- The style rules of forests that are alike. -/
theorem ForestsAlike.occurrences (alike : ForestsAlike starts head outer items others)
    {above around : List Kind}
    (same : List.Forall₂ (fun kind other => SameBlock kind other ∧ outer kind other) above
      around) :
    List.Forall₂ (OccurrencesAlike starts head outer) (occurrencesIn above items)
      (occurrencesIn around others) := by
  induction alike generalizing above around with
  | nil => exact .nil
  | line own _ inductionHypothesis =>
      rw [occurrencesIn, occurrencesIn]
      refine List.rel_append ?_ (inductionHypothesis same)
      cases own <;> exact .nil
  | @block kind other span changed inside within items others sameBlock own begins encloses below _
      ofBelow ofLater =>
      rw [occurrencesIn, occurrencesIn]
      refine List.rel_append ?_ (ofLater same)
      have nested : List.Forall₂ (OccurrencesAlike starts head outer)
          (occurrencesIn (kind :: above) inside) (occurrencesIn (other :: around) within) := by
        rcases encloses with rfl | outside
        · rw [below.eq_nil]
          exact .nil
        · exact ofBelow (.cons ⟨sameBlock, outside⟩ same)
      cases sameBlock with
      | rule => exact .cons ⟨own, begins, below.any_isBlock, same⟩ nested
      | atRule => exact nested

theorem inKeyframes_alike {above around : List Kind}
    (same : List.Forall₂ (fun kind other => SameBlock kind other ∧ outer kind other) above
      around) : inKeyframes around = inKeyframes above := by
  cases same with
  | nil => rfl
  | cons first _ =>
      obtain ⟨sameBlock, -⟩ := first
      cases sameBlock with
      | rule => rfl
      | atRule name => rw [inKeyframes, inKeyframes, name]

end CssLint.Sheet
