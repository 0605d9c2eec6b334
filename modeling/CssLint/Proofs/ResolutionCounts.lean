import CssLint.Proofs.EnclosingRules
import CssLint.Proofs.Sheet.Walk
import Mathlib.Algebra.BigOperators.Group.Finset.Basic
import Mathlib.Algebra.BigOperators.Group.List.Basic

/-!
# How many selectors a selector stands for

Every rule around a selector multiplies what the selector stands for by the number of its
entries.  Neither the selector nor what the entries are matters: not where the nesting
selector `&` stands in them, nor what they leave open.
-/

namespace CssLint

open Sheet

/-- Both ways of resolving take every entry of the nearest rule once. -/
theorem Selector.length_resolve (levels : List (List (List Char))) (selector : List Char) :
    (resolve levels selector).length = (levels.map List.length).prod := by
  induction levels generalizing selector with
  | nil => rfl
  | cons entries outer inductionHypothesis =>
      rw [resolve, List.map_cons, List.prod_cons]
      split
      · simp [List.length_flatMap, inductionHypothesis]
      · simp [List.length_flatMap, inductionHypothesis]

namespace Stylesheet

variable {sheet : Stylesheet}

/-- The nodes above a node that add entries: style rules and `@nest` rules. -/
def nestingAbove (sheet : Stylesheet) (id : NodeId) : Finset NodeId :=
  (Finset.range sheet.size).filter fun above =>
    id ∈ sheet.descendants above ∧ (sheet.nestingEntries? above).isSome

/-- How many entries a node adds. -/
def entryCount (sheet : Stylesheet) (id : NodeId) : Nat :=
  (sheet.nestingEntries? id).elim 0 List.length

namespace Built

variable (built : Built sheet)

include built

theorem mem_nestingAbove {above id : NodeId} :
    above ∈ sheet.nestingAbove id ↔
      IsAbove sheet above id ∧ (sheet.nestingEntries? above).isSome := by
  have linked := built.grown.isLinked
  rw [nestingAbove, Finset.mem_filter, Finset.mem_range, linked.mem_descendants_iff]
  refine and_iff_right_of_imp fun ⟨isAbove, _⟩ => ?_
  exact Nat.lt_trans (isAbove.lt built) (linked.lt_size_of_isAbove isAbove)

theorem nestingAbove_eq_empty {id : NodeId} (top : sheet.parent? id = none) :
    sheet.nestingAbove id = ∅ := by
  refine Finset.eq_empty_of_forall_notMem fun above member => ?_
  obtain ⟨parent, below, _⟩ := isAbove_iff_exists_parent.1 (built.mem_nestingAbove.1 member).1
  rw [top] at below
  cases below

/-- Above a node are its parent and what is above that. -/
theorem nestingAbove_eq {id parent : NodeId} (below : sheet.parent? id = some parent) :
    sheet.nestingAbove id =
      if (sheet.nestingEntries? parent).isSome then insert parent (sheet.nestingAbove parent)
      else sheet.nestingAbove parent := by
  ext above
  have higher : IsAbove sheet above id ↔ parent = above ∨ IsAbove sheet above parent :=
    isAbove_iff below
  split
  · rename_i adds
    rw [built.mem_nestingAbove, Finset.mem_insert, built.mem_nestingAbove, higher]
    constructor
    · intro ⟨isAbove, own⟩
      exact isAbove.imp Eq.symm fun isAbove => ⟨isAbove, own⟩
    · intro member
      cases member with
      | inl same => exact ⟨.inl same.symm, same ▸ adds⟩
      | inr isAbove => exact ⟨.inr isAbove.1, isAbove.2⟩
  · rename_i passes
    rw [built.mem_nestingAbove, built.mem_nestingAbove, higher]
    refine and_congr_left fun own => or_iff_right fun same => passes (same ▸ own)

theorem prod_levels (id : NodeId) :
    ((sheet.levels id).map List.length).prod =
      ∏ above ∈ sheet.nestingAbove id, sheet.entryCount above := by
  induction id using Nat.strongRecOn with
  | ind id inductionHypothesis =>
      cases below : sheet.parent? id with
      | none =>
          rw [built.nestingAbove_eq_empty below, levels, ancestors_of_parent?_eq_none below]
          rfl
      | some parent =>
          have outer := inductionHypothesis parent (built.parent_lt below).1
          rw [built.levels_eq below, built.nestingAbove_eq below, List.map_append, List.prod_append,
            outer]
          cases adds : sheet.nestingEntries? parent with
          | none => exact Nat.one_mul _
          | some entries =>
              have own : sheet.entryCount parent = entries.length := by
                rw [entryCount, adds]
                rfl
              have notAbove : parent ∉ sheet.nestingAbove parent := fun member =>
                Nat.lt_irrefl parent ((built.mem_nestingAbove.1 member).1.lt built)
              rw [Option.isSome_some, if_pos rfl, Finset.prod_insert notAbove, own]
              simp

end Built

/-- A selector on a node stands for as many selectors as the style rules and `@nest` rules above the
node have entries, multiplied. -/
theorem length_resolve_eq_prod (built : Built sheet) (id : NodeId) (selector : List Char) :
    (∀ above, above ∈ sheet.nestingAbove id ↔
        IsAbove sheet above id ∧ (sheet.nestingEntries? above).isSome) ∧
      (sheet.resolve id selector).length =
        ∏ above ∈ sheet.nestingAbove id, sheet.entryCount above := by
  refine ⟨fun above => built.mem_nestingAbove, ?_⟩
  rw [resolve, Selector.length_resolve]
  exact built.prod_levels id

/-- A rule inside a nesting rule, of which one entry leaves a string open, inside a rule for media
inside a rule. -/
private def leftOpen : Stylesheet :=
  ((((Stylesheet.empty []).append root (.rule ⟨"a, b".toList, 0⟩) ⟨0, 0⟩).append 1
    (.atRule ⟨"media".toList, "p, q, r".toList, true⟩) ⟨0, 0⟩).append 2
    (.atRule ⟨"Nest".toList, "[c], &\"".toList, true⟩) ⟨0, 0⟩).append 3
    (.rule ⟨"d".toList, 0⟩) ⟨0, 0⟩

/-- In the selector `&` stands in a string, behind the entry that leaves one open it does not. -/
theorem length_resolve_eq_prod_leftOpen :
    Built leftOpen ∧
      leftOpen.resolve 4 "\"&".toList = ["a [c] \"&".toList, "b [c] \"&".toList,
        "a\" \"a".toList, "b\" \"b".toList] ∧
      ∏ above ∈ leftOpen.nestingAbove 4, leftOpen.entryCount above = 4 ∧
      (leftOpen.resolve 4 "&".toList).length = 4 := by
  have built : Built leftOpen := by
    refine .append (.append (.append (.append (.empty []) ?_ ?_ _) ?_ ?_ _) ?_ ?_ _) ?_ ?_ _
    all_goals decide +kernel
  have found : leftOpen.resolve 4 "\"&".toList = ["a [c] \"&".toList, "b [c] \"&".toList,
      "a\" \"a".toList, "b\" \"b".toList] := by decide +kernel
  have product := (length_resolve_eq_prod built 4 "\"&".toList).2.symm
  rw [found] at product
  exact ⟨built, found, product, (length_resolve_eq_prod built 4 "&".toList).2.trans product⟩

end Stylesheet

end CssLint
