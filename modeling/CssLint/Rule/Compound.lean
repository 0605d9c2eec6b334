import CssLint.Number.Binary64
import CssLint.Selector.Basic

/-!
Counting compound selectors.

A selector has one compound selector more than it has combinators. The entries
of a list and of the arguments of negations are counted on their own, and stand
in front of the selector around them; other arguments are not counted. Counting
stops at the largest number of 32 bits.
-/

namespace CssLint.Rule

open Selector

/-- A selector with too many compound selectors, and how many it has. -/
structure Violation where
  fragment : List Char
  count : Nat
deriving Repr, DecidableEq

def maxCount : Nat := 4294967295

/-- The number of compound selectors between the combinators of a selector, as far as it is
counted. -/
def compoundCount (children : List Node) : Nat :=
  min (children.countP Node.isCombinator + 1) maxCount

/-- Whether nodes of this kind are counted themselves; lists and pseudo-classes are not. -/
def isMeasured : Kind → Bool
  | .root => false
  | .pseudo _ => false
  | _ => true

/-- Whether the selectors inside a child are counted. -/
def isEntered (node : Node) : Bool :=
  node.isSelector || node.isNegation

mutual

/-- The selectors of a tree with more compound selectors than the limit. -/
def violations (limit : Binary64) : Node → List Violation
  | ⟨kind, text, children⟩ =>
    violationsBelow limit children ++
      if isMeasured kind && limit.isExceededBy (compoundCount children) then
        [⟨text, compoundCount children⟩]
      else []

/-- The selectors inside the children of a node with more compound selectors than the limit. -/
def violationsBelow (limit : Binary64) : List Node → List Violation
  | [] => []
  | node :: nodes =>
    (if isEntered node then violations limit node else []) ++ violationsBelow limit nodes

end

theorem violationsBelow_append {limit : Binary64} (left right : List Node) :
    violationsBelow limit (left ++ right) =
      violationsBelow limit left ++ violationsBelow limit right := by
  induction left with
  | nil => rw [violationsBelow, List.nil_append, List.nil_append]
  | cons node left inductionHypothesis =>
      rw [List.cons_append, violationsBelow, violationsBelow, inductionHypothesis,
        List.append_assoc]

/-- Nothing is found inside a node that is not entered. -/
theorem violationsBelow_of_not_isEntered {limit : Binary64} {node : Node}
    (outside : isEntered node = false) : violationsBelow limit [node] = [] := by
  rw [violationsBelow, violationsBelow, outside]
  rfl

end CssLint.Rule
