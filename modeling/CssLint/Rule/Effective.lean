import CssLint.Selector.Standard
import CssLint.Sheet.Resolution

/-!
The selectors of a rule that are measured.

A rule is left out when its selector is not plain CSS, when it holds other rules
or at-rules, for then those inside are measured, and when it is a key frame. Of
the selectors that its entries stand for, those that are not plain CSS are left
out too.
-/

namespace CssLint.Rule

open Sheet

/-- What finds the selectors that a selector written on a node stands for. -/
abbrev Resolver : Type := List Char → Stylesheet → NodeId → List (List Char)

def resolver : Resolver := fun selector sheet id => sheet.resolve id selector

def holdsBlocks (sheet : Stylesheet) (id : NodeId) : Bool :=
  (sheet.children id).any fun child =>
    (sheet.rule? child).isSome || (sheet.atRule? child).isSome

/-- The selectors of a rule that are measured; none at all for a rule that is left out. -/
def effectiveSelectors (resolver : Resolver) (sheet : Stylesheet) (id : NodeId) :
    Option (List (List Char)) :=
  match sheet.rule? id with
  | none => none
  | some rule =>
    if !Selector.isStandardRule rule.selector || !Selector.isStandard rule.selector then none
    else if holdsBlocks sheet id then none
    else if sheet.isKeyframe id then none
    else
      some (((Selector.entries rule.selector).flatMap fun entry => resolver entry sheet id).filter
        Selector.isStandard)

end CssLint.Rule
