import CssLint.Sheet.Basic

/-!
The contents of a style sheet as a forest.

An item is a rule, an at-rule or a declaration with the items of its block.
`Stylesheet.ofItems` numbers the items: each gets its number in front of those in
its block, and those in front of the items that follow.
-/

namespace CssLint

namespace Sheet

/-- A rule, an at-rule or a declaration with what its block holds. -/
structure Item where
  kind : Kind
  span : Span
  items : List Item
deriving Repr

end Sheet

namespace Stylesheet

open Sheet

mutual

/-- The style sheet with an item and what its block holds below `parent`. -/
def appendItem (sheet : Stylesheet) (parent : NodeId) : Item → Stylesheet
  | ⟨kind, span, items⟩ => appendItems (sheet.append parent kind span) sheet.size items

/-- The style sheet with several items below `parent`. -/
def appendItems (sheet : Stylesheet) (parent : NodeId) : List Item → Stylesheet
  | [] => sheet
  | item :: items => appendItems (appendItem sheet parent item) parent items

end

def ofItems (source : List Char) (items : List Item) : Stylesheet :=
  appendItems (empty source) root items

end Stylesheet

end CssLint
