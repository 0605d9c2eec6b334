import CssLint.Selector.Entries
import CssLint.Selector.Nesting
import CssLint.Sheet.Basic
import CssLint.Text.Search

/-!
Selectors inside enclosing rules.

A selector is resolved against the style rules around it and against `@nest`
rules, whose text is a selector list too. Other at-rules are passed through.
-/

namespace CssLint

open Text

namespace Sheet

/-- The entries that a node adds to the selectors inside it. -/
def Kind.nestingEntries? : Kind → Option (List (List Char))
  | .rule style => some (Selector.entries style.selector)
  | .atRule header =>
    if alike header.name ['n', 'e', 's', 't'] then some (Selector.entries header.params)
    else none
  | _ => none

/-- The name of an at-rule without a vendor's mark between two hyphens. -/
def withoutVendor (name : List Char) : List Char :=
  match name with
  | '-' :: rest =>
    match splitAt? '-' rest with
    | some (_, plain) => plain
    | none => name
  | _ => name

end Sheet

namespace Stylesheet

open Sheet

/-- The selectors that a selector written on a node stands for. -/
def resolve (sheet : Stylesheet) (id : NodeId) (selector : List Char) : List (List Char) :=
  Selector.resolve ((sheet.ancestors id).filterMap Kind.nestingEntries?) selector

/-- Whether a node stands directly inside a rule for key frames. -/
def isKeyframe (sheet : Stylesheet) (id : NodeId) : Bool :=
  match (sheet.parent? id).bind sheet.atRule? with
  | some rule => alike (withoutVendor rule.name) "keyframes".toList
  | none => false

end Stylesheet

end CssLint
