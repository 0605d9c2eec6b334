import CssLint.Report.Result
import CssLint.Sheet.Basic
import CssLint.Text.Search

/-!
The warnings of a rule.

A warning is placed at the word it is about where the selector of its node holds
that word, and otherwise where the node begins. A text in the setting takes the
place of the rule's own message, but not of the reason why a selector cannot be
read; those warnings are always errors.
-/

namespace CssLint

open Sheet Text

/-- What the warnings of one rule about one style sheet have in common. -/
structure Reporter where
  rule : String
  setting : RuleSetting
  sheet : Stylesheet

namespace Reporter

/-- The name under which selectors that cannot be read are reported. -/
def syntaxErrorRule : String := "CssSyntaxError"

/-- The place of a word in the selector of a node, or of the node. -/
def locate (reporter : Reporter) (id : NodeId) (word : List Char) : Position :=
  let offset :=
    match reporter.sheet.rule? id with
    | none => none
    | some rule =>
      if word.isEmpty then none else (find? word rule.selector).map (rule.offset + ·)
  match offset with
  | some offset => reporter.sheet.position offset
  | none => reporter.sheet.nodePosition id

/-- The warning with the given message about a word. -/
def warning (reporter : Reporter) (id : NodeId) (word : List Char) (message : String) : Warning :=
  let place := reporter.locate id word
  ⟨place.line, place.column, reporter.rule, reporter.setting.severity,
    reporter.setting.message.getD message⟩

def unreadableText (selector : List Char) (reason : String) : String :=
  "Unable to parse selector \"" ++ String.ofList selector ++ "\": " ++ reason

def syntaxError (reporter : Reporter) (id : NodeId) (selector : List Char) (reason : String) :
    Warning :=
  let place := reporter.locate id selector
  ⟨place.line, place.column, syntaxErrorRule, .error, unreadableText selector reason⟩

end Reporter

end CssLint
