import CssLint.Number.Text
import CssLint.Report.Reporter
import CssLint.Rule.Compound
import CssLint.Rule.Effective
import CssLint.Selector.Reader

/-!
The rule that limits the compound selectors of a selector.

The setting is the limit, a number greater than zero that need not be whole. Each
style rule is looked at by itself: its selectors are read and measured in order,
and one that cannot be read is reported and ends the rule.
-/

namespace CssLint.Rule

open Sheet

/-- What reads the tree of a selector. -/
abbrev Grammar : Type := List Char → Except (Selector.Fault Nat) Selector.Node

def grammar : Grammar := Selector.Node.ofText

/-! ## The limit -/

/-- The limit that a value writes: a number greater than zero. -/
def limitOf? (value : Json) : Option Binary64 :=
  match value with
  | .number number =>
    if number.toBinary64.isFinite && number.toBinary64.isPositive then some number.toBinary64
    else none
  | _ => none

/-- The message about a value that a rule cannot use; strings are shown without quotes. -/
def invalidOptionText (rule : String) (value : Json) : String :=
  let shown :=
    match value with
    | .string text => text
    | other => other.compact
  "Invalid option value \"" ++ shown ++ "\" for rule \"" ++ rule ++ "\""

/-! ## Warnings -/

def maxCompoundsName : String := "selector-max-compound-selectors"

/-- The message about a selector with more compound selectors than the limit. -/
def expectedText (selector : List Char) (limit : Binary64) : String :=
  "Expected \"" ++ String.ofList selector ++ "\" to have no more than " ++ limit.toText ++
    " compound selectors"

/-- The warnings about the selectors of one style rule, up to the first that cannot be read. -/
def selectorWarnings (grammar : Grammar) (reporter : Reporter) (limit : Binary64) (id : NodeId) :
    List (List Char) → List Warning
  | [] => []
  | selector :: selectors =>
    match grammar selector with
    | .error fault => [reporter.syntaxError id selector fault.message]
    | .ok root =>
      (violations limit root).map (fun violation =>
        reporter.warning id violation.fragment (expectedText violation.fragment limit)) ++
      selectorWarnings grammar reporter limit id selectors

def ruleWarnings (grammar : Grammar) (resolver : Resolver) (reporter : Reporter)
    (limit : Binary64) (id : NodeId) : List Warning :=
  match effectiveSelectors resolver reporter.sheet id with
  | none => []
  | some selectors => selectorWarnings grammar reporter limit id selectors

/-- The result with the warnings about a style sheet; a setting that is no limit is a fault of the
configuration. -/
def maxCompounds (grammar : Grammar) (resolver : Resolver) (setting : RuleSetting)
    (sheet : Stylesheet) (result : LintResult) : LintResult :=
  match limitOf? setting.primary with
  | none => result.invalidOption (invalidOptionText maxCompoundsName setting.primary)
  | some limit =>
    let reporter : Reporter := ⟨maxCompoundsName, setting, sheet⟩
    result.warnAll (sheet.rules.flatMap fun (id, _) =>
      ruleWarnings grammar resolver reporter limit id)

end CssLint.Rule
