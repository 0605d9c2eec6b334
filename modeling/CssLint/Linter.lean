import CssLint.Config.Basic
import CssLint.Rule.MaxCompounds
import CssLint.Sheet.Notice
import CssLint.Sheet.Reader

/-!
Checking style sheets.

The rules of a configuration run in the order of their names. A name that no rule
has is a fault of the configuration.
-/

namespace CssLint

open Rule

/-- A rule: its name, and how it adds its findings to a result. -/
structure LintRule where
  name : String
  check : RuleSetting → Stylesheet → LintResult → LintResult

namespace LintRule

def all : List LintRule :=
  [⟨maxCompoundsName, maxCompounds grammar resolver⟩]

def find? (name : String) : Option LintRule :=
  all.find? fun rule => rule.name == name

def unknownText (name : String) : String :=
  "Unknown rule " ++ name ++ "."

end LintRule

def checkRule (sheet : Stylesheet) (result : LintResult) (name : String) (setting : RuleSetting) :
    LintResult :=
  match LintRule.find? name with
  | some rule => rule.check setting sheet result
  | none => result.invalidOption (LintRule.unknownText name)

/-- What the rules of a configuration find in the text of a style sheet. -/
def lint (config : Config) (css : List Char) (source : Option String) : LintResult :=
  let sheet := Stylesheet.ofText css
  config.rules.foldl (fun result (name, setting) => checkRule sheet result name setting)
    (.empty source)

/-- The notices that checking a style sheet lets through; it begins with a log of its own, so the
notices of other style sheets do not count. -/
def lintNotices (css : List Char) : List Notice × NoticeLog :=
  NoticeLog.empty.pass (Sheet.contents css).notices

end CssLint
