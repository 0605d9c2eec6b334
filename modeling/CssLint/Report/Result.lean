import CssLint.Config.Setting

/-!
What was found in a style sheet.

A result holds the warnings about the style sheet, in the order in which they
were given, and faults of the configuration. It has failed once a warning of
error severity or a fault of the configuration was added, and stays so.
-/

namespace CssLint

/-- A finding with its place, the rule that made it, and its text. -/
structure Warning where
  line : Nat
  column : Nat
  rule : String
  severity : Severity
  text : String
deriving Repr, DecidableEq

/-- All that was found in one style sheet; a style sheet from standard input may have no name. -/
structure LintResult where
  source : Option String
  warnings : List Warning
  invalidOptions : List String
  errored : Bool
deriving Repr, DecidableEq

namespace LintResult

def empty (source : Option String) : LintResult :=
  ⟨source, [], [], false⟩

def warn (result : LintResult) (warning : Warning) : LintResult :=
  { result with
    warnings := result.warnings ++ [warning]
    errored := result.errored || warning.severity == .error }

def warnAll (result : LintResult) (warnings : List Warning) : LintResult :=
  warnings.foldl warn result

def invalidOption (result : LintResult) (text : String) : LintResult :=
  { result with
    invalidOptions := result.invalidOptions ++ [text]
    errored := true }

/-- Whether nothing at all was found. -/
def isClean (result : LintResult) : Bool :=
  result.warnings.isEmpty && result.invalidOptions.isEmpty

/-- The result with its errors only; whether it has failed does not change. -/
def errorsOnly (result : LintResult) : LintResult :=
  { result with warnings := result.warnings.filter fun warning => warning.severity == .error }

end LintResult

end CssLint
