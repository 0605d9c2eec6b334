import CssLint.Report.Result

/-!
Results as text.

The plain layout has a heading for each style sheet with findings, a line for
each finding, and a line that counts them; parts are set off by terminal codes.
The JSON layout is an indented list of all results.
-/

namespace CssLint

/-! ## Terminal codes -/

/-- A way to set off a part of a line, by the codes that begin and end it. -/
structure Emphasis where
  first : String
  last : String

namespace Emphasis

def underline : Emphasis := ⟨"\x1b[4m", "\x1b[0m"⟩
def bold : Emphasis := ⟨"\x1b[1m", "\x1b[0m"⟩
def dimmed : Emphasis := ⟨"\x1b[2m", "\x1b[0m"⟩
def red : Emphasis := ⟨"\x1b[31m", "\x1b[39m"⟩
def yellow : Emphasis := ⟨"\x1b[33m", "\x1b[39m"⟩

def apply (emphasis : Emphasis) (text : String) : String :=
  emphasis.first ++ text ++ emphasis.last

end Emphasis

namespace LintResult

/-! ## Plain layout -/

/-- The name of a style sheet without a name. -/
def anonymousSource : String := "<input css>"

def errorMark : String := "✖"

/-- The mark of a warning that is no error. -/
def warningMark : String := "⚠"

/-- How wide the place of a finding is at least. -/
def placeWidth : Nat := 7

/-- The line and column of a finding, with spaces in front up to the width. -/
def placeText (warning : Warning) : String :=
  let place := toString warning.line ++ ":" ++ toString warning.column
  String.ofList (List.replicate (placeWidth - place.length) ' ') ++ place

def severityMark : Severity → String
  | .error => Emphasis.red.apply errorMark
  | .warning => Emphasis.yellow.apply warningMark

def invalidOptionLine (text : String) : String :=
  "  " ++ Emphasis.red.apply errorMark ++ "  " ++ text ++ "\n"

def warningLine (warning : Warning) : String :=
  Emphasis.dimmed.apply (placeText warning) ++ "  " ++ severityMark warning.severity ++ "  " ++
    warning.text ++ "  " ++ Emphasis.dimmed.apply warning.rule ++ "\n"

/-- The heading and the lines of one result; nothing if nothing was found. -/
def plainSection (result : LintResult) : String :=
  if result.isClean then ""
  else
    "\n" ++ Emphasis.underline.apply (result.source.getD anonymousSource) ++ "\n" ++
      String.join (result.invalidOptions.map invalidOptionLine) ++
      String.join (result.warnings.map warningLine)

/-- How many errors a result has, faults of the configuration among them. -/
def errorCount (result : LintResult) : Nat :=
  result.invalidOptions.length +
    result.warnings.countP fun warning => warning.severity == .error

/-- How many warnings that are no errors a result has. -/
def warningCount (result : LintResult) : Nat :=
  result.warnings.countP fun warning => warning.severity == .warning

/-- A number and a word, with the ending of the plural unless the number is one. -/
def counted (count : Nat) (word : String) : String :=
  toString count ++ " " ++ word ++ (if count = 1 then "" else "s")

/-- The line that counts all findings; nothing if there are none. -/
def summary (errors warnings : Nat) : String :=
  if errors + warnings = 0 then ""
  else
    let text := errorMark ++ " " ++ counted (errors + warnings) "problem" ++ " (" ++
      counted errors "error" ++ ", " ++ counted warnings "warning" ++ ")"
    "\n" ++ Emphasis.bold.apply text ++ "\n"

def plain (results : List LintResult) : String :=
  String.join (results.map plainSection) ++
    summary ((results.map errorCount).foldl (· + ·) 0) ((results.map warningCount).foldl (· + ·) 0)

/-! ## JSON layout -/

def jsonOfNat (value : Nat) : Json :=
  .number (.integer value)

def jsonOfWarning (warning : Warning) : Json :=
  .object [
    ("line", jsonOfNat warning.line),
    ("column", jsonOfNat warning.column),
    ("rule", .string warning.rule),
    ("severity", .string warning.severity.name),
    ("text", .string warning.text)]

def toJson (result : LintResult) : Json :=
  .object [
    ("source", result.source.elim .null .string),
    ("warnings", .array (result.warnings.map jsonOfWarning)),
    ("invalidOptionWarnings",
      .array (result.invalidOptions.map fun text => .object [("text", .string text)])),
    ("errored", .bool result.errored)]

def json (results : List LintResult) : String :=
  (Json.array (results.map toJson)).indented ++ "\n"

end LintResult

inductive Layout where
  | plain
  | json
deriving Repr, DecidableEq

namespace Layout

def ofName? (name : String) : Option Layout :=
  if name = "string" then some .plain
  else if name = "json" then some .json
  else none

def render : Layout → List LintResult → String
  | plain => LintResult.plain
  | json => LintResult.json

end Layout

end CssLint
