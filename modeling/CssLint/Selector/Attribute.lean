import CssLint.Selector.Basic
import CssLint.Text.Search

/-!
The inside of an attribute selector.

Between the brackets stands a name, or a name, a comparison and a value. The
value ends at its closing quote or, without quotes, at the first blank. Behind
it may stand the letter `i` or `s`, which is accepted and dropped.
-/

namespace CssLint.Selector.AttributeTest

open Text

/-- Whether the text is a name: it is not empty and holds no blank. -/
def isName (text : List Char) : Bool :=
  !text.isEmpty && !text.any isBlank

/-- The comparison that a character in front of the equals sign stands for. -/
def comparison? : Char → Option Comparison
  | '~' => some .includes
  | '|' => some .dashMatch
  | '^' => some .startsWith
  | '$' => some .endsWith
  | '*' => some .contains
  | _ => none

/-- What stands in front of the equals sign: the name and the comparison. -/
def splitName (text : List Char) : List Char × Comparison :=
  let text := trimEnd text
  match text.getLast?.bind comparison? with
  | some comparison => (trimEnd text.dropLast, comparison)
  | none => (text, .equals)

/-- Whether the text may stand behind a value. -/
def isModifier (text : List Char) : Bool :=
  let text := trim text
  text.isEmpty || alike text ['i'] || alike text ['s']

/-- The value and what stands behind it. -/
def splitValue (text : List Char) : Option (List Char × List Char) :=
  match text with
  | [] => none
  | c :: inside =>
    if c = '"' || c = '\'' then splitAt? c inside
    else
      let value := text.takeWhile fun c => !isBlank c
      if value.isEmpty then none else some (value, text.dropWhile fun c => !isBlank c)

def value? (text : List Char) : Option (List Char) :=
  match splitValue (trim text) with
  | none => none
  | some (value, rest) => if isModifier rest then some value else none

/-- The test that stands between the brackets. -/
def ofBody? (body : List Char) : Option AttributeTest :=
  let body := trim body
  match splitAt? '=' body with
  | none => if isName body then some (present body) else none
  | some (left, right) =>
    let (name, comparison) := splitName left
    if isName name then (value? right).map (compare name comparison) else none

end CssLint.Selector.AttributeTest
