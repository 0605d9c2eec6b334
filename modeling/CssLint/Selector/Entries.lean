import CssLint.Selector.Scanner
import CssLint.Text.Blank

/-!
The entries of a selector list, as texts.

A comma divides two entries unless it stands inside brackets or a string or
behind a backslash.
-/

namespace CssLint.Selector

open Text

/-- The parts between the separators at which the scanner is idle, as they are written. -/
def splitFrom (separator : Char) (scanner : Scanner) : List Char → List (List Char)
  | [] => [[]]
  | c :: text =>
    if scanner.isIdle && c = separator then
      [] :: splitFrom separator (scanner.step .all c) text
    else
      match splitFrom separator (scanner.step .all c) text with
      | [] => [[c]]
      | part :: parts => (c :: part) :: parts

/-- The parts of a text between separators outside brackets and strings. -/
def split (separator : Char) (text : List Char) : List (List Char) :=
  splitFrom separator .start text

/-- The entries of a selector list without the white space around them; empty ones are left
out. -/
def entries (text : List Char) : List (List Char) :=
  ((split ',' text).map trim).filter fun entry => !entry.isEmpty

end CssLint.Selector
