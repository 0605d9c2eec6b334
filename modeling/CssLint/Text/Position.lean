/-!
Lines and columns of a text.

A line ends behind a line feed and behind a carriage return that no line feed
follows. Columns count characters, so a tab and an accented letter are one
column each. Both numbers begin with one.
-/

namespace CssLint.Text

/-- A place in a text, by line and column. -/
structure Position where
  line : Nat
  column : Nat
deriving Repr, DecidableEq

namespace Position

/-- The place of the first character. -/
def start : Position := ⟨1, 1⟩

/-- The place behind the character `c` that stands at `place` and in front of `text`. -/
def next (place : Position) (c : Char) (text : List Char) : Position :=
  if c = '\n' || (c = '\r' && text.head? != some '\n') then ⟨place.line + 1, 1⟩
  else ⟨place.line, place.column + 1⟩

/-- The place behind those characters of the text that start before byte `offset`, where
`place` is the place of the first. -/
def advance : Position → Nat → List Char → Position
  | place, _, [] => place
  | place, offset, c :: text =>
    if offset = 0 then place
    else advance (place.next c text) (offset - c.utf8Size) text

/-- The place of byte `offset` of the text; offsets past the end stand for the end. -/
def ofOffset (text : List Char) (offset : Nat) : Position :=
  advance start offset text

end Position

end CssLint.Text
