/-!
Blank characters of style sheets, and trimming.

Style sheets know five blank characters. Trimming is wider: it takes away every
character with the Unicode property `White_Space`, so a trimmed text never
begins or ends with one.
-/

namespace CssLint.Text

/-! ## Character classes -/

/-- The characters that style sheets treat as white space. -/
def isBlank (c : Char) : Bool :=
  c == '\n' || c == '\t' || c == ' ' || c == '\r' || c == '\x0c'

/-- The characters with the Unicode property `White_Space`. -/
def isSpace (c : Char) : Bool :=
  let code := c.toNat
  (0x09 ≤ code && code ≤ 0x0d) || code == 0x20 || code == 0x85 || code == 0xa0 ||
    code == 0x1680 || (0x2000 ≤ code && code ≤ 0x200a) || code == 0x2028 ||
    code == 0x2029 || code == 0x202f || code == 0x205f || code == 0x3000

/-- Every blank character is white space. -/
theorem isSpace_of_isBlank {c : Char} (blank : isBlank c = true) : isSpace c = true := by
  simp only [isBlank, Bool.or_eq_true, beq_iff_eq] at blank
  rcases blank with (((rfl | rfl) | rfl) | rfl) | rfl <;> rfl

/-! ## Trimming -/

def trimStart (text : List Char) : List Char :=
  text.dropWhile isSpace

def trimEnd (text : List Char) : List Char :=
  (text.reverse.dropWhile isSpace).reverse

def trim (text : List Char) : List Char :=
  trimEnd (trimStart text)

/-! ## Letter case -/

/-- The text with its ASCII capitals made small. -/
def lower (text : List Char) : List Char :=
  text.map Char.toLower

/-- Two texts are alike when they differ at most in the case of ASCII letters. -/
def alike (left right : List Char) : Bool :=
  lower left == lower right

end CssLint.Text
