import CssLint.Json.Basic
import CssLint.Number.Text

/-!
JSON values as text.

Strings escape the quote, the backslash and the characters below the space, the
last by letters where there are any. Floating-point numbers have at least one
digit behind the point; their form is positional for exponents from -5 to 15
and scientific beyond, and of two equally near shortest forms it takes the one
with the even last digit. The compact form has no spaces; the indented one has a
line for every element and member.
-/

namespace CssLint.Json

/-! ## Numbers -/

/-- The first exponents that are written in the positional form, and the first that is not. -/
def positionalExponents : Int × Int := (-5, 16)

/-- Which of two equally near shortest forms is written. -/
def floatTie : Binary64.Tie := .toEven

/-- A finite floating-point number as text. -/
def floatText (negative : Bool) (significand : Nat) (exponent : Int) : List Char :=
  let decimal := Binary64.shortest floatTie significand exponent
  let first := decimal.firstExponent
  let digits :=
    if positionalExponents.1 ≤ first && first < positionalExponents.2 then
      if 0 ≤ decimal.exponent then decimal.positional ++ ['.', '0'] else decimal.positional
    else decimal.scientific
  if negative then '-' :: digits else digits

/-- A number as text; numbers that JSON cannot write are null. -/
def numberText : JsonNumber → List Char
  | .integer value => (toString value).toList
  | .float (.finite negative significand exponent) => floatText negative significand exponent
  | .float _ => ['n', 'u', 'l', 'l']

/-! ## Strings -/

/-- The last two hexadecimal digits of a code below 256. -/
def hexPair (code : Nat) : List Char :=
  [Nat.digitChar (code / 16), Nat.digitChar (code % 16)]

/-- A character as it is written between quotes. -/
def escapeChar (c : Char) : List Char :=
  if c = '"' then ['\\', '"']
  else if c = '\\' then ['\\', '\\']
  else if c = '\x08' then ['\\', 'b']
  else if c = '\x0c' then ['\\', 'f']
  else if c = '\n' then ['\\', 'n']
  else if c = '\r' then ['\\', 'r']
  else if c = '\t' then ['\\', 't']
  else if c.toNat < 0x20 then '\\' :: 'u' :: '0' :: '0' :: hexPair c.toNat
  else [c]

def stringText (value : String) : List Char :=
  '"' :: (value.toList.flatMap escapeChar ++ ['"'])

/-! ## Values -/

/-- The texts with a comma and the given gap between them. -/
def separate (gap : List Char) (items : List (List Char)) : List Char :=
  List.intercalate (',' :: gap) items

mutual

/-- The compact form of a value. -/
def compactChars : Json → List Char
  | null => ['n', 'u', 'l', 'l']
  | bool true => ['t', 'r', 'u', 'e']
  | bool false => ['f', 'a', 'l', 's', 'e']
  | number value => numberText value
  | string value => stringText value
  | array elements => '[' :: (separate [] (compactElements elements) ++ [']'])
  | object members => '\x7b' :: (separate [] (compactMembers members) ++ ['\x7d'])

def compactElements : List Json → List (List Char)
  | [] => []
  | element :: elements => compactChars element :: compactElements elements

def compactMembers : List (String × Json) → List (List Char)
  | [] => []
  | (name, value) :: members =>
    (stringText name ++ ':' :: compactChars value) :: compactMembers members

end

def compact (value : Json) : String :=
  String.ofList (compactChars value)

def newLine (depth : Nat) : List Char :=
  '\n' :: List.replicate (2 * depth) ' '

/-- Items on lines of their own between two brackets; no items leave the brackets together. -/
def bracketed (openChar closeChar : Char) (depth : Nat) (items : List (List Char)) : List Char :=
  match items with
  | [] => [openChar, closeChar]
  | items =>
    openChar :: newLine (depth + 1) ++ separate (newLine (depth + 1)) items ++
      newLine depth ++ [closeChar]

mutual

/-- The indented form of a value inside `depth` containers. -/
def indentedChars (depth : Nat) : Json → List Char
  | array elements => bracketed '[' ']' depth (indentedElements (depth + 1) elements)
  | object members => bracketed '\x7b' '\x7d' depth (indentedMembers (depth + 1) members)
  | null => compactChars null
  | bool value => compactChars (bool value)
  | number value => numberText value
  | string value => stringText value

def indentedElements (depth : Nat) : List Json → List (List Char)
  | [] => []
  | element :: elements => indentedChars depth element :: indentedElements depth elements

def indentedMembers (depth : Nat) : List (String × Json) → List (List Char)
  | [] => []
  | (name, value) :: members =>
    (stringText name ++ ':' :: ' ' :: indentedChars depth value) :: indentedMembers depth members

end

def indented (value : Json) : String :=
  String.ofList (indentedChars 0 value)

end CssLint.Json
