import CssLint.Json.Members
import CssLint.Number.Binary64

/-!
JSON values.

Whole numbers that fit 64 bits are kept apart from floating-point numbers, so
`2` and `2.0` are two values. The members of an object that was read stand in
the order of their names, each name once.
-/

namespace CssLint

inductive JsonNumber where
  | integer (value : Int)
  | float (value : Binary64)
deriving Repr, DecidableEq

inductive Json where
  | null
  | bool (value : Bool)
  | number (value : JsonNumber)
  | string (value : String)
  | array (elements : List Json)
  | object (members : List (String × Json))
deriving Repr

def JsonNumber.toBinary64 : JsonNumber → Binary64
  | integer value => Binary64.ofInt value
  | float value => value

namespace Json

/-! ## Parts -/

def member? (name : String) : Json → Option Json
  | object members => Members.get? name members
  | _ => none

/-- The text of a string value. -/
def string? : Json → Option String
  | string value => some value
  | _ => none

/-- The number of a number value. -/
def number? : Json → Option JsonNumber
  | number value => some value
  | _ => none

end Json

end CssLint
