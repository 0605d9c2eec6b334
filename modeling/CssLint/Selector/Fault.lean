import CssLint.Text.Bytes

/-!
Why a selector cannot be read.

While a text is read, a place is given by the text that is still to come, so that
a fault does not depend on what was read before. `Fault.locate` turns these
places into byte offsets.
-/

namespace CssLint.Selector

open Text

/-- The things that a text may leave open. -/
inductive Opened where
  | parenthesis
  | attribute
  | string
  | comment
deriving Repr, DecidableEq

/-- Why a selector cannot be read, with the places of a type of their own. -/
inductive Fault (Place : Type) where
  | emptySelector
  | danglingCombinator (symbol : List Char)
  | doubleCombinator (symbol : List Char)
  | unexpectedCharacter (character : Char) (place : Place)
  | expectedIdentifier (mark : List Char) (place : Place)
  | unclosed (opened : Opened) (place : Place)
  | invalidAttribute (text : List Char)
  | tooDeep (limit : Nat) (place : Place)
deriving Repr, DecidableEq

def Opened.describe : Opened → String
  | .parenthesis => "parenthesis"
  | .attribute => "attribute selector"
  | .string => "string"
  | .comment => "comment"

namespace Fault

def mapPlace {Place Target : Type} (change : Place → Target) : Fault Place → Fault Target
  | emptySelector => emptySelector
  | danglingCombinator symbol => danglingCombinator symbol
  | doubleCombinator symbol => doubleCombinator symbol
  | unexpectedCharacter character place => unexpectedCharacter character (change place)
  | expectedIdentifier mark place => expectedIdentifier mark (change place)
  | unclosed opened place => unclosed opened (change place)
  | invalidAttribute text => invalidAttribute text
  | tooDeep limit place => tooDeep limit (change place)

/-- The fault with the byte offset of its place in the whole text. -/
def locate (text : List Char) (fault : Fault (List Char)) : Fault Nat :=
  fault.mapPlace fun rest => byteCount text - byteCount rest

def message : Fault Nat → String
  | emptySelector => "empty selector"
  | danglingCombinator symbol =>
    "expected a selector after combinator \"" ++ String.ofList symbol ++ "\""
  | doubleCombinator symbol =>
    "unexpected combinator \"" ++ String.ofList symbol ++ "\" after another combinator"
  | unexpectedCharacter character offset =>
    "unexpected character '" ++ String.ofList [character] ++ "' at offset " ++ toString offset
  | expectedIdentifier mark offset =>
    "expected an identifier after \"" ++ String.ofList mark ++ "\" at offset " ++ toString offset
  | unclosed opened offset =>
    "unclosed " ++ opened.describe ++ " starting at offset " ++ toString offset
  | invalidAttribute text => "invalid attribute selector \"" ++ String.ofList text ++ "\""
  | tooDeep limit offset =>
    "pseudo-classes nested more than " ++ toString limit ++ " levels deep at offset " ++
      toString offset

end Fault

end CssLint.Selector
