/-!
The tokens of a style sheet.

A token keeps what a reader of selectors needs: the text of names and strings
with their escapes undone, and numbers as they were written. Every bracket
token opens or closes one of three kinds of block; a function name opens a
round one.
-/

namespace CssLint

/-- The three kinds of bracket. -/
inductive Bracket where
  | round
  | square
  | curly
deriving Repr, DecidableEq

/-- What the text of a style sheet is made of. -/
inductive Token where
  | ident (name : List Char)
  | function (name : List Char)
  | atKeyword (name : List Char)
  | hash (value : List Char) (isId : Bool)
  | string (value : List Char)
  | badString
  | url (value : List Char)
  | badUrl
  | delim (char : Char)
  | number (digits : List Char)
  | percentage (digits : List Char)
  | dimension (digits unit : List Char)
  | whitespace
  | commentOpen
  | commentClose
  | colon
  | semicolon
  | comma
  | opening (bracket : Bracket)
  | closing (bracket : Bracket)
  | endOfInput
deriving Repr, DecidableEq

/-! ## Brackets -/

namespace Bracket

def openChar : Bracket → Char
  | round => '('
  | square => '['
  | curly => '\x7b'

def closeChar : Bracket → Char
  | round => ')'
  | square => ']'
  | curly => '\x7d'

end Bracket

namespace Token

def opens? : Token → Option Bracket
  | function _ => some .round
  | opening bracket => some bracket
  | _ => none

def closes? : Token → Option Bracket
  | closing bracket => some bracket
  | _ => none

/-! ## Display -/

/-- A one-line description of the token, for messages and listings. -/
def describe : Token → String
  | ident name => "<ident:" ++ String.ofList name ++ ">"
  | function name => "<function:" ++ String.ofList name ++ "(>"
  | atKeyword name => "<at-keyword:@" ++ String.ofList name ++ ">"
  | hash value isId =>
    "<hash:#" ++ String.ofList value ++ (if isId then " (id)>" else " (unrestricted)>")
  | string value => "<string:\"" ++ String.ofList value ++ "\">"
  | badString => "<bad-string>"
  | url value => "<url:" ++ String.ofList value ++ ">"
  | badUrl => "<bad-url>"
  | delim char => "<delim:" ++ String.ofList [char] ++ ">"
  | number digits => "<number:" ++ String.ofList digits ++ ">"
  | percentage digits => "<percentage:" ++ String.ofList digits ++ "%>"
  | dimension digits unit => "<dimension:" ++ String.ofList (digits ++ unit) ++ ">"
  | whitespace => "<whitespace>"
  | commentOpen => "<CDO>"
  | commentClose => "<CDC>"
  | colon => "<colon>"
  | semicolon => "<semicolon>"
  | comma => "<comma>"
  | opening bracket => String.ofList ['<', bracket.openChar, '>']
  | closing bracket => String.ofList ['<', bracket.closeChar, '>']
  | endOfInput => "<EOF>"

end Token

end CssLint
