/-!
Quotes, escapes and brackets of a text.

A scanner passes over a text and knows at each character whether it stands inside
a quoted string, behind a backslash, or inside brackets. Brackets inside strings
do not count, and a closing bracket without an opening one is ignored.
-/

namespace CssLint.Selector

/-- The brackets that a scanner counts, by the characters that open and close them. -/
structure Brackets where
  openers : List Char
  closers : List Char
deriving Repr, DecidableEq

namespace Brackets

def all : Brackets := ⟨['(', '[', '\x7b'], [')', ']', '\x7d']⟩

def square : Brackets := ⟨['['], [']']⟩

end Brackets

/-- What a scanner knows: the quote that is open, whether a backslash stands in front, and how
many brackets are open. -/
structure Scanner where
  quote : Option Char
  escaped : Bool
  depth : Nat
deriving Repr, DecidableEq

namespace Scanner

def start : Scanner := ⟨none, false, 0⟩

def step (brackets : Brackets) (scanner : Scanner) (c : Char) : Scanner :=
  if scanner.escaped then { scanner with escaped := false }
  else if c = '\\' then { scanner with escaped := true }
  else if c = '"' || c = '\'' then
    match scanner.quote with
    | some open_ => if open_ = c then { scanner with quote := none } else scanner
    | none => { scanner with quote := some c }
  else if scanner.quote.isSome then scanner
  else if brackets.openers.contains c then { scanner with depth := scanner.depth + 1 }
  else if brackets.closers.contains c then { scanner with depth := scanner.depth - 1 }
  else scanner

def scan (brackets : Brackets) (scanner : Scanner) (text : List Char) : Scanner :=
  text.foldl (step brackets) scanner

@[simp] theorem scan_nil (brackets : Brackets) (scanner : Scanner) :
    scan brackets scanner [] = scanner := rfl

@[simp] theorem scan_cons (brackets : Brackets) (scanner : Scanner) (c : Char)
    (text : List Char) :
    scan brackets scanner (c :: text) = scan brackets (step brackets scanner c) text := rfl

theorem scan_append (brackets : Brackets) (scanner : Scanner) (left right : List Char) :
    scan brackets scanner (left ++ right) = scan brackets (scan brackets scanner left) right :=
  List.foldl_append

/-- Whether nothing is open: the next character stands for itself. -/
def isIdle (scanner : Scanner) : Bool :=
  scanner == start

end Scanner

end CssLint.Selector
