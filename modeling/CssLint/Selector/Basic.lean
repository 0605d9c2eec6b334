import CssLint.Text.Blank

/-!
Selectors as trees.

A tree begins with a root, whose children are the entries of a selector list.
The children of an entry are its simple selectors, combinators and comments in
the order of the text. A pseudo-class that takes a selector list has the entries
of its argument as children. Every node keeps its own text.
-/

namespace CssLint.Selector

open Text

/-- How two compound selectors are related. -/
inductive Combinator where
  | descendant
  | child
  | nextSibling
  | subsequentSibling
  | deepDescendant
deriving Repr, DecidableEq

namespace Combinator

/-- The combinator as it is written; for descendants one space. -/
def symbol : Combinator → List Char
  | descendant => [' ']
  | child => ['>']
  | nextSibling => ['+']
  | subsequentSibling => ['~']
  | deepDescendant => ['>', '>', '>']

/-- The combinator that a single character stands for. -/
def ofChar? : Char → Option Combinator
  | '>' => some child
  | '+' => some nextSibling
  | '~' => some subsequentSibling
  | _ => none

end Combinator

/-- How the value of an attribute is compared. -/
inductive Comparison where
  | equals
  | includes
  | dashMatch
  | startsWith
  | endsWith
  | contains
deriving Repr, DecidableEq

def Comparison.symbol : Comparison → List Char
  | equals => ['=']
  | includes => ['~', '=']
  | dashMatch => ['|', '=']
  | startsWith => ['^', '=']
  | endsWith => ['$', '=']
  | contains => ['*', '=']

/-- A test of an attribute: that it exists, or how it compares with a value. The value has no
quotes. -/
inductive AttributeTest where
  | present (name : List Char)
  | compare (name : List Char) (comparison : Comparison) (value : List Char)
deriving Repr, DecidableEq

def AttributeTest.name : AttributeTest → List Char
  | present name => name
  | compare name _ _ => name

/-- The kinds of node; the name of a pseudo-class or pseudo-element has its colons. -/
inductive Kind where
  | root
  | selector
  | combinator (combinator : Combinator)
  | pseudo (name : List Char)
  | tag
  | className
  | id
  | attribute (test : AttributeTest)
  | universal
  | nesting
  | comment
  | string
deriving Repr, DecidableEq

/-- A node of a selector tree. -/
structure Node where
  kind : Kind
  text : List Char
  children : List Node
deriving Repr

namespace Node

def leaf (kind : Kind) (text : List Char) : Node :=
  ⟨kind, text, []⟩

/-- Whether this is the negation pseudo-class, in any letter case. -/
def isNegation (node : Node) : Bool :=
  match node.kind with
  | .pseudo name => alike name [':', 'n', 'o', 't']
  | _ => false

def isSelector (node : Node) : Bool :=
  match node.kind with
  | .selector => true
  | _ => false

def isCombinator (node : Node) : Bool :=
  match node.kind with
  | .combinator _ => true
  | _ => false

end Node

end CssLint.Selector
