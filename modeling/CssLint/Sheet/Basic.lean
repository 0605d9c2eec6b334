import CssLint.Text.Bytes
import CssLint.Text.Position
import CssLint.Text.Span

/-!
Style sheets.

A style sheet is its text and the nodes that were found in it: rules, at-rules
and declarations below one root. Nodes are known by their numbers, in the order
in which they were added; the root has number zero. A node holds the number of
its parent and, in the order of the text, the numbers of its children.
-/

namespace CssLint

namespace Sheet

/-- The selector of a style rule as it is written, and where it begins. -/
structure StyleRule where
  selector : List Char
  offset : Nat
deriving Repr, DecidableEq

/-- The name of an at-rule, the text behind it, and whether a block follows. -/
structure AtRule where
  name : List Char
  params : List Char
  hasBlock : Bool
deriving Repr, DecidableEq

/-- A property and its value as they are written. -/
structure Declaration where
  name : List Char
  value : List Char
deriving Repr, DecidableEq

/-- What a node of a style sheet is. -/
inductive Kind where
  | root
  | rule (rule : StyleRule)
  | atRule (rule : AtRule)
  | declaration (declaration : Declaration)
deriving Repr, DecidableEq

abbrev NodeId : Type := Nat

/-- A node of a style sheet with the place of its text. -/
structure Node where
  kind : Kind
  parent : Option NodeId
  children : List NodeId
  span : Span
deriving Repr, DecidableEq

end Sheet

open Sheet Text

/-- A text and the nodes that were found in it. -/
structure Stylesheet where
  source : List Char
  nodes : Array Node
deriving Repr, DecidableEq

namespace Stylesheet

def root : NodeId := 0

def empty (source : List Char) : Stylesheet :=
  ⟨source, #[⟨.root, none, [], ⟨0, byteCount source⟩⟩]⟩

/-- How many nodes the style sheet has, with the root. -/
def size (sheet : Stylesheet) : Nat :=
  sheet.nodes.size

/-! ## Building -/

/-- The style sheet with one more node, the last child of `parent`. Its number is the size of the
style sheet before. -/
def append (sheet : Stylesheet) (parent : NodeId) (kind : Kind) (span : Span) : Stylesheet :=
  let id := sheet.size
  let node : Node := ⟨kind, some parent, [], span⟩
  { sheet with
    nodes := (sheet.nodes.push node).modify parent fun node =>
      { node with children := node.children ++ [id] } }

/-- The style sheet with another end of the text of a node. -/
def setStop (sheet : Stylesheet) (id : NodeId) (stop : Nat) : Stylesheet :=
  { sheet with
    nodes := sheet.nodes.modify id fun node => { node with span := ⟨node.span.start, stop⟩ } }

/-! ## Nodes -/

def node? (sheet : Stylesheet) (id : NodeId) : Option Node :=
  sheet.nodes[id]?

def kind? (sheet : Stylesheet) (id : NodeId) : Option Kind :=
  (sheet.node? id).map Node.kind

def parent? (sheet : Stylesheet) (id : NodeId) : Option NodeId :=
  (sheet.node? id).bind Node.parent

/-- The children of a node; none for numbers without a node. -/
def children (sheet : Stylesheet) (id : NodeId) : List NodeId :=
  (sheet.node? id).elim [] Node.children

def rule? (sheet : Stylesheet) (id : NodeId) : Option StyleRule :=
  match sheet.kind? id with
  | some (.rule rule) => some rule
  | _ => none

def atRule? (sheet : Stylesheet) (id : NodeId) : Option AtRule :=
  match sheet.kind? id with
  | some (.atRule rule) => some rule
  | _ => none

/-! ## Walks -/

/-- The nodes below a node, each in front of those below it. Children have greater numbers than
their parent, so the walk ends. -/
def descendants (sheet : Stylesheet) (id : NodeId) : List NodeId :=
  (sheet.children id).flatMap fun child =>
    if _bounds : id < child ∧ child < sheet.size then child :: sheet.descendants child else [child]
termination_by sheet.size - id
decreasing_by
  exact Nat.sub_lt_sub_left (Nat.lt_trans _bounds.1 _bounds.2) _bounds.1

/-- The style rules with their numbers, in the order of the walk. -/
def rules (sheet : Stylesheet) : List (NodeId × StyleRule) :=
  (sheet.descendants root).filterMap fun id => (sheet.rule? id).map (id, ·)

/-- What the nodes above a node are, from the nearest on and at most `limit` of them; a root ends
the walk. -/
def ancestorsWithin (sheet : Stylesheet) : Nat → NodeId → List Kind
  | 0, _ => []
  | limit + 1, id =>
    match sheet.parent? id with
    | none => []
    | some parent =>
      match sheet.kind? parent with
      | none => []
      | some .root => []
      | some kind => kind :: sheet.ancestorsWithin limit parent

/-- What the nodes above a node are, from the nearest on and without the root. -/
def ancestors (sheet : Stylesheet) (id : NodeId) : List Kind :=
  sheet.ancestorsWithin sheet.size id

/-! ## Places -/

def position (sheet : Stylesheet) (offset : Nat) : Position :=
  Position.ofOffset sheet.source offset

/-- The line and column at which a node begins; those of the first character for numbers without
a node. -/
def nodePosition (sheet : Stylesheet) (id : NodeId) : Position :=
  (sheet.node? id).elim Position.start fun node => sheet.position node.span.start

end Stylesheet

end CssLint
