import CssLint.Selector.Simple

/-!
# Written selectors

A selector list together with the way it is laid out: which names it has, which
quotes, and which blank characters stand between its parts.  The types hold
exactly the layouts that the grammar allows, so every value can be written.

The arguments of pseudo-classes are selector lists again.  A text in which they
stand at most `levels` deep inside each other is a `Listing (Argument levels)`.
-/

namespace CssLint.Selector.Written

open Text

/-! ## Characters and names -/

/-- A run of blank characters, which may be empty. -/
structure Blanks where
  text : List Char
  blank : ∀ c ∈ text, isBlank c = true
deriving DecidableEq

/-- The letters, digits, hyphens and low lines of ASCII. -/
def isWordPart (c : Char) : Bool :=
  c.isAlphanum || c == '-' || c == '_'

/-- Whether a text is a letter or a low line, and behind it characters of words. -/
def isWord : List Char → Bool
  | [] => false
  | c :: text => (c.isAlpha || c == '_') && text.all isWordPart

/-- A name of ASCII characters without escapes. -/
structure Word where
  text : List Char
  wellFormed : isWord text = true
deriving DecidableEq

/-- The name of a pseudo-class that takes a selector list, in any letter case. -/
structure ListName where
  text : List Char
  listed : takesList text = true
deriving DecidableEq

/-- The colons in front of a pseudo-class or a pseudo-element. -/
inductive Mark where
  | single
  | double
deriving DecidableEq

def Mark.text : Mark → List Char
  | single => [':']
  | double => [':', ':']

/-! ## Compound selectors -/

/-- The inside of an attribute selector; values stand between double quotes. -/
inductive Test where
  | present (name : Word)
  | compare (name : Word) (comparison : Comparison) (value : List Char)
      (plain : ∀ c ∈ value, c ≠ '"' ∧ c ≠ '\\')

namespace Test

def text : Test → List Char
  | present name => name.text
  | compare name comparison value _ =>
      name.text ++ comparison.symbol ++ '"' :: value ++ ['"']

/-- What the attribute selector tests. -/
def meaning : Test → AttributeTest
  | present name => .present name.text
  | compare name comparison value _ => .compare name.text comparison value

end Test

/-- What a compound selector may begin with. -/
inductive Head where
  | type (name : Word)
  | universal
  | nesting

namespace Head

def text : Head → List Char
  | type name => name.text
  | universal => ['*']
  | nesting => ['&']

def kind : Head → Kind
  | type _ => .tag
  | universal => .universal
  | nesting => .nesting

def node (head : Head) : Node :=
  Node.leaf head.kind head.text

end Head

/-- A simple selector behind the head of a compound; `α` holds the arguments of
pseudo-classes. -/
inductive Simple (α : Type) where
  | className (name : Word)
  | id (name : Word)
  | attr (test : Test)
  | pseudo (mark : Mark) (name : Word)
  | list (mark : Mark) (name : ListName) (argument : α)

/-- A compound selector, which is not empty. -/
structure Compound (α : Type) where
  head : Option Head
  simples : List (Simple α)
  nonempty : head.isSome = true ∨ simples ≠ []

/-! ## Lists -/

/-- What stands between two compound selectors: blank characters alone, or a combinator with
blank characters around it. -/
inductive Link where
  | gap (blanks : Blanks) (nonempty : blanks.text ≠ [])
  | sign (before : Blanks) (combinator : Combinator) (explicit : combinator ≠ .descendant)
      (after : Blanks)

/-- A combinator in front of the first compound selector. -/
structure Lead where
  combinator : Combinator
  explicit : combinator ≠ .descendant
  after : Blanks

/-- An entry of a selector list: compound selectors with combinators between them. -/
structure Complex (α : Type) where
  lead : Option Lead
  first : Compound α
  more : List (Link × Compound α)

/-- An entry with the blank characters around it. -/
structure Entry (α : Type) where
  before : Blanks
  complex : Complex α
  after : Blanks

/-- A selector list, which is not empty. -/
structure Listing (α : Type) where
  entries : List (Entry α)
  nonempty : entries ≠ []

/-- The arguments of pseudo-classes that stand at most `levels` deep inside each other. -/
def Argument : Nat → Type
  | 0 => Empty
  | levels + 1 => Listing (Argument levels)

/-! ## Texts and trees -/

/-- How the arguments of pseudo-classes are written, and the nodes that they stand for. -/
structure Form (α : Type) where
  text : α → List Char
  nodes : α → List Node

variable {α : Type}

namespace Simple

def text (form : Form α) : Simple α → List Char
  | .className name => '.' :: name.text
  | .id name => '#' :: name.text
  | .attr test => '[' :: test.text ++ [']']
  | .pseudo mark name => mark.text ++ name.text
  | .list mark name argument => mark.text ++ name.text ++ '(' :: form.text argument ++ [')']

def node (form : Form α) (simple : Simple α) : Node :=
  match simple with
  | .className _ => Node.leaf .className (simple.text form)
  | .id _ => Node.leaf .id (simple.text form)
  | .attr test => Node.leaf (.attribute test.meaning) (simple.text form)
  | .pseudo mark name => Node.leaf (.pseudo (mark.text ++ name.text)) (simple.text form)
  | .list mark name argument =>
      ⟨.pseudo (mark.text ++ name.text), simple.text form, form.nodes argument⟩

end Simple

namespace Compound

def text (form : Form α) (compound : Compound α) : List Char :=
  compound.head.elim [] Head.text ++ compound.simples.flatMap (Simple.text form)

def nodes (form : Form α) (compound : Compound α) : List Node :=
  (compound.head.map Head.node).toList ++ compound.simples.map (Simple.node form)

end Compound

namespace Link

def text : Link → List Char
  | gap blanks _ => blanks.text
  | sign before combinator _ after => before.text ++ combinator.symbol ++ after.text

def combinator : Link → Combinator
  | gap _ _ => .descendant
  | sign _ combinator _ _ => combinator

/-- The node of the combinator; blank characters give one with a single space. -/
def node (link : Link) : Node :=
  Node.leaf (.combinator link.combinator) link.combinator.symbol

end Link

namespace Lead

def text (lead : Lead) : List Char :=
  lead.combinator.symbol ++ lead.after.text

def node (lead : Lead) : Node :=
  Node.leaf (.combinator lead.combinator) lead.combinator.symbol

end Lead

namespace Complex

def text (form : Form α) (complex : Complex α) : List Char :=
  complex.lead.elim [] Lead.text ++ complex.first.text form ++
    complex.more.flatMap fun (link, compound) => link.text ++ compound.text form

def nodes (form : Form α) (complex : Complex α) : List Node :=
  (complex.lead.map Lead.node).toList ++ complex.first.nodes form ++
    complex.more.flatMap fun (link, compound) => link.node :: compound.nodes form

end Complex

namespace Entry

def text (form : Form α) (entry : Entry α) : List Char :=
  entry.before.text ++ entry.complex.text form ++ entry.after.text

/-- The node of an entry; its text has no blank characters around it. -/
def node (form : Form α) (entry : Entry α) : Node :=
  ⟨.selector, entry.complex.text form, entry.complex.nodes form⟩

end Entry

namespace Listing

def text (form : Form α) (listing : Listing α) : List Char :=
  [','].intercalate (listing.entries.map (Entry.text form))

def nodes (form : Form α) (listing : Listing α) : List Node :=
  listing.entries.map (Entry.node form)

theorem text_cons_cons (form : Form α) (first second : Entry α) (more : List (Entry α))
    (nonempty : first :: second :: more ≠ []) :
    (mk (first :: second :: more) nonempty).text form =
      first.text form ++ ',' :: (mk (second :: more) (List.cons_ne_nil _ _)).text form := by
  simp [text, List.intercalate_cons_cons]

theorem text_singleton (form : Form α) (entry : Entry α) (nonempty : [entry] ≠ []) :
    (mk [entry] nonempty).text form = entry.text form := by
  simp [text]

/-- The form of selector lists, given that of the arguments inside them. -/
def form (inner : Form α) : Form (Listing α) :=
  ⟨text inner, nodes inner⟩

end Listing

/-- The form of arguments. -/
def Argument.form : (levels : Nat) → Form (Argument levels)
  | 0 => ⟨Empty.elim, Empty.elim⟩
  | levels + 1 => Listing.form (Argument.form levels)

end CssLint.Selector.Written
