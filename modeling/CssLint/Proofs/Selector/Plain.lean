import CssLint.Proofs.Selector.Written
import CssLint.Proofs.Text.Letters

/-!
# Plain selectors

Selector lists made of names of letters, universal selectors and negations.  Every
character of their texts is one of few, and none of the marks of a preprocessor can
occur.

A property of texts that joined texts inherit is proved of the parts once, in a
`Spreading`, and then holds of all plain selectors.
-/

namespace CssLint.Selector.Written

open Text

/-- The name has letters only. -/
def Word.IsPlain (word : Word) : Prop :=
  ∀ c ∈ word.text, c.isAlpha = true

def Head.IsPlain : Head → Prop
  | .type name => name.IsPlain
  | .universal => True
  | .nesting => False

def Test.IsPlain : Test → Prop
  | .present name => name.IsPlain
  | .compare .. => False

/-- How a negation is written in front of its argument. -/
def negationText : List Char := [':', 'n', 'o', 't', '(']

variable {α : Type}

/-- A class, an id, an attribute that exists, or a negation whose argument is `inner`. -/
def Simple.IsPlain (inner : α → Prop) : Simple α → Prop
  | .className name => name.IsPlain
  | .id name => name.IsPlain
  | .attr test => test.IsPlain
  | .pseudo _ _ => False
  | .list mark name argument =>
      mark = .single ∧ name.text = ['n', 'o', 't'] ∧ inner argument

structure Compound.IsPlain (inner : α → Prop) (compound : Compound α) : Prop where
  head : ∀ head ∈ compound.head, head.IsPlain
  simples : ∀ simple ∈ compound.simples, simple.IsPlain inner

/-- Plain entries do not begin with a combinator. -/
structure Complex.IsPlain (inner : α → Prop) (complex : Complex α) : Prop where
  lead : complex.lead = none
  first : complex.first.IsPlain inner
  more : ∀ pair ∈ complex.more, pair.2.IsPlain inner

def Listing.IsPlain (inner : α → Prop) (listing : Listing α) : Prop :=
  ∀ entry ∈ listing.entries, entry.complex.IsPlain inner

def Argument.IsPlain : (levels : Nat) → Argument levels → Prop
  | 0 => Empty.elim
  | levels + 1 => Listing.IsPlain (Argument.IsPlain levels)

/-! ## Preludes -/

/-- A comma with blank characters around it. -/
structure Comma where
  before : Blanks
  after : Blanks

/-- A selector list without blank characters at its ends, as it stands in front of a block. -/
structure Prelude (α : Type) where
  first : Complex α
  more : List (Comma × Complex α)

def Comma.text (comma : Comma) : List Char :=
  comma.before.text ++ ',' :: comma.after.text

namespace Prelude

def text (form : Form α) (prelude_ : Prelude α) : List Char :=
  prelude_.first.text form ++
    prelude_.more.flatMap fun (comma, complex) => comma.text ++ complex.text form

def complexes (prelude_ : Prelude α) : List (Complex α) :=
  prelude_.first :: prelude_.more.map Prod.snd

def IsPlain (inner : α → Prop) (prelude_ : Prelude α) : Prop :=
  ∀ complex ∈ prelude_.complexes, complex.IsPlain inner

end Prelude

/-! ## Deciding -/

section Decidable

instance : DecidablePred Word.IsPlain := fun word =>
  List.decidableBAll _ word.text

instance : DecidablePred Head.IsPlain
  | .type name => inferInstanceAs (Decidable name.IsPlain)
  | .universal => .isTrue trivial
  | .nesting => .isFalse id

instance : DecidablePred Test.IsPlain
  | .present name => inferInstanceAs (Decidable name.IsPlain)
  | .compare .. => .isFalse id

variable {inner : α → Prop} [DecidablePred inner]

instance : DecidablePred (Simple.IsPlain inner)
  | .className name => inferInstanceAs (Decidable name.IsPlain)
  | .id name => inferInstanceAs (Decidable name.IsPlain)
  | .attr test => inferInstanceAs (Decidable test.IsPlain)
  | .pseudo _ _ => .isFalse id
  | .list mark name argument =>
      inferInstanceAs (Decidable (mark = .single ∧ name.text = ['n', 'o', 't'] ∧ inner argument))

instance : DecidablePred (Compound.IsPlain inner) := fun compound =>
  decidable_of_iff ((∀ head ∈ compound.head, head.IsPlain) ∧
      ∀ simple ∈ compound.simples, simple.IsPlain inner)
    ⟨fun both => ⟨both.1, both.2⟩, fun plain => ⟨plain.head, plain.simples⟩⟩

instance : DecidablePred (Complex.IsPlain inner) := fun complex =>
  decidable_of_iff (complex.lead = none ∧ complex.first.IsPlain inner ∧
      ∀ pair ∈ complex.more, pair.2.IsPlain inner)
    ⟨fun each => ⟨each.1, each.2.1, each.2.2⟩, fun plain => ⟨plain.lead, plain.first, plain.more⟩⟩

instance : DecidablePred (Listing.IsPlain inner) := fun listing =>
  inferInstanceAs (Decidable (∀ entry ∈ listing.entries, entry.complex.IsPlain inner))

instance : DecidablePred (Prelude.IsPlain inner) := fun prelude_ =>
  inferInstanceAs (Decidable (∀ complex ∈ prelude_.complexes, complex.IsPlain inner))

instance Argument.decidableIsPlain : (levels : Nat) → DecidablePred (Argument.IsPlain levels)
  | 0 => fun argument => argument.elim
  | levels + 1 =>
      have := decidableIsPlain levels
      inferInstanceAs (DecidablePred (Listing.IsPlain (Argument.IsPlain levels)))

end Decidable

/-! ## Spaces -/

/-- No blank characters. -/
def Blanks.none : Blanks :=
  ⟨[], fun _ member => absurd member List.not_mem_nil⟩

@[simp] theorem Blanks.text_none : none.text = [] := rfl

/-- A single space between two compound selectors. -/
def Link.space : Link :=
  .gap ⟨[' '], List.all_iff_forall_prop.1 (by decide)⟩ (List.cons_ne_nil _ _)

/-! ## Universal selectors -/

/-- A universal selector alone. -/
def Compound.universal : Compound α :=
  ⟨some .universal, [], Or.inl rfl⟩

/-! ## Texts of parts -/

theorem Complex.text_of_isPlain {inner : α → Prop} {complex : Complex α}
    (plain : complex.IsPlain inner) (form : Form α) :
    complex.text form = complex.first.text form ++
      complex.more.flatMap fun (link, compound) => link.text ++ compound.text form := by
  rw [Complex.text, plain.lead, Option.elim_none, List.nil_append]

theorem Simple.text_negation {inner : α → Prop} {mark : Mark} {name : ListName} {argument : α}
    (plain : (Simple.list mark name argument).IsPlain inner) (form : Form α) :
    (Simple.list mark name argument).text form =
      negationText ++ (form.text argument ++ [')']) := by
  obtain ⟨rfl, named, _⟩ := plain
  rw [Simple.text, named]
  rfl

/-! ## Properties of texts -/

/-- Joined texts have the property when their parts do, and the parts of plain selectors have it;
`inside` is what the argument of a negation must be. -/
structure Spreading (property inside : List Char → Prop) : Prop where
  nil : property []
  append : ∀ left right, property left → property right → property (left ++ right)
  letter : ∀ c : Char, c.isAlpha = true → property [c]
  blank : ∀ c, isBlank c = true → property [c]
  sign : ∀ c ∈ ['.', '*', '>', '+', '~'], property [c]
  hash : ∀ name : Word, name.IsPlain → property ('#' :: name.text)
  presence : ∀ name : Word, name.IsPlain → property ('[' :: name.text ++ [']'])
  negation : ∀ text, inside text → property (negationText ++ (text ++ [')']))

theorem property_of_forall {property : List Char → Prop} (nil : property [])
    (append : ∀ left right, property left → property right → property (left ++ right))
    {text : List Char} (each : ∀ c ∈ text, property [c]) : property text := by
  induction text with
  | nil => exact nil
  | cons c text inductionHypothesis =>
      have later := inductionHypothesis fun other member =>
        each other (List.mem_cons_of_mem c member)
      exact append [c] text (each c List.mem_cons_self) later

namespace Spreading

variable {property inside : List Char → Prop} {inner : α → Prop} {form : Form α}

theorem of_forall (spreading : Spreading property inside) {text : List Char}
    (each : ∀ c ∈ text, property [c]) : property text :=
  property_of_forall spreading.nil spreading.append each

theorem flatMap (spreading : Spreading property inside) {β : Type} {parts : List β}
    {write : β → List Char} (each : ∀ part ∈ parts, property (write part)) :
    property (parts.flatMap write) := by
  induction parts with
  | nil => exact spreading.nil
  | cons part parts inductionHypothesis =>
      have later := inductionHypothesis fun other member =>
        each other (List.mem_cons_of_mem part member)
      exact spreading.append _ _ (each part List.mem_cons_self) later

theorem word (spreading : Spreading property inside) {name : Word} (plain : name.IsPlain) :
    property name.text :=
  spreading.of_forall fun c member => spreading.letter c (plain c member)

theorem blanks (spreading : Spreading property inside) (blanks : Blanks) : property blanks.text :=
  spreading.of_forall fun c member => spreading.blank c (blanks.blank c member)

theorem head (spreading : Spreading property inside) {head : Head} (plain : head.IsPlain) :
    property head.text := by
  cases head with
  | type name => exact spreading.word plain
  | universal => exact spreading.sign '*' (by decide)
  | nesting => exact False.elim plain

theorem simple (spreading : Spreading property inside)
    (arguments : ∀ argument, inner argument → inside (form.text argument)) {simple : Simple α}
    (plain : simple.IsPlain inner) : property (simple.text form) := by
  cases simple with
  | className name =>
      exact spreading.append ['.'] name.text (spreading.sign '.' (by decide))
        (spreading.word plain)
  | id name => exact spreading.hash name plain
  | attr test =>
      cases test with
      | present name => exact spreading.presence name plain
      | compare name comparison value plainValue => exact False.elim plain
  | pseudo mark name => exact False.elim plain
  | list mark name argument =>
      rw [Simple.text_negation plain]
      exact spreading.negation _ (arguments argument plain.2.2)

theorem compound (spreading : Spreading property inside)
    (arguments : ∀ argument, inner argument → inside (form.text argument)) {compound : Compound α}
    (plain : compound.IsPlain inner) : property (compound.text form) := by
  obtain ⟨head, simples, nonempty⟩ := compound
  refine spreading.append _ _ ?_ (spreading.flatMap fun simple member =>
    spreading.simple arguments (plain.simples simple member))
  cases head with
  | none => exact spreading.nil
  | some head => exact spreading.head (plain.head head rfl)

theorem link (spreading : Spreading property inside) (link : Link) : property link.text := by
  cases link with
  | gap blanks nonempty => exact spreading.blanks blanks
  | sign before combinator explicit after =>
      have signs : ∀ c ∈ combinator.symbol, c ∈ ['.', '*', '>', '+', '~'] := by
        cases combinator with
        | descendant => exact absurd rfl explicit
        | _ => exact List.all_iff_forall_prop.1 (by decide)
      have symbol : property combinator.symbol :=
        spreading.of_forall fun c member => spreading.sign c (signs c member)
      exact spreading.append _ _ (spreading.append _ _ (spreading.blanks before) symbol)
        (spreading.blanks after)

theorem complex (spreading : Spreading property inside)
    (arguments : ∀ argument, inner argument → inside (form.text argument)) {complex : Complex α}
    (plain : complex.IsPlain inner) : property (complex.text form) := by
  rw [Complex.text_of_isPlain plain]
  apply spreading.append
  · exact spreading.compound arguments plain.first
  · apply spreading.flatMap
    intro pair member
    exact spreading.append _ _ (spreading.link pair.1)
      (spreading.compound arguments (plain.more pair member))

theorem entry (spreading : Spreading property inside)
    (arguments : ∀ argument, inner argument → inside (form.text argument)) {entry : Entry α}
    (plain : entry.complex.IsPlain inner) : property (entry.text form) :=
  spreading.append _ _
    (spreading.append _ _ (spreading.blanks entry.before) (spreading.complex arguments plain))
    (spreading.blanks entry.after)

theorem listing (spreading : Spreading property inside) (comma : property [','])
    (arguments : ∀ argument, inner argument → inside (form.text argument)) {listing : Listing α}
    (plain : listing.IsPlain inner) : property (listing.text form) := by
  obtain ⟨entries, nonempty⟩ := listing
  induction entries with
  | nil => exact absurd rfl nonempty
  | cons first more inductionHypothesis =>
      have here := spreading.entry arguments (plain first List.mem_cons_self)
      cases more with
      | nil =>
          rw [Listing.text_singleton]
          exact here
      | cons second more =>
          have later := inductionHypothesis (List.cons_ne_nil second more)
            fun entry member => plain entry (List.mem_cons_of_mem first member)
          rw [Listing.text_cons_cons]
          exact spreading.append _ _ here (spreading.append [','] _ comma later)

theorem prelude_ (spreading : Spreading property inside) (comma : property [','])
    (arguments : ∀ argument, inner argument → inside (form.text argument)) {prelude_ : Prelude α}
    (plain : prelude_.IsPlain inner) : property (prelude_.text form) := by
  apply spreading.append
  · exact spreading.complex arguments (plain _ List.mem_cons_self)
  · apply spreading.flatMap
    intro pair member
    have listed : pair.2 ∈ prelude_.complexes :=
      List.mem_cons_of_mem _ (List.mem_map_of_mem member)
    have sign := spreading.append _ _ (spreading.blanks pair.1.before)
      (spreading.append _ _ comma (spreading.blanks pair.1.after))
    exact spreading.append _ _ sign (spreading.complex arguments (plain _ listed))

theorem argument (spreading : Spreading inside inside) (comma : inside [',']) (levels : Nat)
    (argument : Argument levels) (plain : argument.IsPlain levels) :
    inside ((Argument.form levels).text argument) := by
  induction levels with
  | zero => exact argument.elim
  | succ levels inductionHypothesis =>
      exact spreading.listing comma inductionHypothesis plain

end Spreading

end CssLint.Selector.Written
