import CssLint.Proofs.Selector.Plain
import CssLint.Proofs.Selector.ReadBack
import CssLint.Rule.MaxCompounds

/-!
# Measures of plain selectors

What is to be counted in a plain selector, as a function of how it is written: the
entries of the arguments of negations, from the inside out, and the selector itself.
The violations in the tree that is read are those measures that exceed the limit.
-/

namespace CssLint.Selector.Written

open Rule Text

/-- A selector that is counted, and the number of its compound selectors. -/
structure Measure where
  text : List Char
  compounds : Nat
deriving DecidableEq

variable {α : Type}

/-! ## Measures -/

def Simple.measures (inner : α → List Measure) : Simple α → List Measure
  | .list _ _ argument => inner argument
  | _ => []

def Compound.measures (inner : α → List Measure) (compound : Compound α) : List Measure :=
  compound.simples.flatMap (Simple.measures inner)

namespace Complex

/-- The measure of an entry itself. -/
def measure (form : Form α) (complex : Complex α) : Measure :=
  ⟨complex.text form, complex.more.length + 1⟩

/-- The measures of the negations in an entry, and behind them that of the entry. -/
def measures (form : Form α) (inner : α → List Measure) (complex : Complex α) : List Measure :=
  complex.first.measures inner ++
    (complex.more.flatMap fun (_, compound) => compound.measures inner) ++ [complex.measure form]

end Complex

def Listing.measures (form : Form α) (inner : α → List Measure) (listing : Listing α) :
    List Measure :=
  listing.entries.flatMap fun entry => entry.complex.measures form inner

def Argument.measures : (levels : Nat) → Argument levels → List Measure
  | 0 => Empty.elim
  | levels + 1 => Listing.measures (Argument.form levels) (Argument.measures levels)

def Prelude.measures (form : Form α) (inner : α → List Measure) (prelude_ : Prelude α) :
    List Measure :=
  prelude_.complexes.flatMap (Complex.measures form inner)

/-! ## Violations -/

namespace Measure

/-- The number that is compared with the limit: no more than the largest that is counted. -/
def count (measure : Measure) : Nat :=
  min measure.compounds maxCount

def violation (measure : Measure) : Violation :=
  ⟨measure.text, measure.count⟩

/-- The violations among the measures. -/
def violations (limit : Binary64) (measures : List Measure) : List Violation :=
  (measures.filter fun measure => limit.isExceededBy measure.count).map violation

end Measure

variable {limit : Binary64} {inner : α → Prop} {measures : α → List Measure} {form : Form α}

private theorem violations_append (left right : List Measure) :
    Measure.violations limit (left ++ right) =
      Measure.violations limit left ++ Measure.violations limit right := by
  rw [Measure.violations, List.filter_append, List.map_append]
  rfl

private theorem violationsBelow_flatMap {β : Type} {parts : List β} {nodes : β → List Node}
    {counted : β → List Measure}
    (each : ∀ part ∈ parts,
      violationsBelow limit (nodes part) = Measure.violations limit (counted part)) :
    violationsBelow limit (parts.flatMap nodes) =
      Measure.violations limit (parts.flatMap counted) := by
  induction parts with
  | nil =>
      rw [List.flatMap_nil, List.flatMap_nil, violationsBelow]
      rfl
  | cons part parts inductionHypothesis =>
      have later := inductionHypothesis fun other member =>
        each other (List.mem_cons_of_mem part member)
      rw [List.flatMap_cons, List.flatMap_cons, violationsBelow_append, violations_append, later,
        each part List.mem_cons_self]

private theorem violationsBelow_map {β : Type} {parts : List β} {node : β → Node}
    {counted : β → List Measure}
    (each : ∀ part ∈ parts,
      violationsBelow limit [node part] = Measure.violations limit (counted part)) :
    violationsBelow limit (parts.map node) =
      Measure.violations limit (parts.flatMap counted) := by
  rw [List.map_eq_flatMap]
  exact violationsBelow_flatMap each

/-- The nodes of arguments have the violations that were measured in them. -/
def Measured (limit : Binary64) (inner : α → Prop) (measures : α → List Measure)
    (form : Form α) : Prop :=
  ∀ argument, inner argument →
    violationsBelow limit (form.nodes argument) = Measure.violations limit (measures argument)

theorem Simple.violations (measured : Measured limit inner measures form) {simple : Simple α}
    (plain : simple.IsPlain inner) :
    violationsBelow limit [simple.node form] =
      Measure.violations limit (simple.measures measures) := by
  cases simple with
  | className name => exact violationsBelow_of_not_isEntered rfl
  | id name => exact violationsBelow_of_not_isEntered rfl
  | attr test => exact violationsBelow_of_not_isEntered rfl
  | pseudo mark name => exact False.elim plain
  | list mark name argument =>
      obtain ⟨rfl, named, plainArgument⟩ := plain
      have entered : isEntered (Simple.node form (.list .single name argument)) = true := by
        rw [Simple.node, named]
        rfl
      rw [violationsBelow, violationsBelow, entered, if_pos rfl, List.append_nil, Simple.node,
        Rule.violations, measured argument plainArgument]
      exact List.append_nil _

theorem Compound.violations (measured : Measured limit inner measures form)
    {compound : Compound α} (plain : compound.IsPlain inner) :
    violationsBelow limit (compound.nodes form) =
      Measure.violations limit (compound.measures measures) := by
  have ofSimples : violationsBelow limit (compound.simples.map (Simple.node form)) =
      Measure.violations limit (compound.measures measures) :=
    violationsBelow_map fun simple member =>
      Simple.violations measured (plain.simples simple member)
  rw [Compound.nodes, violationsBelow_append, ofSimples]
  cases compound.head with
  | none => rfl
  | some head =>
      have outside : isEntered head.node = false := by cases head <;> rfl
      rw [Option.map_some, Option.toList_some, violationsBelow_of_not_isEntered outside]
      rfl

private theorem violationsBelow_link (link : Link) (nodes : List Node) :
    violationsBelow limit (link.node :: nodes) = violationsBelow limit nodes := by
  rw [violationsBelow]
  rfl

theorem countP_compound (compound : Compound α) (form : Form α) :
    (compound.nodes form).countP Node.isCombinator = 0 := by
  rw [List.countP_eq_zero]
  intro node member
  rcases List.mem_append.1 member with ofHead | ofSimples
  · obtain ⟨head, _, rfl⟩ := Option.map_eq_some_iff.1 (Option.mem_toList.1 ofHead)
    cases head <;> exact Bool.false_ne_true
  · obtain ⟨simple, _, rfl⟩ := List.mem_map.1 ofSimples
    cases simple <;> exact Bool.false_ne_true

/-- A plain entry has as many combinators as compound selectors behind its first. -/
theorem Complex.countP_nodes {complex : Complex α} (plain : complex.IsPlain inner)
    (form : Form α) : (complex.nodes form).countP Node.isCombinator = complex.more.length := by
  have ofMore : ∀ more : List (Link × Compound α),
      (more.flatMap fun (link, compound) => link.node :: compound.nodes form).countP
        Node.isCombinator = more.length := by
    intro more
    induction more with
    | nil => rfl
    | cons pair more inductionHypothesis =>
        rw [List.flatMap_cons, List.countP_append, inductionHypothesis, List.countP_cons,
          countP_compound, List.length_cons, Nat.zero_add, Nat.add_comm]
        rfl
  rw [Complex.nodes, plain.lead, Option.map_none, Option.toList_none, List.nil_append,
    List.countP_append, countP_compound, ofMore, Nat.zero_add]

theorem Complex.compoundCount_nodes {complex : Complex α} (plain : complex.IsPlain inner)
    (form : Form α) : compoundCount (complex.nodes form) = (complex.measure form).count := by
  rw [compoundCount, Complex.countP_nodes plain]
  rfl

theorem Complex.violations (measured : Measured limit inner measures form)
    {complex : Complex α} (plain : complex.IsPlain inner) :
    Rule.violations limit ⟨.selector, complex.text form, complex.nodes form⟩ =
      Measure.violations limit (complex.measures form measures) := by
  have ofMore : violationsBelow limit
        (complex.more.flatMap fun (link, compound) => link.node :: compound.nodes form) =
      Measure.violations limit
        (complex.more.flatMap fun (_, compound) => compound.measures measures) := by
    apply violationsBelow_flatMap
    intro pair member
    rw [violationsBelow_link]
    exact Compound.violations measured (plain.more pair member)
  have itself : (if isMeasured .selector && limit.isExceededBy (compoundCount (complex.nodes form))
        then [⟨complex.text form, compoundCount (complex.nodes form)⟩] else []) =
      Measure.violations limit [complex.measure form] := by
    rw [Complex.compoundCount_nodes plain, Measure.violations, List.filter_cons]
    simp only [isMeasured, Bool.true_and]
    split <;> rfl
  rw [Rule.violations, itself, Complex.measures, violations_append, violations_append,
    Complex.nodes, plain.lead, Option.map_none, Option.toList_none, List.nil_append,
    violationsBelow_append, ofMore, Compound.violations measured plain.first]

theorem measured_argument (limit : Binary64) (levels : Nat) :
    Measured limit (Argument.IsPlain levels) (Argument.measures levels) (Argument.form levels) := by
  induction levels with
  | zero => exact fun argument => argument.elim
  | succ levels inductionHypothesis =>
      intro listing plain
      apply violationsBelow_map
      intro entry member
      rw [violationsBelow, violationsBelow, List.append_nil]
      exact Complex.violations inductionHypothesis (plain entry member)

/-! ## Places -/

private theorem infix_flatMap {β : Type} {parts : List β} {part : β} (member : part ∈ parts)
    (write : β → List Char) : write part <:+: parts.flatMap write := by
  rw [List.flatMap_def]
  exact List.infix_of_mem_flatten (List.mem_map_of_mem member)

/-- The measures of the arguments are those of parts of their texts. -/
def Occurs (inner : α → Prop) (measures : α → List Measure) (form : Form α) : Prop :=
  ∀ argument, inner argument → ∀ measure ∈ measures argument,
    measure.text <:+: form.text argument

theorem Compound.infix_of_mem_measures (occurs : Occurs inner measures form)
    {compound : Compound α} (plain : compound.IsPlain inner) {measure : Measure}
    (member : measure ∈ compound.measures measures) : measure.text <:+: compound.text form := by
  obtain ⟨simple, listed, ofSimple⟩ := List.mem_flatMap.1 member
  have plainSimple := plain.simples simple listed
  have inside : simple.text form <:+: compound.text form :=
    (infix_flatMap listed (Simple.text form)).trans (List.suffix_append _ _).isInfix
  cases simple with
  | list mark name argument =>
      have ofArgument := occurs argument plainSimple.2.2 measure ofSimple
      rw [Simple.text_negation plainSimple] at inside
      have written : form.text argument <:+: negationText ++ (form.text argument ++ [')']) :=
        ⟨negationText, [')'], List.append_assoc ..⟩
      exact (ofArgument.trans written).trans inside
  | _ => cases ofSimple

theorem Complex.infix_of_mem_measures (occurs : Occurs inner measures form)
    {complex : Complex α} (plain : complex.IsPlain inner) {measure : Measure}
    (member : measure ∈ complex.measures form measures) : measure.text <:+: complex.text form := by
  have text := Complex.text_of_isPlain plain form
  rcases List.mem_append.1 member with ofParts | itself
  · rcases List.mem_append.1 ofParts with ofFirst | ofMore
    · have inside := Compound.infix_of_mem_measures occurs plain.first ofFirst
      rw [text]
      exact inside.trans (List.prefix_append _ _).isInfix
    · obtain ⟨pair, listed, ofPair⟩ := List.mem_flatMap.1 ofMore
      have inside := Compound.infix_of_mem_measures occurs (plain.more pair listed) ofPair
      have ofText : pair.1.text ++ pair.2.text form <:+: complex.text form := by
        rw [text]
        exact (infix_flatMap listed fun pair : Link × Compound α =>
          pair.1.text ++ pair.2.text form).trans (List.suffix_append _ _).isInfix
      exact (inside.trans (List.suffix_append _ _).isInfix).trans ofText
  · cases List.mem_singleton.1 itself
    exact List.infix_refl _

private theorem infix_listing {listing : Listing α} {entry : Entry α}
    (member : entry ∈ listing.entries) : entry.complex.text form <:+: listing.text form := by
  obtain ⟨entries, nonempty⟩ := listing
  have written : ∀ entry : Entry α, entry.complex.text form <:+: entry.text form :=
    fun entry => ⟨entry.before.text, entry.after.text, rfl⟩
  induction entries with
  | nil => cases member
  | cons first more inductionHypothesis =>
      cases more with
      | nil =>
          cases List.mem_singleton.1 member
          rw [Listing.text_singleton]
          exact written entry
      | cons second more =>
          rw [Listing.text_cons_cons]
          rcases List.mem_cons.1 member with rfl | later
          · exact (written entry).trans (List.prefix_append _ _).isInfix
          · have inside := inductionHypothesis (List.cons_ne_nil _ _) later
            exact (inside.trans (List.suffix_cons _ _).isInfix).trans
              (List.suffix_append _ _).isInfix

theorem occurs_argument (levels : Nat) :
    Occurs (Argument.IsPlain levels) (Argument.measures levels) (Argument.form levels) := by
  induction levels with
  | zero => exact fun argument => argument.elim
  | succ levels inductionHypothesis =>
      intro listing plain measure member
      obtain ⟨entry, listed, ofEntry⟩ := List.mem_flatMap.1 member
      have inside := Complex.infix_of_mem_measures inductionHypothesis (plain entry listed) ofEntry
      exact inside.trans (infix_listing listed)

/-- What is measured in a prelude stands in its text. -/
theorem Prelude.infix_of_mem_measures {levels : Nat} {prelude_ : Prelude (Argument levels)}
    (plain : prelude_.IsPlain (Argument.IsPlain levels)) {measure : Measure}
    (member : measure ∈ prelude_.measures (Argument.form levels) (Argument.measures levels)) :
    measure.text <:+: prelude_.text (Argument.form levels) := by
  obtain ⟨complex, listed, ofComplex⟩ := List.mem_flatMap.1 member
  have inside := Complex.infix_of_mem_measures (occurs_argument levels) (plain complex listed)
    ofComplex
  rcases List.mem_cons.1 listed with rfl | later
  · exact inside.trans (List.prefix_append _ _).isInfix
  · obtain ⟨pair, listedPair, rfl⟩ := List.mem_map.1 later
    have written : pair.1.text ++ pair.2.text (Argument.form levels) <:+:
        prelude_.text (Argument.form levels) :=
      (infix_flatMap listedPair fun pair : Comma × Complex (Argument levels) =>
        pair.1.text ++ pair.2.text (Argument.form levels)).trans (List.suffix_append _ _).isInfix
    exact (inside.trans (List.suffix_append _ _).isInfix).trans written

/-! ## Reading -/

/-- The text of one entry is read as a list of this entry alone. -/
theorem ofText_complex (readsBack : ReadsBack form (argumentReader maxNesting))
    (complex : Complex α) :
    Node.ofText (complex.text form) =
      .ok ⟨.root, complex.text form, [⟨.selector, complex.text form, complex.nodes form⟩]⟩ := by
  let entry : Entry α := ⟨.none, complex, .none⟩
  have ends : EndsList false [] := Or.inl rfl
  have read := readList_text readsBack ⟨[entry], List.cons_ne_nil _ _⟩ ends
  have alone : (Listing.mk [entry] (List.cons_ne_nil _ _)).text form = complex.text form := by
    rw [Listing.text_singleton]
    exact List.append_nil _
  rw [List.append_nil, alone] at read
  rw [Node.ofText, read, trim_eq_self (complex.bareStart _) (complex.bareEnd _)]
  rfl

theorem grammar_complex (complex : Complex (Argument maxNesting)) :
    grammar (complex.text (Argument.form maxNesting)) =
      .ok ⟨.root, complex.text (Argument.form maxNesting),
        [⟨.selector, complex.text (Argument.form maxNesting),
          complex.nodes (Argument.form maxNesting)⟩]⟩ :=
  ofText_complex (readsBack_argument maxNesting) complex

/-- The violations in the tree of an entry are those among its measures. -/
theorem violations_root (limit : Binary64) {complex : Complex (Argument maxNesting)}
    (plain : complex.IsPlain (Argument.IsPlain maxNesting)) (text : List Char) :
    Rule.violations limit ⟨.root, text,
        [⟨.selector, complex.text (Argument.form maxNesting),
          complex.nodes (Argument.form maxNesting)⟩]⟩ =
      Measure.violations limit (complex.measures (Argument.form maxNesting)
        (Argument.measures maxNesting)) := by
  rw [Rule.violations, violationsBelow, violationsBelow,
    ← Complex.violations (measured_argument limit maxNesting) plain, List.append_nil]
  exact List.append_nil _

end CssLint.Selector.Written
