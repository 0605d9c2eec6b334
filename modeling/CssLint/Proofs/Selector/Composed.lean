import CssLint.Proofs.Rule.Fragments
import CssLint.Proofs.Selector.ContinuedLists

/-!
# Composed selectors

Accepted selectors are put together: with a comma between two of them, and in the
parentheses of a pseudo-class that takes a list.  What was accepted alone is accepted
there, with the same nodes.  So the violations in the argument of a negation are those
of the argument by itself.
-/

namespace CssLint.Selector

open Text Written

/-! ## Commas -/

/-- With a comma between them two selectors have the entries of both. -/
theorem ofText_append_comma {left right : List Char} {first second : Node}
    (ofLeft : Node.ofText left = .ok first) (ofRight : Node.ofText right = .ok second) :
    Node.ofText (left ++ ',' :: right) =
      .ok ⟨.root, trim (left ++ ',' :: right), first.children ++ second.children⟩ := by
  have within : first.NestsWithin maxNesting := (wellShaped_of_ofText ofLeft).2.2.2.nestsWithin
  have ends : EndsEntry false (',' :: right) := Or.inr (Or.inl ⟨right, rfl⟩)
  have read := readList_append ofLeft within ends
  rw [after?, if_pos rfl, after?] at read
  dsimp only at read
  rw [readList_of_ofText ofRight] at read
  rw [Node.ofText, read]
  rfl

/-! ## Arguments -/

/-- An accepted selector in which at most `levels` lists stand inside each other. -/
structure SelectorText (levels : Nat) where
  text : List Char
  root : Node
  read : Node.ofText text = .ok root
  within : root.NestsWithin levels

def SelectorText.form (levels : Nat) : Form (SelectorText levels) :=
  ⟨SelectorText.text, fun selector => selector.root.children⟩

theorem readItems_close (inner : Option ListReader) (last : Last) (spaced : Bool)
    (text : List Char) : (readItems inner false last spaced (')' :: text)).isOk = false := by
  rw [readItems_cons]
  rfl

/-- Behind blanks an accepted selector begins with something, and not by closing a parenthesis. -/
theorem exists_cons_of_ofText {text : List Char} {root : Node}
    (read : Node.ofText text = .ok root) :
    ∃ c more, text.dropWhile isBlank = c :: more ∧ c ≠ ')' := by
  have list := readList_of_ofText read
  rw [← readList_dropWhile] at list
  obtain ⟨entry, behind, first⟩ : ∃ entry behind,
      readItems (argumentReader maxNesting) false .nothing false (text.dropWhile isBlank) =
        .ok (entry, behind) := by
    rw [readList_eq, readEntry_eq] at list
    split at list
    · cases list
    · rename_i entry
      split at entry
      · cases entry
      · rename_i items
        exact ⟨_, _, items⟩
  cases start : text.dropWhile isBlank with
  | nil =>
      rw [start, readItems] at first
      cases first
  | cons c more =>
      refine ⟨c, more, rfl, ?_⟩
      rintro rfl
      have fails := readItems_close (argumentReader maxNesting) .nothing false more
      rw [← start, first] at fails
      cases fails

/-- One level further inside every accepted selector is read back as an argument. -/
theorem readsBack_selectorText (levels : Nat) :
    ReadsBack (SelectorText.form levels) (argumentReader (levels + 1)) := by
  refine ⟨fun selector => ⟨_, rfl, fun rest => ?_⟩, fun selector rest => ?_⟩
  · have ends : EndsEntry true (')' :: rest) := Or.inr (Or.inr ⟨rfl, rest, rfl⟩)
    exact (readList_dropWhile _ _ _).trans (readList_append selector.read selector.within ends)
  · obtain ⟨c, more, start, notClose⟩ := exists_cons_of_ofText selector.read
    have begins : ((SelectorText.form levels).text selector ++ rest).dropWhile isBlank =
        c :: (more ++ rest) := by
      rw [List.dropWhile_append]
      simp [SelectorText.form, start]
    rw [begins]
    simp [after?, Ne.symm notClose]

/-! ## Pseudo-classes -/

/-- A pseudo-class with the selector in its parentheses, behind a head or by itself. -/
def SelectorText.inside {levels : Nat} (selector : SelectorText levels) (head : Option Head)
    (name : ListName) : Complex (SelectorText levels) :=
  ⟨none, ⟨head, [.list .single name selector], Or.inr (List.cons_ne_nil _ _)⟩, []⟩

/-- What is written for the pseudo-class itself. -/
def SelectorText.pseudo {levels : Nat} (selector : SelectorText levels) (name : ListName) :
    List Char :=
  ':' :: name.text ++ '(' :: selector.text ++ [')']

section Inside

variable {levels : Nat} (selector : SelectorText levels) (head : Option Head) (name : ListName)

theorem text_inside : (selector.inside head name).text (SelectorText.form levels) =
    head.elim [] Head.text ++ selector.pseudo name := by
  simp [SelectorText.inside, SelectorText.pseudo, SelectorText.form, Complex.text, Compound.text,
    Simple.text, Mark.text]

theorem nodes_inside : (selector.inside head name).nodes (SelectorText.form levels) =
    (head.map Head.node).toList ++
      [⟨.pseudo (':' :: name.text), selector.pseudo name, selector.root.children⟩] := by
  simp [SelectorText.inside, SelectorText.pseudo, SelectorText.form, Complex.nodes,
    Compound.nodes, Simple.node, Simple.text, Mark.text]

/-- Behind at most one compound selector, the violations in a negation are those of its argument
by itself. -/
theorem violations_inside {limit : Binary64} (enough : limit.isExceededBy 1 = false)
    (negation : alike name.text ['n', 'o', 't'] = true) (text written : List Char) :
    Rule.violations limit ⟨.root, text, [⟨.selector, written,
        (selector.inside head name).nodes (SelectorText.form levels)⟩]⟩ =
      Rule.violations limit selector.root := by
  have count : Rule.compoundCount ((selector.inside head name).nodes (SelectorText.form levels)) =
      1 := by
    rw [Rule.compoundCount, Complex.nodes]
    simp only [SelectorText.inside, Option.map_none, Option.toList_none, List.nil_append,
      List.flatMap_nil, List.append_nil, countP_compound]
    rfl
  have entered : Rule.isEntered
      ⟨.pseudo (':' :: name.text), selector.pseudo name, selector.root.children⟩ = true := by
    simp only [alike, beq_iff_eq] at negation
    simp only [Rule.isEntered, Node.isNegation, alike]
    rw [lower, List.map_cons, ← lower, negation]
    rfl
  have ofHead : Rule.violationsBelow limit (head.map Head.node).toList = [] := by
    rcases head with _ | head
    · rw [Option.map_none, Option.toList_none, Rule.violationsBelow]
    · exact Rule.violationsBelow_of_not_isEntered (by cases head <;> rfl)
  have ofEntry : Rule.violations limit ⟨.selector, written,
      (selector.inside head name).nodes (SelectorText.form levels)⟩ =
        Rule.violationsBelow limit selector.root.children := by
    rw [Rule.violations, count, enough, nodes_inside, Rule.violationsBelow_append, ofHead,
      Rule.violationsBelow, Rule.violationsBelow, if_pos entered, Rule.violations]
    simp [Rule.isMeasured]
  rw [Rule.violations_root_eq selector.read, ← ofEntry, Rule.violations, Rule.violationsBelow,
    Rule.violationsBelow]
  simp [Rule.isMeasured, Rule.isEntered, Node.isSelector]

end Inside

/-! ## Compositions -/

/-- Selectors are put together without a change to their nodes.  With a comma between them two
accepted selectors are accepted, with the entries of the one and behind them those of the other.
In parentheses behind the name of a pseudo-class that takes a list, an accepted selector is
accepted with its own entries, unless so many lists stand inside each other in it that one more is
too deep.  So the violations in the argument of a negation do not depend on where it stands. -/
theorem ofText_compose :
    (∀ {left right : List Char} {first second : Node},
      Node.ofText left = .ok first → Node.ofText right = .ok second →
      ∃ root, Node.ofText (left ++ ',' :: right) = .ok root ∧
        root.children = first.children ++ second.children) ∧
    ∀ {text : List Char} {root : Node}, Node.ofText text = .ok root →
      (∀ path, Path root path → path.countP Node.isListing < maxNesting) →
      (∀ name, takesList name = true →
        let written := ':' :: name ++ '(' :: text ++ [')']
        Node.ofText written = .ok ⟨.root, written,
          [⟨.selector, written, [⟨.pseudo (':' :: name), written, root.children⟩]⟩]⟩) ∧
      ∀ (type : Word) (negation : List Char) (limit : Binary64),
        alike negation ['n', 'o', 't'] = true → limit.isExceededBy 1 = false →
        ∃ outer,
          Node.ofText (type.text ++ ':' :: negation ++ '(' :: text ++ [')']) = .ok outer ∧
          Rule.violations limit outer = Rule.violations limit root := by
  refine ⟨fun ofLeft ofRight => ⟨_, ofText_append_comma ofLeft ofRight, rfl⟩, ?_⟩
  intro text root read shallow
  have within : root.NestsWithin (maxNesting - 1) :=
    fun path down => Nat.le_sub_one_of_lt (shallow path down)
  let selector : SelectorText (maxNesting - 1) := ⟨text, root, read, within⟩
  have readInside := fun head name =>
    ofText_complex (readsBack_selectorText (maxNesting - 1)) (selector.inside head name)
  refine ⟨fun name listed => ?_, fun type negation limit negates enough => ?_⟩
  · have alone := readInside none ⟨name, listed⟩
    rw [text_inside, nodes_inside] at alone
    exact alone
  · have listed : takesList negation = true := by
      simp only [alike, beq_iff_eq] at negates
      rw [takesList, negates]
      decide
    have behind := readInside (some (.type type)) ⟨negation, listed⟩
    have written : type.text ++ ':' :: negation ++ '(' :: text ++ [')'] =
        (selector.inside (some (.type type)) ⟨negation, listed⟩).text
          (SelectorText.form _) := by
      rw [text_inside]
      simp [SelectorText.pseudo, Head.text, selector]
    rw [written]
    exact ⟨_, behind, violations_inside selector _ _ enough negates _ _⟩

/-- Two lists with a comma between them; and one of them in a pseudo-class with a name in capitals,
and in a negation. -/
theorem ofText_compose_nestedLists :
    ∃ first second, Node.ofText "a > b".toList = .ok first ∧
      Node.ofText " .c:not(d e) , f".toList = .ok second ∧
      (∃ root, Node.ofText "a > b, .c:not(d e) , f".toList = .ok root ∧
        root.children = first.children ++ second.children) ∧
      Node.ofText ":IS( .c:not(d e) , f)".toList = .ok ⟨.root, ":IS( .c:not(d e) , f)".toList,
        [⟨.selector, ":IS( .c:not(d e) , f)".toList,
          [⟨.pseudo ":IS".toList, ":IS( .c:not(d e) , f)".toList, second.children⟩]⟩]⟩ ∧
      ∃ outer, Node.ofText "x:not( .c:not(d e) , f)".toList = .ok outer ∧
        Rule.violations (.finite false 1 0) outer = Rule.violations (.finite false 1 0) second := by
  obtain ⟨first, ofFirst⟩ := exists_of_isOk (show (Node.ofText "a > b".toList).isOk = true by
    decide +kernel)
  have once : (readList (argumentReader 1) false " .c:not(d e) , f".toList).isOk = true := by
    decide +kernel
  obtain ⟨second, ofSecond, within⟩ := exists_ofText_of_readList (by decide) once
  have shallow : ∀ path, Path second path → path.countP Node.isListing < maxNesting :=
    fun path down => Nat.lt_of_le_of_lt (within path down) (by decide)
  obtain ⟨ofPseudo, ofNegation⟩ := ofText_compose.2 ofSecond shallow
  refine ⟨first, second, ofFirst, ofSecond, ofText_compose.1 ofFirst ofSecond,
    ofPseudo "IS".toList (by decide), ?_⟩
  exact ofNegation ⟨['x'], by decide⟩ "not".toList (.finite false 1 0) (by decide) (by decide)

end CssLint.Selector
