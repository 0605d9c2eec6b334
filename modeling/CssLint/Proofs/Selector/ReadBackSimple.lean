import CssLint.Proofs.Selector.WrittenNames
import CssLint.Selector.Reader

/-!
# Reading simple selectors back

A simple selector that was written is read as its node, whatever text follows
behind a character that no name can hold.  That character is the only thing that
the proofs have to know about what follows.
-/

namespace CssLint.Selector.Written

open Text CssLint.Name

/-! ## Attributes -/

theorem splitAt?_append {c : Char} {left : List Char} (absent : c ∉ left)
    (right : List Char) : splitAt? c (left ++ c :: right) = some (left, right) := by
  induction left with
  | nil => simp [splitAt?]
  | cons first left inductionHypothesis =>
      have different : first ≠ c := fun same => absent (same ▸ List.mem_cons_self)
      have later := inductionHypothesis fun member => absent (List.mem_cons_of_mem first member)
      simp [splitAt?, different, later]

private theorem splitAt?_eq_none {c : Char} {text : List Char} (absent : c ∉ text) :
    splitAt? c text = none := by
  induction text with
  | nil => rfl
  | cons first text inductionHypothesis =>
      have different : first ≠ c := fun same => absent (same ▸ List.mem_cons_self)
      have later := inductionHypothesis fun member => absent (List.mem_cons_of_mem first member)
      simp [splitAt?, different, later]

private theorem stringEnd?_append {value : List Char}
    (plain : ∀ c ∈ value, c ≠ '"' ∧ c ≠ '\\') (rest : List Char) :
    stringEnd? '"' (value ++ '"' :: rest) = some rest := by
  induction value with
  | nil => simp [stringEnd?]
  | cons c value inductionHypothesis =>
      obtain ⟨notQuote, notEscape⟩ := plain c List.mem_cons_self
      have later := inductionHypothesis fun other member =>
        plain other (List.mem_cons_of_mem c member)
      rw [List.cons_append, stringEnd?]
      · simp [notQuote, later]
      · rintro rfl
        exact absurd rfl notEscape
      · rintro d more rfl
        exact absurd rfl notEscape

/-- The characters of an attribute selector that neither end it nor begin a string. -/
theorem attributeEnd_append (start : List Char) {text : List Char}
    (plain : ∀ c ∈ text, c ≠ ']' ∧ c ≠ '"' ∧ c ≠ '\'' ∧ c ≠ '\\') (rest : List Char) :
    attributeEnd start (text ++ rest) = attributeEnd start rest := by
  induction text with
  | nil => rfl
  | cons c text inductionHypothesis =>
      obtain ⟨notClose, notDouble, notSingle, notEscape⟩ := plain c List.mem_cons_self
      have later := inductionHypothesis fun other member =>
        plain other (List.mem_cons_of_mem c member)
      rw [List.cons_append, attributeEnd]
      simp [notClose, notDouble, notSingle, notEscape, later]

namespace Test

private theorem plain_of_isPart {c : Char} (part : isPart c = true) :
    c ≠ ']' ∧ c ≠ '"' ∧ c ≠ '\'' ∧ c ≠ '\\' := by
  refine ⟨?_, ?_, ?_, ?_⟩ <;> rintro rfl <;> cases part

private theorem plain_of_mem_symbol {comparison : Comparison} {c : Char}
    (member : c ∈ comparison.symbol) : c ≠ ']' ∧ c ≠ '"' ∧ c ≠ '\'' ∧ c ≠ '\\' := by
  have plain : comparison.symbol.all
      (fun c => c != ']' && c != '"' && c != '\'' && c != '\\') = true := by
    cases comparison <;> rfl
  have holds := List.all_eq_true.1 plain c member
  simpa [and_assoc] using holds

/-- Nothing in front of a value ends the attribute selector or begins a string. -/
theorem plain_of_mem_front {name : Word} {comparison : Comparison} {c : Char}
    (member : c ∈ name.text ++ comparison.symbol) : c ≠ ']' ∧ c ≠ '"' ∧ c ≠ '\'' ∧ c ≠ '\\' := by
  rcases List.mem_append.1 member with ofName | ofSymbol
  · exact plain_of_isPart (name.parts c ofName)
  · exact plain_of_mem_symbol ofSymbol

theorem attributeEnd_text (test : Test) (start rest : List Char) :
    attributeEnd start (test.text ++ ']' :: rest) = .ok rest := by
  have closed : attributeEnd start (']' :: rest) = .ok rest := by
    rw [attributeEnd]
    simp
  cases test with
  | present name =>
      rw [Test.text, attributeEnd_append start fun c member =>
        plain_of_isPart (name.parts c member)]
      exact closed
  | compare name comparison value plain =>
      have string := stringEnd?_append plain (']' :: rest)
      simp only [Test.text, List.append_assoc, List.cons_append, List.nil_append]
      rw [← List.append_assoc, attributeEnd_append start fun c => plain_of_mem_front, attributeEnd]
      split
      · rename_i same
        cases same
      · split
        · split
          · rename_i none_
            rw [string] at none_
            cases none_
          · rename_i found
            rw [string] at found
            cases found
            exact closed
        · rename_i notQuote
          exact absurd rfl notQuote

theorem bareStart (test : Test) : BareStart test.text := by
  cases test with
  | present name => exact name.bareStart
  | compare name comparison value plain =>
      rw [Test.text, List.append_assoc, List.append_assoc]
      exact name.bareStart.append _

theorem bareEnd (test : Test) : BareEnd test.text := by
  cases test with
  | present name => exact name.bareEnd
  | compare name comparison value plain => exact ⟨_, '"', rfl, by decide⟩

private theorem not_mem_name (name : Word) {c : Char} (notPart : isPart c = false) :
    c ∉ name.text := by
  intro member
  rw [name.parts c member] at notPart
  cases notPart

private theorem splitName_append (name : Word) (comparison : Comparison) :
    AttributeTest.splitName (name.text ++ comparison.symbol.dropLast) =
      (name.text, comparison) := by
  have trimmed : trimEnd name.text = name.text := trimEnd_eq_self name.bareEnd
  cases comparison with
  | equals =>
      have noSign : name.text.getLast?.bind AttributeTest.comparison? = none := by
        cases last : name.text.getLast? with
        | none => rfl
        | some c =>
            have part := name.parts c (List.mem_of_getLast? last)
            rw [Option.bind_some]
            unfold AttributeTest.comparison?
            split <;> first | rfl | cases part
      simp only [Comparison.symbol, List.dropLast_singleton, List.append_nil,
        AttributeTest.splitName, trimmed, noSign]
  | _ =>
      simp only [Comparison.symbol, List.dropLast_cons_cons, List.dropLast_singleton,
        AttributeTest.splitName]
      rw [trimEnd_eq_self ⟨name.text, _, rfl, by decide⟩]
      simp [AttributeTest.comparison?, trimmed]

private theorem isName_text (name : Word) : AttributeTest.isName name.text = true := by
  obtain ⟨c, text, same, _⟩ := name.exists_cons
  have noBlank : name.text.any isBlank = false := by
    rw [List.any_eq_false]
    intro d member blank
    have space := isSpace_of_isBlank blank
    rw [isSpace_of_isWordPart (name.wordParts d member)] at space
    cases space
  rw [AttributeTest.isName, noBlank, same]
  rfl

/-- A comparison is divided at the first equals sign, whatever stands behind it. -/
theorem ofBody?_compare (name : Word) (comparison : Comparison) {value : List Char}
    (bareEnd : BareEnd value) :
    AttributeTest.ofBody? (name.text ++ comparison.symbol ++ value) =
      (AttributeTest.value? value).map (.compare name.text comparison) := by
  have bareStart : BareStart (name.text ++ comparison.symbol ++ value) := by
    rw [List.append_assoc]
    exact name.bareStart.append _
  have shape : name.text ++ comparison.symbol ++ value =
      (name.text ++ comparison.symbol.dropLast) ++ '=' :: value := by
    cases comparison <;> simp [Comparison.symbol]
  have absent : '=' ∉ name.text ++ comparison.symbol.dropLast := by
    rw [List.mem_append]
    rintro (ofName | ofSymbol)
    · exact not_mem_name name (by decide) ofName
    · revert ofSymbol
      cases comparison <;> decide
  simp only [AttributeTest.ofBody?, trim_eq_self bareStart (bareEnd.append _)]
  rw [shape, splitAt?_append absent]
  simp only [splitName_append, isName_text, if_true]

theorem ofBody?_text (test : Test) : AttributeTest.ofBody? test.text = some test.meaning := by
  cases test with
  | present name =>
      have noSign : splitAt? '=' (Test.present name).text = none :=
        splitAt?_eq_none (not_mem_name name (by decide))
      simp only [AttributeTest.ofBody?, trim_eq_self name.bareStart name.bareEnd, Test.text] at noSign ⊢
      rw [noSign]
      simp [isName_text, meaning]
  | compare name comparison value plain =>
      have shape : (Test.compare name comparison value plain).text =
          name.text ++ comparison.symbol ++ ('"' :: value ++ ['"']) := by
        simp [Test.text]
      have quotedStart : BareStart ('"' :: value ++ ['"']) := ⟨'"', _, rfl, by decide⟩
      have quotedEnd : BareEnd ('"' :: value ++ ['"']) := ⟨_, '"', rfl, by decide⟩
      have noQuote : '"' ∉ value := fun member => (plain '"' member).1 rfl
      have readValue : AttributeTest.value? ('"' :: value ++ ['"']) = some value := by
        simp only [AttributeTest.value?, trim_eq_self quotedStart quotedEnd]
        simp only [AttributeTest.splitValue, List.cons_append, splitAt?_append noQuote]
        rfl
      rw [shape, ofBody?_compare name comparison quotedEnd, readValue]
      rfl

end Test

/-! ## Simple selectors -/

/-- The characters that a simple selector may begin with. -/
def beginsSimple (c : Char) : Bool :=
  isStart c || ['*', '&', '.', '#', '[', ':'].contains c

/-- The text in front of `rest` is read as one simple selector. -/
def ReadsSimple (inner : Option ListReader) (text rest : List Char) (node : Node) : Prop :=
  ∃ c inside, text ++ rest = c :: inside ∧ beginsSimple c = true ∧
    readSimple inner c inside = .ok (node, rest)

variable {α : Type} {form : Form α} {inner : Option ListReader}

/-- A reader for arguments gives back every argument that stands in front of a closing
parenthesis; no argument is empty. -/
structure ReadsBack (form : Form α) (inner : Option ListReader) : Prop where
  read : ∀ argument, ∃ reader, inner = some reader ∧ ∀ rest,
    reader.read ((form.text argument ++ ')' :: rest).dropWhile isBlank) =
      .ok (form.nodes argument, ')' :: rest)
  notEmpty : ∀ argument rest, after? [')'] ((form.text argument ++ rest).dropWhile isBlank) = none

private theorem startsNamespaceBar_of_breaks {rest : List Char} (breaks : Breaks rest) :
    startsNamespaceBar rest = false := by
  cases rest with
  | nil => rfl
  | cons c more =>
      obtain ⟨_, _, _, notBar⟩ := not_continues_of_isBreak (breaks c more rfl)
      unfold startsNamespaceBar
      split
      · rfl
      · rfl
      · rename_i same
        exact absurd (List.cons.inj same).1 notBar
      · rfl

private theorem not_special_of_isStart {c : Char} (start : isStart c = true) :
    c ≠ '.' ∧ c ≠ '#' ∧ c ≠ '*' ∧ c ≠ '|' ∧ c ≠ '&' ∧ c ≠ '[' ∧ c ≠ ':' ∧ c ≠ '"' ∧ c ≠ '\'' := by
  refine ⟨?_, ?_, ?_, ?_, ?_, ?_, ?_, ?_, ?_⟩ <;> rintro rfl <;> cases start

theorem Head.readsSimple (inner : Option ListReader) (head : Head) {rest : List Char}
    (breaks : Breaks rest) : ReadsSimple inner head.text rest head.node := by
  have noBar := startsNamespaceBar_of_breaks breaks
  cases head with
  | type name =>
      obtain ⟨c, text, same, start⟩ := name.exists_cons
      have starts := name.starts_append rest
      have dropped := drop_append name.parts breaks.stops
      obtain ⟨notDot, notHash, notStar, notBar, notAmpersand, notSquare, notColon, notDouble,
        notSingle⟩ := not_special_of_isStart start
      have written : before (c :: text ++ rest) rest = c :: text := before_append _ _
      refine ⟨c, text ++ rest, ?_, by simp [beginsSimple, start], ?_⟩
      · rw [Head.text, same, List.cons_append]
      · rw [same, List.cons_append] at starts dropped
        rw [List.cons_append] at written
        simp [readSimple, notDot, notHash, notStar, notBar, notAmpersand, notSquare, notColon,
          notDouble, notSingle, starts, dropped, readTypeEnd, noBar, leafBefore, written,
          Head.node, Head.kind, Head.text, same]
  | universal =>
      refine ⟨'*', rest, rfl, by decide, ?_⟩
      have written : before ('*' :: rest) rest = ['*'] := before_append ['*'] rest
      simp [readSimple, readTypeEnd, noBar, leafBefore, written, Head.node, Head.kind, Head.text]
  | nesting =>
      refine ⟨'&', rest, rfl, by decide, ?_⟩
      have written : before ('&' :: rest) rest = ['&'] := before_append ['&'] rest
      simp [readSimple, leafBefore, written, Head.node, Head.kind, Head.text]

namespace Simple

private theorem readsSimple_className (name : Word) {rest : List Char} (breaks : Breaks rest) :
    ReadsSimple inner ((className name : Simple α).text form) rest
      ((className name : Simple α).node form) := by
  have starts := name.starts_append rest
  have dropped := drop_append name.parts breaks.stops
  have written : before ('.' :: name.text ++ rest) rest = '.' :: name.text := before_append _ _
  refine ⟨'.', name.text ++ rest, rfl, by decide, ?_⟩
  rw [List.cons_append] at written
  simp [readSimple, starts, dropped, leafBefore, written, Simple.node, Simple.text]

private theorem readsSimple_id (name : Word) {rest : List Char} (breaks : Breaks rest) :
    ReadsSimple inner ((id name : Simple α).text form) rest ((id name : Simple α).node form) := by
  have dropped := drop_append name.parts breaks.stops
  have written : before ('#' :: name.text ++ rest) rest = '#' :: name.text := before_append _ _
  refine ⟨'#', name.text ++ rest, rfl, by decide, ?_⟩
  rw [List.cons_append] at written
  simp [readSimple, dropped, leafBefore, written, name.ne_nil, Simple.node, Simple.text]

private theorem readsSimple_attr (test : Test) (rest : List Char) :
    ReadsSimple inner ((attr test : Simple α).text form) rest
      ((attr test : Simple α).node form) := by
  have closed := test.attributeEnd_text ('[' :: (test.text ++ ']' :: rest)) rest
  have written : before ('[' :: test.text ++ [']'] ++ rest) rest = '[' :: test.text ++ [']'] :=
    before_append _ _
  simp only [List.cons_append, List.append_assoc, List.nil_append] at written
  refine ⟨'[', test.text ++ ']' :: rest, by simp [Simple.text], by decide, ?_⟩
  simp [readSimple, readAttribute, closed, written, test.ofBody?_text, Simple.node, Simple.text]

/-- A pseudo-class behind its name. -/
private theorem readPseudo_append (inner : Option ListReader) (mark : Mark)
    {name rest : List Char}
    (parts : ∀ c ∈ name, isPart c = true) (starts : Name.starts (name ++ rest) = true)
    (stops : Stops rest) :
    readPseudo inner (mark.text ++ (name ++ rest)) =
      match after? ['('] rest with
      | none => .ok (Node.leaf (.pseudo (mark.text ++ name)) (mark.text ++ name), rest)
      | some argument =>
          readArgument inner (takesList name) (mark.text ++ name) (mark.text ++ (name ++ rest))
            rest argument := by
  have dropped := drop_append parts stops
  have ofName : before (name ++ rest) rest = name := before_append _ _
  have chosen : (if (after? [':', ':'] (mark.text ++ (name ++ rest))).isSome = true then
      [':', ':'] else [':']) = mark.text := by
    cases mark with
    | single =>
        cases name with
        | nil =>
            cases rest with
            | nil => cases starts
            | cons c more =>
                have different : ':' ≠ c := by
                  rintro rfl
                  rw [List.nil_append] at starts
                  cases starts
                simp [Mark.text, after?, different]
        | cons c name =>
            have different : ':' ≠ c := by
              rintro rfl
              cases parts ':' List.mem_cons_self
            simp [Mark.text, after?, different]
    | double => simp [Mark.text, after?]
  have written : before (mark.text ++ (name ++ rest)) rest = mark.text ++ name := by
    rw [← List.append_assoc]
    exact before_append _ _
  cases argument : after? ['('] rest with
  | none => simp [readPseudo, chosen, starts, dropped, written, argument]
  | some argument => simp [readPseudo, chosen, starts, dropped, written, ofName, argument]

private theorem readsSimple_pseudo (mark : Mark) (name : Word) {rest : List Char}
    (breaks : Breaks rest) :
    ReadsSimple inner ((pseudo mark name : Simple α).text form) rest
      ((pseudo mark name : Simple α).node form) := by
  have read := readPseudo_append inner mark name.parts (name.starts_append rest)
    breaks.stops
  have noArgument : after? ['('] rest = none := by
    cases rest with
    | nil => rfl
    | cons c more =>
        obtain ⟨_, _, notOpen, _⟩ := not_continues_of_isBreak (breaks c more rfl)
        simp [after?, Ne.symm notOpen]
  rw [noArgument] at read
  obtain ⟨tail, same⟩ : ∃ tail, mark.text = ':' :: tail := by
    cases mark <;> exact ⟨_, rfl⟩
  refine ⟨':', tail ++ (name.text ++ rest), ?_, by decide, ?_⟩
  · simp [Simple.text, same]
  · rw [same, List.cons_append] at read
    simpa [readSimple, Simple.node, Simple.text, same] using read

private theorem readsSimple_list (mark : Mark) (name : ListName) (argument : α) (rest : List Char)
    (readsBack : ReadsBack form inner) :
    ReadsSimple inner ((list mark name argument : Simple α).text form) rest
      ((list mark name argument : Simple α).node form) := by
  obtain ⟨reader, isReader, back⟩ := readsBack.read argument
  have notEmpty := readsBack.notEmpty argument (')' :: rest)
  have stops : Stops ('(' :: (form.text argument ++ ')' :: rest)) :=
    stops_cons (by decide) (by decide) _
  have read := readPseudo_append inner mark name.parts
    (name.starts_append ('(' :: (form.text argument ++ ')' :: rest))) stops
  have written :
      before (mark.text ++ (name.text ++ '(' :: (form.text argument ++ ')' :: rest))) rest =
      mark.text ++ name.text ++ '(' :: form.text argument ++ [')'] := by
    have joined := before_append (mark.text ++ name.text ++ '(' :: form.text argument ++ [')']) rest
    simpa using joined
  have opened : after? ['('] ('(' :: (form.text argument ++ ')' :: rest)) =
      some (form.text argument ++ ')' :: rest) := by simp [after?]
  have closed : after? [')'] (')' :: rest) = some rest := by simp [after?]
  rw [opened] at read
  simp only [readArgument, name.listed, if_true, notEmpty, isReader, back rest, closed,
    written] at read
  obtain ⟨tail, same⟩ : ∃ tail, mark.text = ':' :: tail := by
    cases mark <;> exact ⟨_, rfl⟩
  refine ⟨':', tail ++ (name.text ++ '(' :: (form.text argument ++ ')' :: rest)), ?_,
    by decide, ?_⟩
  · simp [Simple.text, same]
  · rw [same, List.cons_append] at read
    simpa [readSimple, Simple.node, Simple.text, same, isReader] using read

theorem readsSimple (simple : Simple α) {rest : List Char} (breaks : Breaks rest)
    (readsBack : ReadsBack form inner) :
    ReadsSimple inner (simple.text form) rest (simple.node form) := by
  cases simple with
  | className name => exact readsSimple_className name breaks
  | id name => exact readsSimple_id name breaks
  | attr test => exact readsSimple_attr test rest
  | pseudo mark name => exact readsSimple_pseudo mark name breaks
  | list mark name argument => exact readsSimple_list mark name argument rest readsBack

end Simple

end CssLint.Selector.Written
