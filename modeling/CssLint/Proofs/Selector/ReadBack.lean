import CssLint.Proofs.Selector.ReadBackSimple
import Mathlib.Data.List.DropRight

/-!
# Reading written selector lists back

Every written selector list is read as the tree that was written: the reader of
items passes over each compound selector with its links, then entries and lists
follow.  Arguments of pseudo-classes are lists again, one level further inside,
so the whole argument is an induction on the levels.
-/

namespace CssLint.Selector.Written

open Text

variable {α : Type} {form : Form α} {inner : Option ListReader}

/-! ## Prepending -/

theorem prepend_prepend {β : Type} (first second : List β) (reading : Reading (List β)) :
    (reading.prepend second).prepend first = reading.prepend (first ++ second) := by
  cases reading with
  | error fault => rfl
  | ok read => simp [Reading.prepend]

theorem prepend_nil {β : Type} (reading : Reading (List β)) :
    reading.prepend [] = reading := by
  cases reading <;> rfl

/-! ## Steps of the reader of items -/

private theorem of_beginsSimple {c : Char} (begins : beginsSimple c = true) :
    c ≠ ',' ∧ c ≠ ')' ∧ isBlank c = false ∧ c ≠ '/' ∧ Combinator.ofChar? c = none := by
  have special : ∀ d : Char, (d = ',' ∨ d = ')' ∨ isBlank d = true ∨ d = '/' ∨
      d = '>' ∨ d = '+' ∨ d = '~') → beginsSimple d = false := by
    intro d cases_
    simp only [isBlank, Bool.or_eq_true, beq_iff_eq] at cases_
    rcases cases_ with rfl | rfl | ((((rfl | rfl) | rfl) | rfl) | rfl) | rfl | rfl | rfl | rfl <;>
      decide
  have other : ∀ d : Char, (d = ',' ∨ d = ')' ∨ isBlank d = true ∨ d = '/' ∨
      d = '>' ∨ d = '+' ∨ d = '~') → c ≠ d := by
    rintro d cases_ rfl
    rw [special c cases_] at begins
    cases begins
  refine ⟨other _ (Or.inl rfl), other _ (Or.inr (Or.inl rfl)), ?_, other _ (by simp), ?_⟩
  · cases blank : isBlank c with
    | false => rfl
    | true => exact absurd rfl (other c (Or.inr (Or.inr (Or.inl blank))))
  · have notChild := other '>' (by simp)
    have notNext := other '+' (by simp)
    have notSubsequent := other '~' (by simp)
    unfold Combinator.ofChar?
    split
    · exact absurd rfl notChild
    · exact absurd rfl notNext
    · exact absurd rfl notSubsequent
    · rfl

private theorem commentEnd?_eq_none {c : Char} (notSlash : c ≠ '/') (inside : List Char) :
    commentEnd? c inside = none := by
  simp [commentEnd?, after?, Ne.symm notSlash]

/-- A simple selector is passed over; blank characters in front of it become a combinator. -/
theorem readItems_simple {text rest : List Char} {node : Node}
    (reads : ReadsSimple inner text rest node) (nested : Bool) (last : Last) (spaced : Bool) :
    readItems inner nested last spaced (text ++ rest) =
      (readItems inner nested .compound false rest).prepend
        ((if last = .compound && spaced then [combinatorNode .descendant] else []) ++ [node]) := by
  obtain ⟨c, inside, same, begins, read⟩ := reads
  obtain ⟨notComma, notClose, notBlank, notSlash, noSign⟩ := of_beginsSimple begins
  have noComment := commentEnd?_eq_none notSlash inside
  have noCombinator : readCombinator? c inside = none := by simp [readCombinator?, noSign]
  rw [same, readItems]
  simp only [notComma, notClose, notBlank, decide_false, Bool.and_false, Bool.or_self,
    Bool.false_eq_true, if_false]
  split
  · rename_i found
    rw [noComment] at found
    cases found
  · rename_i found
    rw [noComment] at found
    cases found
  · split
    · rename_i found
      rw [noCombinator] at found
      cases found
    · split
      · rename_i found
        rw [read] at found
        cases found
      · rename_i found
        rw [read] at found
        cases found
        split <;> rfl

/-- Blank characters are passed over, and that there were some is kept in mind. -/
theorem readItems_blanks {blanks : List Char} (blank : ∀ c ∈ blanks, isBlank c = true)
    (nested : Bool) (last : Last) (spaced : Bool) (rest : List Char) :
    readItems inner nested last spaced (blanks ++ rest) =
      readItems inner nested last (spaced || !blanks.isEmpty) rest := by
  induction blanks generalizing spaced with
  | nil => simp
  | cons c blanks inductionHypothesis =>
      have isBlank_c := blank c List.mem_cons_self
      have notEnd : (c = ',' || (nested && c = ')')) = false := by
        simp only [isBlank, Bool.or_eq_true, beq_iff_eq] at isBlank_c
        rcases isBlank_c with (((rfl | rfl) | rfl) | rfl) | rfl <;> simp
      have later := inductionHypothesis
        (fun other member => blank other (List.mem_cons_of_mem c member)) true
      rw [List.cons_append, readItems]
      simp only [notEnd, isBlank_c, if_true, Bool.false_eq_true, if_false, later]
      simp

/-- A combinator is passed over where none stands in front of it. -/
theorem readItems_symbol {combinator : Combinator} (explicit : combinator ≠ .descendant)
    {rest : List Char} (notSign : ∀ more, rest ≠ '>' :: more) (nested : Bool) {last : Last}
    (noOther : ∀ other, last ≠ .combinator other) (spaced : Bool) :
    readItems inner nested last spaced (combinator.symbol ++ rest) =
      (readItems inner nested (.combinator combinator) false rest).prepend
        [combinatorNode combinator] := by
  obtain ⟨c, inside, same, notEnd, notBlank, notSlash, read⟩ :
      ∃ c inside, combinator.symbol ++ rest = c :: inside ∧
        (c = ',' || (nested && c = ')')) = false ∧ isBlank c = false ∧ c ≠ '/' ∧
        readCombinator? c inside = some (combinator, rest) := by
    cases combinator with
    | descendant => exact absurd rfl explicit
    | child =>
        refine ⟨'>', rest, rfl, by simp, by decide, by decide, ?_⟩
        have notDeep : after? ['>', '>'] rest = none := by
          cases rest with
          | nil => rfl
          | cons d more =>
              have different : '>' ≠ d := by
                rintro rfl
                exact notSign more rfl
              simp [after?, different]
        simp [readCombinator?, Combinator.ofChar?, notDeep]
    | nextSibling => exact ⟨'+', rest, rfl, by simp, by decide, by decide, rfl⟩
    | subsequentSibling => exact ⟨'~', rest, rfl, by simp, by decide, by decide, rfl⟩
    | deepDescendant =>
        exact ⟨'>', '>' :: '>' :: rest, rfl, by simp, by decide, by decide, rfl⟩
  have noComment := commentEnd?_eq_none notSlash inside
  rw [same, readItems]
  simp only [notEnd, notBlank, Bool.false_eq_true, if_false]
  split
  · rename_i found
    rw [noComment] at found
    cases found
  · rename_i found
    rw [noComment] at found
    cases found
  · split
    · rename_i found
      rw [read] at found
      cases found
      rfl
    · rename_i found
      rw [read] at found
      cases found

/-! ## Compound selectors -/

theorem Simple.breaks (form : Form α) (simple : Simple α) (rest : List Char) :
    Breaks (simple.text form ++ rest) := by
  cases simple with
  | className name => exact breaks_cons (by decide)
  | id name => exact breaks_cons (by decide)
  | attr test => exact breaks_cons (by decide)
  | pseudo mark name => cases mark <;> exact breaks_cons (by decide)
  | list mark name argument => cases mark <;> exact breaks_cons (by decide)

private theorem breaks_simples (form : Form α) (simples : List (Simple α)) {rest : List Char}
    (breaks : Breaks rest) : Breaks (simples.flatMap (Simple.text form) ++ rest) := by
  cases simples with
  | nil => exact breaks
  | cons simple simples =>
      rw [List.flatMap_cons, List.append_assoc]
      exact simple.breaks form _

/-- Simple selectors directly behind each other are passed over. -/
private theorem readItems_simples (readsBack : ReadsBack form inner) (simples : List (Simple α))
    {rest : List Char} (breaks : Breaks rest) (nested : Bool) :
    readItems inner nested .compound false (simples.flatMap (Simple.text form) ++ rest) =
      (readItems inner nested .compound false rest).prepend
        (simples.map (Simple.node form)) := by
  induction simples with
  | nil => exact (prepend_nil _).symm
  | cons simple simples inductionHypothesis =>
      have reads := simple.readsSimple (breaks_simples form simples breaks) readsBack
      rw [List.flatMap_cons, List.append_assoc, readItems_simple reads, inductionHypothesis,
        prepend_prepend]
      rfl

/-- A compound selector is passed over; blank characters in front of it become a combinator. -/
theorem readItems_compound (readsBack : ReadsBack form inner) (compound : Compound α)
    {rest : List Char} (breaks : Breaks rest) (nested : Bool) (last : Last) (spaced : Bool) :
    readItems inner nested last spaced (compound.text form ++ rest) =
      (readItems inner nested .compound false rest).prepend
        ((if last = .compound && spaced then [combinatorNode .descendant] else []) ++
          compound.nodes form) := by
  obtain ⟨head, simples, nonempty⟩ := compound
  cases head with
  | some head =>
      have reads := head.readsSimple inner (breaks_simples form simples breaks)
      simp only [Compound.text, Compound.nodes, Option.elim_some, List.append_assoc]
      rw [readItems_simple reads, readItems_simples readsBack simples breaks, prepend_prepend]
      simp
  | none =>
      cases simples with
      | nil => simp at nonempty
      | cons simple simples =>
          have reads := simple.readsSimple (breaks_simples form simples breaks) readsBack
          simp only [Compound.text, Compound.nodes, Option.elim_none, List.nil_append,
            List.flatMap_cons, List.append_assoc]
          rw [readItems_simple reads, readItems_simples readsBack simples breaks, prepend_prepend]
          simp

/-! ## Beginnings and ends of texts -/

/-- The text begins as a simple selector does. -/
def Begins (text : List Char) : Prop :=
  ∃ c more, text = c :: more ∧ beginsSimple c = true ∧ isSpace c = false

theorem Begins.append {text : List Char} (begins : Begins text) (more : List Char) :
    Begins (text ++ more) := by
  obtain ⟨c, tail, rfl, simple, notSpace⟩ := begins
  exact ⟨c, tail ++ more, rfl, simple, notSpace⟩

theorem Begins.bareStart {text : List Char} (begins : Begins text) : BareStart text := by
  obtain ⟨c, more, rfl, _, notSpace⟩ := begins
  exact ⟨c, more, rfl, notSpace⟩

theorem Head.begins (head : Head) : Begins head.text := by
  cases head with
  | type name =>
      obtain ⟨c, more, same, start⟩ := name.exists_cons
      have part : isWordPart c = true := name.wordParts c (by simp [same])
      exact ⟨c, more, same, by simp [beginsSimple, start], isSpace_of_isWordPart part⟩
  | universal => exact ⟨'*', [], rfl, by decide, by decide⟩
  | nesting => exact ⟨'&', [], rfl, by decide, by decide⟩

theorem Head.bareEnd (head : Head) : BareEnd head.text := by
  cases head with
  | type name => exact name.bareEnd
  | universal => exact ⟨[], '*', rfl, by decide⟩
  | nesting => exact ⟨[], '&', rfl, by decide⟩

theorem Simple.begins (form : Form α) (simple : Simple α) : Begins (simple.text form) := by
  cases simple with
  | className name => exact ⟨'.', _, rfl, by decide, by decide⟩
  | id name => exact ⟨'#', _, rfl, by decide, by decide⟩
  | attr test => exact ⟨'[', _, rfl, by decide, by decide⟩
  | pseudo mark name => cases mark <;> exact ⟨':', _, rfl, by decide, by decide⟩
  | list mark name argument => cases mark <;> exact ⟨':', _, rfl, by decide, by decide⟩

theorem Simple.bareEnd (form : Form α) (simple : Simple α) : BareEnd (simple.text form) := by
  cases simple with
  | className name => exact name.bareEnd.append ['.']
  | id name => exact name.bareEnd.append ['#']
  | attr test => exact ⟨_, ']', rfl, by decide⟩
  | pseudo mark name => exact name.bareEnd.append mark.text
  | list mark name argument => exact ⟨_, ')', rfl, by decide⟩

private theorem bareEnd_simples (form : Form α) {simples : List (Simple α)}
    (nonempty : simples ≠ []) : BareEnd (simples.flatMap (Simple.text form)) := by
  rw [← List.dropLast_concat_getLast nonempty, List.flatMap_append, List.flatMap_singleton]
  exact (Simple.bareEnd form _).append _

theorem Compound.begins (form : Form α) (compound : Compound α) :
    Begins (compound.text form) := by
  obtain ⟨head, simples, nonempty⟩ := compound
  cases head with
  | some head => exact head.begins.append _
  | none =>
      cases simples with
      | nil => simp at nonempty
      | cons simple simples => exact (simple.begins form).append _

theorem Compound.bareEnd (form : Form α) (compound : Compound α) :
    BareEnd (compound.text form) := by
  obtain ⟨head, simples, nonempty⟩ := compound
  cases simples with
  | nil =>
      cases head with
      | none => simp at nonempty
      | some head =>
          simp only [Compound.text, Option.elim_some, List.flatMap_nil, List.append_nil]
          exact head.bareEnd
  | cons simple simples => exact (bareEnd_simples form (List.cons_ne_nil _ _)).append _

/-- An entry begins with a character that neither is white space nor closes a parenthesis. -/
theorem Complex.exists_cons (form : Form α) (complex : Complex α) :
    ∃ c more, complex.text form = c :: more ∧ c ≠ ')' ∧ isSpace c = false := by
  obtain ⟨lead, first, more⟩ := complex
  cases lead with
  | none =>
      rw [Complex.text, Option.elim_none, List.nil_append]
      obtain ⟨c, tail, same, begins, notSpace⟩ := (first.begins form).append _
      exact ⟨c, tail, same, (of_beginsSimple begins).2.1, notSpace⟩
  | some lead =>
      obtain ⟨combinator, explicit, after⟩ := lead
      cases combinator with
      | descendant => exact absurd rfl explicit
      | child => exact ⟨'>', _, rfl, by decide, by decide⟩
      | nextSibling => exact ⟨'+', _, rfl, by decide, by decide⟩
      | subsequentSibling => exact ⟨'~', _, rfl, by decide, by decide⟩
      | deepDescendant => exact ⟨'>', _, rfl, by decide, by decide⟩

theorem Complex.bareStart (form : Form α) (complex : Complex α) :
    BareStart (complex.text form) := by
  obtain ⟨c, more, same, _, notSpace⟩ := complex.exists_cons form
  exact ⟨c, more, same, notSpace⟩

theorem Complex.bareEnd (form : Form α) (complex : Complex α) : BareEnd (complex.text form) := by
  obtain ⟨lead, first, more⟩ := complex
  by_cases nonempty : more = []
  · subst nonempty
    simp only [Complex.text, List.flatMap_nil, List.append_nil]
    exact (first.bareEnd form).append _
  · rw [Complex.text, ← List.dropLast_concat_getLast nonempty, List.flatMap_append,
      List.flatMap_singleton]
    exact (((Compound.bareEnd form _).append _).append _).append _

/-! ## Entries -/

theorem Blanks.isSpace (blanks : Blanks) : ∀ c ∈ blanks.text, isSpace c = true :=
  fun c member => isSpace_of_isBlank (blanks.blank c member)

/-- What may follow the compound selectors of an entry. -/
def EndsEntry (nested : Bool) (rest : List Char) : Prop :=
  rest = [] ∨ (∃ more, rest = ',' :: more) ∨ (nested = true ∧ ∃ more, rest = ')' :: more)

theorem EndsEntry.breaks {nested : Bool} {rest : List Char} (ends : EndsEntry nested rest) :
    Breaks rest := by
  rcases ends with rfl | ⟨more, rfl⟩ | ⟨_, more, rfl⟩
  · exact breaks_nil
  · exact breaks_cons (by decide)
  · exact breaks_cons (by decide)

private theorem breaks_blanks (blanks : Blanks) {rest : List Char} (breaks : Breaks rest) :
    Breaks (blanks.text ++ rest) := by
  obtain ⟨text, blank⟩ := blanks
  cases text with
  | nil => exact breaks
  | cons c text => exact breaks_cons (by simp [isBreak, blank c List.mem_cons_self])

theorem breaks_link (link : Link) (rest : List Char) : Breaks (link.text ++ rest) := by
  cases link with
  | gap blanks nonempty =>
      obtain ⟨text, blank⟩ := blanks
      cases text with
      | nil => exact absurd rfl nonempty
      | cons c text => exact breaks_cons (by simp [isBreak, blank c List.mem_cons_self])
  | sign before combinator explicit after =>
      rw [Link.text, List.append_assoc, List.append_assoc]
      apply breaks_blanks
      cases combinator with
      | descendant => exact absurd rfl explicit
      | child => exact breaks_cons (by decide)
      | nextSibling => exact breaks_cons (by decide)
      | subsequentSibling => exact breaks_cons (by decide)
      | deepDescendant => exact breaks_cons (by decide)

private theorem not_sign (blanks : Blanks) (compound : Compound α) (rest more : List Char) :
    blanks.text ++ (compound.text form ++ rest) ≠ '>' :: more := by
  obtain ⟨text, blank⟩ := blanks
  cases text with
  | nil =>
      obtain ⟨c, tail, same, begins, _⟩ := compound.begins form
      rw [List.nil_append, same]
      intro equal
      cases (List.cons.inj equal).1
      cases begins
  | cons c text =>
      intro equal
      cases (List.cons.inj equal).1
      cases blank '>' List.mem_cons_self

private theorem breaks_more (form : Form α) (more : List (Link × Compound α)) {rest : List Char}
    (breaks : Breaks rest) :
    Breaks ((more.flatMap fun (link, compound) => link.text ++ compound.text form) ++ rest) := by
  cases more with
  | nil => exact breaks
  | cons step more =>
      rw [List.flatMap_cons, List.append_assoc, List.append_assoc]
      exact breaks_link _ _

/-- Compound selectors with links in front of them are passed over. -/
private theorem readItems_more (readsBack : ReadsBack form inner)
    (more : List (Link × Compound α)) {rest : List Char} (breaks : Breaks rest) (nested : Bool) :
    readItems inner nested .compound false
        ((more.flatMap fun (link, compound) => link.text ++ compound.text form) ++ rest) =
      (readItems inner nested .compound false rest).prepend
        (more.flatMap fun (link, compound) => link.node :: compound.nodes form) := by
  induction more with
  | nil => exact (prepend_nil _).symm
  | cons step more inductionHypothesis =>
      obtain ⟨link, compound⟩ := step
      have stops := breaks_more form more breaks
      rw [List.flatMap_cons, List.append_assoc, List.append_assoc, List.flatMap_cons]
      cases link with
      | gap blanks nonempty =>
          have some_ : blanks.text.isEmpty = false := by simpa using nonempty
          rw [Link.text, readItems_blanks blanks.blank, readItems_compound readsBack _ stops,
            inductionHypothesis, prepend_prepend]
          simp [some_, Link.node, Link.combinator, combinatorNode]
      | sign before combinator explicit after =>
          rw [Link.text, List.append_assoc, List.append_assoc, readItems_blanks before.blank,
            readItems_symbol explicit (not_sign after compound _) nested (by simp),
            readItems_blanks after.blank, readItems_compound readsBack _ stops,
            inductionHypothesis, prepend_prepend, prepend_prepend]
          simp [Link.node, Link.combinator, combinatorNode]

theorem readItems_complex (readsBack : ReadsBack form inner) (complex : Complex α)
    {rest : List Char} (breaks : Breaks rest) (nested : Bool) :
    readItems inner nested .nothing false (complex.text form ++ rest) =
      (readItems inner nested .compound false rest).prepend (complex.nodes form) := by
  obtain ⟨lead, first, more⟩ := complex
  have stops := breaks_more form more breaks
  simp only [Complex.text, Complex.nodes, List.append_assoc]
  cases lead with
  | none =>
      rw [Option.elim_none, List.nil_append, readItems_compound readsBack _ stops,
        readItems_more readsBack more breaks, prepend_prepend]
      simp
  | some lead =>
      rw [Option.elim_some, Lead.text, List.append_assoc,
        readItems_symbol lead.explicit (not_sign lead.after first _) nested (by simp),
        readItems_blanks lead.after.blank, readItems_compound readsBack _ stops,
        readItems_more readsBack more breaks, prepend_prepend, prepend_prepend]
      simp [Lead.node, combinatorNode]

theorem readItems_end {nested : Bool} {rest : List Char} (ends : EndsEntry nested rest)
    (spaced : Bool) : readItems inner nested .compound spaced rest = .ok ([], rest) := by
  rcases ends with rfl | ⟨more, rfl⟩ | ⟨isNested, more, rfl⟩
  · rw [readItems]
    rfl
  · rw [readItems]
    rfl
  · rw [readItems, isNested]
    rfl

theorem readEntry_text (readsBack : ReadsBack form inner) (entry : Entry α) {nested : Bool}
    {rest : List Char} (ends : EndsEntry nested rest) :
    readEntry inner nested (entry.text form ++ rest) = .ok (entry.node form, rest) := by
  obtain ⟨start, complex, after⟩ := entry
  have skipped : (Entry.text form ⟨start, complex, after⟩ ++ rest).dropWhile isBlank =
      complex.text form ++ (after.text ++ rest) := by
    simp only [Entry.text, List.append_assoc]
    rw [List.dropWhile_append_of_pos start.blank]
    exact ((complex.bareStart form).append _).dropWhile_isBlank
  have items : readItems inner nested .nothing false (complex.text form ++ (after.text ++ rest)) =
      .ok (complex.nodes form, rest) := by
    rw [readItems_complex readsBack complex (breaks_blanks after ends.breaks),
      readItems_blanks after.blank, readItems_end ends]
    simp [Reading.prepend]
  have written : before (complex.text form ++ (after.text ++ rest)) rest =
      complex.text form ++ after.text := by
    rw [← List.append_assoc]
    exact before_append _ _
  have trimmed : trim (complex.text form ++ after.text) = complex.text form :=
    trim_append_append (List.forall_mem_nil _) after.isSpace (complex.bareStart form)
      (complex.bareEnd form)
  simp only [readEntry, skipped, items, written, trimmed, Entry.node]

/-! ## Lists -/

/-- What may follow a selector list. -/
def EndsList (nested : Bool) (rest : List Char) : Prop :=
  rest = [] ∨ (nested = true ∧ ∃ more, rest = ')' :: more)

theorem EndsList.endsEntry {nested : Bool} {rest : List Char} (ends : EndsList nested rest) :
    EndsEntry nested rest :=
  ends.imp_right Or.inr

theorem EndsList.after?_comma {nested : Bool} {rest : List Char} (ends : EndsList nested rest) :
    after? [','] rest = none := by
  rcases ends with rfl | ⟨_, more, rfl⟩
  · rfl
  · rfl

private theorem readList_entries (readsBack : ReadsBack form inner) {nested : Bool}
    {rest : List Char} (ends : EndsList nested rest) (entry : Entry α) (more : List (Entry α))
    (nonempty : entry :: more ≠ []) :
    readList inner nested ((Listing.mk (entry :: more) nonempty).text form ++ rest) =
      .ok ((entry :: more).map (Entry.node form), rest) := by
  induction more generalizing entry with
  | nil =>
      have first := readEntry_text readsBack entry ends.endsEntry
      rw [Listing.text_singleton, readList]
      split
      · rename_i found
        rw [first] at found
        cases found
      · rename_i found
        rw [first] at found
        cases found
        split
        · rfl
        · rename_i comma
          rw [ends.after?_comma] at comma
          cases comma
  | cons second more inductionHypothesis =>
      have later : second :: more ≠ [] := List.cons_ne_nil second more
      have comma : EndsEntry nested (',' :: ((Listing.mk (second :: more) later).text form ++
          rest)) := Or.inr (Or.inl ⟨_, rfl⟩)
      have first := readEntry_text readsBack entry comma
      rw [Listing.text_cons_cons, List.append_assoc, List.cons_append, readList]
      split
      · rename_i found
        rw [first] at found
        cases found
      · rename_i found
        rw [first] at found
        cases found
        split
        · rename_i comma
          simp [after?] at comma
        · rename_i comma
          simp only [after?, if_true, Option.some.injEq] at comma
          subst comma
          rw [inductionHypothesis second later]
          rfl

/-- A written list is read as its entries. -/
theorem readList_text (readsBack : ReadsBack form inner) (listing : Listing α) {nested : Bool}
    {rest : List Char} (ends : EndsList nested rest) :
    readList inner nested (listing.text form ++ rest) = .ok (listing.nodes form, rest) := by
  obtain ⟨entries, nonempty⟩ := listing
  cases entries with
  | nil => exact absurd rfl nonempty
  | cons entry more => exact readList_entries readsBack ends entry more nonempty

/-! ## Arguments -/

theorem readEntry_dropWhile (inner : Option ListReader) (nested : Bool)
    (text : List Char) :
    readEntry inner nested (text.dropWhile isBlank) = readEntry inner nested text := by
  simp only [readEntry, List.dropWhile_idempotent]

theorem readList_dropWhile (inner : Option ListReader) (nested : Bool)
    (text : List Char) :
    readList inner nested (text.dropWhile isBlank) = readList inner nested text := by
  have same := readEntry_dropWhile inner nested text
  rw [readList]
  conv => rhs; rw [readList]
  generalize left : readEntry inner nested (text.dropWhile isBlank) = leftRead
  generalize right : readEntry inner nested text = rightRead
  have equal : leftRead = rightRead := left ▸ right ▸ same
  subst equal
  cases leftRead with
  | error fault => rfl
  | ok entry => rfl

private theorem after?_close (form : Form α) (listing : Listing α) (rest : List Char) :
    after? [')'] ((listing.text form ++ rest).dropWhile isBlank) = none := by
  obtain ⟨entries, nonempty⟩ := listing
  cases entries with
  | nil => exact absurd rfl nonempty
  | cons entry more =>
      obtain ⟨start, complex, after⟩ := entry
      obtain ⟨tail, same⟩ : ∃ tail, Listing.text form ⟨⟨start, complex, after⟩ :: more, nonempty⟩ ++
          rest = start.text ++ (complex.text form ++ tail) := by
        cases more with
        | nil => exact ⟨after.text ++ rest, by simp [Listing.text, Entry.text, List.intercalate]⟩
        | cons second more =>
            rw [Listing.text_cons_cons, List.append_assoc]
            exact ⟨_, by rw [Entry.text, List.append_assoc, List.append_assoc]⟩
      rw [same, List.dropWhile_append_of_pos start.blank,
        ((complex.bareStart form).append tail).dropWhile_isBlank]
      obtain ⟨c, more, begins, notClose, _⟩ := complex.exists_cons form
      rw [begins]
      simp [after?, Ne.symm notClose]

/-- Every argument is read back where so many levels of arguments may be read. -/
theorem readsBack_argument (levels : Nat) :
    ReadsBack (Argument.form levels) (argumentReader levels) := by
  induction levels with
  | zero => exact ⟨fun argument => argument.elim, fun argument => argument.elim⟩
  | succ levels inductionHypothesis =>
      refine ⟨fun argument => ⟨_, rfl, fun rest => ?_⟩, fun argument rest => ?_⟩
      · have ends : EndsList true (')' :: rest) := Or.inr ⟨rfl, rest, rfl⟩
        exact (readList_dropWhile _ _ _).trans (readList_text inductionHypothesis argument ends)
      · exact after?_close (Argument.form levels) argument rest

/-! ## Texts -/

/-- Every selector list is read as it was written: with exactly its entries, compound selectors,
combinators, and arguments, wherever the grammar lets blank characters stand. -/
theorem ofText_text (listing : Listing (Argument maxNesting)) :
    Node.ofText (listing.text (Argument.form maxNesting)) =
      .ok ⟨.root, trim (listing.text (Argument.form maxNesting)),
        listing.nodes (Argument.form maxNesting)⟩ := by
  have ends : EndsList false [] := Or.inl rfl
  have read := readList_text (readsBack_argument maxNesting) listing ends
  rw [List.append_nil] at read
  rw [Node.ofText, read]

end CssLint.Selector.Written
