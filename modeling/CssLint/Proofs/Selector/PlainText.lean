import CssLint.Proofs.Selector.Plain
import CssLint.Proofs.Selector.ReadBack
import CssLint.Proofs.Text.Letters
import CssLint.Selector.Entries
import CssLint.Selector.Nesting
import CssLint.Selector.Standard

/-!
# Texts of plain selectors

Plain selectors are plain CSS, hold no nesting selector, and are divided at the
commas between their entries.
-/

namespace CssLint.Selector.Written

open Text

/-! ## Characters -/

/-- The signs that the texts of plain selectors are made of, besides letters. -/
def selectorSigns : List Char :=
  ['.', '#', '*', '[', ']', '(', ')', ':', ',', '>', '+', '~']

def isSelectorChar (c : Char) : Bool :=
  c.isAlpha || isBlank c || selectorSigns.contains c

theorem not_mem_of_isSelectorChar {text : List Char} (all : ∀ c ∈ text, isSelectorChar c = true)
    {sign : Char} (other : isSelectorChar sign = false) : sign ∉ text := by
  intro member
  have selects := all sign member
  rw [other] at selects
  cases selects

/-- A property that single characters have, all but parentheses and colons, and negations. -/
theorem Spreading.of_singletons {property inside : List Char → Prop} (nil : property [])
    (append : ∀ left right, property left → property right → property (left ++ right))
    (single : ∀ c, isSelectorChar c = true → c ∉ ['(', ')', ':', ','] → property [c])
    (negation : ∀ text, inside text → property (negationText ++ (text ++ [')']))) :
    Spreading property inside := by
  have letter : ∀ c : Char, c.isAlpha = true → property [c] := by
    intro c alpha
    apply single
    · simp [isSelectorChar, alpha]
    · intro member
      have signs : ∀ sign ∈ ['(', ')', ':', ','], sign.isAlpha = false :=
        List.all_iff_forall_prop.1 (by decide)
      exact ne_of_isAlpha alpha (signs c member) rfl
  have word : ∀ name : Word, name.IsPlain → property name.text := by
    intro name plain
    exact property_of_forall nil append fun c member => letter c (plain c member)
  constructor
  · exact nil
  · exact append
  · exact letter
  · intro c blank
    apply single
    · simp [isSelectorChar, blank]
    · intro member
      have signs : ∀ sign ∈ ['(', ')', ':', ','], isBlank sign = false :=
        List.all_iff_forall_prop.1 (by decide)
      exact ne_of_isBlank blank (signs c member) rfl
  · intro c member
    have signs : ∀ sign ∈ ['.', '*', '>', '+', '~'],
        isSelectorChar sign = true ∧ sign ∉ ['(', ')', ':', ','] :=
      List.all_iff_forall_prop.1 (by decide)
    exact single c (signs c member).1 (signs c member).2
  · intro name plain
    exact append ['#'] name.text (single '#' (by decide) (by decide)) (word name plain)
  · intro name plain
    exact append _ _ (append ['['] name.text (single '[' (by decide) (by decide))
      (word name plain)) (single ']' (by decide) (by decide))
  · exact negation

theorem spreading_isSelectorChar :
    Spreading (fun text => ∀ c ∈ text, isSelectorChar c = true)
      (fun text => ∀ c ∈ text, isSelectorChar c = true) := by
  have append : ∀ left right : List Char, (∀ c ∈ left, isSelectorChar c = true) →
      (∀ c ∈ right, isSelectorChar c = true) → ∀ c ∈ left ++ right, isSelectorChar c = true := by
    intro left right ofLeft ofRight c member
    exact (List.mem_append.1 member).elim (ofLeft c) (ofRight c)
  apply Spreading.of_singletons
  · intro c member
    cases member
  · exact append
  · intro c selects _ other member
    exact List.mem_singleton.1 member ▸ selects
  · intro text all
    apply append negationText
    · exact List.all_iff_forall_prop.1 (by decide)
    · apply append text [')'] all
      exact List.all_iff_forall_prop.1 (by decide)

/-! ## Colons -/

/-- Behind every colon stands the letter that negations begin with. -/
def ColonsNegate (text : List Char) : Prop :=
  ∀ front rest, text = front ++ ':' :: rest → ∃ more, rest = 'n' :: more

private theorem colonsNegate_of_not_mem {text : List Char} (absent : ':' ∉ text) :
    ColonsNegate text := by
  rintro front rest rfl
  simp at absent

private theorem ColonsNegate.append {left right : List Char} (ofLeft : ColonsNegate left)
    (ofRight : ColonsNegate right) : ColonsNegate (left ++ right) := by
  intro front rest same
  rcases List.append_eq_append_iff.1 same with ⟨middle, _, split⟩ | ⟨middle, split, behind⟩
  · exact ofRight middle rest split
  · cases middle with
    | nil => exact ofRight [] rest (by simpa using behind.symm)
    | cons c middle =>
        obtain ⟨rfl, rfl⟩ := List.cons.inj behind
        obtain ⟨more, rfl⟩ := ofLeft front middle split
        exact ⟨more ++ right, rfl⟩

private theorem colonsNegate_negationText : ColonsNegate negationText := by
  intro front rest same
  rcases front with _ | ⟨c, front⟩
  · exact ⟨_, (List.cons.inj same).2.symm⟩
  · have behind : ['n', 'o', 't', '('] = front ++ ':' :: rest := (List.cons.inj same).2
    have member : ':' ∈ ['n', 'o', 't', '('] := by
      rw [behind]
      simp
    exact absurd member (by decide)

theorem spreading_colonsNegate : Spreading ColonsNegate ColonsNegate := by
  apply Spreading.of_singletons
  · exact colonsNegate_of_not_mem (by decide)
  · exact fun left right => ColonsNegate.append
  · intro c _ other
    apply colonsNegate_of_not_mem
    intro member
    rw [← List.mem_singleton.1 member] at other
    exact other (by decide)
  · intro text negates
    exact colonsNegate_negationText.append (negates.append (colonsNegate_of_not_mem (by decide)))

private theorem colonsNegate_comma : ColonsNegate [','] :=
  colonsNegate_of_not_mem (by decide)

theorem contains_iff_isInfix {word text : List Char} :
    contains word text = true ↔ word <:+: text := by
  induction text with
  | nil => cases word <;> simp [contains, find?]
  | cons c text inductionHypothesis =>
      rw [List.infix_cons_iff, ← inductionHypothesis, contains, contains, find?]
      split
      · rename_i here
        simp [List.isPrefixOf_iff_prefix.1 here]
      · rename_i elsewhere
        rw [List.isPrefixOf_iff_prefix] at elsewhere
        simp [elsewhere]

private theorem hasExtend_of_colonsNegate {text : List Char} (negates : ColonsNegate text) :
    hasExtend text = false := by
  rw [← Bool.not_eq_true]
  intro found
  obtain ⟨front, rest, same⟩ := contains_iff_isInfix.1 found
  have joined : text = front ++ ':' :: ("extend".toList ++ rest) := by
    rw [← same, List.append_assoc]
    rfl
  obtain ⟨more, begins⟩ := negates front _ joined
  exact absurd (List.cons.inj begins).1 (by decide)

/-! ## Calls -/

/-- Whether no parenthesis stands behind a full stop and characters of names; `named` tells that
such characters stand in front. -/
def callFree (named : Bool) : List Char → Bool
  | [] => true
  | c :: text =>
    if c = '.' then callFree true text
    else if c = '(' then !named && callFree false text
    else callFree (named && isMixinPart c) text

private theorem not_called {text : List Char} (free : callFree true text = true) :
    after? ['('] (text.dropWhile isMixinPart) = none := by
  induction text with
  | nil => rfl
  | cons c text inductionHypothesis =>
      by_cases part : isMixinPart c = true
      · have notStop : c ≠ '.' := by
          rintro rfl
          exact absurd part (by decide)
        have notCall : c ≠ '(' := by
          rintro rfl
          exact absurd part (by decide)
        rw [callFree, if_neg notStop, if_neg notCall, part] at free
        rw [List.dropWhile_cons_of_pos part]
        exact inductionHypothesis free
      · rw [List.dropWhile_cons_of_neg part, after?]
        split
        · rename_i call
          subst call
          cases free
        · rfl

private theorem hasMixin_of_callFree {text : List Char} {named : Bool}
    (free : callFree named text = true) : hasMixin text = false := by
  induction text generalizing named with
  | nil => rfl
  | cons c text inductionHypothesis =>
      rw [hasMixin, startsMixin, after?]
      by_cases stop : '.' = c
      · subst stop
        simp only [callFree, if_true] at free
        simp only [if_true, after?, not_called free, Bool.and_false, Bool.false_or]
        exact inductionHypothesis free
      · rw [if_neg stop, Bool.false_or]
        rw [callFree, if_neg (Ne.symm stop)] at free
        split at free
        · rw [Bool.and_eq_true] at free
          exact inductionHypothesis free.2
        · exact inductionHypothesis free

/-- Nothing in the text is a call, whatever stands around it that has none itself. -/
def CallFree (text : List Char) : Prop :=
  ∀ rest, (∀ named, callFree named rest = true) → ∀ named, callFree named (text ++ rest) = true

theorem spreading_callFree : Spreading CallFree CallFree := by
  apply Spreading.of_singletons
  · intro rest free
    exact free
  · intro left right ofLeft ofRight rest free
    rw [List.append_assoc]
    exact ofLeft _ (ofRight rest free)
  · intro c _ other rest free named
    have notCall : c ≠ '(' := by
      rintro rfl
      exact other (by decide)
    rw [List.cons_append, List.nil_append, callFree, if_neg notCall]
    split
    · exact free true
    · exact free _
  · intro text ofText rest free named
    have closed : ∀ named, callFree named ([')'] ++ rest) = true := by
      intro named
      exact free _
    have inside := ofText _ closed false
    rw [negationText, List.append_assoc, List.append_assoc]
    cases named <;> exact inside

private theorem callFree_comma : CallFree [','] := by
  intro rest free named
  exact free _

/-! ## Plain CSS -/

/-- What keeps a text from being taken for the text of a preprocessor. -/
structure Inert (text : List Char) : Prop where
  chars : ∀ c ∈ text, isSelectorChar c = true
  colons : ColonsNegate text
  calls : CallFree text

private theorem contains_eq_false {c : Char} {word text : List Char} (absent : c ∉ text) :
    contains (c :: word) text = false := by
  rw [← Bool.not_eq_true]
  intro found
  obtain ⟨front, rest, rfl⟩ := contains_iff_isInfix.1 found
  simp at absent

private theorem hasInterpolation_eq_false {text : List Char} (noBrace : '\x7b' ∉ text)
    (noVariable : '$' ∉ text) : hasInterpolation text = false := by
  rw [hasInterpolation, Bool.or_eq_false_iff]
  induction text with
  | nil => exact ⟨rfl, rfl⟩
  | cons c text inductionHypothesis =>
      rw [List.mem_cons, not_or] at noBrace noVariable
      obtain ⟨brace, variable_⟩ := inductionHypothesis noBrace.2 noVariable.2
      constructor
      · simp [hasBraceHole, Ne.symm noBrace.1, brace]
      · simp [hasVariable, after?, noVariable.1, variable_]

theorem Inert.isStandard {text : List Char} (inert : Inert text) : isStandard text = true := by
  have absent : ∀ sign, isSelectorChar sign = false → sign ∉ text :=
    fun sign => not_mem_of_isSelectorChar inert.chars
  have noHole := hasInterpolation_eq_false (absent '\x7b' (by decide)) (absent '$' (by decide))
  have noPlaceholder : (trimStart text).head? ≠ some '%' := by
    intro same
    have member : '%' ∈ trimStart text := List.mem_of_mem_head? same
    exact absent '%' (by decide) ((List.dropWhile_suffix _).subset member)
  have noMixin : hasMixin text = false := by
    have free := inert.calls [] (fun _ => rfl) false
    rw [List.append_nil] at free
    exact hasMixin_of_callFree free
  have noOpening : contains ['<', '%'] text = false :=
    contains_eq_false (absent '<' (by decide))
  have noClosing : contains ['%', '>'] text = false :=
    contains_eq_false (absent '%' (by decide))
  simp [Selector.isStandard, noHole, noPlaceholder, hasExtend_of_colonsNegate inert.colons, noMixin,
    noOpening, noClosing]

theorem Inert.isStandardRule {text : List Char} (inert : Inert text) (bareEnd : BareEnd text) :
    isStandardRule text = true := by
  have noColon : text.getLast? ≠ some ':' := by
    intro last
    obtain ⟨front, same⟩ := List.getLast?_eq_some_iff.1 last
    obtain ⟨more, empty⟩ := inert.colons front [] same
    cases empty
  simp [Selector.isStandardRule, trimEnd_eq_self bareEnd, noColon,
    hasExtend_of_colonsNegate inert.colons]

/-! ## Nesting selectors -/

theorem containsNestingFrom_eq_false {text : List Char} (absent : '&' ∉ text)
    (scanner : Scanner) : containsNestingFrom scanner text = false := by
  induction text generalizing scanner with
  | nil => rfl
  | cons c text inductionHypothesis =>
      rw [List.mem_cons, not_or] at absent
      simp [containsNestingFrom, Ne.symm absent.1, inductionHypothesis absent.2]

theorem containsNesting_eq_false {text : List Char} (absent : '&' ∉ text) :
    containsNesting text = false :=
  containsNestingFrom_eq_false absent .start

theorem Inert.not_mem_nesting {text : List Char} (inert : Inert text) : '&' ∉ text :=
  not_mem_of_isSelectorChar inert.chars (by decide)

/-! ## Plain selectors are inert -/

theorem inert_complex {levels : Nat} {complex : Complex (Argument levels)}
    (plain : complex.IsPlain (Argument.IsPlain levels)) :
    Inert (complex.text (Argument.form levels)) := by
  constructor
  · apply spreading_isSelectorChar.complex _ plain
    exact spreading_isSelectorChar.argument (List.all_iff_forall_prop.1 (by decide)) levels
  · apply spreading_colonsNegate.complex _ plain
    exact spreading_colonsNegate.argument colonsNegate_comma levels
  · apply spreading_callFree.complex _ plain
    exact spreading_callFree.argument callFree_comma levels

theorem inert_prelude {levels : Nat} {prelude_ : Prelude (Argument levels)}
    (plain : prelude_.IsPlain (Argument.IsPlain levels)) :
    Inert (prelude_.text (Argument.form levels)) := by
  constructor
  · apply spreading_isSelectorChar.prelude_ (List.all_iff_forall_prop.1 (by decide)) _ plain
    exact spreading_isSelectorChar.argument (List.all_iff_forall_prop.1 (by decide)) levels
  · apply spreading_colonsNegate.prelude_ colonsNegate_comma _ plain
    exact spreading_colonsNegate.argument colonsNegate_comma levels
  · apply spreading_callFree.prelude_ callFree_comma _ plain
    exact spreading_callFree.argument callFree_comma levels

end CssLint.Selector.Written
