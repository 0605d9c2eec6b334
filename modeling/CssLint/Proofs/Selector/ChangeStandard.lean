import CssLint.Proofs.Selector.ChangeText
import CssLint.Selector.Standard

/-!
# Plain selectors of changed texts

What makes a selector more than plain CSS are words, holes and calls somewhere in its
text.  A change leaves them alone where its tail holds none of them and no closing
bracket that could end one.  Only a call at the end of a line is different: it is one
as soon as the line goes on behind it.
-/

namespace CssLint.Selector

open Text

/-! ## Ends of a text -/

/-- Whether one of the nonempty ends of the text has the property. -/
def occurs (property : List Char → Bool) : List Char → Bool
  | [] => false
  | c :: text => property (c :: text) || occurs property text

theorem occurs_eq_false_iff {property : List Char → Bool} {text : List Char} :
    occurs property text = false ↔
      ∀ c rest, c :: rest <:+ text → property (c :: rest) = false := by
  induction text with
  | nil =>
      refine iff_of_true rfl fun c rest suffix => ?_
      cases List.suffix_nil.1 suffix
  | cons first text inductionHypothesis =>
      rw [occurs, Bool.or_eq_false_iff, inductionHypothesis]
      constructor
      · rintro ⟨here, later⟩ c rest suffix
        rcases List.suffix_cons_iff.1 suffix with same | inside
        · rwa [same]
        · exact later c rest inside
      · intro none
        exact ⟨none first text (List.suffix_refl _), fun c rest suffix =>
          none c rest (suffix.trans (List.suffix_cons first text))⟩

theorem isPrefixOf_eq_isSome (word text : List Char) :
    word.isPrefixOf text = (after? word text).isSome := by
  induction word generalizing text with
  | nil => rfl
  | cons expected word inductionHypothesis =>
      cases text with
      | nil => rfl
      | cons c text =>
          rw [List.isPrefixOf, after?, inductionHypothesis]
          by_cases same : expected = c
          · rw [if_pos same, beq_iff_eq.2 same, Bool.true_and]
          · rw [if_neg same, beq_false_of_ne same, Bool.false_and]
            rfl

theorem contains_eq_occurs {first : Char} (word : List Char) (text : List Char) :
    contains (first :: word) text = occurs (fun rest => (after? (first :: word) rest).isSome) text := by
  induction text with
  | nil => rfl
  | cons c text inductionHypothesis =>
      rw [occurs, ← inductionHypothesis, ← isPrefixOf_eq_isSome, contains, find?]
      split
      · rename_i here
        rw [here]
        rfl
      · rename_i here
        rw [Bool.eq_false_iff.2 here, Option.isSome_map]
        rfl

theorem hasBraceHole_eq_occurs (text : List Char) :
    hasBraceHole text =
      occurs (fun rest => rest.head? == some '\x7b' && (rest.drop 2).contains '\x7d') text := by
  induction text with
  | nil => rfl
  | cons c text inductionHypothesis =>
      rw [hasBraceHole, occurs, inductionHypothesis]
      rfl

theorem hasVariable_eq_occurs (text : List Char) :
    hasVariable text = occurs (fun rest => (after? ['$', '('] rest).any closesOnLine) text := by
  induction text with
  | nil => rfl
  | cons c text inductionHypothesis =>
      rw [hasVariable, occurs, inductionHypothesis]
      cases after? ['$', '('] (c :: text) <;> rfl

/-! ## Calls -/

/-- What stands behind the opening parenthesis of the call of a mixin that the text begins with. -/
def call? (text : List Char) : Option (List Char) :=
  match after? ['.'] text with
  | none => none
  | some named =>
    if (named.takeWhile isMixinPart).isEmpty then none
    else after? ['('] (named.dropWhile isMixinPart)

/-- The rest of the line that the text begins in. -/
def line (text : List Char) : List Char :=
  text.takeWhile fun c => c != '\n'

/-- Whether a line ends with a parenthesis that may close the call of a mixin; `last` tells whether
it is the last line or one of the others. -/
def callEnds (last : Bool) (text : List Char) : Bool :=
  occurs (fun rest => (call? rest).any fun inside =>
    (line inside).getLast? == some ')' && (!inside.contains '\n') == last) text

theorem suffix_of_call? {text inside : List Char} (opened : call? text = some inside) :
    inside <:+ text := by
  rw [call?] at opened
  split at opened
  · cases opened
  · rename_i named dot
    split at opened
    · cases opened
    · have ofDot : named <:+ text := by
        rw [eq_append_of_after? dot]
        exact List.suffix_append _ named
      have ofCall : inside <:+ named.dropWhile isMixinPart := by
        rw [eq_append_of_after? opened]
        exact List.suffix_append _ inside
      exact (ofCall.trans (List.dropWhile_suffix _)).trans ofDot

theorem hasMixin_eq_occurs (text : List Char) :
    hasMixin text = occurs (fun rest => (call? rest).any goesOnBehindCall) text := by
  have starts : ∀ text, startsMixin text = (call? text).any goesOnBehindCall := by
    intro text
    rw [startsMixin, call?]
    cases after? ['.'] text with
    | none => rfl
    | some named =>
        cases empty : (named.takeWhile isMixinPart).isEmpty with
        | true => simp [empty]
        | false =>
            simp only [empty, Bool.not_false, Bool.true_and]
            cases after? ['('] (named.dropWhile isMixinPart) <;> rfl
  induction text with
  | nil => rfl
  | cons c text inductionHypothesis => rw [hasMixin, occurs, starts, inductionHypothesis]

/-! ## Changes -/

/-- The tail holds no bracket that closes a hole or a call, and no word of another language. -/
structure Change.Inert (change : Change) : Prop where
  percent : (trimStart change.tail).head? ≠ some '%'
  parenthesis : ')' ∉ change.tail
  brace : '\x7d' ∉ change.tail
  extend : contains ":extend".toList change.tail = false
  opens : contains ['<', '%'] change.tail = false
  closes : contains ['%', '>'] change.tail = false

section Change

variable {change : Change}

theorem occurs_apply {property : List Char → Bool} {text : List Char}
    (blank : ∀ c rest, isBlank c = true → property (c :: rest) = false)
    (keeps : ∀ c rest, c ≠ '\n' → c :: rest <:+ text →
      property (c :: change.apply rest) = property (c :: rest))
    (tail : occurs property change.tail = false) :
    occurs property (change.apply text) = occurs property text := by
  induction text with
  | nil => exact tail
  | cons c text inductionHypothesis =>
      have later := inductionHypothesis fun c_ rest other suffix =>
        keeps c_ rest other (suffix.trans (List.suffix_cons c text))
      by_cases feed : c = '\n'
      · subst feed
        rw [change.apply_feed, occurs, blank _ _ rfl, Bool.false_or, ← later]
        rcases change.feed_cases with same | same
        · rw [same, List.singleton_append, occurs, blank _ _ rfl, Bool.false_or]
        · rw [same, List.cons_append, List.singleton_append, occurs, blank _ _ rfl,
            Bool.false_or, occurs, blank _ _ rfl, Bool.false_or]
      · rw [change.apply_cons feed, occurs, occurs, later,
          keeps c text feed (List.suffix_refl _)]

theorem contains_apply {first : Char} {word : List Char}
    (plain : ∀ c ∈ first :: word, isBlank c = false)
    (absent : contains (first :: word) change.tail = false) (text : List Char) :
    contains (first :: word) (change.apply text) = contains (first :: word) text := by
  rw [contains_eq_occurs] at absent
  rw [contains_eq_occurs, contains_eq_occurs]
  refine occurs_apply ?_ ?_ absent
  · intro c rest blank
    have other : first ≠ c := by
      rintro rfl
      rw [plain first List.mem_cons_self] at blank
      cases blank
    rw [after?, if_neg other]
    rfl
  · intro c rest noFeed _
    rw [← change.apply_cons noFeed, after?_apply plain, Option.isSome_map]

/-- Signs that are not blank are found in a changed text where they were, or in the tail. -/
theorem contains_sign_apply {sign : Char} (notBlank : isBlank sign = false)
    (absent : sign ∉ change.tail) (text : List Char) :
    (change.apply text).contains sign = text.contains sign := by
  have notFeed : sign ≠ '\n' := by
    rintro rfl
    cases notBlank
  have notReturn : sign ≠ '\r' := by
    rintro rfl
    cases notBlank
  have alike : ('\r' == sign) = ('\n' == sign) := by
    rw [beq_false_of_ne (Ne.symm notReturn), beq_false_of_ne (Ne.symm notFeed)]
  have signs : ∀ text : List Char, text.contains sign = text.any (· == sign) := by
    intro text
    rw [List.contains_eq_any_beq]
    congr 1
    funext c
    exact Bool.beq_comm
  have noTail : change.tail.any (· == sign) = false := by
    rw [← signs]
    simpa using absent
  rw [signs, signs, Change.apply, List.any_append, noTail, Bool.or_false,
    change.any_expand (· == sign) alike]

/-! ## Holes -/

theorem hasBraceHole_apply (inert : change.Inert) (text : List Char) :
    hasBraceHole (change.apply text) = hasBraceHole text := by
  have inTail : ∀ {text : List Char}, text <:+ change.tail → text.contains '\x7d' = false := by
    intro text suffix
    simpa using fun member => inert.brace (suffix.subset member)
  rw [hasBraceHole_eq_occurs, hasBraceHole_eq_occurs]
  refine occurs_apply ?_ ?_ ?_
  · intro c rest blank
    have other : c ≠ '\x7b' := by
      rintro rfl
      cases blank
    simp [other]
  · intro c rest _ _
    have inside : ((change.apply rest).drop 1).contains '\x7d' = (rest.drop 1).contains '\x7d' := by
      cases rest with
      | nil => exact inTail (List.drop_suffix 1 change.tail)
      | cons d rest =>
          have later : (change.apply rest).contains '\x7d' = rest.contains '\x7d' :=
            contains_sign_apply rfl inert.brace rest
          by_cases feed : d = '\n'
          · subst feed
            rw [change.apply_feed, List.drop_succ_cons, List.drop_zero, ← later]
            rcases change.feed_cases with same | same <;> rw [same] <;> simp
          · rw [change.apply_cons feed]
            exact later
    change (some c == some '\x7b' && ((change.apply rest).drop 1).contains '\x7d') =
      (some c == some '\x7b' && (rest.drop 1).contains '\x7d')
    rw [inside]
  · rw [occurs_eq_false_iff]
    intro c rest suffix
    rw [inTail ((List.drop_suffix 2 _).trans suffix), Bool.and_false]

/-! ## Lines -/

/-- A change adds to a line what it puts in front of the line feed, or the tail. -/
theorem line_apply (change : Change) (text : List Char) :
    ∃ added, line (change.apply text) = line text ++ added ∧
      (∀ c ∈ added, c = '\r' ∨ c ∈ change.tail) ∧
      (text.contains '\n' = true → change.feed = ['\n'] → added = []) ∧
      (text.contains '\n' = false → change.tail = [] → added = []) := by
  induction text with
  | nil =>
      refine ⟨line change.tail, rfl, fun c member => ?_, fun member => ?_, fun _ none => ?_⟩
      · exact Or.inr ((List.takeWhile_prefix _).subset member)
      · cases member
      · rw [none]
        rfl
  | cons c text inductionHypothesis =>
      by_cases feed : c = '\n'
      · subst feed
        rw [change.apply_feed]
        rcases change.feed_cases with same | same
        · exact ⟨[], by rw [same]; rfl, by simp, fun _ _ => rfl, fun _ _ => rfl⟩
        · refine ⟨['\r'], by rw [same]; rfl, by simp, fun _ other => ?_, fun missing => ?_⟩
          · rw [same] at other
            cases other
          · simp at missing
      · obtain ⟨added, own, members, feeds, ends⟩ := inductionHypothesis
        have goesOn : ∀ text, line (c :: text) = c :: line text :=
          fun text => List.takeWhile_cons_of_pos (by simpa using feed)
        have rest : (c :: text).contains '\n' = text.contains '\n' := by
          rw [List.contains_cons, beq_false_of_ne (Ne.symm feed), Bool.false_or]
        refine ⟨added, ?_, members, rest ▸ feeds, rest ▸ ends⟩
        rw [change.apply_cons feed, goesOn, goesOn, own, List.cons_append]

section Lines

variable (inert : change.Inert)

include inert

private theorem not_mem_added {added : List Char}
    (members : ∀ c ∈ added, c = '\r' ∨ c ∈ change.tail) : ')' ∉ added := by
  intro member
  rcases members _ member with other | inTail
  · cases other
  · exact inert.parenthesis inTail

theorem closesOnLine_apply (text : List Char) :
    closesOnLine (change.apply text) = closesOnLine text := by
  obtain ⟨added, own, members, -⟩ := line_apply change text
  have noneAdded := not_mem_added inert members
  change ((line (change.apply text)).drop 1).contains ')' = ((line text).drop 1).contains ')'
  rw [own]
  cases line text with
  | nil =>
      have noneBehind : ')' ∉ added.drop 1 := fun member => noneAdded (List.mem_of_mem_drop member)
      simpa using noneBehind
  | cons c rest => simp [noneAdded]

theorem goesOnBehindCall_apply {text : List Char}
    (feeds : change.feed = ['\n'] ∨
      ¬((line text).getLast? = some ')' ∧ text.contains '\n' = true))
    (ends : change.tail = [] ∨
      ¬((line text).getLast? = some ')' ∧ text.contains '\n' = false)) :
    goesOnBehindCall (change.apply text) = goesOnBehindCall text := by
  obtain ⟨added, own, members, ofFeed, ofTail⟩ := line_apply change text
  have noneAdded := not_mem_added inert members
  change (line (change.apply text)).dropLast.contains ')' = (line text).dropLast.contains ')'
  rw [own]
  cases added with
  | nil => rw [List.append_nil]
  | cons first more =>
      have other : (line text).getLast? ≠ some ')' := by
        intro closes
        cases feed : text.contains '\n' with
        | true =>
            exact List.cons_ne_nil _ _
              (ofFeed feed (feeds.resolve_right fun settled => settled ⟨closes, feed⟩))
        | false =>
            exact List.cons_ne_nil _ _
              (ofTail feed (ends.resolve_right fun settled => settled ⟨closes, feed⟩))
      have noneMore : ')' ∉ (first :: more).dropLast :=
        fun member => noneAdded (List.dropLast_subset _ member)
      rw [List.dropLast_append_of_ne_nil (List.cons_ne_nil _ _)]
      rcases List.eq_nil_or_concat (line text) with list | ⟨front, last, list⟩
      · rw [list]
        simpa using noneMore
      · have notLast : ')' ≠ last := by
          rintro rfl
          exact other (by rw [list, List.concat_eq_append, List.getLast?_append]; rfl)
        rw [list, List.concat_eq_append, List.dropLast_concat]
        simp [noneMore, notLast]

/-- In a tail without a closing parenthesis no line goes on behind one. -/
private theorem not_contains_tail {text : List Char} (suffix : text <:+ change.tail) :
    ∀ {rest : List Char}, rest.Sublist text → rest.contains ')' = false := by
  intro rest within
  simpa using fun member => inert.parenthesis (suffix.subset (within.subset member))

theorem hasVariable_apply (text : List Char) :
    hasVariable (change.apply text) = hasVariable text := by
  have plain : ∀ c ∈ ['$', '('], isBlank c = false := List.all_iff_forall_prop.1 (by decide)
  rw [hasVariable_eq_occurs, hasVariable_eq_occurs]
  refine occurs_apply ?_ ?_ ?_
  · intro c rest blank
    have other : '$' ≠ c := by
      rintro rfl
      cases blank
    rw [after?, if_neg other]
    rfl
  · intro c rest noFeed _
    rw [← change.apply_cons noFeed, after?_apply plain]
    cases after? ['$', '('] (c :: rest) with
    | none => rfl
    | some inside => exact closesOnLine_apply inert inside
  · rw [occurs_eq_false_iff]
    intro c rest suffix
    cases opened : after? ['$', '('] (c :: rest) with
    | none => rfl
    | some inside =>
        rw [eq_append_of_after? opened] at suffix
        exact not_contains_tail inert suffix (((List.drop_sublist 1 _).trans
          (List.takeWhile_sublist _)).trans (List.sublist_append_right _ inside))

omit inert in
theorem call?_apply (text : List Char) :
    call? (change.apply text) = (call? text).map change.apply := by
  have dot : ∀ c ∈ ['.'], isBlank c = false := List.all_iff_forall_prop.1 (by decide)
  have parenthesis : ∀ c ∈ ['('], isBlank c = false := List.all_iff_forall_prop.1 (by decide)
  have lacks : ∀ c, isBlank c = true → isMixinPart c = false := by
    have signs : ∀ blank ∈ ['\n', '\t', ' ', '\r', '\x0c'], isMixinPart blank = false :=
      List.all_iff_forall_prop.1 (by decide)
    exact fun c blank => signs c (mem_of_isBlank blank)
  rw [call?, call?, after?_apply dot]
  cases after? ['.'] text with
  | none => rfl
  | some named =>
      obtain ⟨run, rest⟩ :
          (change.apply named).takeWhile isMixinPart = named.takeWhile isMixinPart ∧
            (change.apply named).dropWhile isMixinPart =
              change.apply (named.dropWhile isMixinPart) := takeWhile_apply lacks named
      simp only [Option.map_some, run, rest, after?_apply parenthesis]
      split <;> rfl

theorem hasMixin_apply {text : List Char}
    (feeds : change.feed = ['\n'] ∨ callEnds false text = false)
    (ends : change.tail = [] ∨ callEnds true text = false) :
    hasMixin (change.apply text) = hasMixin text := by
  -- What a line that ends with a call says about the end of the text behind the call.
  have none : ∀ {last : Bool} {c : Char} {rest inside : List Char},
      callEnds last text = false → c :: rest <:+ text → call? (c :: rest) = some inside →
      ¬((line inside).getLast? = some ')' ∧ inside.contains '\n' = !last) := by
    intro last c rest inside settled suffix opened ⟨closes, feed⟩
    have here := occurs_eq_false_iff.1 settled c rest suffix
    rw [opened, Option.any_some, closes, feed] at here
    simp at here
  rw [hasMixin_eq_occurs, hasMixin_eq_occurs]
  refine occurs_apply ?_ ?_ ?_
  · intro c rest blank
    have other : '.' ≠ c := by
      rintro rfl
      cases blank
    rw [call?, after?, if_neg other]
    rfl
  · intro c rest noFeed suffix
    rw [← change.apply_cons noFeed, call?_apply]
    cases opened : call? (c :: rest) with
    | none => rfl
    | some inside =>
        refine goesOnBehindCall_apply inert (feeds.imp_right fun settled => ?_)
          (ends.imp_right fun settled => ?_)
        · exact none settled suffix opened
        · exact none settled suffix opened
  · rw [occurs_eq_false_iff]
    intro c rest suffix
    cases opened : call? (c :: rest) with
    | none => rfl
    | some inside =>
        exact not_contains_tail inert ((suffix_of_call? opened).trans suffix)
          ((List.dropLast_sublist _).trans (List.takeWhile_sublist _))

end Lines

/-! ## Plain selectors -/

/-- Behind white space a changed text begins with the sign that the text begins with. -/
theorem head?_trimStart_apply {sign : Char} (other : (trimStart change.tail).head? ≠ some sign)
    (text : List Char) :
    ((trimStart (change.apply text)).head? == some sign) =
      ((trimStart text).head? == some sign) := by
  rw [change.trimStart_apply]
  cases rest : trimStart text with
  | nil => simpa using other
  | cons c rest =>
      have notSpace : isSpace c = false := by
        have bare := List.head?_dropWhile_not isSpace text
        rw [← trimStart, rest] at bare
        simpa using bare
      have noFeed : c ≠ '\n' := by
        rintro rfl
        cases notSpace
      rw [List.isEmpty_cons, if_neg Bool.false_ne_true, change.apply_cons noFeed]
      rfl

theorem hasExtend_apply (inert : change.Inert) (text : List Char) :
    hasExtend (change.apply text) = hasExtend text :=
  contains_apply (List.all_iff_forall_prop.1 (by decide)) inert.extend text

/-- A selector is plain CSS where a changed one is. -/
theorem isStandard_apply {text : List Char} (inert : change.Inert)
    (feeds : change.feed = ['\n'] ∨ callEnds false text = false)
    (ends : change.tail = [] ∨ callEnds true text = false) :
    isStandard (change.apply text) = isStandard text := by
  have opens : contains ['<', '%'] (change.apply text) = contains ['<', '%'] text :=
    contains_apply (List.all_iff_forall_prop.1 (by decide)) inert.opens text
  have closes : contains ['%', '>'] (change.apply text) = contains ['%', '>'] text :=
    contains_apply (List.all_iff_forall_prop.1 (by decide)) inert.closes text
  rw [isStandard, hasInterpolation, hasBraceHole_apply inert, hasVariable_apply inert,
    head?_trimStart_apply inert.percent, hasExtend_apply inert, hasMixin_apply inert feeds ends,
    opens, closes, isStandard, hasInterpolation]

/-- A line feed in another form still ends with a line feed. -/
theorem Change.getLast?_expand (text : List Char) :
    (change.expand text).getLast? = text.getLast? := by
  rcases List.eq_nil_or_concat text with rfl | ⟨front, last, rfl⟩
  · rfl
  · have own : (change.expand [last]).getLast? = some last := by
      by_cases feed : last = '\n'
      · rw [feed, change.expand_feed]
        rcases change.feed_cases with same | same <;> rw [same] <;> rfl
      · rw [change.expand_singleton feed]
        rfl
    rw [List.concat_eq_append, change.expand_append, List.getLast?_append, own,
      List.getLast?_append]
    rfl

section Bare

variable (none : change.tail = [])

include none

theorem Change.apply_eq_expand (text : List Char) : change.apply text = change.expand text := by
  rw [Change.apply, none, List.append_nil]

theorem Change.inert_of_tail_eq_nil : change.Inert := by
  constructor <;> rw [none] <;> simp [trimStart, contains, find?]

/-- Another form of line feeds makes no difference for the selector of a rule. -/
theorem isStandardRule_expand (text : List Char) :
    isStandardRule (change.expand text) = isStandardRule text := by
  have extend := hasExtend_apply (Change.inert_of_tail_eq_nil none) (trimEnd text)
  rw [Change.apply_eq_expand none] at extend
  rw [isStandardRule, change.trimEnd_expand, Change.getLast?_expand, extend, isStandardRule]

theorem isStandard_expand {text : List Char}
    (feeds : change.feed = ['\n'] ∨ callEnds false text = false) :
    isStandard (change.expand text) = isStandard text := by
  have standard := isStandard_apply (Change.inert_of_tail_eq_nil none) feeds (Or.inl none)
  rwa [Change.apply_eq_expand none] at standard

end Bare

end Change

end CssLint.Selector
