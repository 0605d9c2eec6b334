import CssLint.Proofs.Selector.Change
import CssLint.Proofs.Text.Trim
import CssLint.Selector.Attribute

/-!
# Changed texts

The other form of a line feed is blank, as the line feed is.  So trimming, division at
a sign, and runs of blanks or of other characters are found in a changed text where
they were, and the tests of attributes stay the same tests.
-/

namespace CssLint.Selector

open Text

namespace Change

variable (change : Change)

/-! ## Runs and trimming -/

/-- What stands for one character. -/
theorem exists_expand_cons (c : Char) : ∃ first more, first :: more = change.expand [c] ∧
    (∀ text, change.expand (c :: text) = first :: more ++ change.expand text) ∧
    ∀ property : Char → Bool, property '\r' = property '\n' →
      ∀ other ∈ first :: more, property other = property c := by
  have joined : ∀ text, change.expand (c :: text) = change.expand [c] ++ change.expand text :=
    fun text => change.expand_append [c] text
  by_cases feed : c = '\n'
  · subst feed
    rcases change.feed_cases with same | same
    · refine ⟨'\n', [], ?_, fun text => ?_, fun _ _ other member => ?_⟩
      · rw [expand_feed, same]
      · rw [joined, expand_feed, same]
      · rw [List.mem_singleton.1 member]
    · refine ⟨'\r', ['\n'], ?_, fun text => ?_, fun _ alike other member => ?_⟩
      · rw [expand_feed, same]
      · rw [joined, expand_feed, same]
      · simp only [List.mem_cons, List.not_mem_nil, or_false] at member
        rcases member with rfl | rfl
        · exact alike
        · rfl
  · refine ⟨c, [], ?_, fun text => ?_, fun _ _ other member => ?_⟩
    · rw [expand_singleton change feed]
    · rw [joined, expand_singleton change feed]
    · rw [List.mem_singleton.1 member]

section Runs

variable (property : Char → Bool) (alike : property '\r' = property '\n')

include alike

theorem dropWhile_expand (text : List Char) :
    (change.expand text).dropWhile property = change.expand (text.dropWhile property) := by
  induction text with
  | nil => rfl
  | cons c text inductionHypothesis =>
      obtain ⟨first, more, -, joined, same⟩ := change.exists_expand_cons c
      rw [joined]
      by_cases holds : property c = true
      · rw [List.dropWhile_append_of_pos fun d member => (same _ alike d member).trans holds,
          List.dropWhile_cons_of_pos holds, inductionHypothesis]
      · have here : ¬property first = true := by
          rwa [same _ alike first List.mem_cons_self]
        rw [List.cons_append, List.dropWhile_cons_of_neg here, List.dropWhile_cons_of_neg holds,
          joined, List.cons_append]

theorem takeWhile_expand (text : List Char) :
    (change.expand text).takeWhile property = change.expand (text.takeWhile property) := by
  have whole := congrArg change.expand (List.takeWhile_append_dropWhile (p := property) (l := text))
  rw [expand_append, ← change.dropWhile_expand property alike] at whole
  exact List.append_cancel_right (List.takeWhile_append_dropWhile.trans whole.symm)

theorem any_expand (text : List Char) : (change.expand text).any property = text.any property := by
  induction text with
  | nil => rfl
  | cons c text inductionHypothesis =>
      obtain ⟨first, more, -, joined, same⟩ := change.exists_expand_cons c
      have here : (first :: more).any property = property c := by
        cases holds : property c with
        | false => exact List.any_eq_false.2 fun d member => by simp [same _ alike d member, holds]
        | true =>
            exact List.any_eq_true.2 ⟨first, List.mem_cons_self,
              (same _ alike first List.mem_cons_self).trans holds⟩
      rw [joined, List.any_append, here, inductionHypothesis, List.any_cons]

end Runs

theorem isEmpty_expand (text : List Char) : (change.expand text).isEmpty = text.isEmpty := by
  cases text with
  | nil => rfl
  | cons c text =>
      obtain ⟨first, more, -, joined, -⟩ := change.exists_expand_cons c
      rw [joined]
      rfl

theorem trimStart_expand (text : List Char) :
    trimStart (change.expand text) = change.expand (trimStart text) :=
  change.dropWhile_expand isSpace rfl text

theorem trimStart_apply (text : List Char) :
    trimStart (change.apply text) =
      if (trimStart text).isEmpty then trimStart change.tail
      else change.apply (trimStart text) := by
  have own := change.trimStart_expand text
  rw [trimStart] at own
  rw [apply, trimStart, List.dropWhile_append, own, isEmpty_expand]
  rfl

private theorem trimEnd_append (left right : List Char) :
    trimEnd (left ++ right) =
      if (trimEnd right).isEmpty then trimEnd left else left ++ trimEnd right := by
  simp only [trimEnd, List.reverse_append, List.dropWhile_append, List.isEmpty_reverse]
  split <;> simp

theorem trimEnd_expand (text : List Char) :
    trimEnd (change.expand text) = change.expand (trimEnd text) := by
  induction text with
  | nil => rfl
  | cons c text inductionHypothesis =>
      obtain ⟨first, more, single, joined, same⟩ := change.exists_expand_cons c
      have here : trimEnd (first :: more) = change.expand (trimEnd [c]) := by
        by_cases space : isSpace c = true
        · have all : ∀ d ∈ first :: more, isSpace d = true :=
            fun d member => (same isSpace rfl d member).trans space
          have none := trimEnd_append_of_isSpace all []
          rw [List.nil_append] at none
          rw [none]
          simp [trimEnd, space]
        · have all : ∀ d ∈ first :: more, isSpace d = false :=
            fun d member => (same isSpace rfl d member).trans (Bool.eq_false_iff.2 space)
          rw [trimEnd_eq_self (bareEnd_of_forall (List.cons_ne_nil _ _) all), single]
          simp [trimEnd, space]
      have parted : trimEnd (c :: text) =
          if (trimEnd text).isEmpty then trimEnd [c] else [c] ++ trimEnd text :=
        trimEnd_append [c] text
      rw [joined, trimEnd_append, inductionHypothesis, isEmpty_expand, here, parted]
      split
      · rfl
      · rw [expand_append, single]

theorem trim_expand (text : List Char) : trim (change.expand text) = change.expand (trim text) := by
  rw [trim, trimStart_expand, trimEnd_expand, trim]

/-! ## Tests of attributes -/

private theorem splitAt?_append {c : Char} {front : List Char} (absent : c ∉ front)
    (text : List Char) :
    splitAt? c (front ++ text) =
      (splitAt? c text).map fun (left, right) => (front ++ left, right) := by
  induction front with
  | nil => simp
  | cons first front inductionHypothesis =>
      rw [List.mem_cons, not_or] at absent
      rw [List.cons_append, splitAt?, if_neg (Ne.symm absent.1), inductionHypothesis absent.2,
        Option.map_map]
      rfl

theorem splitAt?_expand {c : Char} (notBlank : isBlank c = false) (text : List Char) :
    splitAt? c (change.expand text) =
      (splitAt? c text).map fun (left, right) => (change.expand left, change.expand right) := by
  have notFeed : c ≠ '\n' := by
    rintro rfl
    cases notBlank
  have notReturn : c ≠ '\r' := by
    rintro rfl
    cases notBlank
  induction text with
  | nil => rfl
  | cons first text inductionHypothesis =>
      rw [splitAt?]
      by_cases here : first = c
      · subst here
        rw [← List.singleton_append, expand_append, expand_singleton change notFeed,
          List.singleton_append, splitAt?, if_pos rfl, if_pos rfl]
        rfl
      · obtain ⟨_, _, single, joined, same⟩ := change.exists_expand_cons first
        have alike : ('\r' == c) = ('\n' == c) := by
          rw [beq_false_of_ne (Ne.symm notReturn), beq_false_of_ne (Ne.symm notFeed)]
        have absent : c ∉ change.expand [first] := by
          intro member
          rw [← single] at member
          have equal := same (· == c) alike c member
          rw [beq_self_eq_true, eq_comm, beq_iff_eq] at equal
          exact here equal
        rw [joined, single, splitAt?_append absent, inductionHypothesis, if_neg here,
          Option.map_map, Option.map_map]
        congr 1
        funext parts
        exact congrArg (·, change.expand parts.2) (change.expand_append [first] parts.1).symm

/-! ## Words -/

theorem expand_of_not_mem {text : List Char} (absent : '\n' ∉ text) :
    change.expand text = text := by
  induction text with
  | nil => rfl
  | cons c text inductionHypothesis =>
      rw [List.mem_cons, not_or] at absent
      rw [← List.singleton_append, expand_append, expand_singleton change (Ne.symm absent.1),
        inductionHypothesis absent.2]

theorem mem_expand {text : List Char} (member : '\n' ∈ text) : '\n' ∈ change.expand text := by
  refine List.mem_flatMap.2 ⟨'\n', member, ?_⟩
  rcases change.feed_cases with same | same <;> rw [if_pos rfl, same] <;> decide

/-- A changed text is the same word, in any letter case. -/
theorem alike_expand {word : List Char} (plain : '\n' ∉ lower word) (text : List Char) :
    alike (change.expand text) word = alike text word := by
  by_cases member : '\n' ∈ text
  · have other : ∀ {text : List Char}, '\n' ∈ text → alike text word = false := by
      intro text member
      refine beq_false_of_ne fun same => plain ?_
      rw [← same]
      exact List.mem_map.2 ⟨'\n', member, rfl⟩
    rw [other member, other (change.mem_expand member)]
  · rw [change.expand_of_not_mem member]

end Change

/-! ## Blanks and comments -/

section Comments

variable {change : Change}

theorem dropWhile_apply (text : List Char) :
    (change.apply text).dropWhile isBlank =
      if text.dropWhile isBlank = [] then change.tail.dropWhile isBlank
      else change.apply (text.dropWhile isBlank) := by
  induction text with
  | nil => rfl
  | cons c text inductionHypothesis =>
      by_cases blank : isBlank c = true
      · have all : ∀ d ∈ change.expand [c], isBlank d = true := by
          obtain ⟨_, _, single, -, same⟩ := change.exists_expand_cons c
          exact fun d member => (same isBlank rfl d (single ▸ member)).trans blank
        rw [← List.singleton_append, change.apply_append, List.dropWhile_append_of_pos all,
          inductionHypothesis, List.singleton_append, List.dropWhile_cons_of_pos blank]
      · rw [change.apply_cons (ne_feed_of_not_isBlank blank), List.dropWhile_cons_of_neg blank,
          List.dropWhile_cons_of_neg blank, if_neg (List.cons_ne_nil _ _),
          change.apply_cons (ne_feed_of_not_isBlank blank)]

/-- A run without blanks ends in the changed text where it ended. -/
theorem takeWhile_apply {property : Char → Bool}
    (lacks : ∀ c, isBlank c = true → property c = false) (text : List Char) :
    (change.apply text).takeWhile property = text.takeWhile property ∧
      (change.apply text).dropWhile property = change.apply (text.dropWhile property) := by
  have none : ∀ {text : List Char}, Stops text →
      text.takeWhile property = [] ∧ text.dropWhile property = text := by
    intro text stops
    cases text with
    | nil => exact ⟨rfl, rfl⟩
    | cons c text =>
        have other := lacks c (stops c rfl)
        simp [other]
  induction text with
  | nil => exact none (change.stops_apply fun _ member => absurd member (by simp))
  | cons c text inductionHypothesis =>
      rcases stops_or_cons (c :: text) with stops | ⟨_, _, same, notBlank⟩
      · rw [(none stops).1, (none stops).2]
        exact none (change.stops_apply stops)
      · cases same
        have noFeed := ne_feed_of_not_isBlank notBlank
        rw [change.apply_cons noFeed]
        by_cases holds : property c = true
        · simp [holds, inductionHypothesis]
        · simp [holds, change.apply_cons noFeed]

private theorem behind?_blanks {first : Char} {word blanks : List Char}
    (plain : isBlank first = false) (blank : ∀ c ∈ blanks, isBlank c = true)
    (text : List Char) :
    behind? (first :: word) (blanks ++ text) = behind? (first :: word) text := by
  induction blanks with
  | nil => rfl
  | cons c blanks inductionHypothesis =>
      have other : first ≠ c := Ne.symm (ne_of_isBlank (blank c List.mem_cons_self) plain)
      rw [List.cons_append, behind?, after?, if_neg other, Option.none_or]
      exact inductionHypothesis fun c member => blank c (List.mem_cons_of_mem _ member)

/-- The end of a comment is found in the changed text; where there is none, only a tail could bring
one. -/
theorem behind?_apply {first : Char} {word : List Char}
    (plain : ∀ c ∈ first :: word, isBlank c = false) (text : List Char)
    (found : behind? (first :: word) change.tail = none ∨
      (behind? (first :: word) text).isSome = true) :
    behind? (first :: word) (change.apply text) =
      (behind? (first :: word) text).map change.apply := by
  have notBlank := plain first List.mem_cons_self
  induction text with
  | nil =>
      have none := found.resolve_right (by simp [behind?, after?])
      rw [change.apply_nil, none]
      rfl
  | cons c text inductionHypothesis =>
      have here : after? (first :: word) (change.apply (c :: text)) =
          (after? (first :: word) (c :: text)).map change.apply := after?_apply plain _
      rw [behind?] at found ⊢
      by_cases feed : c = '\n'
      · subst feed
        have other : after? (first :: word) ('\n' :: text) = none := by
          rw [after?, if_neg (Ne.symm (ne_of_isBlank rfl notBlank))]
        rw [other, Option.none_or] at found ⊢
        rw [change.apply_feed, behind?_blanks notBlank change.isBlank_of_mem_feed]
        exact inductionHypothesis found
      · rw [change.apply_cons feed] at here ⊢
        rw [behind?, here]
        cases begins : after? (first :: word) (c :: text) with
        | some rest => rfl
        | none =>
            rw [begins, Option.none_or] at found
            exact inductionHypothesis found

/-- No comment ends in the tail. -/
def Change.EndsNoComment (change : Change) : Prop :=
  behind? ['*', '/'] change.tail = none

theorem Change.endsNoComment_of_nil (none : change.tail = []) : change.EndsNoComment := by
  rw [EndsNoComment, none]
  rfl

theorem Change.endsNoComment_of_isBlank (blank : ∀ c ∈ change.tail, isBlank c = true) :
    change.EndsNoComment := by
  rw [EndsNoComment, ← List.append_nil change.tail, behind?_blanks (by decide) blank]
  rfl

/-- A comment ends outside escapes, for its end begins with a star. -/
theorem Change.Spares.comment : ∀ {text rest : List Char}, change.Spares text →
    behind? ['*', '/'] text = some rest → change.Spares rest
  | [], _, _, found => by simp [behind?, after?] at found
  | [c], _, _, found => by simp [behind?, after?] at found
  | c :: d :: text, rest, spares, found => by
      have begins : ∀ {c : Char} {text : List Char}, change.Spares text →
          after? ['*', '/'] (c :: text) = some rest → change.Spares rest := by
        intro c text spares here
        rw [(List.cons.inj (eq_append_of_after? here)).2] at spares
        exact spares.behind (by decide)
      rw [behind?, Option.or_eq_some_iff] at found
      by_cases backslash : c = '\\'
      · subst backslash
        have later : behind? ['*', '/'] (d :: text) = some rest :=
          found.elim (fun here => by cases here) And.right
        rw [behind?, Option.or_eq_some_iff] at later
        exact later.elim (begins spares.behindEscape) fun later =>
          spares.behindEscape.comment later.2
      · have spared := spares.behind backslash
        exact found.elim (begins spared) fun later => spared.comment later.2

end Comments

/-! ## Tests of attributes -/

namespace AttributeTest

def mapTexts (change : List Char → List Char) : AttributeTest → AttributeTest
  | present name => present (change name)
  | compare name comparison value => compare (change name) comparison (change value)

variable (change : Change)

theorem isName_expand (text : List Char) : isName (change.expand text) = isName text := by
  rw [isName, change.isEmpty_expand, change.any_expand isBlank rfl, isName]

theorem isModifier_expand (text : List Char) :
    isModifier (change.expand text) = isModifier text := by
  simp only [isModifier]
  rw [change.trim_expand, change.isEmpty_expand, change.alike_expand (by decide),
    change.alike_expand (by decide)]

theorem splitName_expand (text : List Char) :
    splitName (change.expand text) =
      (change.expand (splitName text).1, (splitName text).2) := by
  simp only [splitName]
  rw [change.trimEnd_expand]
  rcases List.eq_nil_or_concat (trimEnd text) with none | ⟨init, c, split_⟩
  · rw [none]
    rfl
  · rw [split_, List.concat_eq_append]
    by_cases feed : c = '\n'
    · subst feed
      have noSign : (change.expand (init ++ ['\n'])).getLast?.bind comparison? = none := by
        rw [change.expand_append, change.expand_feed]
        rcases change.feed_cases with same | same <;> rw [same] <;> simp [comparison?]
      rw [noSign]
      simp [comparison?]
    · rw [change.expand_append, change.expand_singleton feed]
      simp only [List.getLast?_append, List.getLast?_singleton, Option.some_or,
        Option.bind_some, List.dropLast_concat]
      cases comparison? c with
      | none => simp [change.expand_append, change.expand_singleton feed]
      | some comparison => simp [change.trimEnd_expand]

theorem splitValue_expand (text : List Char) :
    splitValue (change.expand text) =
      (splitValue text).map fun (value, rest) => (change.expand value, change.expand rest) := by
  cases text with
  | nil => rfl
  | cons c inside =>
      by_cases quotes : (decide (c = '"') || decide (c = '\'')) = true
      · have noFeed : c ≠ '\n' := by rcases quote_cases quotes with rfl | rfl <;> decide
        have noBlank : isBlank c = false := by rcases quote_cases quotes with rfl | rfl <;> rfl
        rw [← List.singleton_append, change.expand_append, change.expand_singleton noFeed,
          List.singleton_append, List.singleton_append, splitValue, splitValue, if_pos quotes,
          if_pos quotes, change.splitAt?_expand noBlank]
      · obtain ⟨first, more, -, joined, same⟩ := change.exists_expand_cons c
        have noQuote : ¬(decide (first = '"') || decide (first = '\'')) = true := by
          have alike := same (fun c => decide (c = '"') || decide (c = '\'')) rfl first
            List.mem_cons_self
          rwa [alike]
        have runs := change.takeWhile_expand (fun c => !isBlank c) rfl (c :: inside)
        have rests := change.dropWhile_expand (fun c => !isBlank c) rfl (c :: inside)
        rw [joined] at runs rests ⊢
        rw [List.cons_append] at runs rests ⊢
        rw [splitValue, splitValue, if_neg quotes, if_neg noQuote]
        simp only [runs, rests, change.isEmpty_expand]
        split <;> rfl

theorem value?_expand (text : List Char) :
    value? (change.expand text) = (value? text).map change.expand := by
  simp only [value?]
  rw [change.trim_expand, splitValue_expand]
  cases splitValue (trim text) with
  | none => rfl
  | some parts =>
      simp only [Option.map_some, isModifier_expand]
      split <;> rfl

theorem ofBody?_expand (body : List Char) :
    ofBody? (change.expand body) = (ofBody? body).map (mapTexts change.expand) := by
  simp only [ofBody?]
  rw [change.trim_expand, change.splitAt?_expand (by decide)]
  cases splitAt? '=' (trim body) with
  | none =>
      simp only [Option.map_none, isName_expand]
      split <;> rfl
  | some parts =>
      simp only [Option.map_some, splitName_expand, isName_expand, value?_expand]
      split
      · cases value? parts.2 <;> rfl
      · rfl

end AttributeTest

end CssLint.Selector
