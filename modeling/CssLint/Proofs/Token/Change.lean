import CssLint.Proofs.Selector.ChangeText
import CssLint.Proofs.Token.Mark

/-!
# Names and numbers of changed texts

The readers of names and numbers stop where a blank character stands, so they read the
same of a changed text.  A name may go on with an escape, and a text whose
escapes spare the change has no escape that would read anything else.
-/

namespace CssLint

open Text
open Selector (Change Stops stops_or_cons ne_feed_of_not_isBlank takeWhile_apply)

variable {α : Type} {change : Change} {text : List Char}

/-- Of the changed text the reader reads the same, and leaves what it left, changed. -/
def Selector.Change.Carries (change : Change) (reader : List Char → α × List Char)
    (text : List Char) : Prop :=
  reader (change.apply text) = ((reader text).1, change.apply (reader text).2) ∧
    change.Spares (reader text).2

/-! ## Tests at the beginning -/

theorem Selector.Change.Spares.cons {c : Char} (other : c ≠ '\\') (spares : change.Spares text) :
    change.Spares (c :: text) := by
  obtain ⟨tail, feed⟩ := spares
  constructor
  · rw [Selector.endsInEscape]
    · exact tail
    all_goals simp [other]
  · rw [Selector.escapesFeed]
    · exact feed
    all_goals simp [other]

/-- A blank character at the beginning stays one. -/
theorem head_any_apply {property : Char → Bool}
    (lacks : ∀ c, isBlank c = true → property c = false) (text : List Char) :
    (change.apply text).head?.any property = text.head?.any property := by
  have none : ∀ {text : List Char}, Stops text → text.head?.any property = false := by
    intro text stops
    cases text with
    | nil => rfl
    | cons c text => exact lacks c (stops c rfl)
  rcases stops_or_cons text with stops | ⟨c, more, rfl, notBlank⟩
  · rw [none stops, none (change.stops_apply stops)]
  · rw [change.apply_cons (ne_feed_of_not_isBlank notBlank)]
    rfl

theorem Selector.Change.Spares.dropWhile {property : Char → Bool} (lacks : property '\\' = false)
    (spares : change.Spares text) : change.Spares (text.dropWhile property) := by
  induction text with
  | nil => exact spares
  | cons c text inductionHypothesis =>
      by_cases holds : property c = true
      · have other : c ≠ '\\' := by
          rintro rfl
          rw [lacks] at holds
          cases holds
        rw [List.dropWhile_cons_of_pos holds]
        exact inductionHypothesis (spares.behind other)
      · rwa [List.dropWhile_cons_of_neg holds]

theorem not_isDigit_of_isBlank {c : Char} (blank : isBlank c = true) : c.isDigit = false := by
  have signs : ∀ blank ∈ ['\n', '\t', ' ', '\r', '\x0c'], blank.isDigit = false :=
    List.all_iff_forall_prop.1 (by decide)
  exact signs c (mem_of_isBlank blank)

theorem not_isPart_of_isBlank {c : Char} (blank : isBlank c = true) : Name.isPart c = false := by
  have signs : ∀ blank ∈ ['\n', '\t', ' ', '\r', '\x0c'], Name.isPart blank = false :=
    List.all_iff_forall_prop.1 (by decide)
  exact signs c (mem_of_isBlank blank)

/-! ## Names -/

namespace Name

theorem startsEscape_of_ne {c : Char} (other : c ≠ '\\') (text : List Char) :
    startsEscape (c :: text) = false := by
  simp [startsEscape, other]

private theorem startsEscape_of_stops (stops : Stops text) : startsEscape text = false := by
  cases text with
  | nil => rfl
  | cons c text => exact startsEscape_of_ne (ne_of_isBlank (stops c rfl) (by decide)) text

private theorem starts_of_stops (stops : Stops text) : starts text = false := by
  cases text with
  | nil => rfl
  | cons c text =>
      have notPart := not_isPart_of_isBlank (stops c rfl)
      simp only [isPart, Bool.or_eq_false_iff, beq_eq_false_iff_ne] at notPart
      rw [starts, notPart.1.1, startsEscape_of_stops stops, Bool.or_self]
      simp [notPart.2]

private theorem read_of_stops (stops : Stops text) : read text = ([], text) := by
  cases text with
  | nil => rw [read]
  | cons c text =>
      rw [read, if_neg (by simp [not_isPart_of_isBlank (stops c rfl)]),
        if_neg (by simp [startsEscape_of_stops stops])]

theorem startsEscape_apply (spares : change.Spares text) :
    startsEscape (change.apply text) = startsEscape text := by
  rcases stops_or_cons text with stops | ⟨c, more, rfl, notBlank⟩
  · rw [startsEscape_of_stops stops, startsEscape_of_stops (change.stops_apply stops)]
  · rw [change.apply_cons (ne_feed_of_not_isBlank notBlank)]
    by_cases backslash : c = '\\'
    · subst backslash
      cases more with
      | nil => rw [change.apply_nil, spares.tail_eq_nil]
      | cons d more =>
          rw [spares.apply_cons]
          by_cases feed : d = '\n'
          · rw [feed]
            rfl
          · simp [startsEscape, feed]
    · rw [startsEscape_of_ne backslash, startsEscape_of_ne backslash]

theorem starts_apply (spares : change.Spares text) :
    starts (change.apply text) = starts text := by
  rcases stops_or_cons text with stops | ⟨c, more, rfl, notBlank⟩
  · rw [starts_of_stops stops, starts_of_stops (change.stops_apply stops)]
  · have ofEscape := startsEscape_apply spares
    rw [change.apply_cons (ne_feed_of_not_isBlank notBlank)] at ofEscape ⊢
    by_cases hyphen : c = '-'
    · subst hyphen
      have spared := spares.behind (by decide)
      rcases stops_or_cons more with stops | ⟨d, rest, rfl, notBlank⟩
      · have alone : ∀ {text : List Char}, Stops text → starts ('-' :: text) = false := by
          intro text stops
          cases text with
          | nil => rfl
          | cons b rest =>
              have notPart := not_isPart_of_isBlank (stops b rfl)
              simp only [isPart, Bool.or_eq_false_iff] at notPart
              rw [starts, notPart.1.1, notPart.2, startsEscape_of_stops stops]
              rfl
        rw [alone stops, alone (change.stops_apply stops)]
      · have deeper := startsEscape_apply spared
        rw [change.apply_cons (ne_feed_of_not_isBlank notBlank)] at deeper ⊢
        rw [starts, starts, deeper]
    · rw [starts, starts, ofEscape]
      all_goals simp [hyphen]

/-- Behind a backslash that escapes nothing the text is spared too. -/
theorem spares_of_not_startsEscape {c : Char} (spares : change.Spares (c :: text))
    (none : startsEscape (c :: text) = false) : change.Spares text := by
  by_cases backslash : c = '\\'
  · subst backslash
    cases text with
    | nil => cases none
    | cons d text =>
        have noBackslash : d ≠ '\\' := by
          rintro rfl
          cases none
        exact spares.behindEscape.cons noBackslash
  · exact spares.behind backslash

theorem readEscape_apply (spares : change.Spares ('\\' :: text))
    (noFeed : text.head? ≠ some '\n') : change.Carries readEscape text := by
  cases text with
  | nil =>
      rw [Change.Carries, change.apply_nil, spares.tail_eq_nil, readEscape, change.apply_nil,
        spares.tail_eq_nil]
      exact ⟨rfl, Or.inl spares.tail_eq_nil, Or.inr rfl⟩
  | cons c more =>
      have other : c ≠ '\n' := by simpa using noFeed
      rw [Change.Carries, change.apply_cons other]
      by_cases digit : isHexDigit c = true
      · have six : takeAtMost isHexDigit 6 (c :: more) =
            (c :: (takeAtMost isHexDigit 5 more).1, (takeAtMost isHexDigit 5 more).2) := by
          rw [takeAtMost, if_pos digit]
        have ends := spares.behindDigits
        rw [six] at ends
        simp only [readEscape, digit, if_true, Selector.takeAtMost_apply,
          Selector.dropBlank_apply ends.1 ends.2]
        exact ⟨trivial, (spares.behindEscape.takeAtMost 5).dropBlank⟩
      · simp only [readEscape, digit, Bool.false_eq_true, if_false]
        exact ⟨trivial, spares.behindEscape⟩

theorem head?_of_startsEscape {c : Char} (begins : startsEscape (c :: text) = true) :
    c = '\\' ∧ text.head? ≠ some '\n' := by
  by_cases backslash : c = '\\'
  · subst backslash
    refine ⟨rfl, fun feed => ?_⟩
    cases text with
    | nil => cases feed
    | cons d text =>
        cases feed
        cases begins
  · rw [startsEscape_of_ne backslash] at begins
    cases begins

theorem read_apply (spares : change.Spares text) : change.Carries read text := by
  fun_induction read text with
  | case1 =>
      have stops : Stops (change.apply []) :=
        change.stops_apply fun _ member => absurd member (by simp)
      rw [Change.Carries, read_of_stops stops, read]
      exact ⟨rfl, spares⟩
  | case2 c text part name rest same inductionHypothesis =>
      have noFeed : c ≠ '\n' := by
        rintro rfl
        cases part
      have other : c ≠ '\\' := by
        rintro rfl
        cases part
      obtain ⟨later, spared⟩ := inductionHypothesis (spares.behind other)
      rw [Change.Carries, change.apply_cons noFeed, read, read, if_pos part, if_pos part, later]
      exact ⟨rfl, spared⟩
  | case3 c text notPart begins escape name rest same inductionHypothesis =>
      obtain ⟨rfl, noFeed⟩ := head?_of_startsEscape begins
      obtain ⟨ofEscape, sparedEscape⟩ := readEscape_apply spares noFeed
      obtain ⟨later, spared⟩ := inductionHypothesis sparedEscape
      have begins' := startsEscape_apply spares
      rw [change.apply_cons (by decide), begins] at begins'
      rw [Change.Carries, change.apply_cons (by decide), read, read, if_neg notPart,
        if_neg notPart, if_pos begins, if_pos begins', ofEscape]
      simp only [escape] at later spared
      simp only [later]
      exact ⟨trivial, spared⟩
  | case4 c text notPart noEscape =>
      have alone : read (c :: text) = ([], c :: text) := by
        rw [read, if_neg notPart, if_neg noEscape]
      rw [Change.Carries, alone]
      refine ⟨?_, spares⟩
      rcases stops_or_cons (c :: text) with stops | ⟨_, _, same, notBlank⟩
      · exact read_of_stops (change.stops_apply stops)
      · cases same
        have begins' := startsEscape_apply spares
        rw [change.apply_cons (ne_feed_of_not_isBlank notBlank)] at begins' ⊢
        rw [read, if_neg notPart, if_neg (by rwa [begins'])]

end Name

/-! ## Numbers -/

namespace Numeral

theorem startsDigit_apply (text : List Char) :
    startsDigit (change.apply text) = startsDigit text := by
  have digit : ∀ text, startsDigit text = text.head?.any Char.isDigit := by
    intro text
    cases text <;> rfl
  rw [digit, digit, head_any_apply fun _ => not_isDigit_of_isBlank]

private theorem starts_of_stops (stops : Stops text) : starts text = false := by
  cases text with
  | nil => rfl
  | cons c text =>
      have other : ∀ sign, isBlank sign = false → c ≠ sign := fun _ => ne_of_isBlank (stops c rfl)
      have plain : starts (c :: text) = startsDigit (c :: text) := by
        rw [starts]
        all_goals simp [other '+' (by decide), other '-' (by decide), other '.' (by decide)]
      rw [plain]
      exact not_isDigit_of_isBlank (stops c rfl)

theorem starts_apply (text : List Char) : starts (change.apply text) = starts text := by
  rcases stops_or_cons text with stops | ⟨c, more, rfl, notBlank⟩
  · rw [starts_of_stops stops, starts_of_stops (change.stops_apply stops)]
  · rw [change.apply_cons (ne_feed_of_not_isBlank notBlank)]
    have digit : startsDigit (change.apply more) = startsDigit more := startsDigit_apply more
    by_cases sign : c = '+' ∨ c = '-'
    · rw [starts_sign sign, starts_sign sign, digit]
      rcases stops_or_cons more with stops | ⟨d, rest, rfl, notBlank⟩
      · have noPoint : ∀ {text : List Char}, Stops text → text.head? ≠ some '.' := by
          intro text stops same
          exact absurd (stops '.' (by rw [same]; rfl)) (by decide)
        rw [if_neg (noPoint stops), if_neg (noPoint (change.stops_apply stops))]
      · have later : startsDigit (change.apply rest) = startsDigit rest := startsDigit_apply rest
        rw [change.apply_cons (ne_feed_of_not_isBlank notBlank)]
        simp only [List.head?_cons, List.tail_cons, later]
        rfl
    · by_cases point : c = '.'
      · subst point
        exact digit
      · have plain : ∀ text, starts (c :: text) = startsDigit (c :: text) := by
          intro text
          unfold starts
          split <;> simp_all
        rw [plain, plain]
        rfl

theorem readSign_apply (spares : change.Spares text) : change.Carries readSign text := by
  have none : ∀ {text : List Char}, Stops text → readSign text = ([], text) := by
    intro text stops
    cases text with
    | nil => rfl
    | cons c text =>
        have other : ∀ sign, isBlank sign = false → c ≠ sign :=
          fun _ => ne_of_isBlank (stops c rfl)
        rw [readSign, if_neg (by simp [other '+' (by decide), other '-' (by decide)])]
  rw [Change.Carries]
  rcases stops_or_cons text with stops | ⟨c, more, rfl, notBlank⟩
  · rw [none stops, none (change.stops_apply stops)]
    exact ⟨rfl, spares⟩
  · have noFeed := ne_feed_of_not_isBlank notBlank
    rw [change.apply_cons noFeed, readSign, readSign]
    split
    · rename_i sign
      have other : c ≠ '\\' := by
        rintro rfl
        simp at sign
      exact ⟨rfl, spares.behind other⟩
    · exact ⟨by rw [change.apply_cons noFeed], spares⟩

theorem readDigits_apply (spares : change.Spares text) : change.Carries readDigits text := by
  obtain ⟨run, rest⟩ :
      (change.apply text).takeWhile Char.isDigit = text.takeWhile Char.isDigit ∧
        (change.apply text).dropWhile Char.isDigit = change.apply (text.dropWhile Char.isDigit) :=
    takeWhile_apply (fun _ => not_isDigit_of_isBlank) text
  rw [Change.Carries, readDigits, run, rest]
  exact ⟨rfl, spares.dropWhile (by decide)⟩

theorem readFraction_apply (spares : change.Spares text) : change.Carries readFraction text := by
  have none : ∀ {text : List Char}, Stops text → readFraction text = ([], text) := by
    intro text stops
    cases text with
    | nil => rfl
    | cons c text =>
        have other : c ≠ '.' := ne_of_isBlank (stops c rfl) (by decide)
        rw [readFraction, if_neg (by simp [other])]
  rw [Change.Carries]
  rcases stops_or_cons text with stops | ⟨c, more, rfl, notBlank⟩
  · rw [none stops, none (change.stops_apply stops)]
    exact ⟨rfl, spares⟩
  · have noFeed := ne_feed_of_not_isBlank notBlank
    rw [change.apply_cons noFeed, readFraction, readFraction, startsDigit_apply]
    split
    · rename_i point
      have other : c ≠ '\\' := by
        rintro rfl
        simp at point
      obtain ⟨digits, spared⟩ := readDigits_apply (spares.behind other)
      rw [digits]
      exact ⟨rfl, spared⟩
    · exact ⟨by rw [change.apply_cons noFeed], spares⟩

theorem readExponent_apply (spares : change.Spares text) : change.Carries readExponent text := by
  have none : ∀ {text : List Char}, Stops text → readExponent text = ([], text) := by
    intro text stops
    cases text with
    | nil => rfl
    | cons c text =>
        have other : ∀ sign, isBlank sign = false → c ≠ sign :=
          fun _ => ne_of_isBlank (stops c rfl)
        simp [readExponent, other 'e' (by decide), other 'E' (by decide)]
  rw [Change.Carries]
  rcases stops_or_cons text with stops | ⟨c, more, rfl, notBlank⟩
  · rw [none stops, none (change.stops_apply stops)]
    exact ⟨rfl, spares⟩
  · have noFeed := ne_feed_of_not_isBlank notBlank
    rw [change.apply_cons noFeed]
    by_cases other : c = '\\'
    · subst other
      simp only [readExponent, Char.reduceEq, decide_false, Bool.or_self, Bool.false_and,
        Bool.false_eq_true, if_false]
      exact ⟨by rw [change.apply_cons noFeed], spares⟩
    · obtain ⟨sign, sparedSign⟩ := readSign_apply (spares.behind other)
      obtain ⟨digits, spared⟩ := readDigits_apply sparedSign
      simp only [readExponent, sign, digits, startsDigit_apply]
      split
      · exact ⟨rfl, spared⟩
      · exact ⟨by rw [change.apply_cons noFeed], spares⟩

theorem read_apply (spares : change.Spares text) : change.Carries read text := by
  obtain ⟨sign, ofSign⟩ := readSign_apply spares
  obtain ⟨whole, ofWhole⟩ := readDigits_apply ofSign
  obtain ⟨fraction, ofFraction⟩ := readFraction_apply ofWhole
  obtain ⟨exponent, ofExponent⟩ := readExponent_apply ofFraction
  refine ⟨?_, ofExponent⟩
  simp only [read, sign, whole, fraction, exponent]

end Numeral

end CssLint
