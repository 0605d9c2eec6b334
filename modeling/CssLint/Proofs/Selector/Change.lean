import CssLint.Proofs.Selector.Suffix
import CssLint.Proofs.Text.Letters

/-!
# Changes that readers follow

A change gives every line feed of a text another form, and adds a tail that begins with
a blank character.  No part of a selector but an escape can take either of them, so
the readers of names, strings and brackets leave the same places of a text
whose escapes spare them.
-/

namespace CssLint.Selector

open Text CssLint.Name

/-! ## Changes -/

/-- A form for line feeds, and a text that is added behind. -/
structure Change where
  feed : List Char
  tail : List Char
  feed_cases : feed = ['\n'] ∨ feed = ['\r', '\n']
  blank_of_mem_head? : ∀ c ∈ tail.head?, isBlank c = true

/-- Whether the text ends inside an escape, or behind one that may still take a blank. -/
def endsInEscape : List Char → Bool
  | [] => false
  | '\\' :: [] => true
  | '\\' :: c :: text => (takeAtMost isHexDigit 6 (c :: text)).2.isEmpty || endsInEscape text
  | _ :: text => endsInEscape text

/-- Whether a line feed stands inside an escape, or behind one that takes it. -/
def escapesFeed : List Char → Bool
  | [] => false
  | '\\' :: [] => false
  | '\\' :: c :: text =>
    (takeAtMost isHexDigit 6 (c :: text)).2.head? == some '\n' || escapesFeed text
  | _ :: text => escapesFeed text

/-- A text at whose beginning no name goes on. -/
def Stops (text : List Char) : Prop :=
  ∀ c ∈ text.head?, isBlank c = true

namespace Change

variable (change : Change)

/-- The text with the other form of line feeds. -/
def expand (text : List Char) : List Char :=
  text.flatMap fun c => if c = '\n' then change.feed else [c]

def apply (text : List Char) : List Char :=
  change.expand text ++ change.tail

/-- No escape of the text takes anything of what the change puts in its place. -/
structure Spares (text : List Char) : Prop where
  tail : change.tail = [] ∨ endsInEscape text = false
  feed : change.feed = ['\n'] ∨ escapesFeed text = false

@[simp] theorem expand_nil : change.expand [] = [] := rfl

@[simp] theorem apply_nil : change.apply [] = change.tail := rfl

@[simp] theorem expand_append (left right : List Char) :
    change.expand (left ++ right) = change.expand left ++ change.expand right :=
  List.flatMap_append

theorem apply_append (left right : List Char) :
    change.apply (left ++ right) = change.expand left ++ change.apply right := by
  rw [apply, expand_append, List.append_assoc, apply]

theorem expand_singleton {c : Char} (noFeed : c ≠ '\n') : change.expand [c] = [c] := by
  simp [expand, noFeed]

theorem expand_feed : change.expand ['\n'] = change.feed := by
  simp [expand]

theorem apply_cons {c : Char} (noFeed : c ≠ '\n') (text : List Char) :
    change.apply (c :: text) = c :: change.apply text := by
  rw [← List.singleton_append, apply_append, expand_singleton change noFeed,
    List.singleton_append]

theorem apply_feed (text : List Char) :
    change.apply ('\n' :: text) = change.feed ++ change.apply text := by
  rw [← List.singleton_append, apply_append, expand_feed]

theorem isBlank_of_mem_feed : ∀ c ∈ change.feed, isBlank c = true := by
  rcases change.feed_cases with same | same <;> rw [same] <;>
    exact List.all_iff_forall_prop.1 (by decide)

/-- Without another form of line feeds the text stays as it is. -/
theorem expand_eq_self (same : change.feed = ['\n']) (text : List Char) :
    change.expand text = text := by
  induction text with
  | nil => rfl
  | cons c text inductionHypothesis =>
      rw [← List.singleton_append, expand_append, inductionHypothesis]
      by_cases feed : c = '\n'
      · rw [feed, expand_feed, same]
      · rw [expand_singleton change feed]

theorem stops_apply {text : List Char} (stops : Stops text) : Stops (change.apply text) := by
  cases text with
  | nil => exact change.blank_of_mem_head?
  | cons c text =>
      by_cases feed : c = '\n'
      · subst feed
        rw [apply_feed]
        rcases change.feed_cases with same | same <;> rw [same] <;> simp [Stops, isBlank]
      · rw [apply_cons change feed]
        exact stops

/-- The change that only adds a text. -/
def adding (tail : List Char) (stops : Stops tail) : Change :=
  ⟨['\n'], tail, Or.inl rfl, stops⟩

theorem apply_adding {tail : List Char} (stops : Stops tail) (text : List Char) :
    (adding tail stops).apply text = text ++ tail :=
  congrArg (· ++ tail) (expand_eq_self _ rfl text)

end Change

theorem stops_space (text : List Char) : Stops (' ' :: text) := by
  rintro _ ⟨⟩
  rfl

theorem ne_feed_of_not_isBlank {c : Char} (notBlank : ¬isBlank c = true) : c ≠ '\n' := by
  rintro rfl
  exact notBlank rfl

/-- Either no name goes on, or a first character that every change leaves as it is. -/
theorem stops_or_cons (text : List Char) :
    Stops text ∨ ∃ c more, text = c :: more ∧ ¬isBlank c = true := by
  cases text with
  | nil => exact Or.inl fun _ member => nomatch member
  | cons c more =>
      by_cases blank : isBlank c = true
      · exact Or.inl (by simp [Stops, blank])
      · exact Or.inr ⟨c, more, rfl, blank⟩

namespace Stops

variable {text : List Char} (stops : Stops text)

include stops

theorem head_ne {c : Char} (notBlank : isBlank c = false) (more : List Char) :
    text ≠ c :: more := by
  rintro rfl
  rw [stops c rfl] at notBlank
  cases notBlank

theorem startsEscape : Name.startsEscape text = false := by
  unfold Name.startsEscape
  split
  · exact absurd rfl (stops.head_ne (by decide) _)
  · rfl

theorem isPart {c : Char} {more : List Char} (split_ : text = c :: more) :
    CssLint.Name.isPart c = false := by
  have signs : ∀ blank ∈ ['\n', '\t', ' ', '\r', '\x0c'], CssLint.Name.isPart blank = false :=
    List.all_iff_forall_prop.1 (by decide)
  subst split_
  exact signs c (mem_of_isBlank (stops c rfl))

theorem drop : Name.drop text = text := by
  cases text with
  | nil => rw [Name.drop]
  | cons c more =>
      rw [Name.drop, if_neg (by simp [stops.isPart rfl]), if_neg (by simp [stops.startsEscape])]

theorem after? {c : Char} (notBlank : isBlank c = false) (word : List Char) :
    after? (c :: word) text = none := by
  cases text with
  | nil => rfl
  | cons first more =>
      rw [Text.after?, if_neg]
      rintro rfl
      exact stops.head_ne notBlank more rfl

theorem starts : Name.starts text = false := by
  cases text with
  | nil => rfl
  | cons c more =>
      have notPart := stops.isPart rfl
      simp only [CssLint.Name.isPart, Bool.or_eq_false_iff, beq_eq_false_iff_ne] at notPart
      rw [Name.starts]
      · rw [notPart.1.1, stops.startsEscape, Bool.or_self]
      · simp [notPart.2]

theorem takeAtMost (limit : Nat) : takeAtMost isHexDigit limit text = ([], text) := by
  cases limit with
  | zero => rfl
  | succ limit =>
      cases text with
      | nil => rfl
      | cons c more =>
          simp [CssLint.Name.takeAtMost, not_isHexDigit_of_isBlank (stops c rfl)]

end Stops

/-! ## Escapes -/

variable {change : Change}

namespace Change.Spares

variable {text : List Char}

theorem behind {c : Char} (spares : change.Spares (c :: text)) (other : c ≠ '\\') :
    change.Spares text := by
  obtain ⟨tail, feed⟩ := spares
  rw [endsInEscape] at tail
  · rw [escapesFeed] at feed
    · exact ⟨tail, feed⟩
    all_goals simp [other]
  all_goals simp [other]

theorem behindEscape {c : Char} (spares : change.Spares ('\\' :: c :: text)) :
    change.Spares text := by
  obtain ⟨tail, feed⟩ := spares
  rw [endsInEscape, Bool.or_eq_false_iff] at tail
  rw [escapesFeed, Bool.or_eq_false_iff] at feed
  exact ⟨tail.imp_right And.right, feed.imp_right And.right⟩

/-- Behind a backslash at the end there is no tail. -/
theorem tail_eq_nil (spares : change.Spares ['\\']) : change.tail = [] :=
  spares.tail.resolve_right (by simp [endsInEscape])

/-- What follows an escape is left by the change. -/
theorem behindDigits {c : Char} (spares : change.Spares ('\\' :: c :: text)) :
    ((takeAtMost isHexDigit 6 (c :: text)).2 = [] → change.tail = []) ∧
      ((takeAtMost isHexDigit 6 (c :: text)).2.head? = some '\n' → change.feed = ['\n']) := by
  obtain ⟨tail, feed⟩ := spares
  rw [endsInEscape, Bool.or_eq_false_iff] at tail
  rw [escapesFeed, Bool.or_eq_false_iff] at feed
  constructor
  · intro ends
    refine tail.resolve_right fun kept => ?_
    rw [ends] at kept
    cases kept.1
  · intro ends
    refine feed.resolve_right fun kept => ?_
    rw [ends] at kept
    cases kept.1

theorem takeAtMost (spares : change.Spares text) (limit : Nat) :
    change.Spares (takeAtMost isHexDigit limit text).2 := by
  induction limit generalizing text with
  | zero => exact spares
  | succ limit inductionHypothesis =>
      cases text with
      | nil => exact spares
      | cons c more =>
          by_cases digit : isHexDigit c = true
          · have other : c ≠ '\\' := by
              rintro rfl
              cases digit
            simp only [CssLint.Name.takeAtMost, digit, if_true]
            exact inductionHypothesis (spares.behind other)
          · simpa [CssLint.Name.takeAtMost, digit] using spares

theorem dropBlank (spares : change.Spares text) : change.Spares (dropBlank text) := by
  cases text with
  | nil => exact spares
  | cons c more =>
      by_cases blank : isBlank c = true
      · simp only [CssLint.Name.dropBlank, blank, if_true]
        exact spares.behind (ne_of_isBlank blank (by decide))
      · simpa [CssLint.Name.dropBlank, blank] using spares

end Change.Spares

theorem takeAtMost_apply (limit : Nat) (text : List Char) :
    takeAtMost isHexDigit limit (change.apply text) =
      ((takeAtMost isHexDigit limit text).1,
        change.apply (takeAtMost isHexDigit limit text).2) := by
  induction limit generalizing text with
  | zero => rfl
  | succ limit inductionHypothesis =>
      rcases stops_or_cons text with stops | ⟨c, more, rfl, notBlank⟩
      · rw [stops.takeAtMost, (change.stops_apply stops).takeAtMost]
      · rw [change.apply_cons (ne_feed_of_not_isBlank notBlank)]
        by_cases digit : isHexDigit c = true
        · simp [takeAtMost, digit, inductionHypothesis]
        · simp [takeAtMost, digit, change.apply_cons (ne_feed_of_not_isBlank notBlank)]

/-- The blank behind an escape is no changed one. -/
theorem dropBlank_apply {text : List Char} (ends : text = [] → change.tail = [])
    (feeds : text.head? = some '\n' → change.feed = ['\n']) :
    dropBlank (change.apply text) = change.apply (dropBlank text) := by
  cases text with
  | nil => rw [change.apply_nil, ends rfl]; simp [dropBlank, change.apply_nil, ends rfl]
  | cons c more =>
      by_cases feed : c = '\n'
      · subst feed
        rw [change.apply_feed, feeds rfl]
        rfl
      · rw [change.apply_cons feed]
        by_cases blank : isBlank c = true
        · simp [dropBlank, blank]
        · simp [dropBlank, blank, change.apply_cons feed]

/-! ## Names -/

namespace Name

variable {text : List Char}

theorem startsEscape_apply (spares : change.Spares text) :
    startsEscape (change.apply text) = startsEscape text := by
  rcases stops_or_cons text with stops | ⟨c, more, rfl, notBlank⟩
  · rw [stops.startsEscape, (change.stops_apply stops).startsEscape]
  · rw [change.apply_cons (ne_feed_of_not_isBlank notBlank)]
    by_cases backslash : c = '\\'
    · subst backslash
      cases more with
      | nil => rw [change.apply_nil, spares.tail_eq_nil]
      | cons d more =>
          by_cases feed : d = '\n'
          · subst feed
            rw [change.apply_feed, spares.behindDigits.2 rfl]
            rfl
          · rw [change.apply_cons feed]
            rfl
    · simp [startsEscape, backslash]

theorem dropEscape_apply (spares : change.Spares ('\\' :: text))
    (begins : startsEscape ('\\' :: text) = true) :
    dropEscape (change.apply text) = change.apply (dropEscape text) ∧
      change.Spares (dropEscape text) := by
  cases text with
  | nil => cases begins
  | cons c more =>
      have noFeed : c ≠ '\n' := by simpa [startsEscape] using begins
      by_cases digit : isHexDigit c = true
      · have spared : change.Spares (takeAtMost isHexDigit 6 (c :: more)).2 := by
          simp only [takeAtMost, digit, if_true]
          exact spares.behindEscape.takeAtMost 5
        have applied : (takeAtMost isHexDigit 6 (change.apply (c :: more))).2 =
            change.apply (takeAtMost isHexDigit 6 (c :: more)).2 :=
          congrArg Prod.snd (takeAtMost_apply 6 (c :: more))
        rw [change.apply_cons noFeed] at applied ⊢
        simp only [dropEscape, digit, if_true, applied]
        exact ⟨dropBlank_apply spares.behindDigits.1 spares.behindDigits.2, spared.dropBlank⟩
      · rw [change.apply_cons noFeed]
        simp only [dropEscape, digit, Bool.false_eq_true, if_false]
        exact ⟨trivial, spares.behindEscape⟩

theorem drop_apply (spares : change.Spares text) :
    drop (change.apply text) = change.apply (drop text) ∧ change.Spares (drop text) := by
  fun_induction drop text with
  | case1 =>
      have stops : Stops [] := fun _ member => absurd member (by simp)
      exact ⟨(change.stops_apply stops).drop, spares⟩
  | case2 c text part inductionHypothesis =>
      have noFeed : c ≠ '\n' := by
        rintro rfl
        cases part
      have other : c ≠ '\\' := by
        rintro rfl
        cases part
      rw [change.apply_cons noFeed, drop, if_pos part]
      exact inductionHypothesis (spares.behind other)
  | case3 c text notPart begins inductionHypothesis =>
      obtain rfl : c = '\\' := by
        unfold startsEscape at begins
        split at begins
        · rename_i same
          exact (List.cons.inj same).1
        · cases begins
      obtain ⟨same, spared⟩ := dropEscape_apply spares begins
      have applied := startsEscape_apply spares
      rw [change.apply_cons (by decide), begins] at applied
      rw [change.apply_cons (by decide), drop, if_neg notPart, if_pos applied, same]
      exact inductionHypothesis spared
  | case4 c text notPart noEscape =>
      refine ⟨?_, spares⟩
      have applied := startsEscape_apply spares
      rcases stops_or_cons (c :: text) with stops | ⟨_, _, same, notBlank⟩
      · exact (change.stops_apply stops).drop
      · cases same
        rw [change.apply_cons (ne_feed_of_not_isBlank notBlank)] at applied ⊢
        rw [drop, if_neg notPart, if_neg (by rw [applied]; exact noEscape)]

theorem starts_apply (spares : change.Spares text) :
    starts (change.apply text) = starts text := by
  rcases stops_or_cons text with stops | ⟨c, more, rfl, notBlank⟩
  · rw [stops.starts, (change.stops_apply stops).starts]
  · have ofEscape := startsEscape_apply spares
    rw [change.apply_cons (ne_feed_of_not_isBlank notBlank)] at ofEscape ⊢
    by_cases hyphen : c = '-'
    · subst hyphen
      have spared := spares.behind (by decide)
      rcases stops_or_cons more with stops | ⟨d, rest, rfl, notBlank⟩
      · have behindHyphen : ∀ {text : List Char}, Stops text →
            starts ('-' :: text) = false := by
          intro text stops
          cases text with
          | nil => rfl
          | cons b rest =>
              have notPart := stops.isPart rfl
              simp only [isPart, Bool.or_eq_false_iff] at notPart
              rw [starts, notPart.1.1, notPart.2, stops.startsEscape]
              rfl
        rw [behindHyphen stops, behindHyphen (change.stops_apply stops)]
      · have deeper := startsEscape_apply spared
        rw [change.apply_cons (ne_feed_of_not_isBlank notBlank)] at deeper ⊢
        rw [starts, starts, deeper]
    · rw [starts, starts, ofEscape]
      all_goals simp [hyphen]

end Name

/-! ## Words -/

section Words

variable {text rest : List Char}

/-- A word without blanks and backslashes. -/
theorem after?_apply {word : List Char} (plain : ∀ c ∈ word, isBlank c = false)
    (text : List Char) :
    after? word (change.apply text) = (after? word text).map change.apply := by
  induction word generalizing text with
  | nil => rfl
  | cons c word inductionHypothesis =>
      have notBlank := plain c List.mem_cons_self
      rcases stops_or_cons text with stops | ⟨first, more, rfl, other⟩
      · rw [stops.after? notBlank, (change.stops_apply stops).after? notBlank]
        rfl
      · rw [change.apply_cons (ne_feed_of_not_isBlank other), after?, after?]
        split
        · exact inductionHypothesis (fun c member => plain c (List.mem_cons_of_mem _ member)) more
        · rfl

theorem Change.Spares.after {word : List Char} (plain : '\\' ∉ word)
    (spares : change.Spares (word ++ text)) : change.Spares text := by
  induction word with
  | nil => exact spares
  | cons c word inductionHypothesis =>
      rw [List.mem_cons, not_or] at plain
      exact inductionHypothesis plain.2 (spares.behind (Ne.symm plain.1))

theorem Change.Spares.blanks (spares : change.Spares text) :
    change.Spares (text.dropWhile isBlank) := by
  induction text with
  | nil => exact spares
  | cons c text inductionHypothesis =>
      by_cases blank : isBlank c = true
      · rw [List.dropWhile_cons_of_pos blank]
        exact inductionHypothesis (spares.behind (ne_of_isBlank blank (by decide)))
      · rwa [List.dropWhile_cons_of_neg blank]

/-- What was read is changed like the text, when an end of the text is left. -/
theorem before_apply (suffix : rest <:+ text) :
    before (change.apply text) (change.apply rest) = change.expand (before text rest) := by
  obtain ⟨front, rfl⟩ := suffix
  rw [change.apply_append, before_append, before_append]

end Words

/-! ## Closing ends -/

/-- A tail without quotes and brackets that close. -/
def Change.Silent (change : Change) : Prop :=
  ∀ c ∈ ['"', '\'', ')', ']'], c ∉ change.tail

/-- Behind the change an end is found where it was, and none by a silent tail. -/
def Change.Finds (change : Change) (original changed : Option (List Char)) : Prop :=
  match original with
  | some rest => changed = some (change.apply rest) ∧ change.Spares rest
  | none => change.Silent → changed = none

section Ends

variable {text start : List Char} {quote : Char}

/-- What an escape is made of stays as it is. -/
theorem Change.Spares.apply_cons {c : Char} (spares : change.Spares ('\\' :: c :: text)) :
    change.apply (c :: text) = c :: change.apply text := by
  by_cases feed : c = '\n'
  · subst feed
    rw [change.apply_feed, spares.behindDigits.2 rfl, List.singleton_append]
  · exact change.apply_cons feed text

theorem stringEnd?_cons {c : Char} (noEscape : c ≠ '\\') (text : List Char) :
    stringEnd? quote (c :: text) = if c = quote then some text else stringEnd? quote text := by
  rw [stringEnd?]
  all_goals simp [noEscape]

/-- What is read by itself inside a string is no escape. -/
theorem ne_escape_of_stringEnd? {c : Char} {text : List Char}
    (notLast : c = '\\' → text = [] → False)
    (notEscape : ∀ next more, c = '\\' → text = next :: more → False) : c ≠ '\\' := by
  intro same
  cases text with
  | nil => exact notLast same rfl
  | cons next more => exact notEscape next more same rfl

theorem stringEnd?_eq_none (absent : quote ∉ text) : stringEnd? quote text = none := by
  fun_induction stringEnd? quote text with
  | case1 => rfl
  | case2 => rfl
  | case3 c text inductionHypothesis =>
      exact inductionHypothesis fun member =>
        absent (List.mem_cons_of_mem _ (List.mem_cons_of_mem _ member))
  | case4 text => exact absurd List.mem_cons_self absent
  | case5 c text _ _ _ inductionHypothesis =>
      exact inductionHypothesis fun member => absent (List.mem_cons_of_mem _ member)

theorem stringEnd?_apply (quotes : quote = '"' ∨ quote = '\'') (spares : change.Spares text) :
    change.Finds (stringEnd? quote text) (stringEnd? quote (change.apply text)) := by
  have noBlank : isBlank quote = false := by rcases quotes with rfl | rfl <;> rfl
  have blanks : ∀ (text blanks : List Char), (∀ c ∈ blanks, isBlank c = true) →
      stringEnd? quote (blanks ++ text) = stringEnd? quote text := by
    intro text blanks blank
    induction blanks with
    | nil => rfl
    | cons c blanks inductionHypothesis =>
        have ofBlank := blank c List.mem_cons_self
        rw [List.cons_append, stringEnd?_cons (ne_of_isBlank ofBlank (by decide)),
          if_neg (ne_of_isBlank ofBlank noBlank)]
        exact inductionHypothesis fun c member => blank c (List.mem_cons_of_mem _ member)
  fun_induction stringEnd? quote text with
  | case1 =>
      intro silent
      exact stringEnd?_eq_none (silent quote (by rcases quotes with rfl | rfl <;> simp))
  | case2 =>
      intro silent
      rw [change.apply_cons (by decide), change.apply_nil, spares.tail_eq_nil]
      rfl
  | case3 c text inductionHypothesis =>
      rw [change.apply_cons (by decide), spares.apply_cons, stringEnd?]
      exact inductionHypothesis spares.behindEscape
  | case4 text notLast notEscape =>
      have notFeed : quote ≠ '\n' := by rcases quotes with rfl | rfl <;> decide
      have other := ne_escape_of_stringEnd? notLast notEscape
      rw [change.apply_cons notFeed, stringEnd?_cons other, if_pos rfl]
      exact ⟨rfl, spares.behind other⟩
  | case5 c text notLast notEscape different inductionHypothesis =>
      have other := ne_escape_of_stringEnd? notLast notEscape
      have later := inductionHypothesis (spares.behind other)
      by_cases feed : c = '\n'
      · subst feed
        rwa [change.apply_feed, blanks _ _ change.isBlank_of_mem_feed]
      · rwa [change.apply_cons feed, stringEnd?_cons other, if_neg different]

theorem mem_of_attributeEnd {rest : List Char} (closed : attributeEnd start text = .ok rest) :
    ']' ∈ text := by
  fun_induction attributeEnd start text with
  | case1 => cases closed
  | case2 text => exact List.mem_cons_self
  | case3 => cases closed
  | case4 c text _ _ behind found inductionHypothesis =>
      exact List.mem_cons_of_mem _ ((suffix_of_stringEnd? found).mem (inductionHypothesis closed))
  | case5 text _ _ inductionHypothesis =>
      exact List.mem_cons_of_mem _ (List.mem_of_mem_drop (inductionHypothesis closed))
  | case6 c text _ _ _ inductionHypothesis =>
      exact List.mem_cons_of_mem _ (inductionHypothesis closed)

theorem mem_of_parenthesisEnd {depth : Nat} {rest : List Char}
    (closed : parenthesisEnd start depth text = .ok rest) : ')' ∈ text := by
  fun_induction parenthesisEnd start depth text with
  | case1 => cases closed
  | case2 => cases closed
  | case3 depth c text _ behind found inductionHypothesis =>
      exact List.mem_cons_of_mem _ ((suffix_of_stringEnd? found).mem (inductionHypothesis closed))
  | case4 depth text _ inductionHypothesis =>
      exact List.mem_cons_of_mem _ (inductionHypothesis closed)
  | case5 text => exact List.mem_cons_self
  | case6 text _ _ depth inductionHypothesis => exact List.mem_cons_self
  | case7 depth text _ _ _ inductionHypothesis =>
      exact List.mem_cons_of_mem _ (List.mem_of_mem_drop (inductionHypothesis closed))
  | case8 depth c text _ _ _ _ inductionHypothesis =>
      exact List.mem_cons_of_mem _ (inductionHypothesis closed)

theorem quote_cases {c : Char} (quotes : (decide (c = '"') || decide (c = '\'')) = true) :
    c = '"' ∨ c = '\'' := by
  simpa using quotes

/-- Outside strings, blanks have no meaning for the ends of attribute tests. -/
private theorem attributeEnd_blanks {blanks : List Char}
    (blank : ∀ c ∈ blanks, isBlank c = true) (start text : List Char) :
    attributeEnd start (blanks ++ text) = attributeEnd start text := by
  induction blanks with
  | nil => rfl
  | cons c blanks inductionHypothesis =>
      have other : ∀ sign, isBlank sign = false → c ≠ sign :=
        fun _ => ne_of_isBlank (blank c List.mem_cons_self)
      have noQuote : ¬(decide (c = '"') || decide (c = '\'')) = true := by
        simp [other '"' (by decide), other '\'' (by decide)]
      rw [List.cons_append, attributeEnd, if_neg (other ']' (by decide)), if_neg noQuote,
        if_neg (other '\\' (by decide))]
      exact inductionHypothesis fun c member => blank c (List.mem_cons_of_mem _ member)

theorem attributeEnd_apply (start start' : List Char) (spares : change.Spares text) :
    change.Finds (attributeEnd start text).toOption
      (attributeEnd start' (change.apply text)).toOption := by
  fun_induction attributeEnd start text with
  | case1 =>
      intro silent
      cases closed : attributeEnd start' (change.apply []) with
      | error => rfl
      | ok rest => exact absurd (mem_of_attributeEnd closed) (silent ']' (by simp))
  | case2 text =>
      rw [change.apply_cons (by decide), attributeEnd, if_pos rfl]
      exact ⟨rfl, spares.behind (by decide)⟩
  | case3 c text notEnd quotes unclosed =>
      intro silent
      have noFeed : c ≠ '\n' := by rcases quote_cases quotes with rfl | rfl <;> decide
      have other : c ≠ '\\' := by rcases quote_cases quotes with rfl | rfl <;> decide
      have ofString := stringEnd?_apply (quote_cases quotes) (spares.behind other)
      rw [unclosed] at ofString
      rw [change.apply_cons noFeed, attributeEnd, if_neg notEnd, if_pos quotes]
      split
      · rfl
      · rename_i found
        rw [ofString silent] at found
        cases found
  | case4 c text notEnd quotes behind found inductionHypothesis =>
      have noFeed : c ≠ '\n' := by rcases quote_cases quotes with rfl | rfl <;> decide
      have other : c ≠ '\\' := by rcases quote_cases quotes with rfl | rfl <;> decide
      have ofString := stringEnd?_apply (quote_cases quotes) (spares.behind other)
      rw [found] at ofString
      rw [change.apply_cons noFeed, attributeEnd, if_neg notEnd, if_pos quotes]
      split
      · rename_i unclosed
        rw [ofString.1] at unclosed
        cases unclosed
      · rename_i found
        rw [ofString.1] at found
        cases found
        exact inductionHypothesis ofString.2
  | case5 text notEnd notQuote inductionHypothesis =>
      cases text with
      | nil =>
          rw [List.drop_nil, attributeEnd, change.apply_cons (by decide), change.apply_nil,
            spares.tail_eq_nil, attributeEnd, if_neg notEnd, if_neg notQuote, if_pos rfl,
            List.drop_nil, attributeEnd]
          exact fun _ => rfl
      | cons c text =>
          rw [change.apply_cons (by decide), spares.apply_cons, attributeEnd, if_neg notEnd,
            if_neg notQuote, if_pos rfl]
          exact inductionHypothesis spares.behindEscape
  | case6 c text notEnd notQuote notEscape inductionHypothesis =>
      have later := inductionHypothesis (spares.behind notEscape)
      by_cases feed : c = '\n'
      · subst feed
        rwa [change.apply_feed, attributeEnd_blanks change.isBlank_of_mem_feed]
      · rwa [change.apply_cons feed, attributeEnd, if_neg notEnd, if_neg notQuote,
          if_neg notEscape]

/-- The reader of arguments at its first character. -/
theorem parenthesisEnd_cons (start : List Char) (depth : Nat) (c : Char)
    (text : List Char) :
    parenthesisEnd start depth (c :: text) =
      if c = '"' || c = '\'' then
        match stringEnd? c text with
        | none => .error (.unclosed .string (c :: text))
        | some rest => parenthesisEnd start depth rest
      else if c = '(' then parenthesisEnd start (depth + 1) text
      else if c = ')' then
        match depth with
        | 0 => .ok text
        | depth + 1 => parenthesisEnd start depth text
      else if c = '\\' then parenthesisEnd start depth (text.drop 1)
      else parenthesisEnd start depth text := by
  rw [parenthesisEnd.eq_def]
  dsimp only
  split
  · split <;> simp_all
  · rfl

/-- Outside strings, blanks have no meaning for the ends of arguments. -/
private theorem parenthesisEnd_blanks {blanks : List Char}
    (blank : ∀ c ∈ blanks, isBlank c = true) (start : List Char) (depth : Nat)
    (text : List Char) :
    parenthesisEnd start depth (blanks ++ text) = parenthesisEnd start depth text := by
  induction blanks with
  | nil => rfl
  | cons c blanks inductionHypothesis =>
      have other : ∀ sign, isBlank sign = false → c ≠ sign :=
        fun _ => ne_of_isBlank (blank c List.mem_cons_self)
      have noQuote : ¬(decide (c = '"') || decide (c = '\'')) = true := by
        simp [other '"' (by decide), other '\'' (by decide)]
      rw [List.cons_append, parenthesisEnd_cons, if_neg noQuote, if_neg (other '(' (by decide)),
        if_neg (other ')' (by decide)), if_neg (other '\\' (by decide))]
      exact inductionHypothesis fun c member => blank c (List.mem_cons_of_mem _ member)

theorem parenthesisEnd_apply (start start' : List Char) (depth : Nat)
    (spares : change.Spares text) :
    change.Finds (parenthesisEnd start depth text).toOption
      (parenthesisEnd start' depth (change.apply text)).toOption := by
  fun_induction parenthesisEnd start depth text with
  | case1 depth =>
      intro silent
      cases closed : parenthesisEnd start' depth (change.apply []) with
      | error => rfl
      | ok rest => exact absurd (mem_of_parenthesisEnd closed) (silent ')' (by simp))
  | case2 depth c text quotes unclosed =>
      intro silent
      have noFeed : c ≠ '\n' := by rcases quote_cases quotes with rfl | rfl <;> decide
      have other : c ≠ '\\' := by rcases quote_cases quotes with rfl | rfl <;> decide
      have ofString := stringEnd?_apply (quote_cases quotes) (spares.behind other)
      rw [unclosed] at ofString
      rw [change.apply_cons noFeed, parenthesisEnd_cons, if_pos quotes]
      split
      · rfl
      · rename_i found
        rw [ofString silent] at found
        cases found
  | case3 depth c text quotes behind found inductionHypothesis =>
      have noFeed : c ≠ '\n' := by rcases quote_cases quotes with rfl | rfl <;> decide
      have other : c ≠ '\\' := by rcases quote_cases quotes with rfl | rfl <;> decide
      have ofString := stringEnd?_apply (quote_cases quotes) (spares.behind other)
      rw [found] at ofString
      rw [change.apply_cons noFeed, parenthesisEnd_cons, if_pos quotes]
      split
      · rename_i unclosed
        rw [ofString.1] at unclosed
        cases unclosed
      · rename_i found
        rw [ofString.1] at found
        cases found
        exact inductionHypothesis ofString.2
  | case4 depth text notQuote inductionHypothesis =>
      rw [change.apply_cons (by decide), parenthesisEnd_cons, if_neg notQuote, if_pos rfl]
      exact inductionHypothesis (spares.behind (by decide))
  | case5 text notQuote notOpen =>
      rw [change.apply_cons (by decide), parenthesisEnd_cons, if_neg notQuote, if_neg notOpen,
        if_pos rfl]
      exact ⟨rfl, spares.behind (by decide)⟩
  | case6 text depth notQuote notOpen inductionHypothesis =>
      rw [change.apply_cons (by decide), parenthesisEnd_cons, if_neg notQuote, if_neg notOpen,
        if_pos rfl]
      exact inductionHypothesis (spares.behind (by decide))
  | case7 depth text notQuote notOpen notClose inductionHypothesis =>
      cases text with
      | nil =>
          rw [List.drop_nil, parenthesisEnd, change.apply_cons (by decide), change.apply_nil,
            spares.tail_eq_nil, parenthesisEnd_cons, if_neg notQuote, if_neg notOpen,
            if_neg notClose, if_pos rfl, List.drop_nil, parenthesisEnd]
          exact fun _ => rfl
      | cons c text =>
          rw [change.apply_cons (by decide), spares.apply_cons, parenthesisEnd_cons,
            if_neg notQuote, if_neg notOpen, if_neg notClose, if_pos rfl]
          exact inductionHypothesis spares.behindEscape
  | case8 depth c text notQuote notOpen notClose notEscape inductionHypothesis =>
      have later := inductionHypothesis (spares.behind notEscape)
      by_cases feed : c = '\n'
      · subst feed
        rwa [change.apply_feed, parenthesisEnd_blanks change.isBlank_of_mem_feed]
      · rwa [change.apply_cons feed, parenthesisEnd_cons, if_neg notQuote, if_neg notOpen,
          if_neg notClose, if_neg notEscape]

end Ends

end CssLint.Selector
