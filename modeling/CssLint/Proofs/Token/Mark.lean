import CssLint.Proofs.Token.Suffix

/-!
# Tokens in front of a mark

A semicolon and a closing brace are marks.  A reader either reads the same in front of
a mark as at the end of the text, or it takes the mark and leaves nothing behind it.
Which of the two it is does not depend on what follows the mark.
-/

namespace CssLint

open Text

/-- The character is a semicolon or a closing brace. -/
def IsMark (c : Char) : Prop :=
  c = ';' ∨ c = '\x7d'

namespace IsMark

variable {mark : Char}

theorem not_mem (isMark : IsMark mark) {word : List Char}
    (free : ';' ∉ word ∧ '\x7d' ∉ word) : mark ∉ word := by
  rcases isMark with rfl | rfl
  · exact free.1
  · exact free.2

theorem not_isBlank (isMark : IsMark mark) : isBlank mark = false := by
  rcases isMark with rfl | rfl <;> decide

theorem not_isHexDigit (isMark : IsMark mark) : isHexDigit mark = false := by
  rcases isMark with rfl | rfl <;> decide

theorem not_isDigit (isMark : IsMark mark) : mark.isDigit = false := by
  rcases isMark with rfl | rfl <;> decide

theorem not_isPart (isMark : IsMark mark) : Name.isPart mark = false := by
  rcases isMark with rfl | rfl <;> decide

theorem utf8Size (isMark : IsMark mark) : mark.utf8Size = 1 := by
  rcases isMark with rfl | rfl <;> rfl

end IsMark

variable {α : Type} {mark : Char}

/-- The reader stops in front of a mark as it does at the end of the text. -/
def Settles (mark : Char) (reader : List Char → α × List Char) (text : List Char) : Prop :=
  ∀ more, reader (text ++ mark :: more) = ((reader text).1, (reader text).2 ++ mark :: more)

/-- The reader takes a mark behind the text. -/
def Swallows (mark : Char) (reader : List Char → α × List Char) (text : List Char) : Prop :=
  (reader (text ++ [mark])).2 = []

/-- A reader that goes on as another one inside the text does as that one does. -/
theorem settles_or_swallows_of_map {β : Type} {reader : List Char → α × List Char}
    {other : List Char → β × List Char} {inside text : List Char} (wrap : α → β)
    (alone : other text = (wrap (reader inside).1, (reader inside).2))
    (joined : ∀ more, other (text ++ mark :: more) =
      (wrap (reader (inside ++ mark :: more)).1, (reader (inside ++ mark :: more)).2))
    (reads : Settles mark reader inside ∨ Swallows mark reader inside) :
    Settles mark other text ∨ Swallows mark other text := by
  rcases reads with settles | swallows
  · refine Or.inl fun more => ?_
    rw [joined, settles more, alone]
  · refine Or.inr ?_
    rw [Swallows, joined]
    exact swallows

/-! ## Tests at the beginning -/

theorem takeWhile_mark {property : Char → Bool} (lacks : property mark = false)
    (text more : List Char) :
    (text ++ mark :: more).takeWhile property = text.takeWhile property := by
  rw [List.takeWhile_append, List.takeWhile_cons_of_neg (by simp [lacks]), List.append_nil]
  split
  · rename_i whole
    exact ((List.takeWhile_prefix property).eq_of_length whole).symm
  · rfl

theorem dropWhile_mark {property : Char → Bool} (lacks : property mark = false)
    (text more : List Char) :
    (text ++ mark :: more).dropWhile property = text.dropWhile property ++ mark :: more := by
  rw [List.dropWhile_append, List.dropWhile_cons_of_neg (by simp [lacks])]
  split
  · rename_i nothing
    rw [List.isEmpty_iff.1 nothing, List.nil_append]
  · rfl

theorem after?_mark {word : List Char} (free : mark ∉ word) (text more : List Char) :
    after? word (text ++ mark :: more) = (after? word text).map (· ++ mark :: more) := by
  induction word generalizing text with
  | nil => rfl
  | cons expected word inductionHypothesis =>
      have different : expected ≠ mark := fun same => free (same ▸ List.mem_cons_self)
      have later : mark ∉ word := fun member => free (List.mem_cons_of_mem expected member)
      cases text with
      | nil => simp [after?, different]
      | cons c text =>
          by_cases same : expected = c
          · simpa [after?, same] using inductionHypothesis later text
          · simp [after?, same]

namespace Name

theorem startsEscape_mark (isMark : IsMark mark) (text more : List Char) :
    startsEscape (text ++ mark :: more) = startsEscape text := by
  cases text with
  | nil => rcases isMark with rfl | rfl <;> rfl
  | cons c text =>
      by_cases backslash : c = '\\'
      · subst backslash
        cases text with
        | nil => rcases isMark with rfl | rfl <;> rfl
        | cons d text =>
            by_cases newline : d = '\n'
            · rw [newline]
              rfl
            · simp [startsEscape, newline]
      · simp [startsEscape, backslash]

theorem starts_mark (isMark : IsMark mark) (text more : List Char) :
    starts (text ++ mark :: more) = starts text := by
  cases text with
  | nil => rcases isMark with rfl | rfl <;> rfl
  | cons c text =>
      by_cases hyphen : c = '-'
      · subst hyphen
        cases text with
        | nil => rcases isMark with rfl | rfl <;> rfl
        | cons d text =>
            have escape := startsEscape_mark isMark (d :: text) more
            simp only [List.cons_append, starts] at escape ⊢
            rw [escape]
      · have escape := startsEscape_mark isMark (c :: text) more
        simp only [List.cons_append] at escape ⊢
        rw [starts, starts, escape] <;> simp_all

/-! ## Names and numbers -/

theorem takeAtMost_mark {property : Char → Bool} (lacks : property mark = false)
    (limit : Nat) (text more : List Char) :
    takeAtMost property limit (text ++ mark :: more) =
      ((takeAtMost property limit text).1, (takeAtMost property limit text).2 ++ mark :: more) := by
  induction limit generalizing text with
  | zero => rfl
  | succ limit inductionHypothesis =>
      cases text with
      | nil => simp [takeAtMost, lacks]
      | cons c text =>
          by_cases holds : property c = true
          · simp [takeAtMost, holds, inductionHypothesis]
          · simp [takeAtMost, holds]

theorem dropBlank_mark (isMark : IsMark mark) (text more : List Char) :
    dropBlank (text ++ mark :: more) = dropBlank text ++ mark :: more := by
  cases text with
  | nil => rcases isMark with rfl | rfl <;> rfl
  | cons c text =>
      by_cases blank : isBlank c = true
      · simp [dropBlank, blank]
      · simp [dropBlank, blank]

theorem readEscape_mark (isMark : IsMark mark) (text : List Char) :
    Settles mark readEscape text ∨ Swallows mark readEscape text := by
  cases text with
  | nil =>
      refine Or.inr ?_
      rcases isMark with rfl | rfl <;> rfl
  | cons c text =>
      refine Or.inl fun more => ?_
      have digits := takeAtMost_mark isMark.not_isHexDigit 5 text more
      by_cases digit : isHexDigit c = true
      · simp [readEscape, digit, digits, dropBlank_mark isMark]
      · simp [readEscape, digit]

theorem read_mark (isMark : IsMark mark) (text : List Char) :
    Settles mark read text ∨ Swallows mark read text := by
  fun_induction read text with
  | case1 =>
      refine Or.inl fun more => ?_
      have lacks := isMark.not_isPart
      have begins : startsEscape (mark :: more) = false := startsEscape_mark isMark [] more
      simp [read, lacks, begins]
  | case2 c text part name rest same inductionHypothesis =>
      apply settles_or_swallows_of_map (c :: ·) _ _ inductionHypothesis
      · simp only [read, part, if_true]
      · intro more
        simp only [List.cons_append, read, part, if_true]
  | case3 c text part begins escape name rest same inductionHypothesis =>
      have begins' := startsEscape_mark isMark (c :: text)
      simp only [List.cons_append, begins] at begins'
      rcases readEscape_mark isMark text with settled | swallowed
      · apply settles_or_swallows_of_map (escape.1 :: ·) _ _ inductionHypothesis
        · simp only [read, part, if_false, begins, if_true, escape, Bool.false_eq_true]
        · intro more
          simp only [List.cons_append, read, part, if_false, begins', if_true, settled more,
            escape, Bool.false_eq_true]
      · refine Or.inr ?_
        unfold Swallows at swallowed ⊢
        simp only [List.cons_append, read, part, if_false, begins', if_true, swallowed,
          Bool.false_eq_true]
  | case4 c text part begins =>
      refine Or.inl fun more => ?_
      have begins' := startsEscape_mark isMark (c :: text) more
      simp only [List.cons_append] at begins'
      simp [read, part, begins', begins]

end Name

namespace Numeral

theorem startsDigit_mark (isMark : IsMark mark) (text more : List Char) :
    startsDigit (text ++ mark :: more) = startsDigit text := by
  cases text with
  | nil => rcases isMark with rfl | rfl <;> rfl
  | cons c text => rfl

theorem starts_sign {sign : Char} (isSign : sign = '+' ∨ sign = '-') (text : List Char) :
    starts (sign :: text) =
      if text.head? = some '.' then startsDigit text.tail else startsDigit text := by
  cases text with
  | nil => rcases isSign with rfl | rfl <;> rfl
  | cons d text =>
      by_cases point : d = '.'
      · rcases isSign with rfl | rfl <;> simp [starts, point]
      · rcases isSign with rfl | rfl <;> simp [starts, point]

theorem starts_mark (isMark : IsMark mark) (text more : List Char) :
    starts (text ++ mark :: more) = starts text := by
  cases text with
  | nil => rcases isMark with rfl | rfl <;> rfl
  | cons c text =>
      have digit := startsDigit_mark isMark text more
      by_cases sign : c = '+' ∨ c = '-'
      · rw [List.cons_append, starts_sign sign, starts_sign sign]
        cases text with
        | nil => rcases isMark with rfl | rfl <;> rfl
        | cons d text =>
            have later := startsDigit_mark isMark text more
            simpa using ite_congr rfl (fun _ => later) (fun _ => digit)
      · by_cases point : c = '.'
        · simpa [starts, point] using digit
        · have plain : ∀ text, starts (c :: text) = c.isDigit := by
            intro text
            unfold starts
            split <;> simp_all [startsDigit]
          rw [List.cons_append, plain, plain]

theorem readSign_mark (isMark : IsMark mark) (text : List Char) : Settles mark readSign text := by
  intro more
  cases text with
  | nil => rcases isMark with rfl | rfl <;> rfl
  | cons c text =>
      by_cases sign : c = '+' ∨ c = '-'
      · simp [readSign, sign]
      · simp [readSign, sign]

theorem readDigits_mark (isMark : IsMark mark) (text : List Char) :
    Settles mark readDigits text := by
  intro more
  have lacks := isMark.not_isDigit
  simp only [readDigits, takeWhile_mark lacks, dropWhile_mark lacks]

theorem readFraction_mark (isMark : IsMark mark) (text : List Char) :
    Settles mark readFraction text := by
  intro more
  cases text with
  | nil => rcases isMark with rfl | rfl <;> rfl
  | cons c text =>
      have digits := readDigits_mark isMark text more
      rw [List.cons_append, readFraction, readFraction, startsDigit_mark isMark, digits]
      split <;> rfl

theorem readExponent_mark (isMark : IsMark mark) (text : List Char) :
    Settles mark readExponent text := by
  intro more
  cases text with
  | nil => rcases isMark with rfl | rfl <;> rfl
  | cons c text =>
      have sign := readSign_mark isMark text more
      have digits := readDigits_mark isMark (readSign text).2 more
      simp only [List.cons_append, readExponent, sign, startsDigit_mark isMark, digits]
      split <;> rfl

theorem read_mark (isMark : IsMark mark) (text : List Char) : Settles mark read text := by
  intro more
  have sign := readSign_mark isMark text more
  have whole := readDigits_mark isMark (readSign text).2 more
  have fraction := readFraction_mark isMark (readDigits (readSign text).2).2 more
  have exponent :=
    readExponent_mark isMark (readFraction (readDigits (readSign text).2).2).2 more
  simp only [read, sign, whole, fraction, exponent]

end Numeral

end CssLint
