import CssLint.Proofs.Selector.Suffix
import CssLint.Proofs.Token.Suffix

/-!
# Names of selectors and names of tokens

Names are passed over twice: by the reader of tokens, which undoes their escapes, and by
the reader of selectors, which keeps them as they are written.  The two differ only for a
backslash at the very end of the text.  In every other text they find the same names at
the same places and take the same characters of them.
-/

namespace CssLint.Selector.Name

open Text

/-! ## Texts without a backslash at their end -/

/-- The text does not end with a backslash. -/
def EndsPlain (text : List Char) : Prop :=
  text.getLast? ≠ some '\\'

instance (text : List Char) : Decidable (EndsPlain text) :=
  inferInstanceAs (Decidable (_ ≠ _))

theorem EndsPlain.suffix {rest text : List Char} (suffix : rest <:+ text)
    (plain : EndsPlain text) : EndsPlain rest := by
  obtain ⟨front, rfl⟩ := suffix
  intro last
  exact plain (by rw [List.getLast?_append, last, Option.some_or])

theorem EndsPlain.tail {c : Char} {text : List Char} (plain : EndsPlain (c :: text)) :
    EndsPlain text :=
  plain.suffix (List.suffix_cons c text)

/-! ## Escapes -/

/-- The two readers take the same characters of an escape. -/
theorem dropEscape_eq (text : List Char) : dropEscape text = (CssLint.Name.readEscape text).2 := by
  cases text with
  | nil => rfl
  | cons c text =>
      by_cases digit : isHexDigit c = true
      · simp only [dropEscape, CssLint.Name.readEscape, CssLint.Name.takeAtMost, digit, if_true]
      · simp only [dropEscape, CssLint.Name.readEscape, digit, Bool.false_eq_true, if_false]

/-- Only of a backslash alone they do not agree whether it begins an escape. -/
theorem startsEscape_eq {text : List Char} (plain : EndsPlain text) :
    startsEscape text = CssLint.Name.startsEscape text := by
  cases text with
  | nil => rfl
  | cons c text =>
      by_cases backslash : c = '\\'
      · subst backslash
        cases text with
        | nil => exact absurd rfl plain
        | cons d text =>
            by_cases feed : d = '\n'
            · rw [feed]
              rfl
            · simp [startsEscape, CssLint.Name.startsEscape, feed]
      · simp [startsEscape, CssLint.Name.startsEscape, backslash]

/-! ## Names -/

theorem starts_eq {text : List Char} (plain : EndsPlain text) :
    starts text = CssLint.Name.starts text := by
  cases text with
  | nil => rfl
  | cons c text =>
      have own := startsEscape_eq plain
      by_cases hyphen : c = '-'
      · subst hyphen
        cases text with
        | nil => rfl
        | cons d text => rw [starts, CssLint.Name.starts, startsEscape_eq plain.tail]
      · rw [starts, CssLint.Name.starts, own]
        all_goals simp [hyphen]

theorem drop_eq {text : List Char} (plain : EndsPlain text) :
    drop text = (CssLint.Name.read text).2 := by
  fun_induction CssLint.Name.read text with
  | case1 => rw [drop]
  | case2 c text part name rest same inductionHypothesis =>
      rw [drop, if_pos part, inductionHypothesis plain.tail, same]
  | case3 c text notPart begins escape name rest same inductionHypothesis =>
      have behind : EndsPlain escape.2 := plain.tail.suffix (CssLint.Name.suffix_readEscape text)
      rw [drop, if_neg notPart, startsEscape_eq plain, if_pos begins, dropEscape_eq,
        inductionHypothesis behind, same]
  | case4 c text notPart noEscape =>
      rw [drop, if_neg notPart, startsEscape_eq plain, if_neg noEscape]

/-- At every place of a text that does not end with a backslash, both readers find a name or both
find none, and they take the same characters. -/
theorem starts_and_drop_agree {front rest : List Char} (plain : EndsPlain (front ++ rest)) :
    starts rest = CssLint.Name.starts rest ∧
      ∃ name, rest = name ++ drop rest ∧ rest = name ++ (CssLint.Name.read rest).2 := by
  have behind : EndsPlain rest := plain.suffix (List.suffix_append front rest)
  obtain ⟨name, taken⟩ := suffix_drop rest
  exact ⟨starts_eq behind, name, taken.symm, by rw [← drop_eq behind, taken]⟩

/-- A backslash at the end of the text is the beginning of a name for the reader of tokens only. -/
example : starts ['\\'] = false ∧ CssLint.Name.starts ['\\'] = true := by decide

/-- A name with a short and a long escape, and a hyphen in front of an escaped line feed. -/
theorem starts_and_drop_agree_escapes :
    let name := ['-', '\\', '2', '6', '\r', 'b', '\\', '1', '2', '3', '4', '5', '6', '7']
    let text := '.' :: name ++ ['-', '\\', '\n']
    EndsPlain text ∧ starts (text.drop 1) = true ∧ CssLint.Name.starts (text.drop 1) = true ∧
      drop (text.drop 1) = ['\\', '\n'] ∧ starts (text.drop 15) = false := by
  intro name text
  have plain : EndsPlain text := by decide
  have agree := @starts_and_drop_agree ['.'] (text.drop 1) plain
  have later := @starts_and_drop_agree (text.take 15) (text.drop 15) plain
  have begins : CssLint.Name.starts (text.drop 1) = true := by decide
  refine ⟨plain, agree.1.trans begins, begins, ?_, later.1.trans (by decide)⟩
  rw [drop_eq (plain.suffix (List.drop_suffix 1 text))]
  decide +kernel

end CssLint.Selector.Name
