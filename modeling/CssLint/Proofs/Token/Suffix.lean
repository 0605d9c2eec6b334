import CssLint.Token.Lexeme

/-!
# What readers leave

Whatever a reader of tokens takes, it takes from the beginning: the text that it
leaves is an end of the text that it was given.
-/

namespace CssLint

open Text

/-! ## Searching -/

namespace Text

theorem suffix_of_after? {word text rest : List Char} (found : after? word text = some rest) :
    rest <:+ text :=
  ⟨word, (eq_append_of_after? found).symm⟩

theorem suffix_of_behind? {word text rest : List Char} (found : behind? word text = some rest) :
    rest <:+ text := by
  induction text with
  | nil => exact suffix_of_after? found
  | cons c text inductionHypothesis =>
      rw [behind?, Option.or_eq_some_iff] at found
      rcases found with here | ⟨_, later⟩
      · exact suffix_of_after? here
      · exact (inductionHypothesis later).trans (List.suffix_cons c text)

theorem byteCount_le_of_suffix {rest text : List Char} (suffix : rest <:+ text) :
    byteCount rest ≤ byteCount text := by
  obtain ⟨front, rfl⟩ := suffix
  rw [byteCount_append]
  exact Nat.le_add_left _ _

end Text

/-! ## Names and numbers -/

namespace Name

theorem suffix_dropBlank (text : List Char) : dropBlank text <:+ text := by
  cases text with
  | nil => exact List.suffix_refl _
  | cons c text =>
      by_cases blank : isBlank c = true
      · simp [dropBlank, blank]
      · simp [dropBlank, blank]

theorem suffix_readEscape (text : List Char) : (readEscape text).2 <:+ text := by
  cases text with
  | nil => exact List.suffix_refl _
  | cons c text =>
      by_cases digit : isHexDigit c = true
      · have ofDigits : (takeAtMost isHexDigit 5 text).2 <:+ text :=
          ⟨_, takeAtMost_append isHexDigit 5 text⟩
        have ofBlank := suffix_dropBlank (takeAtMost isHexDigit 5 text).2
        simp only [readEscape, digit, if_true]
        exact (ofBlank.trans ofDigits).trans (List.suffix_cons c text)
      · simp [readEscape, digit]

theorem suffix_read (text : List Char) : (read text).2 <:+ text := by
  fun_induction read text with
  | case1 => exact List.suffix_refl _
  | case2 c text _ name rest same inductionHypothesis =>
      rw [same] at inductionHypothesis
      exact inductionHypothesis.trans (List.suffix_cons c text)
  | case3 c text _ _ escape name rest same inductionHypothesis =>
      rw [same] at inductionHypothesis
      exact (inductionHypothesis.trans (suffix_readEscape text)).trans (List.suffix_cons c text)
  | case4 => exact List.suffix_refl _

end Name

theorem Numeral.suffix_read (text : List Char) : (Numeral.read text).2 <:+ text :=
  ⟨_, Numeral.read_append text⟩

/-! ## Tokens -/

namespace Token

theorem suffix_readString (quote : Char) (text : List Char) :
    (readString quote text).2 <:+ text := by
  fun_induction readString quote text with
  | case1 => exact List.suffix_refl _
  | case2 text => exact List.suffix_cons _ _
  | case3 => exact List.suffix_refl _
  | case4 text => exact List.nil_suffix
  | case5 text _ _ _ _ inductionHypothesis =>
      exact (inductionHypothesis.trans (List.tail_suffix text)).trans (List.suffix_cons _ _)
  | case6 text _ _ _ _ escape more inductionHypothesis =>
      exact (inductionHypothesis.trans (Name.suffix_readEscape text)).trans (List.suffix_cons _ _)
  | case7 c text _ _ _ more inductionHypothesis =>
      exact inductionHypothesis.trans (List.suffix_cons _ _)

theorem suffix_skipBadUrl (text : List Char) : skipBadUrl text <:+ text := by
  fun_induction skipBadUrl text with
  | case1 => exact List.suffix_refl _
  | case2 text => exact List.suffix_cons _ _
  | case3 c text _ _ inductionHypothesis =>
      exact (inductionHypothesis.trans (Name.suffix_readEscape text)).trans (List.suffix_cons _ _)
  | case4 c text _ _ inductionHypothesis =>
      exact inductionHypothesis.trans (List.suffix_cons _ _)

theorem suffix_readUrl (text : List Char) : (readUrl text).2 <:+ text := by
  fun_induction readUrl text with
  | case1 => exact List.suffix_refl _
  | case2 text => exact List.suffix_cons _ _
  | case3 => exact List.nil_suffix
  | case4 c text _ _ rest dropped =>
      have ofBlanks : ')' :: rest <:+ text := dropped ▸ List.dropWhile_suffix isBlank
      exact ((List.suffix_cons ')' rest).trans ofBlanks).trans (List.suffix_cons c text)
  | case5 c text _ _ next rest dropped =>
      have ofBlanks : next :: rest <:+ text := dropped ▸ List.dropWhile_suffix isBlank
      exact ((suffix_skipBadUrl (next :: rest)).trans ofBlanks).trans (List.suffix_cons c text)
  | case6 c text => exact (suffix_skipBadUrl text).trans (List.suffix_cons c text)
  | case7 text _ _ _ _ escape more inductionHypothesis =>
      exact (inductionHypothesis.trans (Name.suffix_readEscape text)).trans (List.suffix_cons _ _)
  | case8 text => exact (suffix_skipBadUrl text).trans (List.suffix_cons _ text)
  | case9 c text _ _ _ _ more inductionHypothesis =>
      exact inductionHypothesis.trans (List.suffix_cons _ _)

theorem suffix_readIdentLike (text : List Char) : (readIdentLike text).2 <:+ text := by
  have ofName := Name.suffix_read text
  simp only [readIdentLike]
  split
  · exact ofName
  · rename_i argument found
    have ofArgument := (suffix_of_after? found).trans ofName
    split
    · have ofUrl := (suffix_readUrl (argument.dropWhile isBlank)).trans
        (List.dropWhile_suffix isBlank)
      split <;> (rename_i same; rw [same] at ofUrl; exact ofUrl.trans ofArgument)
    · exact ofArgument

theorem suffix_readNumeric (text : List Char) : (readNumeric text).2 <:+ text := by
  have ofNumber := Numeral.suffix_read text
  simp only [readNumeric]
  split
  · exact (Name.suffix_read _).trans ofNumber
  · split
    · rename_i found
      exact (suffix_of_after? found).trans ofNumber
    · exact ofNumber

/-- An end of a text that is shorter than the text is an end of what follows its first
character. -/
private theorem suffix_of_length {c : Char} {rest text : List Char} (suffix : rest <:+ c :: text)
    (shorter : rest.length < (c :: text).length) : rest <:+ text := by
  rcases List.suffix_cons_iff.1 suffix with same | later
  · rw [same] at shorter
    exact absurd shorter (Nat.lt_irrefl _)
  · exact later

theorem suffix_read (c : Char) (text : List Char) : (read c text).2 <:+ text := by
  have ofString := suffix_readString c text
  have ofName := Name.suffix_read text
  unfold read
  split
  · exact List.dropWhile_suffix isBlank
  split
  · split <;> (rename_i same; rw [same] at ofString; exact ofString)
  split
  · exact ofName
  split
  · exact List.drop_suffix 3 text
  split
  · exact ofName
  split
  · rename_i begins
    exact suffix_of_length (suffix_readNumeric _) (length_readNumeric_lt begins)
  split
  · exact List.drop_suffix 2 text
  split
  · rename_i begins
    exact suffix_of_length (suffix_readIdentLike _) (length_readIdentLike_lt begins)
  split <;> exact List.suffix_refl _

/-! ## Kinds of tokens -/

/-- Whether a token is neither white space, nor a bracket or another mark by itself, nor the end
of the input. -/
def isWord : Token → Bool
  | whitespace => false
  | colon => false
  | semicolon => false
  | comma => false
  | opening _ => false
  | closing _ => false
  | endOfInput => false
  | _ => true

private theorem isWord_readIdentLike (text : List Char) : (readIdentLike text).1.isWord = true := by
  unfold readIdentLike
  dsimp only
  split
  · rfl
  · split
    · split <;> rfl
    · rfl

private theorem isWord_readNumeric (text : List Char) : (readNumeric text).1.isWord = true := by
  unfold readNumeric
  dsimp only
  split
  · rfl
  · split <;> rfl

/-- A token is the white space that a blank character begins, or a character by itself, or a
word. -/
theorem read_cases (c : Char) (text : List Char) :
    (isBlank c = true ∧ (read c text).1 = whitespace) ∨
      (∃ token, ofPunctuation? c = some token ∧ read c text = (token, text)) ∨
      (read c text).1.isWord = true := by
  by_cases blank : isBlank c = true
  · exact .inl ⟨blank, by rw [read, if_pos blank]⟩
  · right
    unfold read
    rw [if_neg blank]
    split
    · right
      split <;> rfl
    split
    · exact .inr rfl
    split
    · exact .inr rfl
    split
    · exact .inr rfl
    split
    · exact .inr (isWord_readNumeric _)
    split
    · exact .inr rfl
    split
    · exact .inr (isWord_readIdentLike _)
    split
    · rename_i token punctuation
      exact .inl ⟨token, punctuation, rfl⟩
    · exact .inr rfl

private theorem ofPunctuation?_cases {c : Char} {token : Token}
    (punctuation : ofPunctuation? c = some token) :
    token.isWord = false ∧ token ≠ whitespace ∧ token ≠ endOfInput := by
  unfold ofPunctuation? at punctuation
  split at punctuation <;> cases punctuation <;> simp [isWord]

theorem read_punctuation {c : Char} {token : Token} (punctuation : ofPunctuation? c = some token)
    (rest : List Char) : read c rest = (token, rest) := by
  have noName : Name.starts (c :: rest) = false := by
    unfold ofPunctuation? at punctuation
    split at punctuation <;> first | rfl | cases punctuation
  have noNumber : Numeral.starts (c :: rest) = false := by
    unfold ofPunctuation? at punctuation
    split at punctuation <;> first | rfl | cases punctuation
  have signs : isBlank c = false ∧ c ∉ ['"', '\'', '#', '<', '@', '-'] := by
    unfold ofPunctuation? at punctuation
    split at punctuation <;> first | decide | cases punctuation
  obtain ⟨notBlank, different⟩ := signs
  simp only [List.mem_cons, List.not_mem_nil, or_false, not_or] at different
  simp [read, notBlank, different, noNumber, noName, punctuation]

theorem read_ne_whitespace {c : Char} (notBlank : isBlank c = false) (text : List Char) :
    (read c text).1 ≠ whitespace := by
  rcases read_cases c text with ⟨blank, _⟩ | ⟨token, punctuation, same⟩ | isWord_
  · rw [notBlank] at blank
    cases blank
  · rw [same]
    exact (ofPunctuation?_cases punctuation).2.1
  · intro same
    rw [same] at isWord_
    cases isWord_

theorem read_ne_endOfInput (c : Char) (text : List Char) : (read c text).1 ≠ endOfInput := by
  intro same
  rcases read_cases c text with ⟨_, blank⟩ | ⟨token, punctuation, read_⟩ | isWord_
  · rw [same] at blank
    cases blank
  · rw [read_] at same
    exact (ofPunctuation?_cases punctuation).2.2 same
  · rw [same] at isWord_
    cases isWord_

private theorem ofPunctuation?_injective {c other : Char} {token : Token}
    (punctuation : ofPunctuation? c = some token)
    (same : ofPunctuation? other = some token) : c = other := by
  unfold ofPunctuation? at punctuation
  split at punctuation <;> cases punctuation <;> unfold ofPunctuation? at same <;>
    split at same <;> first | rfl | cases same

/-- A token that is a character by itself is read from that character, and all that follows the
character is left. -/
theorem eq_of_read_punctuation {c mark : Char} {text : List Char}
    (punctuation : ofPunctuation? mark = some (read c text).1) :
    c = mark ∧ (read c text).2 = text := by
  obtain ⟨notWord, notBlank, _⟩ := ofPunctuation?_cases punctuation
  rcases read_cases c text with ⟨_, blank⟩ | ⟨token, ofChar, same⟩ | isWord_
  · exact absurd blank notBlank
  · rw [same] at punctuation ⊢
    exact ⟨ofPunctuation?_injective ofChar punctuation, rfl⟩
  · rw [notWord] at isWord_
    cases isWord_

end Token

/-! ## Comments -/

namespace Lexeme

theorem suffix_skipComment (text : List Char) : skipComment text <:+ text := by
  unfold skipComment
  cases found : behind? ['*', '/'] text with
  | none => exact List.nil_suffix
  | some rest => exact suffix_of_behind? found

theorem suffix_skipComments (text : List Char) : skipComments text <:+ text := by
  fun_induction skipComments text with
  | case1 => exact List.suffix_refl _
  | case2 text inside opened inductionHypothesis =>
      exact (inductionHypothesis.trans (suffix_skipComment inside)).trans (suffix_of_after? opened)

end Lexeme

end CssLint
