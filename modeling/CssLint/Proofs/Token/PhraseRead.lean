import CssLint.Proofs.Token.PlainRead
import CssLint.Proofs.Token.Suffix
import Mathlib.Data.List.TakeWhile

/-!
# Tokens of phrases

A phrase is made of letters, digits, hyphens, points and blank characters.  In front
of a sign that ends it, its tokens are names, numbers and the signs themselves, and
none of them takes any of what follows the phrase.
-/

namespace CssLint

open Text

/-- Letters, digits, hyphens, points and blank characters. -/
def isPhrasePart (c : Char) : Bool :=
  c.isAlpha || c.isDigit || c == '-' || c == '.' || isBlank c

/-- The signs that may end a phrase. -/
def phraseEnds : List Char :=
  [':', ';', '\x7b', '\x7d']

/-- The text is all there is, or goes on with a sign that ends a phrase. -/
def EndsPhrase (rest : List Char) : Prop :=
  ∀ c more, rest = c :: more → c ∈ phraseEnds

/-- The token of a part of a phrase. -/
def Token.isFlat : Token → Bool
  | ident _ => true
  | number _ => true
  | dimension _ _ => true
  | whitespace => true
  | delim c => c == '-' || c == '.'
  | _ => false

theorem endsPhrase_cons {c : Char} (ends : c ∈ phraseEnds) (more : List Char) :
    EndsPhrase (c :: more) := by
  rintro _ _ ⟨⟩
  exact ends

/-! ## Characters -/

/-- The signs that begin or continue a token that is not flat. -/
private def otherSigns : List Char :=
  ['\\', '(', '%', '+', '"', '\'', '#', '<', '@', '/', '>']

private theorem ne_of_mem_otherSigns {c sign : Char}
    (here : isPhrasePart c = true ∨ c ∈ phraseEnds) (other : sign ∈ otherSigns) : c ≠ sign := by
  have signs : ∀ sign ∈ otherSigns, ¬(isPhrasePart sign = true ∨ sign ∈ phraseEnds) :=
    List.all_iff_forall_prop.1 (by decide)
  rintro rfl
  exact signs c other here

/-- What the text begins with is a part of a phrase, or ends one. -/
private theorem head_append {text rest : List Char} (parts : ∀ c ∈ text, isPhrasePart c = true)
    (ends : EndsPhrase rest) {c : Char} {more : List Char} (same : text ++ rest = c :: more) :
    isPhrasePart c = true ∨ c ∈ phraseEnds := by
  cases text with
  | nil => exact Or.inr (ends c more same)
  | cons first text =>
      obtain ⟨rfl, -⟩ := List.cons.inj same
      exact Or.inl (parts first List.mem_cons_self)

private theorem after?_eq_none {text rest : List Char} (parts : ∀ c ∈ text, isPhrasePart c = true)
    (ends : EndsPhrase rest) {sign : Char} (other : sign ∈ otherSigns) :
    after? [sign] (text ++ rest) = none := by
  cases found : text ++ rest with
  | nil => rfl
  | cons c more =>
      have different := ne_of_mem_otherSigns (head_append parts ends found) other
      rw [after?, if_neg (Ne.symm different)]

/-! ## Readers that stop inside a phrase -/

section Stops

variable {rest : List Char} (ends : EndsPhrase rest)

include ends

/-- The characters of a run that no sign behind a phrase belongs to end inside the phrase. -/
theorem dropWhile_append_of_endsPhrase {property : Char → Bool}
    (lacks : ∀ c ∈ phraseEnds, property c = false) (text : List Char) :
    (text ++ rest).dropWhile property = text.dropWhile property ++ rest := by
  induction text with
  | nil =>
      cases rest with
      | nil => rfl
      | cons c more => simp [lacks c (ends c more rfl)]
  | cons c text inductionHypothesis =>
      cases holds : property c with
      | true => simpa [holds] using inductionHypothesis
      | false => simp [holds]

namespace Numeral

omit ends in
theorem starts_of_isDigit {c : Char} (digit : c.isDigit = true) (text : List Char) :
    starts (c :: text) = true := by
  have notSign : ∀ sign ∈ ['+', '-', '.'], c ≠ sign := by
    rintro sign member rfl
    have signs : ∀ sign ∈ ['+', '-', '.'], sign.isDigit = false :=
      List.all_iff_forall_prop.1 (by decide)
    rw [signs c member] at digit
    cases digit
  simp only [List.mem_cons, List.not_mem_nil, or_false, forall_eq_or_imp, forall_eq] at notSign
  unfold starts
  split
  · rename_i same
    exact absurd (List.cons.inj same).1 notSign.1
  · rename_i same
    exact absurd (List.cons.inj same).1 notSign.2.1
  · rename_i same
    exact absurd (List.cons.inj same).1 notSign.1
  · rename_i same
    exact absurd (List.cons.inj same).1 notSign.2.1
  · rename_i same
    exact absurd (List.cons.inj same).1 notSign.2.2
  · exact digit

private theorem readDigits_phrase (text : List Char) :
    ∃ left, left <:+ text ∧ (readDigits (text ++ rest)).2 = left ++ rest :=
  ⟨_, List.dropWhile_suffix _,
    dropWhile_append_of_endsPhrase ends (List.all_iff_forall_prop.1 (by decide)) text⟩

private theorem readSign_phrase (text : List Char) :
    ∃ left, left <:+ text ∧ (readSign (text ++ rest)).2 = left ++ rest := by
  cases text with
  | nil =>
      refine ⟨[], List.suffix_refl _, ?_⟩
      cases rest with
      | nil => rfl
      | cons c more =>
          have signs : ∀ c ∈ phraseEnds, ¬(c = '+' ∨ c = '-') :=
            List.all_iff_forall_prop.1 (by decide)
          simp [readSign, signs c (ends c more rfl)]
  | cons c text =>
      rw [List.cons_append, readSign]
      split
      · exact ⟨text, List.suffix_cons c text, rfl⟩
      · exact ⟨c :: text, List.suffix_refl _, rfl⟩

private theorem readFraction_phrase (text : List Char) :
    ∃ left, left <:+ text ∧ (readFraction (text ++ rest)).2 = left ++ rest := by
  cases text with
  | nil =>
      refine ⟨[], List.suffix_refl _, ?_⟩
      cases rest with
      | nil => rfl
      | cons c more =>
          have signs : ∀ c ∈ phraseEnds, c ≠ '.' := List.all_iff_forall_prop.1 (by decide)
          simp [readFraction, signs c (ends c more rfl)]
  | cons c text =>
      rw [List.cons_append, readFraction]
      split
      · obtain ⟨left, suffix, same⟩ := readDigits_phrase ends text
        exact ⟨left, suffix.trans (List.suffix_cons c text), same⟩
      · exact ⟨c :: text, List.suffix_refl _, rfl⟩

private theorem readExponent_phrase (text : List Char) :
    ∃ left, left <:+ text ∧ (readExponent (text ++ rest)).2 = left ++ rest := by
  cases text with
  | nil =>
      refine ⟨[], List.suffix_refl _, ?_⟩
      cases rest with
      | nil => rfl
      | cons c more =>
          have signs : ∀ c ∈ phraseEnds, ¬(c = 'e' ∨ c = 'E') :=
            List.all_iff_forall_prop.1 (by decide)
          simp [readExponent, signs c (ends c more rfl)]
  | cons c text =>
      obtain ⟨signed, ofSign, sign⟩ := readSign_phrase ends text
      obtain ⟨left, ofDigits, digits⟩ := readDigits_phrase ends signed
      simp only [List.cons_append, readExponent, sign]
      split
      · exact ⟨left, (ofDigits.trans ofSign).trans (List.suffix_cons c text), digits⟩
      · exact ⟨c :: text, List.suffix_refl _, rfl⟩

theorem read_phrase (text : List Char) :
    ∃ left, left <:+ text ∧ (read (text ++ rest)).2 = left ++ rest := by
  obtain ⟨unsigned, ofSign, sign⟩ := readSign_phrase ends text
  obtain ⟨behind, ofWhole, whole⟩ := readDigits_phrase ends unsigned
  obtain ⟨scaled, ofFraction, fraction⟩ := readFraction_phrase ends behind
  obtain ⟨left, ofExponent, exponent⟩ := readExponent_phrase ends scaled
  refine ⟨left, ((ofExponent.trans ofFraction).trans ofWhole).trans ofSign, ?_⟩
  simp only [read, sign, whole, fraction, exponent]

end Numeral

variable {text : List Char} (parts : ∀ c ∈ text, isPhrasePart c = true)

include parts

theorem Name.read_phrase :
    ∃ left, left <:+ text ∧ read (text ++ rest) = (text.takeWhile isPart, left ++ rest) := by
  have suffix : text.dropWhile isPart <:+ text := List.dropWhile_suffix isPart
  have stops : Selector.Written.Stops (text.dropWhile isPart ++ rest) := by
    intro c more same
    have here := head_append (fun other member => parts other (suffix.mem member)) ends same
    have different := ne_of_mem_otherSigns here (show '\\' ∈ otherSigns by decide)
    have notPart := List.head?_dropWhile_not isPart (text ++ rest)
    rw [dropWhile_append_of_endsPhrase ends (List.all_iff_forall_prop.1 (by decide)) text,
      same] at notPart
    exact ⟨notPart, different⟩
  refine ⟨_, suffix, ?_⟩
  have named : ∀ c ∈ text.takeWhile isPart, isPart c = true :=
    fun c member => List.mem_takeWhile_imp member
  have read := Name.read_append named stops
  rwa [← List.append_assoc, List.takeWhile_append_dropWhile] at read

namespace Token

/-- A name in a phrase calls nothing. -/
private theorem readIdentLike_phrase :
    ∃ left, left <:+ text ∧
      readIdentLike (text ++ rest) = (ident (text.takeWhile Name.isPart), left ++ rest) := by
  obtain ⟨left, suffix, name⟩ := Name.read_phrase ends parts
  refine ⟨left, suffix, ?_⟩
  have noCall : after? ['('] (left ++ rest) = none :=
    after?_eq_none (fun other member => parts other (suffix.mem member)) ends (by decide)
  simp only [readIdentLike, name, noCall]

/-- A number in a phrase is no percentage. -/
private theorem readNumeric_phrase :
    ∃ left, left <:+ text ∧ ∃ token : Token, token.isFlat = true ∧
      readNumeric (text ++ rest) = (token, left ++ rest) := by
  obtain ⟨behind, suffix, number⟩ := Numeral.read_phrase ends text
  have partsBehind : ∀ c ∈ behind, isPhrasePart c = true :=
    fun c member => parts c (suffix.mem member)
  unfold readNumeric
  simp only [number]
  split
  · obtain ⟨left, ofUnit, unit⟩ := Name.read_phrase ends partsBehind
    refine ⟨left, ofUnit.trans suffix, _, ?_, by rw [unit]⟩
    rfl
  · refine ⟨behind, suffix, Token.number (Numeral.read (text ++ rest)).1, rfl, ?_⟩
    have noPercent : after? ['%'] (behind ++ rest) = none :=
      after?_eq_none partsBehind ends (by decide)
    rw [noPercent]

/-- No mark of an HTML comment stands in a phrase. -/
private theorem after?_arrow : after? ['-', '>'] (text ++ rest) = none := by
  cases text with
  | nil =>
      cases rest with
      | nil => rfl
      | cons c more =>
          have notHyphen : ∀ c ∈ phraseEnds, '-' ≠ c := List.all_iff_forall_prop.1 (by decide)
          rw [List.nil_append, after?, if_neg (notHyphen c (ends c more rfl))]
  | cons first text =>
      rw [List.cons_append, after?]
      split
      · exact after?_eq_none (List.forall_mem_cons.1 parts).2 ends (by decide)
      · rfl

omit ends parts in
private theorem isFlat_delim {c : Char} (part : isPhrasePart c = true)
    (notBlank : isBlank c = false) {text : List Char}
    (noNumber : Numeral.starts (c :: text) = false)
    (noName : Name.starts (c :: text) = false) : (delim c).isFlat = true := by
  have notAlpha : c.isAlpha = false := by
    rw [← Bool.not_eq_true]
    intro alpha
    rw [Name.starts_of_isStart (by rw [Name.isStart, alpha]; rfl)] at noName
    cases noName
  have notDigit : c.isDigit = false := by
    rw [← Bool.not_eq_true]
    intro digit
    rw [Numeral.starts_of_isDigit digit] at noNumber
    cases noNumber
  simp only [isPhrasePart, notAlpha, notDigit, notBlank, Bool.false_or, Bool.or_false] at part
  exact part

/-- A phrase begins with a flat token that leaves a shorter phrase. -/
theorem read_phrase {c : Char} (part : isPhrasePart c = true) :
    ∃ left, left <:+ text ∧ ∃ token : Token, token.isFlat = true ∧
      read c (text ++ rest) = (token, left ++ rest) := by
  have whole : ∀ other ∈ c :: text, isPhrasePart other = true :=
    List.forall_mem_cons.2 ⟨part, parts⟩
  have shorter : ∀ {left : List Char}, left <:+ c :: text →
      (left ++ rest).length < (c :: (text ++ rest)).length → left <:+ text := by
    intro left suffix less
    rcases List.suffix_cons_iff.1 suffix with rfl | inside
    · exact absurd less (Nat.lt_irrefl _)
    · exact inside
  cases blank : isBlank c with
  | true =>
      refine ⟨text.dropWhile isBlank, List.dropWhile_suffix _, whitespace, rfl, ?_⟩
      rw [read, if_pos blank,
        dropWhile_append_of_endsPhrase ends (List.all_iff_forall_prop.1 (by decide))]
  | false =>
      have different : ∀ sign ∈ otherSigns, c ≠ sign :=
        fun sign member => ne_of_mem_otherSigns (Or.inl part) member
      simp only [otherSigns, List.mem_cons, List.not_mem_nil, or_false, forall_eq_or_imp,
        forall_eq] at different
      simp only [read, blank, different, after?_arrow ends parts, Bool.false_eq_true,
        decide_false, Bool.or_self, Bool.false_and, Option.isSome_none, Bool.and_false, if_false]
      split
      · rename_i begins
        obtain ⟨left, suffix, token, flat, same⟩ := readNumeric_phrase ends whole
        have less := length_readNumeric_lt begins
        rw [← List.cons_append, same] at less
        exact ⟨left, shorter suffix less, token, flat, same⟩
      · rename_i noNumber
        split
        · rename_i begins
          obtain ⟨left, suffix, same⟩ := readIdentLike_phrase ends whole
          have less := length_readIdentLike_lt begins
          rw [← List.cons_append, same] at less
          exact ⟨left, shorter suffix less, _, rfl, same⟩
        · rename_i noName
          have flat := isFlat_delim part blank (Bool.not_eq_true _ ▸ noNumber)
            (Bool.not_eq_true _ ▸ noName)
          refine ⟨text, List.suffix_refl _, delim c, flat, ?_⟩
          have sign : c = '-' ∨ c = '.' := by simpa [isFlat] using flat
          rcases sign with rfl | rfl <;> rfl

/-- A phrase that begins with a letter begins with a name. -/
theorem read_phrase_alpha {c : Char} (alpha : c.isAlpha = true) :
    ∃ left, left <:+ text ∧ ∃ name, read c (text ++ rest) = (ident (c :: name), left ++ rest) := by
  have whole : ∀ other ∈ c :: text, isPhrasePart other = true :=
    List.forall_mem_cons.2 ⟨by simp [isPhrasePart, alpha], parts⟩
  have named : (c :: text).takeWhile Name.isPart = c :: text.takeWhile Name.isPart :=
    List.takeWhile_cons_of_pos (Name.isPart_of_isAlpha alpha)
  obtain ⟨left, suffix, same⟩ := readIdentLike_phrase ends whole
  have read := (read_of_isAlpha alpha (text ++ rest)).trans same
  have less := length_read_le c (text ++ rest)
  rw [read, List.length_append, List.length_append] at less
  rw [named] at read
  refine ⟨left, ?_, _, read⟩
  rcases List.suffix_cons_iff.1 suffix with rfl | inside
  · rw [List.length_cons] at less
    omega
  · exact inside

end Token

end Stops

/-- A keyword of letters, in front of what is no part of a name. -/
theorem Token.read_atKeyword {name rest : List Char} (nonempty : name ≠ [])
    (letters : ∀ c ∈ name, c.isAlpha = true) (stops : Selector.Written.Stops rest) :
    read '@' (name ++ rest) = (atKeyword name, rest) := by
  have parts : ∀ c ∈ name, Name.isPart c = true :=
    fun c member => Name.isPart_of_isAlpha (letters c member)
  have begins : Name.starts (name ++ rest) = true := by
    cases name with
    | nil => exact absurd rfl nonempty
    | cons c name =>
        apply Name.starts_of_isStart
        rw [Name.isStart, letters c List.mem_cons_self]
        rfl
  simp [read, isBlank, begins, Name.read_append parts stops]

end CssLint
