import CssLint.Proofs.Selector.Written
import CssLint.Proofs.Text.Trim

/-!
# Names of written selectors

The names that can be written are passed over as a whole, where a character
follows that no name can hold.
-/

namespace CssLint.Selector.Written

open Text CssLint.Name

/-! ## Characters -/

/-- The characters that may follow a simple selector. -/
def isBreak (c : Char) : Bool :=
  isBlank c || [',', ')', '>', '+', '~', '.', '#', '[', ':'].contains c

/-- What may follow a simple selector. -/
def Breaks (rest : List Char) : Prop :=
  ∀ c more, rest = c :: more → isBreak c = true

theorem breaks_nil : Breaks [] := by
  intro c more same
  cases same

theorem breaks_cons {c : Char} {more : List Char} (break_ : isBreak c = true) :
    Breaks (c :: more) := by
  intro other others same
  cases same
  exact break_

/-- What a character must not be behind a name. -/
theorem not_continues_of_isBreak {c : Char} (break_ : isBreak c = true) :
    isPart c = false ∧ c ≠ '\\' ∧ c ≠ '(' ∧ c ≠ '|' := by
  simp only [isBreak, isBlank, Bool.or_eq_true, beq_iff_eq, List.contains_eq_mem,
    decide_eq_true_eq, List.mem_cons, List.not_mem_nil, or_false] at break_
  rcases break_ with ((((rfl | rfl) | rfl) | rfl) | rfl) |
    (rfl | rfl | rfl | rfl | rfl | rfl | rfl | rfl | rfl) <;> decide

theorem isPart_of_isWordPart {c : Char} (part : isWordPart c = true) : isPart c = true := by
  simp only [isWordPart] at part
  delta Char.isAlphanum at part
  simp only [Bool.or_eq_true, beq_iff_eq] at part
  simp only [isPart, isStart, Bool.or_eq_true, beq_iff_eq]
  rcases part with ((alpha | digit) | hyphen) | low
  · exact Or.inl (Or.inl (Or.inl (Or.inl alpha)))
  · exact Or.inl (Or.inr digit)
  · exact Or.inr hyphen
  · exact Or.inl (Or.inl (Or.inl (Or.inr low)))

theorem isSpace_of_isWordPart {c : Char} (part : isWordPart c = true) : isSpace c = false := by
  simp only [isWordPart] at part
  delta Char.isAlphanum Char.isAlpha Char.isUpper Char.isLower Char.isDigit at part
  simp only [Bool.or_eq_true, Bool.and_eq_true, decide_eq_true_eq, UInt32.le_iff_toNat_le,
    ge_iff_le, beq_iff_eq] at part
  change ((((65 ≤ c.toNat ∧ c.toNat ≤ 90) ∨ (97 ≤ c.toNat ∧ c.toNat ≤ 122)) ∨
    (48 ≤ c.toNat ∧ c.toNat ≤ 57)) ∨ c = '-') ∨ c = '_' at part
  simp only [isSpace, Bool.or_eq_false_iff, Bool.and_eq_false_iff, decide_eq_false_iff_not,
    beq_eq_false_iff_ne]
  rcases part with (letterOrDigit | rfl) | rfl
  · omega
  · decide
  · decide

/-! ## Names -/

/-- No name goes on in the text. -/
def Stops (rest : List Char) : Prop :=
  ∀ c more, rest = c :: more → isPart c = false ∧ c ≠ '\\'

theorem stops_cons {c : Char} (notPart : isPart c = false) (notEscape : c ≠ '\\')
    (more : List Char) : Stops (c :: more) := by
  intro other others same
  cases same
  exact ⟨notPart, notEscape⟩

theorem Breaks.stops {rest : List Char} (breaks : Breaks rest) : Stops rest := by
  intro c more same
  obtain ⟨notPart, notEscape, _, _⟩ := not_continues_of_isBreak (breaks c more same)
  exact ⟨notPart, notEscape⟩

theorem drop_append {name rest : List Char} (parts : ∀ c ∈ name, isPart c = true)
    (stops : Stops rest) : Name.drop (name ++ rest) = rest := by
  induction name with
  | nil =>
      cases rest with
      | nil => rw [List.nil_append, Name.drop]
      | cons c more =>
          obtain ⟨notPart, notEscape⟩ := stops c more rfl
          have noEscape : Name.startsEscape (c :: more) = false := by
            unfold Name.startsEscape
            split
            · rename_i same
              cases same
              exact absurd rfl notEscape
            · rfl
          rw [List.nil_append, Name.drop]
          simp [notPart, noEscape]
  | cons c name inductionHypothesis =>
      have part := parts c List.mem_cons_self
      rw [List.cons_append, Name.drop]
      simp only [part, if_true]
      exact inductionHypothesis fun other member => parts other (List.mem_cons_of_mem c member)

namespace Word

theorem wordParts (word : Word) : ∀ c ∈ word.text, isWordPart c = true := by
  obtain ⟨text, wellFormed⟩ := word
  cases text with
  | nil => cases wellFormed
  | cons c name =>
      simp only [isWord, Bool.and_eq_true, List.all_eq_true] at wellFormed
      intro other member
      rcases List.mem_cons.1 member with rfl | later
      · rcases Bool.or_eq_true_iff.1 wellFormed.1 with alpha | low
        · delta isWordPart Char.isAlphanum
          simp [alpha]
        · simp [isWordPart, low]
      · exact wellFormed.2 other later

theorem parts (word : Word) : ∀ c ∈ word.text, isPart c = true :=
  fun c member => isPart_of_isWordPart (word.wordParts c member)

theorem exists_cons (word : Word) :
    ∃ c name, word.text = c :: name ∧ isStart c = true := by
  obtain ⟨text, wellFormed⟩ := word
  cases text with
  | nil => cases wellFormed
  | cons c name =>
      simp only [isWord, Bool.and_eq_true, Bool.or_eq_true, beq_iff_eq] at wellFormed
      refine ⟨c, name, rfl, ?_⟩
      rcases wellFormed.1 with alpha | rfl
      · simp [isStart, alpha]
      · rfl

theorem ne_nil (word : Word) : word.text ≠ [] := by
  obtain ⟨c, name, same, _⟩ := word.exists_cons
  simp [same]

theorem bareStart (word : Word) : BareStart word.text :=
  bareStart_of_forall word.ne_nil fun c member => isSpace_of_isWordPart (word.wordParts c member)

theorem bareEnd (word : Word) : BareEnd word.text :=
  bareEnd_of_forall word.ne_nil fun c member => isSpace_of_isWordPart (word.wordParts c member)

theorem starts_append (word : Word) (rest : List Char) :
    Name.starts (word.text ++ rest) = true := by
  obtain ⟨c, name, same, start⟩ := word.exists_cons
  have notHyphen : c ≠ '-' := by
    rintro rfl
    cases start
  rw [same, List.cons_append]
  unfold Name.starts
  split
  · rename_i equal
    exact absurd (List.cons.inj equal).1 notHyphen
  · rename_i equal
    cases equal
  · rename_i equal
    cases equal
    simp [start]

end Word

/-- Small letters come from letters, and other characters from themselves. -/
private theorem toLower_eq_or_isAlpha (c : Char) : c.toLower = c ∨ c.isAlpha = true := by
  by_cases upper : c.isUpper = true
  · right
    delta Char.isAlpha
    rw [upper, Bool.true_or]
  · left
    delta Char.toLower
    apply dif_neg
    intro bounds
    apply upper
    delta Char.isUpper
    exact decide_eq_true bounds

/-- Whether a text is a letter or a hyphen and a letter, and behind it characters of names. -/
private def isPlainName (text : List Char) : Bool :=
  text.all isPart &&
    match text with
    | '-' :: c :: _ => c.isAlpha
    | c :: _ => c.isAlpha
    | [] => false

private theorem isPlainName_of_takesList {text : List Char} (listed : takesList text = true) :
    isPlainName text = true := by
  have known : ∀ name ∈ listPseudos.map String.toList, isPlainName name = true := by decide
  have plain := known (lower text) (List.contains_iff_mem.1 listed)
  simp only [isPlainName, lower, Bool.and_eq_true, List.all_map] at plain ⊢
  obtain ⟨parts, begins⟩ := plain
  have keeps : ∀ c : Char, c.toLower.isAlpha = true → c.isAlpha = true := by
    intro c alpha
    rcases toLower_eq_or_isAlpha c with same | letter
    · rwa [same] at alpha
    · exact letter
  constructor
  · rw [List.all_eq_true] at parts ⊢
    intro c member
    rcases toLower_eq_or_isAlpha c with same | letter
    · simpa [same] using parts c member
    · simp [isPart, isStart, letter]
  · cases text with
    | nil => cases begins
    | cons c text =>
        by_cases hyphen : c = '-'
        · subst hyphen
          cases text with
          | nil => cases begins
          | cons d text => exact keeps d begins
        · have alpha : c.isAlpha = true := by
            rcases toLower_eq_or_isAlpha c with same | letter
            · simp only [List.map_cons, same] at begins
              split at begins
              · rename_i equal
                exact absurd (List.cons.inj equal).1 hyphen
              · rename_i equal
                cases equal
                exact begins
              · rename_i equal
                cases equal
            · exact letter
          split
          · rename_i equal
            exact absurd (List.cons.inj equal).1 hyphen
          · rename_i equal
            cases equal
            exact alpha
          · rename_i equal
            cases equal

namespace ListName

theorem parts (name : ListName) : ∀ c ∈ name.text, isPart c = true := by
  have plain := isPlainName_of_takesList name.listed
  simp only [isPlainName, Bool.and_eq_true, List.all_eq_true] at plain
  exact plain.1

theorem starts_append (name : ListName) (rest : List Char) :
    Name.starts (name.text ++ rest) = true := by
  have plain := isPlainName_of_takesList name.listed
  simp only [isPlainName, Bool.and_eq_true] at plain
  obtain ⟨_, begins⟩ := plain
  revert begins
  generalize name.text = text
  intro begins
  split at begins
  · simp [Name.starts, isStart, begins]
  · rename_i c more notHyphen
    have letter : isStart c = true := by simp [isStart, begins]
    unfold Name.starts
    split
    · rename_i equal
      cases (List.cons.inj equal).1
      cases begins
    · rename_i equal
      cases equal
    · rename_i equal
      cases equal
      simp [letter]
  · cases begins

end ListName

end CssLint.Selector.Written
