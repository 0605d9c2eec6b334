import CssLint.Proofs.Selector.WrittenNames
import CssLint.Proofs.Text.Letters
import CssLint.Proofs.Token.Suffix

/-!
# Tokens of plain texts

The tokens that plain selectors and declarations are made of, each read in front of
a text that does not go on with it.
-/

namespace CssLint

open Text

/-! ## Texts behind tokens -/

/-- The text goes on with no name, and calls none. -/
def EndsName (rest : List Char) : Prop :=
  ∀ c more, rest = c :: more → Name.isPart c = false ∧ c ≠ '\\' ∧ c ≠ '('

/-- The text does not begin with a blank character. -/
def EndsBlanks (rest : List Char) : Prop :=
  ∀ c more, rest = c :: more → isBlank c = false

/-- The text has no digits. -/
def NoDigit (rest : List Char) : Prop :=
  ∀ c ∈ rest, c.isDigit = false

theorem endsName_nil : EndsName [] := by
  intro c more same
  cases same

theorem endsName_cons {c : Char} (stops : Name.isPart c = false ∧ c ≠ '\\' ∧ c ≠ '(')
    (more : List Char) : EndsName (c :: more) := by
  intro other others same
  cases same
  exact stops

theorem endsBlanks_cons {c : Char} (notBlank : isBlank c = false) (more : List Char) :
    EndsBlanks (c :: more) := by
  intro other others same
  cases same
  exact notBlank

theorem endsBlanks_nil : EndsBlanks [] := by
  intro c more same
  cases same

theorem NoDigit.append {left right : List Char} (ofLeft : NoDigit left)
    (ofRight : NoDigit right) : NoDigit (left ++ right) := by
  intro c member
  exact (List.mem_append.1 member).elim (ofLeft c) (ofRight c)

theorem NoDigit.right {left right : List Char} (noDigit : NoDigit (left ++ right)) :
    NoDigit right :=
  fun c member => noDigit c (List.mem_append_right left member)

theorem EndsName.stops {rest : List Char} (ends : EndsName rest) :
    Selector.Written.Stops rest := by
  intro c more same
  obtain ⟨notPart, notEscape, _⟩ := ends c more same
  exact ⟨notPart, notEscape⟩

theorem EndsName.after?_call {rest : List Char} (ends : EndsName rest) :
    after? ['('] rest = none := by
  cases rest with
  | nil => rfl
  | cons c more =>
      obtain ⟨_, _, notCall⟩ := ends c more rfl
      rw [after?, if_neg (Ne.symm notCall)]

/-! ## Names -/

namespace Name

theorem isPart_of_isAlpha {c : Char} (alpha : c.isAlpha = true) : isPart c = true := by
  rw [isPart, isStart, alpha]
  rfl

theorem read_append {name rest : List Char} (parts : ∀ c ∈ name, isPart c = true)
    (stops : Selector.Written.Stops rest) : read (name ++ rest) = (name, rest) := by
  induction name with
  | nil =>
      cases rest with
      | nil => rw [List.nil_append, read]
      | cons c more =>
          obtain ⟨notPart, notEscape⟩ := stops c more rfl
          have noEscape : startsEscape (c :: more) = false := by
            unfold startsEscape
            split
            · rfl
            · rename_i same
              cases same
              exact absurd rfl notEscape
            · rfl
          rw [List.nil_append, read]
          simp [notPart, noEscape]
  | cons c name inductionHypothesis =>
      have part := parts c List.mem_cons_self
      have later := inductionHypothesis fun other member =>
        parts other (List.mem_cons_of_mem c member)
      rw [List.cons_append, read]
      simp only [part, if_true, later]

theorem starts_of_isStart {c : Char} (start : isStart c = true) (text : List Char) :
    starts (c :: text) = true := by
  have notHyphen : c ≠ '-' := by
    rintro rfl
    exact absurd start (by decide)
  unfold starts
  split
  · rename_i same
    exact absurd (List.cons.inj same).1 notHyphen
  · rename_i same
    cases same
  · rename_i same
    cases same
    rw [start, Bool.true_or]

end Name

namespace Numeral

theorem starts_of_not_mem {c : Char} (notSign : c ∉ ['+', '-', '.']) (notDigit : c.isDigit = false)
    (text : List Char) : starts (c :: text) = false := by
  simp only [List.mem_cons, List.not_mem_nil, or_false, not_or] at notSign
  unfold starts
  split
  · rename_i same
    exact absurd (List.cons.inj same).1 notSign.1
  · rename_i same
    exact absurd (List.cons.inj same).1 notSign.2.1
  · rename_i same
    exact absurd (List.cons.inj same).1 notSign.1
  · rename_i same
    exact absurd (List.cons.inj same).1 notSign.2.1
  · rename_i same
    exact absurd (List.cons.inj same).1 notSign.2.2
  · exact notDigit

theorem startsDigit_of_noDigit {text : List Char} (noDigit : NoDigit text) :
    startsDigit text = false := by
  cases text with
  | nil => rfl
  | cons c text => exact noDigit c List.mem_cons_self

theorem starts_of_noDigit {text : List Char} (noDigit : NoDigit text) : starts text = false := by
  have behind : ∀ {text : List Char}, NoDigit text → ∀ count,
      startsDigit (text.drop count) = false := by
    intro text noDigit count
    apply startsDigit_of_noDigit
    intro c member
    exact noDigit c (List.mem_of_mem_drop member)
  unfold starts
  split
  · exact behind noDigit 2
  · exact behind noDigit 2
  · exact behind noDigit 1
  · exact behind noDigit 1
  · exact behind noDigit 1
  · exact behind noDigit 0

end Numeral

/-! ## Tokens -/

namespace Token

theorem read_blanks {blanks rest : List Char} {c : Char} (blank : isBlank c = true)
    (more : ∀ other ∈ blanks, isBlank other = true) (ends : EndsBlanks rest) :
    read c (blanks ++ rest) = (whitespace, rest) := by
  have dropped : (blanks ++ rest).dropWhile isBlank = rest := by
    rw [List.dropWhile_append_of_pos more]
    cases rest with
    | nil => rfl
    | cons next rest => rw [List.dropWhile_cons_of_neg (by simp [ends next rest rfl])]
  rw [read, blank, if_pos rfl, dropped]

/-- A letter begins a name or a function. -/
theorem read_of_isAlpha {c : Char} (alpha : c.isAlpha = true) (text : List Char) :
    read c text = readIdentLike (c :: text) := by
  have signs : ∀ sign ∈ ['"', '\'', '#', '<', '@', '-', '+', '.'], sign.isAlpha = false :=
    List.all_iff_forall_prop.1 (by decide)
  have different : ∀ sign ∈ ['"', '\'', '#', '<', '@', '-', '+', '.'], c ≠ sign := by
    intro sign member same
    rw [same, signs sign member] at alpha
    cases alpha
  have notSign : c ∉ ['+', '-', '.'] := by
    intro member
    have listed : ∀ sign ∈ ['+', '-', '.'], sign ∈ ['"', '\'', '#', '<', '@', '-', '+', '.'] :=
      List.all_iff_forall_prop.1 (by decide)
    exact different c (listed c member) rfl
  have start : Name.isStart c = true := by
    rw [Name.isStart, alpha]
    rfl
  have noNumber := Numeral.starts_of_not_mem notSign (not_isDigit_of_isAlpha alpha) text
  simp only [List.mem_cons, List.not_mem_nil, or_false, forall_eq_or_imp, forall_eq] at different
  simp [read, not_isBlank_of_isAlpha alpha, different, noNumber, Name.starts_of_isStart start]

theorem read_letters {c : Char} {name rest : List Char}
    (letters : ∀ other ∈ c :: name, other.isAlpha = true) (ends : EndsName rest) :
    read c (name ++ rest) = (ident (c :: name), rest) := by
  have parts : ∀ other ∈ c :: name, Name.isPart other = true :=
    fun other member => Name.isPart_of_isAlpha (letters other member)
  have whole : Name.read (c :: (name ++ rest)) = (c :: name, rest) :=
    Name.read_append parts ends.stops
  rw [read_of_isAlpha (letters c List.mem_cons_self), readIdentLike, whole]
  simp only [ends.after?_call]

theorem read_not (rest : List Char) :
    read 'n' ('o' :: 't' :: '(' :: rest) = (function ['n', 'o', 't'], rest) := by
  have stops : Selector.Written.Stops ('(' :: rest) :=
    Selector.Written.stops_cons (by decide) (by decide) rest
  have letters : ∀ c ∈ ['n', 'o', 't'], Name.isPart c = true :=
    List.all_iff_forall_prop.1 (by decide)
  have whole : Name.read ('n' :: 'o' :: 't' :: '(' :: rest) = (['n', 'o', 't'], '(' :: rest) :=
    Name.read_append letters stops
  rw [read_of_isAlpha (by decide), readIdentLike, whole]
  rfl

theorem read_hash {name rest : List Char} (nonempty : name ≠ [])
    (letters : ∀ c ∈ name, c.isAlpha = true) (ends : EndsName rest) :
    ∃ isId, read '#' (name ++ rest) = (hash name isId, rest) := by
  have parts : ∀ c ∈ name, Name.isPart c = true :=
    fun c member => Name.isPart_of_isAlpha (letters c member)
  have begins : (name ++ rest).head?.any Name.isPart = true := by
    cases name with
    | nil => exact absurd rfl nonempty
    | cons c name => exact parts c List.mem_cons_self
  have notBlank : ¬ isBlank '#' = true := by decide
  have notQuote : ¬ ('#' = '"' || '#' = '\'') = true := by decide
  have hashed : ('#' = '#' && ((name ++ rest).head?.any Name.isPart ||
      Name.startsEscape (name ++ rest))) = true := by
    rw [begins]
    rfl
  refine ⟨Name.starts (name ++ rest), ?_⟩
  rw [read, if_neg notBlank, if_neg notQuote, if_pos hashed, Name.read_append parts ends.stops]

/-- The signs that only a digit can make part of a number. -/
theorem read_sign {c : Char} (sign : c ∈ ['.', '*', '>', '+', '~']) {rest : List Char}
    (noDigit : NoDigit rest) : read c rest = (delim c, rest) := by
  have noNumber : Numeral.starts (c :: rest) = false := by
    apply Numeral.starts_of_noDigit
    have signs : ∀ sign ∈ ['.', '*', '>', '+', '~'], sign.isDigit = false :=
      List.all_iff_forall_prop.1 (by decide)
    intro other member
    rcases List.mem_cons.1 member with rfl | later
    · exact signs other sign
    · exact noDigit other later
  simp only [List.mem_cons, List.not_mem_nil, or_false] at sign
  rcases sign with rfl | rfl | rfl | rfl | rfl <;>
    simp [read, noNumber, isBlank, Name.starts, Name.isStart, Name.startsEscape, ofPunctuation?]

end Token

end CssLint
