import CssLint.Text.Blank

/-!
# Trimming

White space at the ends of a text does not change what trimming leaves, and a
text without any at its ends is left as it is.
-/

namespace CssLint.Text

/-! ## Texts without white space at their ends -/

/-- The text begins with a character that is no white space. -/
def BareStart (text : List Char) : Prop :=
  ∃ c more, text = c :: more ∧ isSpace c = false

/-- The text ends with a character that is no white space. -/
def BareEnd (text : List Char) : Prop :=
  ∃ more c, text = more ++ [c] ∧ isSpace c = false

theorem BareStart.append {text : List Char} (bare : BareStart text) (more : List Char) :
    BareStart (text ++ more) := by
  obtain ⟨c, tail, rfl, notSpace⟩ := bare
  exact ⟨c, tail ++ more, rfl, notSpace⟩

theorem BareEnd.append {text : List Char} (bare : BareEnd text) (front : List Char) :
    BareEnd (front ++ text) := by
  obtain ⟨init, c, rfl, notSpace⟩ := bare
  exact ⟨front ++ init, c, (List.append_assoc ..).symm, notSpace⟩

theorem bareStart_of_forall {text : List Char} (nonempty : text ≠ [])
    (notSpace : ∀ c ∈ text, isSpace c = false) : BareStart text := by
  cases text with
  | nil => exact absurd rfl nonempty
  | cons c more => exact ⟨c, more, rfl, notSpace c List.mem_cons_self⟩

theorem bareEnd_of_forall {text : List Char} (nonempty : text ≠ [])
    (notSpace : ∀ c ∈ text, isSpace c = false) : BareEnd text :=
  ⟨text.dropLast, text.getLast nonempty, (List.dropLast_concat_getLast nonempty).symm,
    notSpace _ (List.getLast_mem nonempty)⟩

theorem not_isBlank_of_not_isSpace {c : Char} (notSpace : isSpace c = false) :
    isBlank c = false := by
  rw [← Bool.not_eq_true]
  intro blank
  rw [isSpace_of_isBlank blank] at notSpace
  cases notSpace

theorem BareStart.dropWhile_isBlank {text : List Char} (bare : BareStart text) :
    text.dropWhile isBlank = text := by
  obtain ⟨c, more, rfl, notSpace⟩ := bare
  simp [not_isBlank_of_not_isSpace notSpace]

/-! ## Trimming at the ends -/

theorem trimStart_append_of_isSpace {space : List Char} (blank : ∀ c ∈ space, isSpace c = true)
    (text : List Char) : trimStart (space ++ text) = trimStart text :=
  List.dropWhile_append_of_pos blank

theorem trimEnd_append_of_isSpace {space : List Char} (blank : ∀ c ∈ space, isSpace c = true)
    (text : List Char) : trimEnd (text ++ space) = trimEnd text := by
  have reversed : ∀ c ∈ space.reverse, isSpace c = true :=
    fun c member => blank c (List.mem_reverse.1 member)
  rw [trimEnd, trimEnd, List.reverse_append, List.dropWhile_append_of_pos reversed]

theorem trimStart_eq_self {text : List Char} (bare : BareStart text) : trimStart text = text := by
  obtain ⟨c, more, rfl, notSpace⟩ := bare
  simp [trimStart, notSpace]

theorem trimEnd_eq_self {text : List Char} (bare : BareEnd text) : trimEnd text = text := by
  obtain ⟨more, c, rfl, notSpace⟩ := bare
  simp [trimEnd, notSpace]

theorem BareEnd.trimStart {text : List Char} (bare : BareEnd text) : BareEnd (trimStart text) := by
  obtain ⟨more, c, rfl, notSpace⟩ := bare
  have last : [c].dropWhile isSpace = [c] := List.dropWhile_cons_of_neg (by simp [notSpace])
  rw [Text.trimStart, List.dropWhile_append, last]
  split
  · exact ⟨[], c, rfl, notSpace⟩
  · exact ⟨more.dropWhile isSpace, c, rfl, notSpace⟩

/-- Trimming takes away exactly the white space around a text without any at its ends. -/
theorem trim_append_append {before after text : List Char}
    (blankBefore : ∀ c ∈ before, isSpace c = true) (blankAfter : ∀ c ∈ after, isSpace c = true)
    (bareStart : BareStart text) (bareEnd : BareEnd text) :
    trim (before ++ text ++ after) = text := by
  rw [trim, List.append_assoc, trimStart_append_of_isSpace blankBefore,
    trimStart_eq_self (bareStart.append after), trimEnd_append_of_isSpace blankAfter,
    trimEnd_eq_self bareEnd]

theorem trim_append_of_isSpace {space : List Char} (blank : ∀ c ∈ space, isSpace c = true)
    (text : List Char) : trim (text ++ space) = trim text := by
  rw [trim, trim, trimStart, trimStart, List.dropWhile_append]
  split
  · rename_i none
    have spent : (space ++ []).dropWhile isSpace = [] := List.dropWhile_append_of_pos blank
    rw [List.append_nil] at spent
    rw [List.isEmpty_iff.1 none, spent]
  · exact trimEnd_append_of_isSpace blank _

/-- The blanks in front of a text are trimmed anyway. -/
theorem trim_dropWhile_isBlank (text : List Char) : trim (text.dropWhile isBlank) = trim text := by
  have blank : ∀ c ∈ text.takeWhile isBlank, isSpace c = true :=
    fun c member => isSpace_of_isBlank (List.all_eq_true.1 List.all_takeWhile c member)
  conv => rhs; rw [← List.takeWhile_append_dropWhile (p := isBlank) (l := text)]
  rw [trim, trim, trimStart_append_of_isSpace blank]

/-- A text is what trimming leaves of it, between the white space in front and behind. -/
theorem exists_trim (text : List Char) :
    ∃ early late, text = early ++ (trim text ++ late) ∧ trimStart text = trim text ++ late ∧
      (∀ c ∈ early, isSpace c = true) ∧ ∀ c ∈ late, isSpace c = true := by
  have ofStart : text.takeWhile isSpace ++ trimStart text = text :=
    List.takeWhile_append_dropWhile
  have ofEnd : trim text ++ ((trimStart text).reverse.takeWhile isSpace).reverse =
      trimStart text := by
    rw [trim, trimEnd, ← List.reverse_append, List.takeWhile_append_dropWhile,
      List.reverse_reverse]
  refine ⟨text.takeWhile isSpace, ((trimStart text).reverse.takeWhile isSpace).reverse, ?_,
    ofEnd.symm, List.all_eq_true.1 List.all_takeWhile,
    fun c member => List.all_eq_true.1 List.all_takeWhile c (List.mem_reverse.1 member)⟩
  rw [ofEnd, ofStart]

theorem trim_isInfix (text : List Char) : trim text <:+: text := by
  obtain ⟨early, late, whole, -⟩ := exists_trim text
  exact ⟨early, late, by rw [List.append_assoc, ← whole]⟩

theorem trim_subset (text : List Char) : trim text ⊆ text :=
  (trim_isInfix text).subset

/-- Trimming takes no character that is no white space. -/
theorem mem_trim {c : Char} {text : List Char} (member : c ∈ text) (notSpace : isSpace c = false) :
    c ∈ trim text := by
  obtain ⟨early, late, whole, -, spaceEarly, spaceLate⟩ := exists_trim text
  have outside : ∀ {space : List Char}, (∀ d ∈ space, isSpace d = true) → c ∉ space := by
    intro space blank inside
    rw [blank c inside] at notSpace
    cases notSpace
  rw [whole, List.mem_append, List.mem_append] at member
  exact (member.resolve_left (outside spaceEarly)).resolve_right (outside spaceLate)

theorem trim_eq_self {text : List Char} (bareStart : BareStart text) (bareEnd : BareEnd text) :
    trim text = text := by
  rw [trim, trimStart_eq_self bareStart, trimEnd_eq_self bareEnd]

private theorem exists_cons_of_dropWhile (text : List Char) (some : text.dropWhile isSpace ≠ []) :
    ∃ c more, text.dropWhile isSpace = c :: more ∧ isSpace c = false := by
  have bare := List.head?_dropWhile_not isSpace text
  cases left : text.dropWhile isSpace with
  | nil => exact absurd left some
  | cons c more =>
      rw [left] at bare
      exact ⟨c, more, rfl, by simpa using bare⟩

/-- What trimming leaves has no white space at its ends. -/
theorem bare_trim {text : List Char} (some : trim text ≠ []) :
    BareStart (trim text) ∧ BareEnd (trim text) := by
  obtain ⟨-, late, -, trimmed, -⟩ := exists_trim text
  constructor
  · obtain ⟨c, more, begins⟩ := List.exists_cons_of_ne_nil some
    have own : trimStart text = c :: (more ++ late) := by rw [trimmed, begins, List.cons_append]
    obtain ⟨d, others, left, notSpace⟩ := exists_cons_of_dropWhile text
      (by rw [← trimStart, own]; simp)
    rw [← trimStart, own] at left
    exact ⟨c, more, begins, (List.cons.inj left).1 ▸ notSpace⟩
  · obtain ⟨c, more, left, notSpace⟩ := exists_cons_of_dropWhile (trimStart text).reverse
      fun none => some (by rw [trim, trimEnd, none]; rfl)
    exact ⟨more.reverse, c, by rw [trim, trimEnd, left, List.reverse_cons], notSpace⟩

theorem trim_trim (text : List Char) : trim (trim text) = trim text := by
  by_cases none : trim text = []
  · rw [none]
    rfl
  · exact trim_eq_self (bare_trim none).1 (bare_trim none).2

end CssLint.Text
