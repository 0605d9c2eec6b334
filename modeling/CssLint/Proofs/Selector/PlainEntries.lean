import CssLint.Proofs.Selector.PlainText

/-!
# Entries of plain preludes

The text of a plain prelude is divided at the commas between its entries; those
inside negations are passed over with their parentheses.
-/

namespace CssLint.Selector.Written

open Text

/-! ## Parts -/

/-- The parts with a text in front of the first of them. -/
def glue (text : List Char) : List (List Char) → List (List Char)
  | [] => [text]
  | part :: parts => (text ++ part) :: parts

theorem glue_glue (first second : List Char) (parts : List (List Char)) :
    glue first (glue second parts) = glue (first ++ second) parts := by
  cases parts with
  | nil => rfl
  | cons part parts => simp [glue]

theorem splitFrom_ne_nil (separator : Char) (scanner : Scanner) (text : List Char) :
    splitFrom separator scanner text ≠ [] := by
  cases text with
  | nil => simp [splitFrom]
  | cons c text =>
      rw [splitFrom]
      split
      · simp
      · split <;> simp

theorem glue_nil {parts : List (List Char)} (nonempty : parts ≠ []) :
    glue [] parts = parts := by
  cases parts with
  | nil => exact absurd rfl nonempty
  | cons part parts => rfl

theorem splitFrom_cons {separator c : Char} {scanner : Scanner}
    (stays : (scanner.isIdle && c = separator) = false) (text : List Char) :
    splitFrom separator scanner (c :: text) =
      glue [c] (splitFrom separator (scanner.step .all c) text) := by
  rw [splitFrom, stays]
  cases splitFrom separator (scanner.step .all c) text with
  | nil => rfl
  | cons part parts => rfl

/-! ## Texts that are passed over -/

/-- The scanner inside brackets of the given depth. -/
def Scanner.atDepth (depth : Nat) : Scanner :=
  ⟨none, false, depth⟩

/-- Splitting at commas passes over the text inside brackets of the given depth. -/
def Passes (depth : Nat) (text : List Char) : Prop :=
  ∀ rest, splitFrom ',' (Scanner.atDepth depth) (text ++ rest) =
    glue text (splitFrom ',' (Scanner.atDepth depth) rest)

namespace Passes

variable {depth : Nat}

theorem nil : Passes depth [] := by
  intro rest
  rw [glue_nil (splitFrom_ne_nil _ _ _)]
  rfl

theorem append {left right : List Char} (ofLeft : Passes depth left)
    (ofRight : Passes depth right) : Passes depth (left ++ right) := by
  intro rest
  rw [List.append_assoc, ofLeft, ofRight, glue_glue]

/-- A character that is neither a comma nor a mark of the scanner. -/
theorem char {c : Char} (notComma : c ≠ ',')
    (plain : c ∉ ['\\', '"', '\'', '(', '[', '\x7b', ')', ']', '\x7d']) : Passes depth [c] := by
  intro rest
  simp only [List.mem_cons, List.not_mem_nil, or_false, not_or] at plain
  have step : (Scanner.atDepth depth).step .all c = Scanner.atDepth depth := by
    simp [Scanner.step, Scanner.atDepth, Brackets.all, plain]
  rw [List.cons_append, List.nil_append, splitFrom_cons (by simp [notComma]), step]

theorem comma : Passes (depth + 1) [','] := by
  intro rest
  rw [List.cons_append, List.nil_append, splitFrom_cons]
  · rfl
  · simp [Scanner.isIdle, Scanner.atDepth, Scanner.start]

/-- A block is passed over when its inside is. -/
theorem block {opener closer : Char} (opens : opener = '(' ∨ opener = '[')
    (closes : closer = ')' ∨ closer = ']') {inside : List Char}
    (passes : Passes (depth + 1) inside) : Passes depth (opener :: (inside ++ [closer])) := by
  intro rest
  have begin_ : (Scanner.atDepth depth).step .all opener = Scanner.atDepth (depth + 1) := by
    rcases opens with rfl | rfl <;> rfl
  have end_ : (Scanner.atDepth (depth + 1)).step .all closer = Scanner.atDepth depth := by
    rcases closes with rfl | rfl <;> rfl
  have notComma : opener ≠ ',' ∧ closer ≠ ',' := by
    rcases opens with rfl | rfl <;> rcases closes with rfl | rfl <;> decide
  rw [List.cons_append, splitFrom_cons (by simp [notComma.1]), begin_, List.append_assoc, passes,
    List.cons_append, List.nil_append, splitFrom_cons (by simp [notComma.2]), end_, glue_glue,
    glue_glue]
  rfl

end Passes

private theorem passes_singleton {depth : Nat} {c : Char} (selects : isSelectorChar c = true)
    (other : c ∉ ['(', ')', '[', ']', ',']) : Passes depth [c] := by
  apply Passes.char
  · rintro rfl
    exact other (by decide)
  · intro member
    have signs : ∀ sign ∈ ['\\', '"', '\'', '(', '[', '\x7b', ')', ']', '\x7d'],
        isSelectorChar sign = false ∨ sign ∈ ['(', ')', '[', ']', ','] :=
      List.all_iff_forall_prop.1 (by decide)
    rcases signs c member with foreign | sign
    · rw [selects] at foreign
      cases foreign
    · exact other sign

private theorem passes_letter {depth : Nat} {c : Char} (alpha : c.isAlpha = true) :
    Passes depth [c] := by
  apply passes_singleton
  · simp [isSelectorChar, alpha]
  · intro member
    have signs : ∀ sign ∈ ['(', ')', '[', ']', ','], sign.isAlpha = false :=
      List.all_iff_forall_prop.1 (by decide)
    exact ne_of_isAlpha alpha (signs c member) rfl

private theorem passes_word {depth : Nat} {name : Word} (plain : name.IsPlain) :
    Passes depth name.text :=
  property_of_forall Passes.nil (fun _ _ => Passes.append) fun c member =>
    passes_letter (plain c member)

/-- Depths from the given one on. -/
private theorem spreading_passes (least : Nat) :
    Spreading (fun text => ∀ depth, least ≤ depth → Passes depth text)
      (fun text => ∀ depth, 1 ≤ depth → Passes depth text) := by
  constructor
  · intro depth _
    exact Passes.nil
  · intro left right ofLeft ofRight depth bound
    exact (ofLeft depth bound).append (ofRight depth bound)
  · intro c alpha depth _
    exact passes_letter alpha
  · intro c blank depth _
    apply passes_singleton
    · simp [isSelectorChar, blank]
    · intro member
      have signs : ∀ sign ∈ ['(', ')', '[', ']', ','], isBlank sign = false :=
        List.all_iff_forall_prop.1 (by decide)
      exact ne_of_isBlank blank (signs c member) rfl
  · intro c member depth _
    have signs : ∀ sign ∈ ['.', '*', '>', '+', '~'],
        isSelectorChar sign = true ∧ sign ∉ ['(', ')', '[', ']', ','] :=
      List.all_iff_forall_prop.1 (by decide)
    exact passes_singleton (signs c member).1 (signs c member).2
  · intro name plain depth _
    exact (passes_singleton (c := '#') (by decide) (by decide)).append (passes_word plain)
  · intro name plain depth _
    exact Passes.block (Or.inr rfl) (Or.inr rfl) (passes_word plain)
  · intro text passes depth _
    have word : Passes depth [':', 'n', 'o', 't'] := by
      apply property_of_forall Passes.nil fun _ _ => Passes.append
      have signs : ∀ c ∈ [':', 'n', 'o', 't'],
          isSelectorChar c = true ∧ c ∉ ['(', ')', '[', ']', ','] :=
        List.all_iff_forall_prop.1 (by decide)
      intro c member
      exact passes_singleton (signs c member).1 (signs c member).2
    have argument := passes (depth + 1) (Nat.le_add_left _ _)
    exact word.append (Passes.block (Or.inl rfl) (Or.inl rfl) argument)

theorem passes_complex {levels : Nat} {complex : Complex (Argument levels)}
    (plain : complex.IsPlain (Argument.IsPlain levels)) :
    Passes 0 (complex.text (Argument.form levels)) := by
  have comma : ∀ depth, 1 ≤ depth → Passes depth [','] := by
    intro depth positive
    obtain ⟨lower, rfl⟩ := Nat.exists_eq_succ_of_ne_zero (Nat.ne_of_gt positive)
    exact Passes.comma
  exact (spreading_passes 0).complex ((spreading_passes 1).argument comma levels) plain 0
    (Nat.le_refl 0)

private theorem passes_blanks {depth : Nat} (blanks : Blanks) : Passes depth blanks.text :=
  (spreading_passes depth).blanks blanks depth (Nat.le_refl depth)

/-! ## Preludes -/

section Ends

variable {α : Type} (prelude_ : Prelude α) (form : Form α)

theorem Prelude.bareStart : BareStart (prelude_.text form) :=
  (prelude_.first.bareStart form).append _

theorem Prelude.bareEnd : BareEnd (prelude_.text form) := by
  obtain ⟨first, more⟩ := prelude_
  by_cases nonempty : more = []
  · subst nonempty
    rw [Prelude.text, List.flatMap_nil, List.append_nil]
    exact first.bareEnd form
  · rw [Prelude.text, ← List.dropLast_concat_getLast nonempty, List.flatMap_append,
      List.flatMap_singleton]
    exact (((Complex.bareEnd form _).append _).append _).append _

end Ends

/-! ## Entries -/

variable {levels : Nat}

private theorem trim_entry (before after : Blanks) (complex : Complex (Argument levels)) :
    trim (before.text ++ complex.text (Argument.form levels) ++ after.text) =
      complex.text (Argument.form levels) :=
  trim_append_append before.isSpace after.isSpace (complex.bareStart _) (complex.bareEnd _)

private theorem trim_split (before : Blanks) (complex : Complex (Argument levels))
    (more : List (Comma × Complex (Argument levels)))
    (plain : complex.IsPlain (Argument.IsPlain levels))
    (plainMore : ∀ pair ∈ more, pair.2.IsPlain (Argument.IsPlain levels)) :
    (split ',' (before.text ++ complex.text (Argument.form levels) ++
        more.flatMap fun (comma, complex) =>
          comma.text ++ complex.text (Argument.form levels))).map trim =
      complex.text (Argument.form levels) ::
        more.map fun pair => pair.2.text (Argument.form levels) := by
  induction more generalizing before complex with
  | nil =>
      have passes := ((passes_blanks before).append (passes_complex plain)) []
      have trimmed := trim_entry before .none complex
      rw [List.append_nil] at passes
      rw [Blanks.text_none, List.append_nil] at trimmed
      rw [List.flatMap_nil, List.append_nil, split, List.map_nil]
      refine (congrArg (List.map trim) passes).trans ?_
      simp [splitFrom, glue, trimmed]
  | cons pair more inductionHypothesis =>
      obtain ⟨comma, second⟩ := pair
      have passes := ((passes_blanks before).append (passes_complex plain)).append
        (passes_blanks comma.before)
      have later := inductionHypothesis comma.after second (plainMore _ List.mem_cons_self)
        fun pair member => plainMore pair (List.mem_cons_of_mem _ member)
      have joined : before.text ++ complex.text (Argument.form levels) ++
            ((comma, second) :: more).flatMap (fun (comma, complex) =>
              comma.text ++ complex.text (Argument.form levels)) =
          (before.text ++ complex.text (Argument.form levels) ++ comma.before.text) ++
            ',' :: (comma.after.text ++ second.text (Argument.form levels) ++
              more.flatMap fun (comma, complex) =>
                comma.text ++ complex.text (Argument.form levels)) := by
        simp [Comma.text]
      have idle : splitFrom ',' (Scanner.atDepth 0) = split ',' := rfl
      have here : ∀ rest, splitFrom ',' (Scanner.atDepth 0) (',' :: rest) =
          [] :: split ',' rest := fun rest => rfl
      rw [joined, ← idle, passes, here, glue, List.map_cons, List.append_nil, trim_entry, later,
        List.map_cons]

/-- The entries of a plain prelude are the texts of its complex selectors. -/
theorem entries_prelude {prelude_ : Prelude (Argument levels)}
    (plain : prelude_.IsPlain (Argument.IsPlain levels)) :
    entries (prelude_.text (Argument.form levels)) =
      prelude_.complexes.map (Complex.text (Argument.form levels)) := by
  obtain ⟨first, more⟩ := prelude_
  have parts := trim_split .none first more (plain first List.mem_cons_self)
    fun pair member => plain pair.2 (List.mem_cons_of_mem _ (List.mem_map_of_mem member))
  rw [Blanks.text_none, List.nil_append] at parts
  rw [entries, Prelude.text, parts, Prelude.complexes, List.map_cons, List.map_map]
  apply List.filter_eq_self.2
  intro entry member
  have written : ∃ complex : Complex (Argument levels),
      entry = complex.text (Argument.form levels) := by
    rcases List.mem_cons.1 member with rfl | later
    · exact ⟨first, rfl⟩
    · obtain ⟨pair, _, rfl⟩ := List.mem_map.1 later
      exact ⟨pair.2, rfl⟩
  obtain ⟨complex, rfl⟩ := written
  obtain ⟨c, more, same, _⟩ := complex.exists_cons (Argument.form levels)
  rw [same]
  rfl

end CssLint.Selector.Written
