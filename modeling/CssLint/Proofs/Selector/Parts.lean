import CssLint.Proofs.Selector.EntryPlaces

/-!
# Parts of a text and their join

Dividing a text at its commas and joining texts with commas undo each other.  What can be
joined are texts without a comma of their own that leave nothing open, neither a string nor
an escape nor a bracket; only the last text may.  White space at the ends of a part can be
left out without dividing the part, so an entry of a selector list is its own only entry.
-/

namespace CssLint.Selector

open Text Written

/-! ## Texts behind each other -/

/-- The last part of a text is continued by the text that follows it. -/
theorem exists_splitFrom_append (separator : Char) (scanner : Scanner) (left : List Char) :
    ∃ front last, splitFrom separator scanner left = front ++ [last] ∧
      ∀ right, splitFrom separator scanner (left ++ right) =
        front ++ glue last (splitFrom separator (scanner.scan .all left) right) := by
  induction left generalizing scanner with
  | nil => exact ⟨[], [], rfl, fun right => (glue_nil (splitFrom_ne_nil _ _ _)).symm⟩
  | cons c left inductionHypothesis =>
      obtain ⟨front, last, parts, joined⟩ := inductionHypothesis (scanner.step .all c)
      cases cuts : scanner.isIdle && decide (c = separator) with
      | true =>
          refine ⟨[] :: front, last, ?_, fun right => ?_⟩
          · rw [splitFrom, if_pos cuts, parts]
            rfl
          · rw [List.cons_append, splitFrom, if_pos cuts, joined]
            rfl
      | false =>
          cases front with
          | nil =>
              refine ⟨[], c :: last, ?_, fun right => ?_⟩
              · rw [splitFrom_cons cuts, parts]
                rfl
              · rw [List.cons_append, splitFrom_cons cuts, joined]
                exact glue_glue [c] last _
          | cons first front =>
              refine ⟨(c :: first) :: front, last, ?_, fun right => ?_⟩
              · rw [splitFrom_cons cuts, parts]
                rfl
              · rw [List.cons_append, splitFrom_cons cuts, joined]
                rfl

theorem splitFrom_append_of_single {separator : Char} {scanner : Scanner} {left : List Char}
    (single : splitFrom separator scanner left = [left]) (right : List Char) :
    splitFrom separator scanner (left ++ right) =
      glue left (splitFrom separator (scanner.scan .all left) right) := by
  obtain ⟨front, last, parts, joined⟩ := exists_splitFrom_append separator scanner left
  rw [single] at parts
  cases front with
  | nil =>
      cases parts
      exact joined right
  | cons first front => simp at parts

/-- Where a text is one part, so is its front. -/
theorem splitFrom_eq_singleton_of_append {separator : Char} {scanner : Scanner}
    {left right : List Char}
    (single : splitFrom separator scanner (left ++ right) = [left ++ right]) :
    splitFrom separator scanner left = [left] := by
  obtain ⟨front, last, parts, joined⟩ := exists_splitFrom_append separator scanner left
  have whole := intercalate_splitFrom separator scanner left
  rw [joined right] at single
  cases front with
  | nil =>
      rw [List.nil_append] at parts
      rw [parts, List.intercalate_singleton] at whole
      rw [parts, whole]
  | cons first front =>
      have count := congrArg List.length single
      cases later : splitFrom separator (scanner.scan .all left) right with
      | nil => exact absurd later (splitFrom_ne_nil _ _ _)
      | cons part parts =>
          rw [later] at count
          simp [glue] at count

/-! ## Parts -/

/-- Texts that are one part each, the first behind the scanner, and leave nothing open but for the
last. -/
inductive AreParts : Scanner → List (List Char) → Prop
  | last {scanner : Scanner} {part : List Char}
      (single : splitFrom ',' scanner part = [part]) : AreParts scanner [part]
  | cons {scanner : Scanner} {part : List Char} {parts : List (List Char)}
      (single : splitFrom ',' scanner part = [part]) (closed : scanner.scan .all part = .start)
      (later : AreParts .start parts) : AreParts scanner (part :: parts)

namespace AreParts

variable {scanner : Scanner} {parts : List (List Char)}

theorem ne_nil (areParts : AreParts scanner parts) : parts ≠ [] := by
  cases areParts <;> simp

theorem glue_cons {c : Char} (stays : (scanner.isIdle && c = ',') = false)
    (areParts : AreParts (scanner.step .all c) parts) :
    AreParts scanner (glue [c] parts) := by
  cases areParts with
  | last single =>
      refine .last ?_
      rw [List.singleton_append, splitFrom_cons stays, single]
      rfl
  | cons single closed later =>
      refine .cons ?_ closed later
      rw [List.singleton_append, splitFrom_cons stays, single]
      rfl

theorem splitFrom (scanner : Scanner) (text : List Char) :
    AreParts scanner (splitFrom ',' scanner text) := by
  induction text generalizing scanner with
  | nil => exact .last rfl
  | cons c text inductionHypothesis =>
      cases cuts : scanner.isIdle && decide (c = ',') with
      | true =>
          obtain ⟨idle, comma⟩ := Bool.and_eq_true_iff.1 cuts
          obtain rfl : scanner = .start := eq_of_beq idle
          obtain rfl : c = ',' := of_decide_eq_true comma
          rw [Selector.splitFrom, if_pos cuts]
          exact .cons rfl rfl (inductionHypothesis .start)
      | false =>
          rw [splitFrom_cons cuts]
          exact glue_cons cuts (inductionHypothesis _)

theorem splitFrom_intercalate (areParts : AreParts scanner parts) :
    Selector.splitFrom ',' scanner ([','].intercalate parts) = parts := by
  induction areParts with
  | last single => rw [List.intercalate_singleton, single]
  | @cons scanner part parts single closed later inductionHypothesis =>
      have comma : Selector.splitFrom ',' .start (',' :: [','].intercalate parts) = [] :: parts :=
        congrArg ([] :: ·) inductionHypothesis
      rw [List.intercalate_cons_of_ne_nil later.ne_nil, List.append_assoc, List.singleton_append,
        splitFrom_append_of_single single, closed, comma]
      simp [glue]

theorem iff_forall :
    AreParts .start parts ↔ parts ≠ [] ∧ (∀ part ∈ parts, split ',' part = [part]) ∧
      ∀ part ∈ parts.dropLast, Scanner.scan .all .start part = .start := by
  induction parts with
  | nil =>
      refine iff_of_false (fun areParts => areParts.ne_nil rfl) fun ⟨nonempty, _⟩ => nonempty rfl
  | cons part parts inductionHypothesis =>
      cases parts with
      | nil =>
          constructor
          · intro areParts
            cases areParts with
            | last single =>
                exact ⟨List.cons_ne_nil _ _, List.forall_mem_singleton.2 single,
                  fun _ member => absurd member List.not_mem_nil⟩
            | cons _ _ later => exact absurd rfl later.ne_nil
          · intro ⟨_, single, _⟩
            exact .last (single part List.mem_cons_self)
      | cons second parts =>
          rw [List.dropLast_cons_cons]
          constructor
          · intro areParts
            cases areParts with
            | cons single closed later =>
                obtain ⟨_, singles, allClosed⟩ := inductionHypothesis.1 later
                exact ⟨List.cons_ne_nil _ _, List.forall_mem_cons.2 ⟨single, singles⟩,
                  List.forall_mem_cons.2 ⟨closed, allClosed⟩⟩
          · intro ⟨_, singles, allClosed⟩
            obtain ⟨single, singles⟩ := List.forall_mem_cons.1 singles
            obtain ⟨closed, allClosed⟩ := List.forall_mem_cons.1 allClosed
            exact .cons single closed
              (inductionHypothesis.2 ⟨List.cons_ne_nil _ _, singles, allClosed⟩)

end AreParts

/-! ## Entries -/

/-- In front of everything else, white space is passed over. -/
theorem passes_of_isSpace {space : List Char} (blank : ∀ c ∈ space, isSpace c = true) :
    Passes 0 space := by
  have signs : ∀ sign ∈ [',', '\\', '"', '\'', '(', '[', '\x7b', ')', ']', '\x7d'],
      isSpace sign = false := List.all_iff_forall_prop.1 (by decide)
  refine property_of_forall Passes.nil (fun _ _ => Passes.append) fun c member => ?_
  have notSign : c ∉ [',', '\\', '"', '\'', '(', '[', '\x7b', ')', ']', '\x7d'] := by
    intro sign
    exact Bool.false_ne_true ((signs c sign).symm.trans (blank c member))
  rw [List.mem_cons, not_or] at notSign
  exact Passes.char notSign.1 notSign.2

theorem split_trim {part : List Char} (single : split ',' part = [part]) :
    split ',' (trim part) = [trim part] := by
  obtain ⟨early, late, whole, _, blank, _⟩ := exists_trim part
  have passed : split ',' (early ++ (trim part ++ late)) =
      glue early (split ',' (trim part ++ late)) := passes_of_isSpace blank _
  rw [← whole, single] at passed
  have behind : split ',' (trim part ++ late) = [trim part ++ late] := by
    cases parts : split ',' (trim part ++ late) with
    | nil => exact absurd parts (splitFrom_ne_nil _ _ _)
    | cons first parts =>
        rw [parts, glue, whole, List.cons.injEq, List.append_cancel_left_eq] at passed
        rw [← passed.1, ← passed.2]
  exact splitFrom_eq_singleton_of_append behind

/-- Dividing at commas and joining with commas undo each other, on all texts and on those lists whose
parts are not divided and leave nothing open but for the last. An entry of a selector list is its own
only entry. -/
theorem split_and_intercalate :
    (∀ text, [','].intercalate (split ',' text) = text ∧
        (∀ part ∈ split ',' text, split ',' part = [part]) ∧
        ∀ part ∈ (split ',' text).dropLast, Scanner.scan .all .start part = ⟨none, false, 0⟩) ∧
      (∀ parts, parts ≠ [] → (∀ part ∈ parts, split ',' part = [part]) →
        (∀ part ∈ parts.dropLast, Scanner.scan .all .start part = ⟨none, false, 0⟩) →
        split ',' ([','].intercalate parts) = parts) ∧
      ∀ text, ∀ entry ∈ entries text, entries entry = [entry] := by
  refine ⟨fun text => ?_, fun parts nonempty singles closed => ?_, fun text entry member => ?_⟩
  · obtain ⟨_, singles, closed⟩ := AreParts.iff_forall.1 (AreParts.splitFrom .start text)
    exact ⟨intercalate_splitFrom ',' .start text, singles, closed⟩
  · exact (AreParts.iff_forall.2 ⟨nonempty, singles, closed⟩).splitFrom_intercalate
  · obtain ⟨_, singles, _⟩ := AreParts.iff_forall.1 (AreParts.splitFrom .start text)
    rw [entries, List.mem_filter, List.mem_map] at member
    obtain ⟨⟨part, ofText, rfl⟩, some⟩ := member
    rw [entries, split_trim (singles part ofText), List.map_singleton, trim_trim]
    exact List.filter_eq_self.2 (List.forall_mem_singleton.2 some)

/-- Commas that are escaped, in a string or in brackets do not divide, nor does one behind a bracket
that the last text leaves open; a part may be empty. -/
theorem split_and_intercalate_leftOpen :
    let parts := [" a\\,b".toList, [], "[c=\",]\"] ".toList, ")(,".toList]
    (∀ part ∈ parts, split ',' part = [part]) ∧
      (∀ part ∈ parts.dropLast, Scanner.scan .all .start part = ⟨none, false, 0⟩) ∧
      split ',' " a\\,b,,[c=\",]\"] ,)(,".toList = parts ∧
      entries "[c=\",]\"]".toList = ["[c=\",]\"]".toList] := by
  intro parts
  obtain ⟨_, joined, own⟩ := split_and_intercalate
  have singles : ∀ part ∈ parts, split ',' part = [part] := by decide +kernel
  have closed : ∀ part ∈ parts.dropLast, Scanner.scan .all .start part = ⟨none, false, 0⟩ := by
    decide +kernel
  refine ⟨singles, closed, joined parts (List.cons_ne_nil _ _) singles closed, ?_⟩
  exact own " a\\,b,,[c=\",]\"] ,)(,".toList _ (by decide +kernel)

end CssLint.Selector
