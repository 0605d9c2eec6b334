import CssLint.Proofs.Selector.PlainEntries
import CssLint.Proofs.Text.Places
import CssLint.Proofs.Text.Trim

/-!
# Places of entries

The parts of a text between its separators, joined again, are the text.  So every entry of
a selector list has a place in it: behind the parts in front, their commas and the white
space of its own part.
-/

namespace CssLint.Selector

open Text Written

/-! ## Parts -/

theorem intercalate_glue (separator text : List Char) (parts : List (List Char)) :
    separator.intercalate (glue text parts) = text ++ separator.intercalate parts := by
  cases parts with
  | nil => simp [glue]
  | cons part parts =>
      cases parts with
      | nil => simp [glue]
      | cons second parts => simp [glue]

theorem intercalate_splitFrom (separator : Char) (scanner : Scanner) (text : List Char) :
    [separator].intercalate (splitFrom separator scanner text) = text := by
  induction text generalizing scanner with
  | nil => rfl
  | cons c text inductionHypothesis =>
      cases cuts : scanner.isIdle && decide (c = separator) with
      | true =>
          obtain rfl : c = separator := of_decide_eq_true (Bool.and_eq_true_iff.1 cuts).2
          rw [splitFrom, cuts, if_pos rfl,
            List.intercalate_cons_of_ne_nil (splitFrom_ne_nil c _ text), inductionHypothesis]
          rfl
      | false =>
          rw [splitFrom_cons cuts, intercalate_glue, inductionHypothesis]
          rfl

/-! ## Entries -/

/-- An entry of a selector list, and the byte of the list at which it begins. -/
structure PlacedEntry where
  offset : Nat
  text : List Char
deriving DecidableEq

/-- The trimmed parts of a text with their places, where the first part begins at byte `start`. -/
def placeParts (start : Nat) : List (List Char) → List PlacedEntry
  | [] => []
  | part :: parts =>
    ⟨start + byteCount (part.takeWhile isSpace), trim part⟩ ::
      placeParts (start + byteCount part + 1) parts

/-- The entries of a selector list with their places. -/
def placedEntries (text : List Char) : List PlacedEntry :=
  (placeParts 0 (split ',' text)).filter fun entry => !entry.text.isEmpty

private theorem map_text_placeParts (start : Nat) (parts : List (List Char)) :
    (placeParts start parts).map PlacedEntry.text = parts.map trim := by
  induction parts generalizing start with
  | nil => rfl
  | cons part parts inductionHypothesis =>
      rw [placeParts, List.map_cons, inductionHypothesis, List.map_cons]

theorem map_text_placedEntries (text : List Char) :
    (placedEntries text).map PlacedEntry.text = entries text := by
  rw [placedEntries, entries, ← map_text_placeParts 0, List.filter_map]
  rfl

/-- The trimmed part stands behind the white space that it begins with. -/
theorem exists_trim_behind (part : List Char) :
    ∃ late, part = part.takeWhile isSpace ++ (trim part ++ late) := by
  obtain ⟨-, late, -, trimmed, -⟩ := exists_trim part
  refine ⟨late, ?_⟩
  rw [← trimmed, trimStart, List.takeWhile_append_dropWhile]

private theorem exists_split_of_mem_placeParts {start : Nat} {parts : List (List Char)}
    {entry : PlacedEntry} (member : entry ∈ placeParts start parts) :
    ∃ front back, [','].intercalate parts = front ++ (entry.text ++ back) ∧
      start + byteCount front = entry.offset := by
  induction parts generalizing start with
  | nil => cases member
  | cons part parts inductionHypothesis =>
      rcases List.mem_cons.1 member with rfl | later
      · obtain ⟨late, whole⟩ := exists_trim_behind part
        have joined : ∃ more, [','].intercalate (part :: parts) = part ++ more := by
          cases parts with
          | nil => exact ⟨[], by simp⟩
          | cons second parts => exact ⟨',' :: [','].intercalate (second :: parts), by simp⟩
        obtain ⟨more, joined⟩ := joined
        refine ⟨part.takeWhile isSpace, late ++ more, ?_, rfl⟩
        conv => lhs; rw [joined, whole]
        simp only [List.append_assoc]
      · obtain ⟨front, back, joined, size⟩ := inductionHypothesis later
        have some : parts ≠ [] := by
          rintro rfl
          cases later
        refine ⟨part ++ ',' :: front, back, ?_, ?_⟩
        · rw [List.intercalate_cons_of_ne_nil some, joined]
          simp
        · rw [← size, byteCount_append, byteCount_cons]
          have comma : (',' : Char).utf8Size = 1 := rfl
          omega

/-- An entry stands in its list at its place. -/
theorem occursAt_of_mem_placedEntries {text : List Char} {entry : PlacedEntry}
    (member : entry ∈ placedEntries text) :
    entry.text ≠ [] ∧ OccursAt entry.text text entry.offset := by
  obtain ⟨inside, some⟩ := List.mem_filter.1 member
  obtain ⟨front, back, joined, size⟩ := exists_split_of_mem_placeParts inside
  refine ⟨by simpa using some, front, back, ?_, (Nat.zero_add _).symm.trans size⟩
  rw [← joined, split, intercalate_splitFrom]

end CssLint.Selector
