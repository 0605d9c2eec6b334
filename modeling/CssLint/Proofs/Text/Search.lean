import CssLint.Proofs.Text.Places
import CssLint.Text.Search

/-!
# First occurrences

The search for a word finds its first occurrence.  So a word that occurs in a part of a
text is found in this part, unless an occurrence begins in front of it.
-/

namespace CssLint.Text

theorem occursAt_of_find? {word text : List Char} {index : Nat}
    (found : find? word text = some index) : OccursAt word text index := by
  induction text generalizing index with
  | nil =>
      cases word with
      | nil =>
          cases found
          exact ⟨[], [], rfl, rfl⟩
      | cons c word => cases found
  | cons c text inductionHypothesis =>
      rw [find?] at found
      split at found
      · rename_i begins
        obtain ⟨back, whole⟩ := List.isPrefixOf_iff_prefix.1 begins
        cases found
        exact ⟨[], back, whole.symm, rfl⟩
      · obtain ⟨later, foundLater, rfl⟩ := Option.map_eq_some_iff.1 found
        obtain ⟨front, back, rfl, rfl⟩ := inductionHypothesis foundLater
        exact ⟨c :: front, back, rfl, byteCount_cons c front⟩

theorem find?_le {word text : List Char} {index : Nat} (found : find? word text = some index) :
    index ≤ byteCount text :=
  (occursAt_of_find? found).onBoundary.le

/-- No occurrence begins in front of the one that is found. -/
theorem find?_append_le (front word back : List Char) :
    ∃ index, find? word (front ++ (word ++ back)) = some index ∧ index ≤ byteCount front := by
  induction front with
  | nil =>
      refine ⟨0, ?_, Nat.le_refl _⟩
      have begins : word.isPrefixOf (word ++ back) = true :=
        List.isPrefixOf_iff_prefix.2 (List.prefix_append word back)
      rw [List.nil_append]
      cases text : word ++ back with
      | nil =>
          rw [(List.append_eq_nil_iff.1 text).1]
          rfl
      | cons c more =>
          rw [text] at begins
          rw [find?, begins, if_pos rfl]
  | cons c front inductionHypothesis =>
      obtain ⟨index, found, least⟩ := inductionHypothesis
      rw [List.cons_append, find?, found, byteCount_cons]
      split
      · exact ⟨0, rfl, Nat.zero_le _⟩
      · exact ⟨c.utf8Size + index, rfl, Nat.add_le_add_left least _⟩

/-- An occurrence of the word begins in front of the byte. -/
def OccursBefore (word text : List Char) (offset : Nat) : Prop :=
  ∃ index, index < offset ∧ OccursAt word text index

theorem occursBefore_iff {word text : List Char} {offset : Nat} :
    OccursBefore word text offset ↔ ∃ index ∈ find? word text, index < offset := by
  constructor
  · rintro ⟨_, before, front, back, rfl, rfl⟩
    obtain ⟨index, found, least⟩ := find?_append_le front word back
    exact ⟨index, found, Nat.lt_of_le_of_lt least before⟩
  · rintro ⟨index, found, before⟩
    exact ⟨index, before, occursAt_of_find? found⟩

instance (word text : List Char) (offset : Nat) : Decidable (OccursBefore word text offset) :=
  decidable_of_iff _ occursBefore_iff.symm

/-- A word of a part is found at the end of the part at the latest, and in front of the part just
when it occurs there. -/
theorem find?_of_isInfix {word part : List Char} (inside : word <:+: part)
    (front back : List Char) :
    ∃ index, find? word (front ++ (part ++ back)) = some index ∧
      index + byteCount word ≤ byteCount front + byteCount part ∧
      (index < byteCount front ↔
        OccursBefore word (front ++ (part ++ back)) (byteCount front)) := by
  obtain ⟨left, right, rfl⟩ := inside
  have whole : front ++ (left ++ word ++ right ++ back) =
      front ++ left ++ (word ++ (right ++ back)) := by
    simp
  obtain ⟨index, found, least⟩ := find?_append_le (front ++ left) word (right ++ back)
  rw [← whole] at found
  refine ⟨index, found, ?_, ?_⟩
  · simp only [byteCount_append] at least ⊢
    omega
  · rw [occursBefore_iff, found]
    simp

end CssLint.Text
