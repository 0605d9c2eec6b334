import CssLint.Text.Bytes

/-!
Finding words in a text.

Each search gives a part of the text it searched, and for each there is a lemma
that bounds the length of that part.
-/

namespace CssLint.Text

/-! ## At the beginning -/

/-- The text behind `word`, if the text begins with it. -/
def after? : List Char → List Char → Option (List Char)
  | [], text => some text
  | _ :: _, [] => none
  | expected :: word, c :: text => if expected = c then after? word text else none

theorem eq_append_of_after? {word text rest : List Char} (found : after? word text = some rest) :
    text = word ++ rest := by
  induction word generalizing text with
  | nil => cases found; rfl
  | cons expected word inductionHypothesis =>
      cases text with
      | nil => cases found
      | cons c text =>
          simp only [after?] at found
          split at found
          · rename_i same
            rw [inductionHypothesis found, same]
            rfl
          · cases found

theorem length_of_after? {word text rest : List Char} (found : after? word text = some rest) :
    text.length = word.length + rest.length := by
  rw [eq_append_of_after? found, List.length_append]

theorem length_lt_of_after? {c : Char} {word text rest : List Char}
    (found : after? (c :: word) text = some rest) : rest.length < text.length := by
  rw [length_of_after? found, List.length_cons]
  omega

/-! ## Anywhere -/

/-- The text behind the first occurrence of `word`. -/
def behind? (word : List Char) : List Char → Option (List Char)
  | [] => after? word []
  | c :: text => (after? word (c :: text)).or (behind? word text)

theorem length_le_of_behind? {word text rest : List Char} (found : behind? word text = some rest) :
    rest.length ≤ text.length := by
  induction text with
  | nil =>
      rw [length_of_after? found]
      exact Nat.le_add_left ..
  | cons c text inductionHypothesis =>
      rw [behind?, Option.or_eq_some_iff] at found
      rcases found with here | ⟨_, later⟩
      · rw [length_of_after? here]
        exact Nat.le_add_left ..
      · exact Nat.le_succ_of_le (inductionHypothesis later)

/-- The byte offset of the first occurrence of `word` in the text. -/
def find? (word : List Char) : List Char → Option Nat
  | [] => if word.isEmpty then some 0 else none
  | c :: text =>
    if word.isPrefixOf (c :: text) then some 0 else (find? word text).map (c.utf8Size + ·)

theorem find?_nil (text : List Char) : find? [] text = some 0 := by
  cases text <;> rfl

def contains (word text : List Char) : Bool :=
  (find? word text).isSome

/-- The text in front of the first occurrence of `c`, and the text behind it. -/
def splitAt? (c : Char) : List Char → Option (List Char × List Char)
  | [] => none
  | first :: text =>
    if first = c then some ([], text)
    else (splitAt? c text).map fun (left, right) => (first :: left, right)

end CssLint.Text
