import CssLint.Proofs.Selector.ChangeText
import CssLint.Proofs.Text.Places
import CssLint.Text.Position

/-!
# Line feeds with carriage returns

A text without carriage returns gets one in front of every line feed.  Words of the text
are found in the longer text at the places that stand for theirs, and lines and columns
of these places are the same, for the two characters end one line together.
-/

namespace CssLint

open Text Selector

namespace Selector.Change

variable {change : Change} {source : List Char}

/-- The place of the changed source that stands for a place of the source. -/
def Moves (change : Change) (source : List Char) (place changed : Nat) : Prop :=
  ∃ front back, source = front ++ back ∧ byteCount front = place ∧
    byteCount (change.expand front) = changed

theorem byteCount_expand_eq_zero {text : List Char} :
    byteCount (change.expand text) = 0 ↔ text = [] := by
  constructor
  · intro nothing
    have empty := change.isEmpty_expand text
    rw [byteCount_eq_zero nothing, List.isEmpty_nil] at empty
    exact List.isEmpty_iff.1 empty.symm
  · rintro rfl
    rfl

theorem Moves.le_iff {place changed other otherChanged : Nat}
    (first : change.Moves source place changed)
    (second : change.Moves source other otherChanged) : changed ≤ otherChanged ↔ place ≤ other := by
  obtain ⟨front, back, rfl, rfl, rfl⟩ := first
  obtain ⟨longer, rest, same, rfl, rfl⟩ := second
  rcases List.append_eq_append_iff.1 same with ⟨middle, rfl, -⟩ | ⟨middle, rfl, -⟩
  · simp only [change.expand_append, byteCount_append]
    exact iff_of_true (Nat.le_add_right _ _) (Nat.le_add_right _ _)
  · have none : byteCount (change.expand middle) = 0 ↔ byteCount middle = 0 :=
      byteCount_expand_eq_zero.trans ⟨fun empty => by rw [empty]; rfl, byteCount_eq_zero⟩
    simp only [change.expand_append, byteCount_append]
    omega

theorem Moves.eq_iff {place changed other otherChanged : Nat}
    (first : change.Moves source place changed)
    (second : change.Moves source other otherChanged) : changed = otherChanged ↔ place = other := by
  have forward := first.le_iff second
  have backward := second.le_iff first
  omega

/-- What stands between two places is changed like any text. -/
theorem Moves.exists_slice {start changed stop otherChanged : Nat}
    (first : change.Moves source start changed)
    (second : change.Moves source stop otherChanged) :
    ∃ left middle right, source = left ++ (middle ++ right) ∧ byteCount left = start ∧
      byteCount (change.expand left) = changed ∧ slice source start stop = middle ∧
      slice (change.expand source) changed otherChanged = change.expand middle := by
  obtain ⟨front, back, rfl, rfl, rfl⟩ := first
  obtain ⟨longer, rest, same, rfl, rfl⟩ := second
  rcases List.append_eq_append_iff.1 same with ⟨middle, rfl, rfl⟩ | ⟨middle, rfl, -⟩
  · refine ⟨front, middle, rest, rfl, rfl, rfl, ?_, ?_⟩
    · rw [byteCount_append, slice_part]
    · simp only [change.expand_append, byteCount_append, slice_part]
  · have nothing : ∀ {text : List Char} {start stop : Nat}, stop ≤ start →
        slice text start stop = [] := by
      intro text start stop behind
      rw [slice, Nat.sub_eq_zero_of_le behind]
      cases dropBytes start text <;> rfl
    refine ⟨longer ++ middle, [], back, rfl, rfl, rfl, nothing ?_, ?_⟩
    · rw [byteCount_append]
      exact Nat.le_add_right _ _
    · refine nothing ?_
      rw [change.expand_append, byteCount_append]
      exact Nat.le_add_right _ _

end Selector.Change

/-- Every line feed becomes a carriage return and a line feed. -/
def lineEnds : Change :=
  ⟨['\r', '\n'], [], Or.inr rfl, fun _ member => absurd member (Option.not_mem_none _)⟩

theorem expand_feed_cons (text : List Char) :
    lineEnds.expand ('\n' :: text) = '\r' :: '\n' :: lineEnds.expand text :=
  lineEnds.expand_append ['\n'] text

theorem expand_cons {c : Char} (noFeed : c ≠ '\n') (text : List Char) :
    lineEnds.expand (c :: text) = c :: lineEnds.expand text := by
  have own := lineEnds.expand_append [c] text
  rwa [lineEnds.expand_singleton noFeed] at own

/-! ## Words -/

private theorem isPrefixOf_expand {word text : List Char} (plainWord : '\r' ∉ word)
    (plain : '\r' ∉ text) :
    (lineEnds.expand word).isPrefixOf (lineEnds.expand text) = word.isPrefixOf text := by
  induction word generalizing text with
  | nil => rfl
  | cons c word inductionHypothesis =>
      rw [List.mem_cons, not_or] at plainWord
      cases text with
      | nil =>
          by_cases feed : c = '\n'
          · rw [feed, expand_feed_cons]
            rfl
          · rw [expand_cons feed]
            rfl
      | cons d text =>
          rw [List.mem_cons, not_or] at plain
          have later := inductionHypothesis plainWord.2 plain.2
          by_cases feed : c = '\n'
          · by_cases same : d = '\n'
            · rw [feed, same, expand_feed_cons, expand_feed_cons]
              simpa [List.isPrefixOf] using later
            · rw [feed, expand_feed_cons, expand_cons same, List.isPrefixOf, List.isPrefixOf,
                beq_false_of_ne plain.1, beq_false_of_ne (Ne.symm same), Bool.false_and,
                Bool.false_and]
          · by_cases same : d = '\n'
            · rw [same, expand_cons feed, expand_feed_cons, List.isPrefixOf, List.isPrefixOf,
                beq_false_of_ne (Ne.symm plainWord.1), beq_false_of_ne feed, Bool.false_and,
                Bool.false_and]
            · rw [expand_cons feed, expand_cons same, List.isPrefixOf, later, List.isPrefixOf]

/-- Between the two characters that stand for a line feed no word begins. -/
private theorem isPrefixOf_feed {word : List Char} (some : word ≠ []) (text : List Char) :
    (lineEnds.expand word).isPrefixOf ('\n' :: text) = false := by
  cases word with
  | nil => exact absurd rfl some
  | cons c word =>
      by_cases feed : c = '\n'
      · rw [feed, expand_feed_cons]
        rfl
      · rw [expand_cons feed, List.isPrefixOf, beq_false_of_ne feed, Bool.false_and]

private theorem rel_cons {c : Char} {text : List Char} {found changed : Option Nat}
    (later : Option.Rel (lineEnds.Moves text) found changed) {behind : Nat → Nat}
    (size : ∀ place, behind place = byteCount (lineEnds.expand [c]) + place) :
    Option.Rel (lineEnds.Moves (c :: text)) (found.map (c.utf8Size + ·)) (changed.map behind) := by
  cases later with
  | none => exact .none
  | some moves =>
      obtain ⟨front, back, rfl, rfl, rfl⟩ := moves
      refine .some ⟨c :: front, back, rfl, byteCount_cons c front, ?_⟩
      rw [size, ← byteCount_append, ← lineEnds.expand_append]
      rfl

/-- A word is found in the longer text at the place that stands for its place. -/
theorem find?_expand {word text : List Char} (some : word ≠ []) (plainWord : '\r' ∉ word)
    (plain : '\r' ∉ text) :
    Option.Rel (lineEnds.Moves text) (find? word text)
      (find? (lineEnds.expand word) (lineEnds.expand text)) := by
  have someExpand : (lineEnds.expand word).isEmpty = false := by
    rw [lineEnds.isEmpty_expand]
    exact List.isEmpty_eq_false_iff.2 some
  induction text with
  | nil =>
      rw [lineEnds.expand_nil, find?, find?, someExpand, List.isEmpty_eq_false_iff.2 some]
      exact .none
  | cons c text inductionHypothesis =>
      have later := inductionHypothesis fun member => plain (List.mem_cons_of_mem c member)
      have begins := isPrefixOf_expand plainWord plain
      have atStart : lineEnds.Moves (c :: text) 0 0 := ⟨[], c :: text, rfl, rfl, rfl⟩
      rw [find?]
      by_cases feed : c = '\n'
      · rw [feed] at begins atStart ⊢
        rw [expand_feed_cons] at begins ⊢
        rw [find?, begins, find?, isPrefixOf_feed some, if_neg Bool.false_ne_true]
        split
        · exact .some atStart
        · rw [Option.map_map]
          exact rel_cons later fun place => Nat.add_assoc .. |>.symm
      · rw [expand_cons feed] at begins ⊢
        rw [find?, begins]
        split
        · exact .some atStart
        · refine rel_cons later fun place => ?_
          rw [lineEnds.expand_singleton feed, byteCount_cons, byteCount_nil, Nat.add_zero]

/-! ## Lines and columns -/

/-- The place that stands for a place of the text has the same line and column. -/
theorem ofOffset_expand {source : List Char} (plain : '\r' ∉ source) {place changed : Nat}
    (moves : lineEnds.Moves source place changed) :
    Position.ofOffset (lineEnds.expand source) changed = Position.ofOffset source place := by
  obtain ⟨front, back, rfl, rfl, rfl⟩ := moves
  rw [Position.ofOffset, Position.ofOffset, lineEnds.expand_append]
  generalize Position.start = place
  induction front generalizing place with
  | nil => exact (Position.advance_zero place _).trans (Position.advance_zero place _).symm
  | cons c front inductionHypothesis =>
      rw [List.cons_append, List.mem_cons, not_or] at plain
      have later := fun place => inductionHypothesis plain.2 place
      by_cases feed : c = '\n'
      · have feeds : ∀ rest, place.next '\n' rest = ⟨place.line + 1, 1⟩ := fun _ => rfl
        -- The carriage return only moves the column, which the line feed sets back.
        have returns : ∀ rest, (place.next '\r' ('\n' :: rest)).next '\n' rest =
            ⟨place.line + 1, 1⟩ := fun _ => rfl
        rw [feed, expand_feed_cons, List.cons_append, List.cons_append, List.cons_append,
          byteCount_cons, byteCount_cons, byteCount_cons, Position.advance_cons, Position.advance_cons,
          Position.advance_cons, returns, feeds]
        exact later _
      · have step : ∀ text, place.next c text = ⟨place.line, place.column + 1⟩ := by
          intro text
          simp [Position.next, feed, Ne.symm plain.1]
        rw [expand_cons feed, List.cons_append, List.cons_append, byteCount_cons, byteCount_cons,
          Position.advance_cons, Position.advance_cons, step, step]
        exact later _

end CssLint
