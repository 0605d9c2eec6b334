import CssLint.Proofs.Text.Places
import Mathlib.Data.List.Induction

/-!
# Lines and columns of boundaries

The line of a boundary counts the line breaks that end up to it, and its column the
characters between the last of these breaks and the boundary.  Each character moves the
place behind it to a later line, or to a later column of the same line, so no two
boundaries share a place.
-/

namespace CssLint.Text

/-! ## Line breaks and characters -/

/-- A line ends behind the character, when it stands in front of the text. -/
def EndsLine (c : Char) (text : List Char) : Prop :=
  c = '\n' ∨ c = '\r' ∧ text.head? ≠ some '\n'

instance (c : Char) (text : List Char) : Decidable (EndsLine c text) :=
  inferInstanceAs (Decidable (_ ∨ _))

/-- The bytes at which the line breaks of a text end, where the text begins at byte `start`. -/
def breakEndsFrom (start : Nat) : List Char → List Nat
  | [] => []
  | c :: text =>
    (if EndsLine c text then [start + c.utf8Size] else []) ++
      breakEndsFrom (start + c.utf8Size) text

/-- The bytes at which the characters of a text begin, where the text begins at byte `start`. -/
def charStartsFrom (start : Nat) : List Char → List Nat
  | [] => []
  | c :: text => start :: charStartsFrom (start + c.utf8Size) text

/-- The ends of the line breaks that end up to the offset. -/
def breaksUpTo (text : List Char) (offset : Nat) : List Nat :=
  (breakEndsFrom 0 text).filter (· ≤ offset)

/-- Where the line of the offset begins: at the end of the last line break up to it, or at the
start of the text. -/
def lineStart (text : List Char) (offset : Nat) : Nat :=
  (breaksUpTo text offset).getLast?.getD 0

/-- How many characters begin from byte `start` on and in front of byte `stop`. -/
def charsBetween (text : List Char) (start stop : Nat) : Nat :=
  (charStartsFrom 0 text).countP fun place => start ≤ place && place < stop

theorem lt_of_mem_breakEndsFrom {start stop : Nat} {text : List Char}
    (member : stop ∈ breakEndsFrom start text) : start < stop := by
  induction text generalizing start with
  | nil => cases member
  | cons c text inductionHypothesis =>
      have positive := Char.utf8Size_pos c
      rw [breakEndsFrom, List.mem_append] at member
      rcases member with own | later
      · split at own
        · rw [List.mem_singleton.1 own]
          omega
        · cases own
      · have := inductionHypothesis later
        omega

/-- The breaks of a part in front of other text end inside of it. -/
theorem exists_breakEndsFrom_append (start : Nat) (front back : List Char) :
    ∃ early, breakEndsFrom start (front ++ back) =
        early ++ breakEndsFrom (start + byteCount front) back ∧
      ∀ stop ∈ early, stop ≤ start + byteCount front := by
  induction front generalizing start with
  | nil => exact ⟨[], rfl, fun stop member => nomatch member⟩
  | cons c front inductionHypothesis =>
      obtain ⟨early, split_, bounded⟩ := inductionHypothesis (start + c.utf8Size)
      rw [Nat.add_assoc, ← byteCount_cons] at split_ bounded
      refine ⟨(if EndsLine c (front ++ back) then [start + c.utf8Size] else []) ++ early, ?_, ?_⟩
      · rw [List.cons_append, breakEndsFrom, split_, List.append_assoc]
      · refine List.forall_mem_append.2 ⟨fun stop member => ?_, bounded⟩
        split at member
        · rw [List.mem_singleton.1 member, byteCount_cons]
          omega
        · cases member

theorem breaksUpTo_step (front : List Char) (c : Char) (back : List Char) :
    breaksUpTo (front ++ c :: back) (byteCount front + c.utf8Size) =
      breaksUpTo (front ++ c :: back) (byteCount front) ++
        if EndsLine c back then [byteCount front + c.utf8Size] else [] := by
  have positive := Char.utf8Size_pos c
  obtain ⟨early, split_, bounded⟩ := exists_breakEndsFrom_append 0 front (c :: back)
  rw [Nat.zero_add] at split_ bounded
  have kept : ∀ offset, byteCount front ≤ offset → early.filter (· ≤ offset) = early :=
    fun offset within => List.filter_eq_self.2 fun stop member =>
      decide_eq_true (Nat.le_trans (bounded stop member) within)
  have passed : (breakEndsFrom (byteCount front + c.utf8Size) back).filter
      (· ≤ byteCount front + c.utf8Size) = [] :=
    List.filter_eq_nil_iff.2 fun stop member => by
      simpa using lt_of_mem_breakEndsFrom member
  have none : (breakEndsFrom (byteCount front) (c :: back)).filter (· ≤ byteCount front) = [] :=
    List.filter_eq_nil_iff.2 fun stop member => by
      simpa using lt_of_mem_breakEndsFrom member
  rw [breaksUpTo, breaksUpTo, split_, List.filter_append, List.filter_append,
    kept _ (Nat.le_add_right _ _), kept _ (Nat.le_refl _), none, breakEndsFrom, List.filter_append,
    passed, List.append_nil, List.append_nil]
  split <;> simp

theorem lineStart_le (text : List Char) (offset : Nat) : lineStart text offset ≤ offset := by
  rw [lineStart]
  cases last : (breaksUpTo text offset).getLast? with
  | none => exact Nat.zero_le _
  | some stop =>
      have member := List.mem_of_getLast? last
      exact of_decide_eq_true (List.mem_filter.1 member).2

theorem lineStart_step (front : List Char) (c : Char) (back : List Char) :
    lineStart (front ++ c :: back) (byteCount front + c.utf8Size) =
      if EndsLine c back then byteCount front + c.utf8Size
      else lineStart (front ++ c :: back) (byteCount front) := by
  rw [lineStart, breaksUpTo_step]
  split
  · rw [List.getLast?_append, List.getLast?_singleton]
    rfl
  · rw [List.append_nil]
    rfl

theorem charStartsFrom_append (start : Nat) (front back : List Char) :
    charStartsFrom start (front ++ back) =
      charStartsFrom start front ++ charStartsFrom (start + byteCount front) back := by
  induction front generalizing start with
  | nil => rfl
  | cons c front inductionHypothesis =>
      rw [List.cons_append, charStartsFrom, inductionHypothesis, charStartsFrom, byteCount_cons,
        Nat.add_assoc, List.cons_append]

theorem bounds_of_mem_charStartsFrom {start place : Nat} {text : List Char}
    (member : place ∈ charStartsFrom start text) :
    start ≤ place ∧ place < start + byteCount text := by
  induction text generalizing start with
  | nil => cases member
  | cons c text inductionHypothesis =>
      have positive := Char.utf8Size_pos c
      rw [byteCount_cons]
      rcases List.mem_cons.1 member with rfl | later
      · omega
      · have := inductionHypothesis later
        omega

theorem charsBetween_self (text : List Char) (offset : Nat) :
    charsBetween text offset offset = 0 :=
  List.countP_eq_zero.2 fun place _ => by
    simp only [Bool.and_eq_true, decide_eq_true_eq]
    omega

/-- One character more begins in front of the place behind a character. -/
theorem charsBetween_step {start : Nat} {front : List Char} (early : start ≤ byteCount front)
    (c : Char) (back : List Char) :
    charsBetween (front ++ c :: back) start (byteCount front + c.utf8Size) =
      charsBetween (front ++ c :: back) start (byteCount front) + 1 := by
  have positive := Char.utf8Size_pos c
  have inFront : ∀ stop, byteCount front ≤ stop →
      (charStartsFrom 0 front).countP (fun place => start ≤ place && place < stop) =
        (charStartsFrom 0 front).countP fun place => start ≤ place := by
    intro stop within
    refine List.countP_congr fun place member => ?_
    have := (bounds_of_mem_charStartsFrom member).2
    simp only [Bool.and_eq_true, decide_eq_true_eq]
    omega
  have behind : ∀ stop, stop ≤ byteCount front + c.utf8Size →
      (charStartsFrom (byteCount front + c.utf8Size) back).countP
        (fun place => start ≤ place && place < stop) = 0 := by
    intro stop within
    refine List.countP_eq_zero.2 fun place member => ?_
    have := (bounds_of_mem_charStartsFrom member).1
    simp only [Bool.and_eq_true, decide_eq_true_eq]
    omega
  have own : (decide (start ≤ byteCount front) &&
      decide (byteCount front < byteCount front + c.utf8Size)) = true := by
    simp only [Bool.and_eq_true, decide_eq_true_eq]
    omega
  have notYet : (decide (start ≤ byteCount front) &&
      decide (byteCount front < byteCount front)) = false := by
    simp
  rw [charsBetween, charsBetween, charStartsFrom_append, Nat.zero_add, charStartsFrom,
    List.countP_append, List.countP_append, List.countP_cons, List.countP_cons,
    inFront _ (Nat.le_add_right _ _), inFront _ (Nat.le_refl _), behind _ (Nat.le_refl _),
    behind _ (Nat.le_add_right _ _), own, notYet]
  rfl

/-! ## The walk over the text -/

namespace Position

/-- The place is on an earlier line, or in front of the other on the same line. -/
def Before (place other : Position) : Prop :=
  place.line < other.line ∨ place.line = other.line ∧ place.column < other.column

instance (place other : Position) : Decidable (place.Before other) :=
  inferInstanceAs (Decidable (_ ∨ _))

theorem Before.trans {first second third : Position} (early : first.Before second)
    (late : second.Before third) : first.Before third := by
  unfold Before at *
  omega

theorem Before.ne {place other : Position} (before : place.Before other) : place ≠ other := by
  rintro rfl
  unfold Before at before
  omega

theorem next_eq (place : Position) (c : Char) (text : List Char) :
    place.next c text =
      if EndsLine c text then ⟨place.line + 1, 1⟩ else ⟨place.line, place.column + 1⟩ := by
  simp only [next, Bool.or_eq_true, decide_eq_true_eq, Bool.and_eq_true, bne_iff_ne]
  rfl

theorem before_next (place : Position) (c : Char) (text : List Char) :
    place.Before (place.next c text) := by
  rw [next_eq]
  split
  · exact Or.inl (Nat.lt_succ_self _)
  · exact Or.inr ⟨rfl, Nat.lt_succ_self _⟩

theorem ofOffset_step (front : List Char) (c : Char) (back : List Char) :
    ofOffset (front ++ c :: back) (byteCount front + c.utf8Size) =
      (ofOffset (front ++ c :: back) (byteCount front)).next c back := by
  have walk := advance_cons (ofOffset (front ++ c :: back) (byteCount front)) c 0 back
  rw [Nat.add_zero, advance_zero] at walk
  rw [ofOffset, advance_byteCount_add]
  exact walk

theorem ofOffset_front (front back : List Char) :
    ofOffset (front ++ back) (byteCount front) =
      ⟨1 + (breaksUpTo (front ++ back) (byteCount front)).length,
        1 + charsBetween (front ++ back) (lineStart (front ++ back) (byteCount front))
          (byteCount front)⟩ := by
  induction front using List.reverseRecOn generalizing back with
  | nil =>
      have none : breaksUpTo back 0 = [] :=
        List.filter_eq_nil_iff.2 fun stop member => by
          simpa using Nat.ne_of_gt (lt_of_mem_breakEndsFrom member)
      have first : lineStart back 0 = 0 := by rw [lineStart, none]; rfl
      rw [List.nil_append, byteCount_nil, none, first, charsBetween_self, ofOffset, advance_zero]
      rfl
  | append_singleton front c inductionHypothesis =>
      have size : byteCount (front ++ [c]) = byteCount front + c.utf8Size := by simp
      rw [List.append_assoc, List.singleton_append, size, ofOffset_step, next_eq,
        inductionHypothesis, breaksUpTo_step, lineStart_step]
      split
      · rw [charsBetween_self, List.length_append]
        rfl
      · rw [charsBetween_step (lineStart_le _ _), List.append_nil]
        rfl

theorem before_of_append (front : List Char) {middle : List Char} (some : middle ≠ [])
    (back : List Char) :
    (ofOffset (front ++ (middle ++ back)) (byteCount front)).Before
      (ofOffset (front ++ (middle ++ back)) (byteCount front + byteCount middle)) := by
  induction middle generalizing front with
  | nil => exact absurd rfl some
  | cons c middle inductionHypothesis =>
      have step := before_next (ofOffset (front ++ c :: (middle ++ back)) (byteCount front)) c
        (middle ++ back)
      rw [← ofOffset_step] at step
      rw [byteCount_cons, ← Nat.add_assoc]
      by_cases last : middle = []
      · rw [last, byteCount_nil, Nat.add_zero]
        rwa [last] at step
      · have later := inductionHypothesis (front ++ [c]) last
        rw [List.append_assoc, List.singleton_append, byteCount_append, byteCount_cons,
          byteCount_nil, Nat.add_zero] at later
        exact step.trans later

/-- Of two boundaries the first has the earlier place. -/
theorem before_of_lt {text : List Char} {offset later : Nat} (first : OnBoundary text offset)
    (second : OnBoundary text later) (less : offset < later) :
    (ofOffset text offset).Before (ofOffset text later) := by
  obtain ⟨left, right, split_, rfl, size⟩ := exists_slice first second (Nat.le_of_lt less)
  generalize slice text (byteCount left) later = middle at split_ size
  subst size split_
  refine before_of_append left ?_ right
  rintro rfl
  exact Nat.lt_irrefl _ less

theorem eq_of_ofOffset_eq {text : List Char} {offset other : Nat} (first : OnBoundary text offset)
    (second : OnBoundary text other) (same : ofOffset text offset = ofOffset text other) :
    offset = other := by
  rcases Nat.lt_trichotomy offset other with less | equal | greater
  · exact absurd same (before_of_lt first second less).ne
  · exact equal
  · exact absurd same.symm (before_of_lt second first greater).ne

/-- The line of a boundary is one more than the line breaks that end up to it, and its column one
more than the characters between the last of them and the boundary.  Later boundaries have later
places, so no other boundary has the same. -/
theorem ofOffset_boundary {text : List Char} {offset : Nat} (boundary : OnBoundary text offset) :
    ofOffset text offset =
        ⟨1 + (breaksUpTo text offset).length,
          1 + charsBetween text (lineStart text offset) offset⟩ ∧
      (∀ later, OnBoundary text later → offset < later →
        (ofOffset text offset).Before (ofOffset text later)) ∧
      ∀ other, OnBoundary text other → ofOffset text other = ofOffset text offset →
        other = offset := by
  refine ⟨?_, fun later second less => before_of_lt boundary second less,
    fun other second same => eq_of_ofOffset_eq second boundary same⟩
  obtain ⟨front, back, rfl, rfl⟩ := boundary
  exact ofOffset_front front back

/-- A carriage return and a line feed end one line, a carriage return alone another, and an accented
letter is one column. -/
theorem ofOffset_boundary_returns :
    let text := ['é', '\r', '\n', 'é', 'b', '\r', 'c']
    OnBoundary text 3 ∧ ofOffset text 3 = ⟨1, 3⟩ ∧ OnBoundary text 6 ∧ ofOffset text 6 = ⟨2, 2⟩ ∧
      (ofOffset text 3).Before (ofOffset text 6) ∧ breaksUpTo text 8 = [4, 8] := by
  intro text
  have inside : OnBoundary text 3 := ⟨['é', '\r'], _, rfl, rfl⟩
  have next : OnBoundary text 6 := ⟨['é', '\r', '\n', 'é'], _, rfl, rfl⟩
  have first := ofOffset_boundary inside
  have second := ofOffset_boundary next
  exact ⟨inside, first.1.trans (by decide), next, second.1.trans (by decide),
    first.2.1 6 next (by decide), by decide⟩

end Position

end CssLint.Text
