import CssLint.Text.Bytes
import CssLint.Text.Position

/-!
# Places in joined texts

Cutting a text by byte offsets, and the lines and columns of its bytes, when more
text stands behind it or in front of it.
-/

namespace CssLint.Text

/-! ## Behind -/

theorem dropBytes_append {count : Nat} {text : List Char} (within : count ≤ byteCount text)
    (more : List Char) : dropBytes count (text ++ more) = dropBytes count text ++ more := by
  induction text generalizing count with
  | nil =>
      have zero : count = 0 := Nat.le_zero.1 within
      subst zero
      cases more <;> rfl
  | cons c text inductionHypothesis =>
      by_cases zero : count = 0
      · simp [dropBytes, zero]
      · have later : count - c.utf8Size ≤ byteCount text := by
          rw [byteCount_cons] at within
          omega
        simp [dropBytes, zero, inductionHypothesis later]

theorem takeBytes_append {count : Nat} {text : List Char} (within : count ≤ byteCount text)
    (more : List Char) : takeBytes count (text ++ more) = takeBytes count text := by
  induction text generalizing count with
  | nil =>
      have zero : count = 0 := Nat.le_zero.1 within
      subst zero
      cases more <;> rfl
  | cons c text inductionHypothesis =>
      by_cases zero : count = 0
      · simp [takeBytes, zero]
      · have later : count - c.utf8Size ≤ byteCount text := by
          rw [byteCount_cons] at within
          omega
        simp [takeBytes, zero, inductionHypothesis later]

/-! ## Boundaries -/

/-- The offset is the place between two characters of the text, or one of its ends. -/
def OnBoundary (text : List Char) (offset : Nat) : Prop :=
  ∃ left right, text = left ++ right ∧ byteCount left = offset

theorem OnBoundary.le {text : List Char} {offset : Nat} (boundary : OnBoundary text offset) :
    offset ≤ byteCount text := by
  obtain ⟨left, right, rfl, rfl⟩ := boundary
  rw [byteCount_append]
  exact Nat.le_add_right _ _

/-- The word stands in the text and begins at the byte. -/
def OccursAt (word text : List Char) (offset : Nat) : Prop :=
  ∃ front back, text = front ++ (word ++ back) ∧ byteCount front = offset

theorem OccursAt.onBoundary {word text : List Char} {offset : Nat}
    (occurs : OccursAt word text offset) : OnBoundary text offset := by
  obtain ⟨front, back, whole, size⟩ := occurs
  exact ⟨front, word ++ back, whole, size⟩

/-- What stands in a part of the text stands in the text. -/
theorem OccursAt.trans {word part text : List Char} {offset start : Nat}
    (inner : OccursAt word part offset) (outer : OccursAt part text start) :
    OccursAt word text (start + offset) := by
  obtain ⟨front, back, rfl, rfl⟩ := inner
  obtain ⟨left, right, rfl, rfl⟩ := outer
  exact ⟨left ++ front, back ++ right, by simp only [List.append_assoc], byteCount_append _ _⟩

theorem OnBoundary.byteCount_dropBytes {text : List Char} {offset : Nat}
    (boundary : OnBoundary text offset) :
    byteCount (dropBytes offset text) = byteCount text - offset := by
  obtain ⟨left, right, rfl, rfl⟩ := boundary
  rw [dropBytes_byteCount_append, byteCount_append, Nat.add_sub_cancel_left]

/-- What stands between two places does not change when more text follows. -/
theorem slice_append {text : List Char} {start stop : Nat} (boundary : OnBoundary text start)
    (within : stop ≤ byteCount text) (more : List Char) :
    slice (text ++ more) start stop = slice text start stop := by
  have ofDropped := boundary.byteCount_dropBytes
  rw [slice, slice, dropBytes_append boundary.le, takeBytes_append]
  omega

/-! ## In front -/

theorem dropBytes_byteCount_add (front text : List Char) (count : Nat) :
    dropBytes (byteCount front + count) (front ++ text) = dropBytes count text := by
  induction front with
  | nil => simp
  | cons c front inductionHypothesis =>
      have positive : c.utf8Size ≠ 0 := Nat.ne_of_gt (Char.utf8Size_pos c)
      have notZero : byteCount (c :: front) + count ≠ 0 := by
        rw [byteCount_cons]
        omega
      have later : byteCount (c :: front) + count - c.utf8Size = byteCount front + count := by
        rw [byteCount_cons]
        omega
      rw [List.cons_append, dropBytes, if_neg notZero, later, inductionHypothesis]

/-- What stands between two places does not change when both move with the text. -/
theorem slice_byteCount_add (front text : List Char) (start stop : Nat) :
    slice (front ++ text) (byteCount front + start) (byteCount front + stop) =
      slice text start stop := by
  rw [slice, slice, dropBytes_byteCount_add, Nat.add_sub_add_left]

/-- Between the ends of a part stands the part. -/
theorem slice_part (front part more : List Char) :
    slice (front ++ (part ++ more)) (byteCount front) (byteCount front + byteCount part) =
      part := by
  rw [slice, dropBytes_byteCount_append, Nat.add_sub_cancel_left, takeBytes_byteCount_append]

theorem takeBytes_prefix (count : Nat) (text : List Char) : takeBytes count text <+: text := by
  induction text generalizing count with
  | nil => exact List.nil_prefix
  | cons c text inductionHypothesis =>
      rw [takeBytes]
      split
      · exact List.nil_prefix
      · exact List.prefix_cons_inj c |>.2 (inductionHypothesis _)

theorem OnBoundary.occursAt {text part : List Char} {start stop : Nat}
    (boundary : OnBoundary text start) (stands : slice text start stop = part) :
    OccursAt part text start := by
  obtain ⟨left, behind, rfl, rfl⟩ := boundary
  rw [slice, dropBytes_byteCount_append] at stands
  obtain ⟨right, whole⟩ := takeBytes_prefix (stop - byteCount left) behind
  rw [stands] at whole
  exact ⟨left, right, by rw [whole], rfl⟩

theorem byteCount_eq_zero {text : List Char} (nothing : byteCount text = 0) : text = [] := by
  cases text with
  | nil => rfl
  | cons c text =>
      have positive := Char.utf8Size_pos c
      rw [byteCount_cons] at nothing
      omega

/-- Texts in front of the same byte are the same. -/
theorem byteCount_pos {text : List Char} (nonempty : text ≠ []) : 0 < byteCount text :=
  Nat.pos_of_ne_zero fun zero => nonempty (byteCount_eq_zero zero)

theorem append_inj_of_byteCount {left more right rest : List Char}
    (same : left ++ more = right ++ rest) (size : byteCount left = byteCount right) :
    left = right ∧ more = rest := by
  rcases List.append_eq_append_iff.1 same with ⟨gap, rfl, rfl⟩ | ⟨gap, rfl, rfl⟩
  all_goals
    have nothing : gap = [] := byteCount_eq_zero (by rw [byteCount_append] at size; omega)
    simp [nothing]

theorem OnBoundary.front {text more : List Char} {offset : Nat}
    (boundary : OnBoundary (text ++ more) offset) (within : offset ≤ byteCount text) :
    OnBoundary text offset := by
  obtain ⟨left, right, same, rfl⟩ := boundary
  rcases List.append_eq_append_iff.1 same with ⟨gap, rfl, rfl⟩ | ⟨gap, rfl, rfl⟩
  · have nothing : gap = [] := byteCount_eq_zero (by rw [byteCount_append] at within; omega)
    exact ⟨text, [], by simp, by rw [nothing, List.append_nil]⟩
  · exact ⟨left, gap, rfl, rfl⟩

/-- What stands between two boundaries is a part of the text with these ends. -/
theorem exists_slice {text : List Char} {start stop : Nat} (first : OnBoundary text start)
    (second : OnBoundary text stop) (ordered : start ≤ stop) :
    ∃ left right, text = left ++ (slice text start stop ++ right) ∧ byteCount left = start ∧
      start + byteCount (slice text start stop) = stop := by
  obtain ⟨left, behind, rfl, rfl⟩ := first
  obtain ⟨front, right, same, rfl⟩ := second
  have part : ∃ inside, front = left ++ inside ∧ behind = inside ++ right := by
    rcases List.append_eq_append_iff.1 same with ⟨inside, rfl, rfl⟩ | ⟨inside, rfl, rfl⟩
    · exact ⟨inside, rfl, rfl⟩
    · have nothing : inside = [] := byteCount_eq_zero (by
        rw [byteCount_append] at ordered
        omega)
      exact ⟨[], by rw [nothing]; simp, by rw [nothing]; simp⟩
  obtain ⟨inside, rfl, rfl⟩ := part
  rw [byteCount_append, slice_part]
  exact ⟨left, right, rfl, rfl, rfl⟩

/-! ## Lines and columns -/

namespace Position

theorem advance_zero (place : Position) (text : List Char) : advance place 0 text = place := by
  cases text <;> rfl

theorem advance_cons (place : Position) (c : Char) (offset : Nat) (text : List Char) :
    advance place (c.utf8Size + offset) (c :: text) =
      advance (place.next c text) offset text := by
  have positive := Char.utf8Size_pos c
  rw [advance, if_neg (by omega), Nat.add_sub_cancel_left]

/-- A walk goes on from the place of a boundary as if it began there. -/
theorem advance_byteCount_add (place : Position) (front : List Char) (offset : Nat)
    (back : List Char) :
    advance place (byteCount front + offset) (front ++ back) =
      advance (advance place (byteCount front) (front ++ back)) offset back := by
  induction front generalizing place with
  | nil => rw [byteCount_nil, Nat.zero_add, List.nil_append, advance_zero]
  | cons c front inductionHypothesis =>
      rw [byteCount_cons, Nat.add_assoc, List.cons_append, advance_cons, advance_cons,
        inductionHypothesis]

private theorem advance_append (place : Position) {offset : Nat} {text more : List Char}
    (noNewline : more.head? ≠ some '\n') (within : offset ≤ byteCount text) :
    advance place offset (text ++ more) = advance place offset text := by
  induction text generalizing place offset with
  | nil =>
      have zero : offset = 0 := Nat.le_zero.1 within
      subst zero
      cases more <;> rfl
  | cons c text inductionHypothesis =>
      by_cases zero : offset = 0
      · simp [advance, zero]
      · have later : offset - c.utf8Size ≤ byteCount text := by
          rw [byteCount_cons] at within
          omega
        have next : place.next c (text ++ more) = place.next c text := by
          cases text with
          | nil => simp [Position.next, noNewline]
          | cons d text => rfl
        simp only [List.cons_append, advance, zero, if_false, next, inductionHypothesis _ later]

/-- The places of a text stay as they are when text follows that begins with no line feed. -/
theorem ofOffset_append {offset : Nat} {text more : List Char}
    (noNewline : more.head? ≠ some '\n') (within : offset ≤ byteCount text) :
    ofOffset (text ++ more) offset = ofOffset text offset :=
  advance_append start noNewline within

end Position

end CssLint.Text
