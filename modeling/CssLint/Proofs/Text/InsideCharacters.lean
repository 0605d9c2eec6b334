import CssLint.Proofs.Text.Lines

/-!
# Offsets off the boundaries of a text

The walk to an offset passes every character that begins in front of it.  So an offset
past the end has the place of the end, and an offset inside a character has the place
behind that character, one column after the place of its first byte.
-/

namespace CssLint.Text

/-! ## The characters in front of an offset -/

theorem takeBytes_eq_self {offset : Nat} {text : List Char} (past : byteCount text ≤ offset) :
    takeBytes offset text = text := by
  induction text generalizing offset with
  | nil => rfl
  | cons c text inductionHypothesis =>
      have positive := Char.utf8Size_pos c
      rw [byteCount_cons] at past
      rw [takeBytes, if_neg (by omega), inductionHypothesis (by omega)]

/-- A character begins in front of every offset inside of it. -/
theorem takeBytes_inside {front : List Char} {c : Char} {offset : Nat}
    (behind : byteCount front < offset) (inside : offset < byteCount front + c.utf8Size)
    (back : List Char) : takeBytes offset (front ++ c :: back) = front ++ [c] := by
  induction front generalizing offset with
  | nil =>
      rw [byteCount_nil] at behind
      rw [byteCount_nil, Nat.zero_add] at inside
      have spent : offset - c.utf8Size = 0 := Nat.sub_eq_zero_of_le (Nat.le_of_lt inside)
      have stops : takeBytes 0 back = [] := by cases back <;> rfl
      rw [List.nil_append, takeBytes, if_neg (Nat.ne_of_gt behind), spent, stops, List.nil_append]
  | cons d front inductionHypothesis =>
      rw [byteCount_cons] at behind inside
      rw [List.cons_append, takeBytes, if_neg (by omega),
        inductionHypothesis (by omega) (by omega), List.cons_append]

/-- Line feeds and carriage returns are single bytes, so no offset is inside of one. -/
theorem not_endsLine_of_wide {c : Char} (wide : 1 < c.utf8Size) (text : List Char) :
    ¬ EndsLine c text := by
  rintro (rfl | ⟨rfl, _⟩)
  · exact absurd wide (by decide)
  · exact absurd wide (by decide)

namespace Position

/-! ## Places -/

/-- The walk to an offset stops at the first boundary that is not in front of it. -/
theorem advance_takeBytes (place : Position) (offset : Nat) (text : List Char) :
    advance place offset text = advance place (byteCount (takeBytes offset text)) text := by
  induction text generalizing place offset with
  | nil => rfl
  | cons c text inductionHypothesis =>
      rw [takeBytes]
      split
      · rename_i zero
        rw [zero, byteCount_nil]
      · rename_i notZero
        rw [byteCount_cons, advance_cons, advance, if_neg notZero, inductionHypothesis]

/-- An offset past the end has the place of the end.  An offset inside a character has the place
behind the character, which is one column after that of its first byte. -/
theorem ofOffset_offBoundary (text : List Char) (offset : Nat) :
    (byteCount text ≤ offset → ofOffset text offset = ofOffset text (byteCount text)) ∧
      ∀ front c back, text = front ++ c :: back → byteCount front < offset →
        offset < byteCount front + c.utf8Size →
          ofOffset text offset = ofOffset text (byteCount front + c.utf8Size) ∧
            ofOffset text offset = ⟨(ofOffset text (byteCount front)).line,
              (ofOffset text (byteCount front)).column + 1⟩ := by
  refine ⟨fun past => ?_, ?_⟩
  · rw [ofOffset, advance_takeBytes, takeBytes_eq_self past, ofOffset]
  · rintro front c back rfl behind inside
    have wide : 1 < c.utf8Size := by omega
    have size : byteCount (front ++ [c]) = byteCount front + c.utf8Size := by simp
    have next : ofOffset (front ++ c :: back) offset =
        ofOffset (front ++ c :: back) (byteCount front + c.utf8Size) := by
      rw [ofOffset, advance_takeBytes, takeBytes_inside behind inside, size, ofOffset]
    refine ⟨next, ?_⟩
    rw [next, ofOffset_step, next_eq, if_neg (not_endsLine_of_wide wide back)]

/-- Past the end stands the end, and between the bytes of a face the place behind the face. -/
theorem ofOffset_offBoundary_face :
    let text := ['é', '\r', '\n', 'a', '😀']
    (byteCount text ≤ 12 ∧ ofOffset text 12 = ofOffset text 9) ∧
      (byteCount ['é', '\r', '\n', 'a'] < 7 ∧ 7 < byteCount ['é', '\r', '\n', 'a'] + '😀'.utf8Size ∧
        ofOffset text 5 = ⟨2, 2⟩ ∧ ofOffset text 7 = ⟨2, 3⟩) := by
  intro text
  have inside := (ofOffset_offBoundary text 7).2 ['é', '\r', '\n', 'a'] '😀' [] rfl (by decide)
    (by decide)
  exact ⟨⟨by decide, (ofOffset_offBoundary text 12).1 (by decide)⟩, by decide, by decide, by decide,
    inside.2.trans (by decide)⟩

/-- The second byte of an accented letter has not the place of the letter. -/
theorem ofOffset_offBoundary_accented :
    byteCount [] < 1 ∧ 1 < byteCount [] + 'é'.utf8Size ∧ ofOffset ['é'] 1 ≠ ofOffset ['é'] 0 := by
  decide

end Position

end CssLint.Text
