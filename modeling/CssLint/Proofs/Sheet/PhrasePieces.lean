import CssLint.Proofs.Sheet.PlainItems
import CssLint.Proofs.Token.PhraseRead

/-!
# Pieces of phrases

In front of a sign that ends it, a phrase has flat pieces of its own.  The searches
of the reader pass over them, and none of them is the sigil of a preprocessor.
-/

namespace CssLint.Sheet

open Text

/-! ## Phrases -/

/-- A token in front of pieces of the same text. -/
private theorem piecesAt_token_append {c : Char} {word left rest : List Char} {token : Token}
    (notSlash : c ≠ '/')
    (read : Token.read c (word ++ left ++ rest) = (token, left ++ rest)) {offset : Nat}
    {pieces : List Piece}
    (behind : piecesAt (offset + byteCount (c :: word)) (left ++ rest) =
      pieces ++ piecesAt (offset + byteCount (c :: word) + byteCount left) rest) :
    piecesAt offset (c :: (word ++ left) ++ rest) =
      ⟨token, ⟨offset, offset + byteCount (c :: word)⟩, false⟩ ::
        (pieces ++ piecesAt (offset + byteCount (c :: (word ++ left))) rest) := by
  rw [List.append_assoc] at read
  have joined : c :: (word ++ left) ++ rest = c :: word ++ (left ++ rest) := by simp
  have size : offset + byteCount (c :: (word ++ left)) =
      offset + byteCount (c :: word) + byteCount left := by
    rw [← List.cons_append, byteCount_append, Nat.add_assoc]
  rw [joined, piecesAt_token notSlash read, behind, size]

theorem piecesAt_phrase {rest : List Char} (ends : EndsPhrase rest) {text : List Char}
    (parts : ∀ c ∈ text, isPhrasePart c = true) (offset : Nat) :
    ∃ pieces, piecesAt offset (text ++ rest) =
        pieces ++ piecesAt (offset + byteCount text) rest ∧
      ∀ piece ∈ pieces, piece.token.isFlat = true := by
  induction length : text.length using Nat.strongRecOn generalizing text offset with
  | ind size inductionHypothesis =>
      cases text with
      | nil => exact ⟨[], rfl, by simp⟩
      | cons c text =>
          obtain ⟨part, partsBehind⟩ := List.forall_mem_cons.1 parts
          have notSlash : c ≠ '/' := by
            rintro rfl
            cases part
          obtain ⟨left, ⟨word, rfl⟩, token, flat, read⟩ :=
            Token.read_phrase ends partsBehind part
          have shorter : left.length < size := by
            rw [← length, List.length_cons, List.length_append]
            omega
          obtain ⟨pieces, same, flats⟩ := inductionHypothesis _ shorter
            (fun other member => partsBehind other (List.mem_append_right word member))
            (offset + byteCount (c :: word)) rfl
          exact ⟨_ :: pieces, piecesAt_token_append notSlash read same,
            List.forall_mem_cons.2 ⟨flat, flats⟩⟩

/-- The first piece of a phrase that begins with a letter is a name that begins with it. -/
theorem piecesAt_phrase_alpha {rest : List Char} (ends : EndsPhrase rest) {c : Char}
    (alpha : c.isAlpha = true) {text : List Char} (parts : ∀ c ∈ text, isPhrasePart c = true)
    (offset : Nat) :
    ∃ name stop pieces, piecesAt offset (c :: text ++ rest) =
        ⟨.ident (c :: name), ⟨offset, stop⟩, false⟩ ::
          (pieces ++ piecesAt (offset + byteCount (c :: text)) rest) ∧
      ∀ piece ∈ pieces, piece.token.isFlat = true := by
  have notSlash : c ≠ '/' := ne_of_isAlpha alpha (by decide)
  obtain ⟨left, ⟨word, rfl⟩, name, read⟩ := Token.read_phrase_alpha ends parts alpha
  obtain ⟨pieces, same, flats⟩ := piecesAt_phrase ends
    (fun other member => parts other (List.mem_append_right word member))
    (offset + byteCount (c :: word))
  exact ⟨name, _, pieces, piecesAt_token_append notSlash read same, flats⟩

/-! ## Passing over -/

/-- A flat piece neither opens nor closes anything, and no sign that divides items. -/
theorem Piece.lacks_of_isFlat {piece : Piece} (flat : piece.token.isFlat = true) :
    piece.token.opens? = none ∧ piece.token.closes? = none ∧ piece.opensBlock = false ∧
      piece.closesBlock = false ∧ piece.isSemicolon = false ∧ piece.isColon = false := by
  obtain ⟨token, span, hole⟩ := piece
  cases token <;> first | exact ⟨rfl, rfl, rfl, rfl, rfl, rfl⟩ | cases flat

theorem skipTo_flat {property : Piece → Bool}
    (lacks : ∀ piece : Piece, piece.token.isFlat = true → property piece = false)
    {pieces : List Piece} (flats : ∀ piece ∈ pieces, piece.token.isFlat = true) {last : Piece}
    (has : property last = true) (rest : List Piece) :
    skipTo property (pieces ++ last :: rest) = last :: rest := by
  induction pieces with
  | nil => rw [List.nil_append, skipTo, if_pos has]
  | cons piece pieces inductionHypothesis =>
      obtain ⟨flat, flatsBehind⟩ := List.forall_mem_cons.1 flats
      obtain ⟨notOpening, _⟩ := Piece.lacks_of_isFlat flat
      rw [List.cons_append, skipTo, lacks piece flat, skipComponent, notOpening]
      exact inductionHypothesis flatsBehind

theorem opensBlockWithin_flat {pieces : List Piece}
    (flats : ∀ piece ∈ pieces, piece.token.isFlat = true) (rest : List Piece) :
    opensBlockWithin 0 (pieces ++ rest) = opensBlockWithin 0 rest := by
  induction pieces with
  | nil => rfl
  | cons piece pieces inductionHypothesis =>
      obtain ⟨flat, flatsBehind⟩ := List.forall_mem_cons.1 flats
      obtain ⟨notOpening, notClosing, noBlock, noEnd, noSemicolon, _⟩ := Piece.lacks_of_isFlat flat
      simp [opensBlockWithin, noBlock, noEnd, noSemicolon, notOpening, notClosing,
        inductionHypothesis flatsBehind]

/-! ## Texts without sigils -/

/-- In front of the rest, the text has pieces of its own, and none of them is a sigil. -/
def Splits (text rest : List Char) : Prop :=
  ∀ offset, ∃ pieces,
    piecesAt offset (text ++ rest) = pieces ++ piecesAt (offset + byteCount text) rest ∧
      ∀ piece ∈ pieces, piece.token.isTame = true

namespace Splits

theorem nil (rest : List Char) : Splits [] rest :=
  fun _ => ⟨[], rfl, by simp⟩

theorem append {left right rest : List Char} (first : Splits left (right ++ rest))
    (second : Splits right rest) : Splits (left ++ right) rest := by
  intro offset
  obtain ⟨front, same, tame⟩ := first offset
  obtain ⟨back, sameBack, tameBack⟩ := second (offset + byteCount left)
  refine ⟨front ++ back, ?_, List.forall_mem_append.2 ⟨tame, tameBack⟩⟩
  rw [List.append_assoc, same, sameBack, byteCount_append, Nat.add_assoc, List.append_assoc]

theorem phrase {text rest : List Char} (parts : ∀ c ∈ text, isPhrasePart c = true)
    (ends : EndsPhrase rest) : Splits text rest := by
  intro offset
  obtain ⟨pieces, same, flats⟩ := piecesAt_phrase ends parts offset
  refine ⟨pieces, same, fun piece member => ?_⟩
  have flat := flats piece member
  cases token : piece.token with
  | delim c =>
      rw [token] at flat
      have sign : c = '-' ∨ c = '.' := by simpa [Token.isFlat] using flat
      rcases sign with rfl | rfl <;> rfl
  | _ => rfl

theorem token {c : Char} {word rest : List Char} {token : Token} (notSlash : c ≠ '/')
    (read : Token.read c (word ++ rest) = (token, rest)) (tame : token.isTame = true) :
    Splits (c :: word) rest :=
  fun offset => ⟨[_], piecesAt_token notSlash read offset, List.forall_mem_singleton.2 tame⟩

end Splits

end CssLint.Sheet
