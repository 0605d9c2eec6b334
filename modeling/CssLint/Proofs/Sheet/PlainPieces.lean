import CssLint.Proofs.Selector.PlainText
import CssLint.Proofs.Sheet.Nested
import CssLint.Proofs.Token.Lexemes
import CssLint.Proofs.Token.PlainRead

/-!
# Pieces of plain texts

In front of whatever may follow it, a plain text is read as well-nested pieces with
tokens of certain kinds: those of selectors neither end an item nor open a block, and
no token at all is the sigil of a preprocessor.
-/

namespace CssLint

open Text

/-- Whether the token is not one that makes a hole of the brace behind it. -/
def Token.isTame : Token → Bool
  | .delim c => c != '#' && c != '@'
  | _ => true

/-- Whether the token neither ends an item, nor opens a block, nor begins anything but a rule. -/
def Token.isQuiet : Token → Bool
  | .ident name => !(List.isPrefixOf ['-', '-'] name)
  | .atKeyword _ => false
  | .commentOpen => false
  | .commentClose => false
  | .semicolon => false
  | .opening bracket => bracket != .curly
  | .closing bracket => bracket != .curly
  | .delim c => c != '#' && c != '@'
  | _ => true

theorem Token.isTame_of_isQuiet {token : Token} (quiet : token.isQuiet = true) :
    token.isTame = true := by
  cases token with
  | delim c => exact quiet
  | _ => rfl

namespace Sheet

/-! ## Pieces at a place -/

/-- The piece of a lexeme that stands behind no sigil. -/
def Piece.ofLexeme (lexeme : Lexeme) : Piece :=
  ⟨lexeme.token, lexeme.span, false⟩

/-- The pieces of a text without sigils whose first byte has the number `offset`. -/
def piecesAt (offset : Nat) (text : List Char) : List Piece :=
  (Lexeme.ofTextAt offset text).map Piece.ofLexeme

theorem piecesAt_nil (offset : Nat) : piecesAt offset [] = [] := by
  rw [piecesAt, Lexeme.ofTextAt_nil, List.map_nil]

theorem piecesAt_token {c : Char} {word rest : List Char} {token : Token} (notSlash : c ≠ '/')
    (read : Token.read c (word ++ rest) = (token, rest)) (offset : Nat) :
    piecesAt offset (c :: word ++ rest) =
      ⟨token, ⟨offset, offset + byteCount (c :: word)⟩, false⟩ ::
        piecesAt (offset + byteCount (c :: word)) rest := by
  rw [piecesAt, Lexeme.ofTextAt_token notSlash read]
  rfl

theorem piecesAt_char {c : Char} {rest : List Char} {token : Token} (notSlash : c ≠ '/')
    (read : Token.read c rest = (token, rest)) (offset : Nat) :
    piecesAt offset (c :: rest) =
      ⟨token, ⟨offset, offset + byteCount [c]⟩, false⟩ :: piecesAt (offset + byteCount [c]) rest :=
  @piecesAt_token c [] rest token notSlash read offset

theorem piecesAt_letters {name rest : List Char} (nonempty : name ≠ [])
    (letters : ∀ c ∈ name, c.isAlpha = true) (ends : EndsName rest) (offset : Nat) :
    piecesAt offset (name ++ rest) =
      ⟨.ident name, ⟨offset, offset + byteCount name⟩, false⟩ ::
        piecesAt (offset + byteCount name) rest := by
  cases name with
  | nil => exact absurd rfl nonempty
  | cons c name =>
      have notSlash : c ≠ '/' := ne_of_isAlpha (letters c List.mem_cons_self) (by decide)
      exact piecesAt_token notSlash (Token.read_letters letters ends) offset

theorem piecesAt_punctuation {c : Char} {token : Token}
    (punctuation : Token.ofPunctuation? c = some token) (offset : Nat) (rest : List Char) :
    piecesAt offset (c :: rest) =
      ⟨token, ⟨offset, offset + byteCount [c]⟩, false⟩ ::
        piecesAt (offset + byteCount [c]) rest := by
  have notSlash : c ≠ '/' := by
    rintro rfl
    cases punctuation
  exact piecesAt_char notSlash (Token.read_punctuation punctuation rest) offset

/-! ## Pieces of allowed tokens -/

/-- Well-nested pieces, all of them with allowed tokens. -/
structure Consists (allowed : Token → Bool) (pieces : List Piece) : Prop where
  nested : Nested pieces
  all : ∀ piece ∈ pieces, allowed piece.token = true

namespace Consists

variable {allowed : Token → Bool}

theorem nil : Consists allowed [] := by
  constructor
  · exact .nil
  · intro piece member
    cases member

theorem append {left right : List Piece} (first : Consists allowed left)
    (second : Consists allowed right) : Consists allowed (left ++ right) := by
  constructor
  · exact first.nested.append second.nested
  · intro piece member
    exact (List.mem_append.1 member).elim (first.all piece) (second.all piece)

theorem singleton {piece : Piece} (allows : allowed piece.token = true)
    (notOpening : piece.token.opens? = none) (notClosing : piece.token.closes? = none) :
    Consists allowed [piece] := by
  constructor
  · exact .plain notOpening notClosing .nil
  · intro other member
    exact List.mem_singleton.1 member ▸ allows

theorem block {opener closer : Piece} {inside : List Piece} {bracket : Bracket}
    (allows : allowed opener.token = true) (opens : opener.token.opens? = some bracket)
    (consists : Consists allowed inside) (closes : closer.token = .closing bracket)
    (allowsCloser : allowed closer.token = true) :
    Consists allowed (opener :: (inside ++ [closer])) := by
  constructor
  · exact .block opens consists.nested closes .nil
  · intro piece member
    rcases List.mem_cons.1 member with rfl | behind
    · exact allows
    · rcases List.mem_append.1 behind with within | last
      · exact consists.all piece within
      · exact List.mem_singleton.1 last ▸ allowsCloser

end Consists

/-! ## Texts of allowed tokens -/

/-- In front of a rest without digits, the text has pieces of its own with allowed tokens. -/
def Reads (allowed : Token → Bool) (text rest : List Char) : Prop :=
  NoDigit (text ++ rest) → ∀ offset, ∃ pieces,
    piecesAt offset (text ++ rest) = pieces ++ piecesAt (offset + byteCount text) rest ∧
      Consists allowed pieces

namespace Reads

variable {allowed : Token → Bool}

theorem mono {other : Token → Bool} (allows : ∀ token, allowed token = true → other token = true)
    {text rest : List Char} (reads : Reads allowed text rest) : Reads other text rest := by
  intro noDigit offset
  obtain ⟨pieces, same, consists⟩ := reads noDigit offset
  refine ⟨pieces, same, consists.nested, ?_⟩
  intro piece member
  exact allows piece.token (consists.all piece member)

theorem nil (rest : List Char) : Reads allowed [] rest := by
  intro _ offset
  exact ⟨[], rfl, Consists.nil⟩

theorem append {left right rest : List Char} (first : Reads allowed left (right ++ rest))
    (second : Reads allowed right rest) : Reads allowed (left ++ right) rest := by
  intro noDigit offset
  rw [List.append_assoc] at noDigit
  obtain ⟨front, same, consists⟩ := first noDigit offset
  obtain ⟨back, sameBack, consistsBack⟩ := second noDigit.right (offset + byteCount left)
  refine ⟨front ++ back, ?_, consists.append consistsBack⟩
  rw [List.append_assoc, same, sameBack, byteCount_append, Nat.add_assoc, List.append_assoc]

/-- A token that is no bracket. -/
theorem token {c : Char} {word rest : List Char} {token : Token} (notSlash : c ≠ '/')
    (read : NoDigit rest → Token.read c (word ++ rest) = (token, rest))
    (allows : allowed token = true) (notOpening : token.opens? = none)
    (notClosing : token.closes? = none) : Reads allowed (c :: word) rest := by
  intro noDigit offset
  refine ⟨[⟨token, ⟨offset, offset + byteCount (c :: word)⟩, false⟩], ?_,
    Consists.singleton allows notOpening notClosing⟩
  exact piecesAt_token notSlash (read noDigit.right) offset

/-- A bracket, what stands inside it, and the bracket that closes it. -/
theorem block {c closer : Char} {word inside rest : List Char} {token : Token} {bracket : Bracket}
    (notSlash : c ≠ '/')
    (read : ∀ behind, Token.read c (word ++ behind) = (token, behind))
    (allows : allowed token = true) (opens : token.opens? = some bracket)
    (closes : Token.ofPunctuation? closer = some (.closing bracket))
    (allowsCloser : allowed (.closing bracket) = true)
    (reads : Reads allowed inside (closer :: rest)) :
    Reads allowed (c :: word ++ (inside ++ [closer])) rest := by
  intro noDigit offset
  have joined : c :: word ++ (inside ++ [closer]) ++ rest =
      c :: word ++ (inside ++ closer :: rest) := by simp
  rw [joined] at noDigit ⊢
  obtain ⟨pieces, same, consists⟩ := reads noDigit.right (offset + byteCount (c :: word))
  have last := piecesAt_punctuation closes (offset + byteCount (c :: word) + byteCount inside) rest
  refine ⟨⟨token, ⟨offset, offset + byteCount (c :: word)⟩, false⟩ :: (pieces ++
    [⟨.closing bracket, ⟨offset + byteCount (c :: word) + byteCount inside,
      offset + byteCount (c :: word) + byteCount inside + byteCount [closer]⟩, false⟩]), ?_,
    Consists.block allows opens consists rfl allowsCloser⟩
  rw [piecesAt_token notSlash (read _) offset, same, last, byteCount_append, byteCount_append]
  simp [Nat.add_assoc]

/-- Parts one behind the other, where each may follow what ends a name. -/
theorem flatMap {β : Type} {parts : List β} {write : β → List Char}
    (reads : ∀ part ∈ parts, ∀ rest, EndsName rest → Reads allowed (write part) rest)
    (begins : ∀ part ∈ parts, ∀ rest, EndsName rest → EndsName (write part ++ rest))
    {rest : List Char} (ends : EndsName rest) :
    EndsName (parts.flatMap write ++ rest) ∧ Reads allowed (parts.flatMap write) rest := by
  induction parts with
  | nil => exact ⟨ends, nil rest⟩
  | cons part parts inductionHypothesis =>
      obtain ⟨endsLater, later⟩ := inductionHypothesis
        (fun other member => reads other (List.mem_cons_of_mem part member))
        (fun other member => begins other (List.mem_cons_of_mem part member))
      rw [List.flatMap_cons]
      constructor
      · rw [List.append_assoc]
        exact begins part List.mem_cons_self _ endsLater
      · exact append (reads part List.mem_cons_self _ endsLater) later

end Reads

end Sheet

end CssLint
