import CssLint.Proofs.Text.HexDigits
import CssLint.Proofs.Token.SlicedTokens

/-!
# Names in hexadecimal escapes

Any character but the null character can be written as its number in hexadecimal digits
behind a backslash, with a blank to end it.  The reader of names gives back the characters
that are written so, and goes on behind the last of them as it would there.  So a text of
such escapes is one name, also where its characters are blanks, quotes or backslashes.
-/

namespace CssLint

open Text

namespace Name

/-! ## Escapes as they are written -/

/-- A character as a hexadecimal escape: its number in at most six digits, and the blank that ends
it. -/
structure HexEscape where
  char : Char
  digits : List Char
  blank : Char
  notNull : char ≠ '\x00'
  writes : WritesHex digits char.toNat
  atMostSix : digits.length ≤ 6
  ends : isBlank blank = true

namespace HexEscape

def text (escape : HexEscape) : List Char :=
  '\\' :: (escape.digits ++ [escape.blank])

theorem length_toDigits_le (c : Char) : (Nat.toDigits 16 c.toNat).length ≤ 6 := by
  have below : c.toNat < 16 ^ 6 := by
    have valid : c.toNat.isValidChar := c.valid
    rw [Nat.isValidChar] at valid
    omega
  exact (Nat.length_toDigits_le_iff (by decide) (by decide)).2 below

/-- The shortest escape of a character, with a space behind it. -/
def shortest (c : Char) (notNull : c ≠ '\x00') : HexEscape where
  char := c
  digits := Nat.toDigits 16 c.toNat
  blank := ' '
  notNull := notNull
  writes := .toDigits c.toNat
  atMostSix := length_toDigits_le c
  ends := rfl

/-- All texts without the null character can be written in escapes. -/
theorem exists_map_char {chars : List Char} (noNull : '\x00' ∉ chars) :
    ∃ escapes : List HexEscape, escapes.map char = chars := by
  induction chars with
  | nil => exact ⟨[], rfl⟩
  | cons c chars inductionHypothesis =>
      rw [List.mem_cons, not_or] at noNull
      obtain ⟨escapes, same⟩ := inductionHypothesis noNull.2
      exact ⟨shortest c (Ne.symm noNull.1) :: escapes, by rw [List.map_cons, same, shortest]⟩

end HexEscape

/-! ## Reading one escape -/

/-- A run of characters that is not too long is taken up to the first other character. -/
theorem takeAtMost_run {property : Char → Bool} {run : List Char} {c : Char} {limit : Nat}
    (each : ∀ other ∈ run, property other = true) (short : run.length ≤ limit)
    (stops : property c = false) (rest : List Char) :
    takeAtMost property limit (run ++ c :: rest) = (run, c :: rest) := by
  induction run generalizing limit with
  | nil =>
      cases limit with
      | zero => rfl
      | succ limit => simp [takeAtMost, stops]
  | cons first run inductionHypothesis =>
      cases limit with
      | zero => cases short
      | succ limit =>
          have later := inductionHypothesis
            (fun other member => each other (List.mem_cons_of_mem first member))
            (Nat.le_of_succ_le_succ short)
          simp only [List.cons_append, takeAtMost, each first List.mem_cons_self, if_true, later]

/-- The number of a character stands for that character. -/
theorem ofCode_toNat {c : Char} (notNull : c ≠ '\x00') : ofCode c.toNat = c := by
  have positive : c.toNat ≠ 0 := fun zero => notNull (Char.toNat_inj.1 zero)
  have valid : c.toNat.isValidChar := c.valid
  rw [ofCode, if_neg positive, if_pos valid, Char.ofNat_toNat]

theorem readEscape_hexEscape (escape : HexEscape) (rest : List Char) :
    readEscape (escape.digits ++ escape.blank :: rest) = (escape.char, rest) := by
  obtain ⟨char, digits, blank, notNull, writes, atMostSix, ends⟩ := escape
  cases digits with
  | nil => exact absurd rfl writes.ne_nil
  | cons first digits =>
      -- The first digit is read by itself, and at most five others behind it.
      have taken : takeAtMost isHexDigit 5 (digits ++ blank :: rest) = (digits, blank :: rest) :=
        takeAtMost_run (fun c member => writes.isHexDigit (List.mem_cons_of_mem first member))
          (Nat.le_of_succ_le_succ atMostSix) (not_isHexDigit_of_isBlank ends) rest
      simp only [List.cons_append, readEscape, writes.isHexDigit List.mem_cons_self, if_true, taken,
        writes.hexValue_eq, ofCode_toNat notNull, dropBlank, ends]

/-- The number of the null character stands for the replacement character. -/
example : readEscape ['0', ' '] = (replacement, []) := by decide

theorem startsEscape_hexEscape (escape : HexEscape) (rest : List Char) :
    startsEscape (escape.text ++ rest) = true := by
  obtain ⟨char, digits, blank, notNull, writes, atMostSix, ends⟩ := escape
  cases digits with
  | nil => exact absurd rfl writes.ne_nil
  | cons first digits =>
      have notFeed : first ≠ '\n' := by
        rintro rfl
        exact absurd (writes.isHexDigit List.mem_cons_self) (by decide)
      simp [HexEscape.text, startsEscape, notFeed]

/-! ## Reading a name -/

theorem read_hexEscape (escape : HexEscape) (rest : List Char) :
    read (escape.text ++ rest) = (escape.char :: (read rest).1, (read rest).2) := by
  have begins := startsEscape_hexEscape escape rest
  have notPart : ¬isPart '\\' = true := by decide
  simp only [HexEscape.text, List.cons_append, List.append_assoc, List.nil_append] at begins ⊢
  rw [read, if_neg notPart, if_pos begins, readEscape_hexEscape]

/-- Escapes in front of a text put their characters in front of its name. -/
theorem read_hexEscapes (escapes : List HexEscape) (rest : List Char) :
    read (escapes.flatMap HexEscape.text ++ rest) =
      (escapes.map HexEscape.char ++ (read rest).1, (read rest).2) := by
  induction escapes with
  | nil => rfl
  | cons escape escapes inductionHypothesis =>
      rw [List.flatMap_cons, List.append_assoc, read_hexEscape, inductionHypothesis]
      rfl

end Name

/-! ## Tokens and lexemes -/

namespace Token

theorem read_backslash {text : List Char} (begins : Name.startsEscape ('\\' :: text) = true) :
    read '\\' text = readIdentLike ('\\' :: text) := by
  have noNumber : Numeral.starts ('\\' :: text) = false :=
    Numeral.starts_of_not_mem (by decide) (by decide) text
  have name : Name.starts ('\\' :: text) = true := begins
  simp [read, isBlank, noNumber, name]

/-- Escapes are a name of their characters, whatever these are, in front of a text that does not
go on with it. -/
theorem readIdentLike_hexEscapes (escapes : List Name.HexEscape) {rest : List Char}
    (ends : EndsName rest) :
    readIdentLike (escapes.flatMap Name.HexEscape.text ++ rest) =
      (ident (escapes.map Name.HexEscape.char), rest) := by
  have behind : Name.read rest = ([], rest) :=
    @Name.read_append [] rest (List.forall_mem_nil _) ends.stops
  rw [readIdentLike, Name.read_hexEscapes, behind, List.append_nil]
  simp only [ends.after?_call]

theorem read_hexEscapes (escape : Name.HexEscape) (escapes : List Name.HexEscape) {rest : List Char}
    (ends : EndsName rest) :
    read '\\' ((escape :: escapes).flatMap Name.HexEscape.text ++ rest).tail =
      (ident (escape.char :: escapes.map Name.HexEscape.char), rest) := by
  have begins : Name.startsEscape ((escape :: escapes).flatMap Name.HexEscape.text ++ rest) =
      true := by
    rw [List.flatMap_cons, List.append_assoc]
    exact Name.startsEscape_hexEscape escape _
  exact (read_backslash begins).trans (readIdentLike_hexEscapes (escape :: escapes) ends)

end Token

namespace Lexeme

/-- Every text without the null character can be written in hexadecimal escapes, and however it is
written so, the escapes are one name, which is that text, and there is no other token in them. -/
theorem tokenize_hexEscapes {chars : List Char} (nonempty : chars ≠ [])
    (noNull : '\x00' ∉ chars) :
    (∃ escapes : List Name.HexEscape, escapes.map Name.HexEscape.char = chars) ∧
      ∀ escapes : List Name.HexEscape, escapes.map Name.HexEscape.char = chars →
        let text := escapes.flatMap Name.HexEscape.text
        tokenize text =
          [⟨.ident chars, ⟨0, byteCount text⟩⟩,
            ⟨.endOfInput, ⟨byteCount text, byteCount text⟩⟩] := by
  refine ⟨Name.HexEscape.exists_map_char noNull, ?_⟩
  rintro escapes rfl text
  cases escapes with
  | nil => exact absurd rfl nonempty
  | cons escape escapes =>
      have isName := Token.read_hexEscapes escape escapes endsName_nil
      rw [List.append_nil] at isName
      exact tokenize_alone (skipComments_of_not_slash (by decide) text.tail) isName

/-- Quotes, backslashes and blanks are characters of the name when escapes write them: with and
without zeros in front, in either letter case, and in front of each blank. -/
theorem tokenize_hexEscapes_blanksAndQuotes :
    let chars := ['\\', '"', ' ', Char.ofNat 0x10ffff, '\n']
    let text := "\\5C\n\\000022\r\\020\t\\10fFFf \\a\x0c".toList
    chars ≠ [] ∧ '\x00' ∉ chars ∧
      tokenize text = [⟨.ident chars, ⟨0, 28⟩⟩, ⟨.endOfInput, ⟨28, 28⟩⟩] := by
  intro chars text
  let escapes : List Name.HexEscape :=
    [⟨'\\', ['5', 'C'], '\n', by decide, by decide, by decide, rfl⟩,
      ⟨'"', ['0', '0', '0', '0', '2', '2'], '\r', by decide, by decide, by decide, rfl⟩,
      ⟨' ', ['0', '2', '0'], '\t', by decide, by decide, by decide, rfl⟩,
      ⟨Char.ofNat 0x10ffff, ['1', '0', 'f', 'F', 'F', 'f'], ' ', by decide, by decide, by decide,
        rfl⟩,
      ⟨'\n', ['a'], '\x0c', by decide, by decide, by decide, rfl⟩]
  have nonempty : chars ≠ [] := List.cons_ne_nil _ _
  have noNull : '\x00' ∉ chars := by decide
  have written : escapes.flatMap Name.HexEscape.text = text := by decide
  refine ⟨nonempty, noNull, ?_⟩
  have whole := (tokenize_hexEscapes nonempty noNull).2 escapes rfl
  rwa [written] at whole

end Lexeme

end CssLint
