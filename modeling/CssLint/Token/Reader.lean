import CssLint.Token.Basic
import CssLint.Token.Name
import CssLint.Token.Number
import CssLint.Text.Search

/-!
Reading one token.

`Token.read` takes the first character of a text and what follows it, and gives
the token that begins there together with what follows the token. No character
is read twice, and what is left is never longer than what was given.
-/

namespace CssLint.Token

open Text

/-! ## Strings -/

/-- The string that ends at `quote`, and what follows it. A string that a line feed breaks off
has no value, and the line feed stays. -/
def readString (quote : Char) (text : List Char) : Option (List Char) × List Char :=
  match text with
  | [] => (some [], [])
  | c :: text =>
    if c = quote then (some [], text)
    else if c = '\n' then (none, c :: text)
    else if c = '\\' then
      if text.isEmpty then (some [], [])
      else if text.head? = some '\n' then readString quote text.tail
      else
        let escape := Name.readEscape text
        let more := readString quote escape.2
        (more.1.map (escape.1 :: ·), more.2)
    else
      let more := readString quote text
      (more.1.map (c :: ·), more.2)
termination_by text.length
decreasing_by
  · simp only [List.length_tail, List.length_cons]
    omega
  · have := Name.length_readEscape_le text
    simp only [List.length_cons]
    omega
  · simp

theorem length_readString_le (quote : Char) (text : List Char) :
    (readString quote text).2.length ≤ text.length := by
  fun_induction readString quote text with
  | case1 => exact Nat.le_refl _
  | case2 => simp
  | case3 => exact Nat.le_refl _
  | case4 => simp
  | case5 text _ _ _ _ inductionHypothesis =>
      simp only [List.length_tail, List.length_cons] at *
      omega
  | case6 text =>
      have := Name.length_readEscape_le text
      simp +zetaDelta only [List.length_cons] at *
      omega
  | case7 =>
      simp +zetaDelta only [List.length_cons] at *
      omega

/-! ## Addresses -/

/-- What follows an address that cannot be read: the text behind the next `)` that is not
escaped. -/
def skipBadUrl (text : List Char) : List Char :=
  match text with
  | [] => []
  | c :: text =>
    if c = ')' then text
    else if Name.startsEscape (c :: text) then skipBadUrl (Name.readEscape text).2
    else skipBadUrl text
termination_by text.length
decreasing_by
  · have := Name.length_readEscape_le text
    simp only [List.length_cons]
    omega
  · simp

theorem length_skipBadUrl_le (text : List Char) : (skipBadUrl text).length ≤ text.length := by
  fun_induction skipBadUrl text with
  | case1 => exact Nat.le_refl _
  | case2 text => simp
  | case3 c text close begins inductionHypothesis =>
      have := Name.length_readEscape_le text
      simp only [List.length_cons]
      omega
  | case4 c text close begins inductionHypothesis =>
      simp only [List.length_cons]
      omega

/-- The address that ends at `)`, and what follows it. An address with a quote, an opening
parenthesis or a blank inside has no value. -/
def readUrl (text : List Char) : Option (List Char) × List Char :=
  match text with
  | [] => (some [], [])
  | c :: text =>
    if c = ')' then (some [], text)
    else if isBlank c then
      match text.dropWhile isBlank with
      | [] => (some [], [])
      | next :: rest => if next = ')' then (some [], rest) else (none, skipBadUrl (next :: rest))
    else if c = '"' || c = '\'' || c = '(' then (none, skipBadUrl text)
    else if c = '\\' then
      if Name.startsEscape (c :: text) then
        let escape := Name.readEscape text
        let more := readUrl escape.2
        (more.1.map (escape.1 :: ·), more.2)
      else (none, skipBadUrl text)
    else
      let more := readUrl text
      (more.1.map (c :: ·), more.2)
termination_by text.length
decreasing_by
  · have := Name.length_readEscape_le text
    simp only [List.length_cons]
    omega
  · simp

theorem length_readUrl_le (text : List Char) : (readUrl text).2.length ≤ text.length := by
  fun_induction readUrl text with
  | case1 => exact Nat.le_refl _
  | case2 => simp
  | case3 => simp
  | case4 c text _ _ rest dropped =>
      have := (List.dropWhile_suffix isBlank (l := text)).length_le
      simp only [dropped, List.length_cons] at this ⊢
      omega
  | case5 c text _ _ next rest dropped =>
      have := (List.dropWhile_suffix isBlank (l := text)).length_le
      have := length_skipBadUrl_le (next :: rest)
      simp only [dropped, List.length_cons] at *
      omega
  | case6 c text =>
      have := length_skipBadUrl_le text
      simp only [List.length_cons]
      omega
  | case7 text =>
      have := Name.length_readEscape_le text
      simp +zetaDelta only [List.length_cons] at *
      omega
  | case8 text =>
      have := length_skipBadUrl_le text
      simp only [List.length_cons]
      omega
  | case9 =>
      simp +zetaDelta only [List.length_cons] at *
      omega

/-! ## Names and numbers -/

def startsQuote : List Char → Bool
  | [] => false
  | c :: _ => c == '"' || c == '\''

/-- The token that begins with a name: a name, a function, or an address without quotes. -/
def readIdentLike (text : List Char) : Token × List Char :=
  let (name, rest) := Name.read text
  match after? ['('] rest with
  | none => (ident name, rest)
  | some argument =>
    if alike name ['u', 'r', 'l'] && !startsQuote (argument.dropWhile isBlank) then
      match readUrl (argument.dropWhile isBlank) with
      | (some value, rest) => (url value, rest)
      | (none, rest) => (badUrl, rest)
    else (function name, argument)

/-- The token that begins with a number: a number, a percentage, or a dimension. -/
def readNumeric (text : List Char) : Token × List Char :=
  let (digits, rest) := Numeral.read text
  if Name.starts rest then
    let (unit, rest) := Name.read rest
    (dimension digits unit, rest)
  else
    match after? ['%'] rest with
    | some rest => (percentage digits, rest)
    | none => (number digits, rest)

theorem length_readIdentLike_lt {c : Char} {text : List Char}
    (begins : Name.starts (c :: text) = true) :
    (readIdentLike (c :: text)).2.length < (c :: text).length := by
  have ofName := Name.length_read_lt begins
  simp only [readIdentLike]
  split
  · exact ofName
  · rename_i argument found
    have ofParenthesis := length_lt_of_after? found
    have ofBlanks := (List.dropWhile_suffix isBlank (l := argument)).length_le
    have ofUrl := length_readUrl_le (argument.dropWhile isBlank)
    split
    · split <;> (rename_i same; simp only [same] at ofUrl ⊢; omega)
    · simp only
      omega

theorem length_readNumeric_lt {text : List Char} (begins : Numeral.starts text = true) :
    (readNumeric text).2.length < text.length := by
  have ofNumber := Numeral.length_read_lt begins
  have ofUnit := Name.length_read_le (Numeral.read text).2
  simp only [readNumeric]
  split
  · simp only
    omega
  · split
    · rename_i found
      have := length_lt_of_after? found
      simp only
      omega
    · exact ofNumber

/-! ## Tokens -/

/-- The token of a character that is a token by itself. -/
def ofPunctuation? : Char → Option Token
  | '(' => some (opening .round)
  | ')' => some (closing .round)
  | ',' => some comma
  | ':' => some colon
  | ';' => some semicolon
  | '[' => some (opening .square)
  | ']' => some (closing .square)
  | '\x7b' => some (opening .curly)
  | '\x7d' => some (closing .curly)
  | _ => none

/-- The token that begins with `c` in front of `text`, and what follows it. -/
def read (c : Char) (text : List Char) : Token × List Char :=
  if isBlank c then (whitespace, text.dropWhile isBlank)
  else if c = '"' || c = '\'' then
    match readString c text with
    | (some value, rest) => (string value, rest)
    | (none, rest) => (badString, rest)
  else if c = '#' && (text.head?.any Name.isPart || Name.startsEscape text) then
    let (value, rest) := Name.read text
    (hash value (Name.starts text), rest)
  else if c = '<' && (after? ['!', '-', '-'] text).isSome then (commentOpen, text.drop 3)
  else if c = '@' && Name.starts text then
    let (name, rest) := Name.read text
    (atKeyword name, rest)
  else if Numeral.starts (c :: text) then readNumeric (c :: text)
  else if c = '-' && (after? ['-', '>'] text).isSome then (commentClose, text.drop 2)
  else if Name.starts (c :: text) then readIdentLike (c :: text)
  else
    match ofPunctuation? c with
    | some token => (token, text)
    | none => (delim c, text)

/-- What follows a token is no longer than what follows its first character. -/
theorem length_read_le (c : Char) (text : List Char) : (read c text).2.length ≤ text.length := by
  have ofBlanks := (List.dropWhile_suffix isBlank (l := text)).length_le
  have ofString := length_readString_le c text
  have ofName := Name.length_read_le text
  unfold read
  split
  · exact ofBlanks
  split
  · split <;> (rename_i same; simp only [same] at ofString ⊢; exact ofString)
  split
  · exact ofName
  split
  · simp
  split
  · exact ofName
  split
  · rename_i begins
    exact Nat.le_of_lt_succ (length_readNumeric_lt begins)
  split
  · simp
  split
  · rename_i begins
    exact Nat.le_of_lt_succ (length_readIdentLike_lt begins)
  split <;> exact Nat.le_refl _

end CssLint.Token
