import CssLint.Json.Number
import CssLint.Text.Digit

/-!
Reading JSON.

The grammar is the strict one: no comments, no trailing commas, no characters
below the space inside strings. A value may hold as many containers inside each
other as `levels` allows. In the lenient mode only the grammar counts: strings
may hold halves of surrogate pairs, and numbers may be of any size.

Each reading function gives what it read and what follows. That the text becomes
shorter is part of the result, for the functions that read several items go on
with what the reader of one item left.
-/

namespace CssLint.Json

open Text

/-- Reads something from the front of a text and leaves a shorter text. -/
abbrev Reader (α : Type) : Type :=
  (text : List Char) → Option (α × { rest : List Char // rest.length < text.length })

/-! ## White space and words -/

/-- The characters that may stand between the parts of a value. -/
def isGap (c : Char) : Bool :=
  c == ' ' || c == '\n' || c == '\t' || c == '\r'

/-- The text without the gap at its beginning. -/
def skipGap (text : List Char) : List Char :=
  text.dropWhile isGap

theorem length_skipGap_le (text : List Char) : (skipGap text).length ≤ text.length := by
  have joined := congrArg List.length (List.takeWhile_append_dropWhile (p := isGap) (l := text))
  rw [List.length_append] at joined
  simp only [skipGap]
  omega

/-! ## Strings -/

/-- The number that four hexadecimal digits write. -/
def hexCode? (digits : List Char) : Option Nat :=
  if digits.all isHexDigit then some (hexValue digits) else none

def isHighHalf (code : Nat) : Bool :=
  0xd800 ≤ code && code < 0xdc00

def isLowHalf (code : Nat) : Bool :=
  0xdc00 ≤ code && code < 0xe000

/-- The character that a surrogate pair stands for. -/
def ofHalves (high low : Nat) : Char :=
  Char.ofNat (0x10000 + (high - 0xd800) * 0x400 + (low - 0xdc00))

/-- The character that a one-letter escape stands for. -/
def shortEscape? : Char → Option Char
  | '"' => some '"'
  | '\\' => some '\\'
  | '/' => some '/'
  | 'b' => some '\x08'
  | 'f' => some '\x0c'
  | 'n' => some '\n'
  | 'r' => some '\r'
  | 't' => some '\t'
  | _ => none

/-- What stands for half a surrogate pair in the lenient mode. -/
def halfReplacement : Char := '\ufffd'

/-- The rest of a string behind its opening quote, and what follows the closing one. -/
def readStringEnd (lenient : Bool) : List Char → Option (List Char × List Char)
  | '\\' :: 'u' :: first :: second :: third :: fourth :: text => do
    let code ← hexCode? [first, second, third, fourth]
    if isHighHalf code && !lenient then
      match text with
      | '\\' :: 'u' :: first :: second :: third :: fourth :: text =>
        let low ← hexCode? [first, second, third, fourth]
        if isLowHalf low then
          let (value, rest) ← readStringEnd lenient text
          return (ofHalves code low :: value, rest)
        else none
      | _ => none
    else if isLowHalf code && !lenient then none
    else
      let c := if isHighHalf code || isLowHalf code then halfReplacement else Char.ofNat code
      let (value, rest) ← readStringEnd lenient text
      return (c :: value, rest)
  | '\\' :: c :: text => do
    let c ← shortEscape? c
    let (value, rest) ← readStringEnd lenient text
    return (c :: value, rest)
  | c :: text =>
    if c = '"' then some ([], text)
    else if c.toNat < 0x20 || c = '\\' then none
    else do
      let (value, rest) ← readStringEnd lenient text
      return (c :: value, rest)
  | [] => none

def readString (lenient : Bool) : Reader String := fun text =>
  match text with
  | [] => none
  | c :: inside =>
    if c = '"' then
      match readStringEnd lenient inside with
      | none => none
      | some (value, rest) =>
        if shorter : rest.length < (c :: inside).length then
          some (String.ofList value, ⟨rest, shorter⟩)
        else none
    else none

/-! ## Numbers -/

/-- The digits at the beginning of the text by their values, and what follows them. -/
def readDigits (text : List Char) : List Nat × List Char :=
  ((text.takeWhile Char.isDigit).map fun c => c.toNat - '0'.toNat, text.dropWhile Char.isDigit)

/-- The digits of a whole number, which begin with a zero only if that is all. -/
def readWhole (text : List Char) : Option (List Nat × List Char) :=
  match readDigits text with
  | ([], _) => none
  | (0 :: _ :: _, _) => none
  | digits => some digits

/-- The fraction of a number, if the text begins with a point. -/
def readFraction : List Char → Option (Option (List Nat) × List Char)
  | '.' :: text =>
    match readDigits text with
    | ([], _) => none
    | (digits, rest) => some (some digits, rest)
  | text => some (none, text)

/-- The exponent of a number, if the text begins with its mark. -/
def readExponent : List Char → Option (Option (Bool × List Nat) × List Char)
  | [] => some (none, [])
  | c :: text =>
    if c = 'e' || c = 'E' then
      let (negative, text) :=
        match text with
        | '+' :: text => (false, text)
        | '-' :: text => (true, text)
        | text => (false, text)
      match readDigits text with
      | ([], _) => none
      | (digits, rest) => some (some (negative, digits), rest)
    else some (none, c :: text)

def readLiteral (text : List Char) : Option (Literal × List Char) := do
  let (negative, text) :=
    match text with
    | '-' :: text => (true, text)
    | text => (false, text)
  let (whole, text) ← readWhole text
  let (fraction, text) ← readFraction text
  let (exponent, text) ← readExponent text
  return (⟨negative, whole, fraction, exponent⟩, text)

/-- A number; in the lenient mode one without a value counts as zero. -/
def readNumber (lenient : Bool) : Reader JsonNumber := fun text =>
  match readLiteral text with
  | none => none
  | some (literal, rest) =>
    if shorter : rest.length < text.length then
      match literal.value? with
      | some value => some (value, ⟨rest, shorter⟩)
      | none => if lenient then some (.integer 0, ⟨rest, shorter⟩) else none
    else none

/-! ## Items -/

/-- Items with commas between them, up to the character `close`. -/
def readItems {α : Type} (item : Reader α) (close : Char) (text : List Char) :
    Option (List α × { rest : List Char // rest.length < text.length }) :=
  match item text with
  | none => none
  | some (value, ⟨rest, shorter⟩) =>
    match found : skipGap rest with
    | [] => none
    | c :: more =>
      have left : more.length < rest.length := by
        have := length_skipGap_le rest
        simp only [found, List.length_cons] at this
        omega
      if c = close then some ([value], ⟨more, by omega⟩)
      else if c = ',' then
        match readItems item close more with
        | none => none
        | some (values, ⟨end_, ended⟩) => some (value :: values, ⟨end_, by omega⟩)
      else none
termination_by text.length

/-- The items of a container behind its opening bracket. -/
def readContainer {α : Type} (item : Reader α) (close : Char) : Reader (List α) := fun text =>
  match found : skipGap text with
  | [] => none
  | c :: rest =>
    if c = close then
      some ([], ⟨rest, by
        have := length_skipGap_le text
        simp only [found, List.length_cons] at this
        omega⟩)
    else readItems item close text

/-- A reader that goes on with what a gap is followed by. -/
def afterGap {α : Type} (reader : Reader α) : Reader α := fun text =>
  match reader (skipGap text) with
  | none => none
  | some (value, ⟨rest, shorter⟩) =>
    some (value, ⟨rest, Nat.lt_of_lt_of_le shorter (length_skipGap_le text)⟩)

/-- The member of an object: a name, a colon, and a value, which the reader for its name
reads. -/
def readMember {α : Type} (lenient : Bool) (value : String → Reader α) :
    Reader (String × α) :=
  afterGap fun text =>
    match readString lenient text with
    | none => none
    | some (name, ⟨rest, shorter⟩) =>
      match found : skipGap rest with
      | [] => none
      | c :: more =>
        if c = ':' then
          match value name more with
          | none => none
          | some (value, ⟨end_, ended⟩) =>
            some ((name, value), ⟨end_, by
              have := length_skipGap_le rest
              simp only [found, List.length_cons] at this
              omega⟩)
        else none

/-- A reader for what follows an opening bracket, as a reader for the text from the bracket
on. -/
def afterBracket {α : Type} (reader : Reader α) (c : Char) (inside : List Char) :
    Option (α × { rest : List Char // rest.length < (c :: inside).length }) :=
  match reader inside with
  | none => none
  | some (value, ⟨rest, shorter⟩) => some (value, ⟨rest, Nat.lt_succ_of_lt shorter⟩)

/-! ## Values -/

def word? : List Char → Option Json
  | ['n', 'u', 'l', 'l'] => some null
  | ['t', 'r', 'u', 'e'] => some (bool true)
  | ['f', 'a', 'l', 's', 'e'] => some (bool false)
  | _ => none

/-- One of the words for null and the truth values. -/
def readWord : Reader Json := fun text =>
  match [4, 5].findSome? fun length => (word? (text.take length)).map (·, text.drop length) with
  | none => none
  | some (value, rest) =>
    if shorter : rest.length < text.length then some (value, ⟨rest, shorter⟩) else none

/-- A value that holds at most `levels` containers inside each other. -/
def readValue (lenient : Bool) (levels : Nat) : Reader Json :=
  afterGap fun text =>
    match text with
    | [] => none
    | c :: inside =>
      if c = '"' then
        (readString lenient (c :: inside)).map fun (value, rest) => (string value, rest)
      else if c = '[' then
        match levels with
        | 0 => none
        | levels + 1 =>
          (afterBracket (readContainer (readValue lenient levels) ']') c inside).map
            fun (elements, rest) => (array elements, rest)
      else if c = '\x7b' then
        match levels with
        | 0 => none
        | levels + 1 =>
          let member := readMember lenient fun _ => readValue lenient levels
          (afterBracket (readContainer member '\x7d') c inside).map
            fun (members, rest) => (object (Members.ofList members), rest)
      else if c = '-' || c.isDigit then
        (readNumber lenient (c :: inside)).map fun (value, rest) => (number value, rest)
      else readWord (c :: inside)

/-- How many containers a value may hold inside each other. -/
def maxLevels : Nat := 127

/-- What a reader reads, if nothing but a gap follows it. -/
def complete? {α : Type} (reader : Reader α) (text : List Char) : Option α :=
  match reader text with
  | some (value, ⟨rest, _⟩) => if (skipGap rest).isEmpty then some value else none
  | none => none

/-- The value that a text writes, with the given number of levels. -/
def ofText? (levels : Nat) (text : String) : Option Json :=
  complete? (readValue false levels) text.toList

end CssLint.Json
