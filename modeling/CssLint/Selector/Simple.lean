import CssLint.Selector.Attribute
import CssLint.Selector.Fault
import CssLint.Selector.Name

/-!
Simple selectors.

A simple selector is a type, a class, an id, an attribute test, a pseudo-class
or pseudo-element, the universal selector, the nesting selector, or a string.
The arguments of some pseudo-classes are selector lists; a `ListReader` reads
them. The arguments of all others are passed over up to the closing parenthesis.

Every reading function gives what it read and what follows, and leaves a shorter
text.
-/

namespace CssLint.Selector

open Text

/-! ## Results -/

/-- What a reading function gives: what it read and what follows, or why it cannot be read. -/
abbrev Reading (α : Type) : Type := Except (Fault (List Char)) (α × List Char)

def Reading.prepend {α : Type} (front : List α) : Reading (List α) → Reading (List α)
  | .error fault => .error fault
  | .ok (items, rest) => .ok (front ++ items, rest)

theorem Reading.prepend_eq_ok_iff {α : Type} {front items : List α} {rest : List Char}
    {reading : Reading (List α)} :
    Reading.prepend front reading = .ok (items, rest) ↔
      ∃ more, reading = .ok (more, rest) ∧ items = front ++ more := by
  cases reading with
  | error fault => simp [Reading.prepend]
  | ok read =>
      obtain ⟨more, final⟩ := read
      constructor
      · intro same
        cases same
        exact ⟨more, rfl, rfl⟩
      · rintro ⟨more, same, rfl⟩
        cases same
        rfl

/-- A reader for selector lists, which never leaves more than it is given. -/
structure ListReader where
  read : List Char → Reading (List Node)
  length_le : ∀ {text rest : List Char} {entries : List Node},
    read text = .ok (entries, rest) → rest.length ≤ text.length

/-- A node without children whose text lies between `text` and `rest`. -/
def leafBefore (kind : Kind) (text rest : List Char) : Node × List Char :=
  (Node.leaf kind (before text rest), rest)

/-- The fault of a text without a name behind `mark`, where `start` begins with the mark and
`rest` follows it. -/
def missingName (mark start rest : List Char) : Fault (List Char) :=
  match rest with
  | [] => .expectedIdentifier mark start
  | c :: _ =>
    if isBlank c || c = ',' then .expectedIdentifier mark start
    else .unexpectedCharacter c rest

/-! ## Closing ends -/

/-- What follows the string that the text begins inside. -/
def stringEnd? (quote : Char) : List Char → Option (List Char)
  | [] => none
  | '\\' :: [] => none
  | '\\' :: _ :: text => stringEnd? quote text
  | c :: text => if c = quote then some text else stringEnd? quote text

theorem length_le_of_stringEnd? {quote : Char} {text rest : List Char}
    (closed : stringEnd? quote text = some rest) : rest.length ≤ text.length := by
  fun_induction stringEnd? quote text with
  | case1 => cases closed
  | case2 => cases closed
  | case3 _ text inductionHypothesis =>
      have := inductionHypothesis closed
      simp only [List.length_cons]
      omega
  | case4 c text =>
      cases closed
      simp
  | case5 c text _ _ _ inductionHypothesis => exact Nat.le_succ_of_le (inductionHypothesis closed)

/-- What follows the attribute selector that begins at `start` and that the text begins
inside. -/
def attributeEnd (start text : List Char) : Except (Fault (List Char)) (List Char) :=
  match text with
  | [] => .error (.unclosed .attribute start)
  | c :: text =>
    if c = ']' then .ok text
    else if c = '"' || c = '\'' then
      match _closed : stringEnd? c text with
      | none => .error (.unclosed .string (c :: text))
      | some rest => attributeEnd start rest
    else if c = '\\' then attributeEnd start (text.drop 1)
    else attributeEnd start text
termination_by text.length
decreasing_by
  · exact Nat.lt_succ_of_le (length_le_of_stringEnd? _closed)
  · simp only [List.length_drop, List.length_cons]
    omega
  · simp

theorem length_le_of_attributeEnd {start text rest : List Char}
    (closed : attributeEnd start text = .ok rest) : rest.length ≤ text.length := by
  fun_induction attributeEnd start text with
  | case1 => cases closed
  | case2 text =>
      cases closed
      simp
  | case3 => cases closed
  | case4 c text _ _ inner found inductionHypothesis =>
      exact Nat.le_succ_of_le
        (Nat.le_trans (inductionHypothesis closed) (length_le_of_stringEnd? found))
  | case5 text _ _ inductionHypothesis =>
      have := inductionHypothesis closed
      simp only [List.length_drop, List.length_cons] at *
      omega
  | case6 c text _ _ _ inductionHypothesis => exact Nat.le_succ_of_le (inductionHypothesis closed)

/-- What follows the parenthesis that begins at `start`, where the text begins inside it and
`depth` further ones. -/
def parenthesisEnd (start : List Char) (depth : Nat) (text : List Char) :
    Except (Fault (List Char)) (List Char) :=
  match text with
  | [] => .error (.unclosed .parenthesis start)
  | c :: text =>
    if c = '"' || c = '\'' then
      match _closed : stringEnd? c text with
      | none => .error (.unclosed .string (c :: text))
      | some rest => parenthesisEnd start depth rest
    else if c = '(' then parenthesisEnd start (depth + 1) text
    else if c = ')' then
      match depth with
      | 0 => .ok text
      | depth + 1 => parenthesisEnd start depth text
    else if c = '\\' then parenthesisEnd start depth (text.drop 1)
    else parenthesisEnd start depth text
termination_by text.length
decreasing_by
  · exact Nat.lt_succ_of_le (length_le_of_stringEnd? _closed)
  · simp
  · simp
  · simp only [List.length_drop, List.length_cons]
    omega
  · simp

theorem length_le_of_parenthesisEnd {start text rest : List Char} {depth : Nat}
    (closed : parenthesisEnd start depth text = .ok rest) : rest.length ≤ text.length := by
  fun_induction parenthesisEnd start depth text with
  | case1 => cases closed
  | case2 => cases closed
  | case3 depth c text _ inner found inductionHypothesis =>
      exact Nat.le_succ_of_le
        (Nat.le_trans (inductionHypothesis closed) (length_le_of_stringEnd? found))
  | case4 depth text _ inductionHypothesis => exact Nat.le_succ_of_le (inductionHypothesis closed)
  | case5 =>
      cases closed
      simp
  | case6 text _ _ depth inductionHypothesis =>
      exact Nat.le_succ_of_le (inductionHypothesis closed)
  | case7 depth text _ _ _ inductionHypothesis =>
      have := inductionHypothesis closed
      simp only [List.length_drop, List.length_cons] at *
      omega
  | case8 depth c text _ _ _ _ inductionHypothesis =>
      exact Nat.le_succ_of_le (inductionHypothesis closed)

/-! ## Simple selectors -/

/-- Whether a bar that divides a namespace from a name begins the text. -/
def startsNamespaceBar : List Char → Bool
  | '|' :: '=' :: _ => false
  | '|' :: '|' :: _ => false
  | '|' :: _ => true
  | _ => false

/-- The type or universal selector behind a namespace bar; `start` begins with the namespace. -/
def readQualified (start text : List Char) : Reading Node :=
  match after? ['*'] text with
  | some rest => .ok (leafBefore .universal start rest)
  | none =>
    if Name.starts text then .ok (leafBefore .tag start (Name.drop text))
    else .error (missingName ['|'] start text)

/-- A type or universal selector of the given kind, where `rest` follows what may be its
namespace. -/
def readTypeEnd (kind : Kind) (start rest : List Char) : Reading Node :=
  if startsNamespaceBar rest then readQualified start (rest.drop 1)
  else .ok (leafBefore kind start rest)

/-- An attribute selector; the text begins with its bracket. -/
def readAttribute (text : List Char) : Reading Node :=
  match attributeEnd text (text.drop 1) with
  | .error fault => .error fault
  | .ok rest =>
    let written := before text rest
    match AttributeTest.ofBody? (written.drop 1).dropLast with
    | some test => .ok (Node.leaf (.attribute test) written, rest)
    | none => .error (.invalidAttribute written)

/-- The pseudo-classes and pseudo-elements that take a selector list, without colons and in
small letters. -/
def listPseudos : List String :=
  ["not", "is", "matches", "any", "where", "has", "host", "host-context", "slotted", "current",
    "past", "future", "-webkit-any", "-moz-any"]

/-- Whether a pseudo-class or pseudo-element of this name takes a selector list. -/
def takesList (name : List Char) : Bool :=
  (listPseudos.map String.toList).contains (lower name)

/-- How many pseudo-classes that take a selector list may stand inside each other. -/
def maxNesting : Nat := 128

/-- The argument of a pseudo-class: `start` begins with its first colon, `opened` with its
parenthesis, and `text` behind that. -/
def readArgument (inner : Option ListReader) (listed : Bool) (name start opened text : List Char) :
    Reading Node :=
  if listed then
    match after? [')'] (text.dropWhile isBlank) with
    | some rest => .ok (leafBefore (.pseudo name) start rest)
    | none =>
      match inner with
      | none => .error (.tooDeep maxNesting start)
      | some reader =>
        match reader.read (text.dropWhile isBlank) with
        | .error fault => .error fault
        | .ok (entries, rest) =>
          match after? [')'] rest with
          | none => .error (.unclosed .parenthesis opened)
          | some rest => .ok (⟨.pseudo name, before start rest, entries⟩, rest)
  else
    match parenthesisEnd opened 0 text with
    | .error fault => .error fault
    | .ok rest => .ok (leafBefore (.pseudo name) start rest)

/-- A pseudo-class or pseudo-element; the text begins with its first colon. -/
def readPseudo (inner : Option ListReader) (text : List Char) : Reading Node :=
  let mark := if (after? [':', ':'] text).isSome then [':', ':'] else [':']
  let named := text.drop mark.length
  if Name.starts named then
    let rest := Name.drop named
    let name := before text rest
    match after? ['('] rest with
    | none => .ok (Node.leaf (.pseudo name) name, rest)
    | some argument =>
      readArgument inner (takesList (before named rest)) name text rest argument
  else .error (missingName mark text named)

/-- The simple selector that begins with `c` in front of `inside`. -/
def readSimple (inner : Option ListReader) (c : Char) (inside : List Char) : Reading Node :=
  let text := c :: inside
  if c = '.' then
    if Name.starts inside then .ok (leafBefore .className text (Name.drop inside))
    else .error (missingName ['.'] text inside)
  else if c = '#' then
    if Name.drop inside ≠ inside then .ok (leafBefore .id text (Name.drop inside))
    else .error (missingName ['#'] text inside)
  else if c = '*' then readTypeEnd .universal text inside
  else if c = '|' then readQualified text inside
  else if c = '&' then .ok (leafBefore .nesting text inside)
  else if c = '[' then readAttribute text
  else if c = ':' then readPseudo inner text
  else if c = '"' || c = '\'' then
    match stringEnd? c inside with
    | some rest => .ok (leafBefore .string text rest)
    | none => .error (.unclosed .string text)
  else if Name.starts text then readTypeEnd .tag text (Name.drop text)
  else .error (.unexpectedCharacter c text)

/-! ## What simple selectors leave -/

theorem length_le_of_readQualified {start text rest : List Char} {node : Node}
    (read : readQualified start text = .ok (node, rest)) : rest.length ≤ text.length := by
  unfold readQualified at read
  split at read
  · rename_i found
    cases read
    exact Nat.le_of_lt (length_lt_of_after? found)
  · split at read
    · cases read
      exact Name.length_drop_le text
    · cases read

theorem length_le_of_readTypeEnd {kind : Kind} {start text rest : List Char} {node : Node}
    (read : readTypeEnd kind start text = .ok (node, rest)) : rest.length ≤ text.length := by
  unfold readTypeEnd at read
  split at read
  · have := length_le_of_readQualified read
    rw [List.length_drop] at this
    omega
  · cases read
    exact Nat.le_refl _

theorem length_le_of_readAttribute {text rest : List Char} {node : Node}
    (read : readAttribute text = .ok (node, rest)) : rest.length ≤ (text.drop 1).length := by
  unfold readAttribute at read
  split at read
  · cases read
  · rename_i closed
    simp only at read
    split at read
    · cases read
      exact length_le_of_attributeEnd closed
    · cases read

theorem length_le_of_readArgument {inner : Option ListReader} {listed : Bool}
    {name start opened text rest : List Char} {node : Node}
    (read : readArgument inner listed name start opened text = .ok (node, rest)) :
    rest.length ≤ text.length := by
  have ofBlanks := (List.dropWhile_suffix isBlank (l := text)).length_le
  unfold readArgument at read
  split at read
  · split at read
    · rename_i found
      cases read
      have := length_lt_of_after? found
      omega
    · split at read
      · cases read
      · split at read
        · cases read
        · rename_i reader _ _ _ entries
          have := reader.length_le entries
          split at read
          · cases read
          · rename_i found
            cases read
            have := length_lt_of_after? found
            omega
  · split at read
    · cases read
    · rename_i closed
      cases read
      exact length_le_of_parenthesisEnd closed

theorem length_le_of_readPseudo {inner : Option ListReader} {text rest : List Char} {node : Node}
    (read : readPseudo inner text = .ok (node, rest)) : rest.length ≤ (text.drop 1).length := by
  have ofMark : ∀ mark, mark = [':', ':'] ∨ mark = [':'] →
      (text.drop mark.length).length ≤ (text.drop 1).length := by
    rintro mark (rfl | rfl) <;> simp only [List.length_drop, List.length_cons] <;> omega
  simp only [readPseudo] at read
  generalize chosen : (if (after? [':', ':'] text).isSome = true then [':', ':'] else [':']) = mark
    at read
  have ofNamed := ofMark mark (by
    rw [← chosen]
    split
    · exact Or.inl rfl
    · exact Or.inr rfl)
  have ofName := Name.length_drop_le (text.drop mark.length)
  split at read
  · split at read
    · cases read
      omega
    · rename_i found
      have := length_lt_of_after? found
      have := length_le_of_readArgument read
      omega
  · cases read

/-- A simple selector leaves no more than what follows its first character. -/
theorem length_le_of_readSimple {inner : Option ListReader} {c : Char}
    {inside rest : List Char} {node : Node}
    (read : readSimple inner c inside = .ok (node, rest)) : rest.length ≤ inside.length := by
  have ofName := Name.length_drop_le inside
  simp only [readSimple] at read
  split at read
  · split at read
    · cases read
      exact ofName
    · cases read
  split at read
  · split at read
    · cases read
      exact ofName
    · cases read
  split at read
  · exact length_le_of_readTypeEnd read
  split at read
  · exact length_le_of_readQualified read
  split at read
  · cases read
    exact Nat.le_refl _
  split at read
  · exact length_le_of_readAttribute read
  split at read
  · exact length_le_of_readPseudo read
  split at read
  · split at read
    · rename_i closed
      cases read
      exact length_le_of_stringEnd? closed
    · cases read
  split at read
  · rename_i begins
    have := Name.length_drop_lt begins
    have := length_le_of_readTypeEnd read
    simp only [List.length_cons] at *
    omega
  · cases read

end CssLint.Selector
