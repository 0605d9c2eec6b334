import CssLint.Selector.Simple

/-!
Selector lists.

A selector list has entries with commas between them. White space between two
compound selectors is a combinator; around the other combinators, around commas
and at the ends it means nothing, and neither do comments. An entry may begin
with a combinator but not end with one, and two may not meet.

`argumentReader` reads the arguments of pseudo-classes: it counts down how many
more of them may stand inside each other. `Node.ofText` reads a whole text.
-/

namespace CssLint.Selector

open Text

/-! ## Entries -/

/-- What stands last in the part of an entry that has been read, comments apart. -/
inductive Last where
  | nothing
  | compound
  | combinator (combinator : Combinator)
deriving Repr, DecidableEq

/-- The end of an entry, where `rest` follows it. -/
def endEntry (last : Last) (rest : List Char) : Reading (List Node) :=
  match last with
  | .nothing => .error .emptySelector
  | .combinator combinator => .error (.danglingCombinator combinator.symbol)
  | .compound => .ok ([], rest)

/-- The combinator that begins with `c` in front of `text`, and what follows it. -/
def readCombinator? (c : Char) (text : List Char) : Option (Combinator × List Char) :=
  match Combinator.ofChar? c with
  | none => none
  | some combinator =>
    if c = '>' then
      match after? ['>', '>'] text with
      | some rest => some (.deepDescendant, rest)
      | none => some (combinator, text)
    else some (combinator, text)

theorem length_le_of_readCombinator? {c : Char} {text rest : List Char} {combinator : Combinator}
    (read : readCombinator? c text = some (combinator, rest)) : rest.length ≤ text.length := by
  unfold readCombinator? at read
  split at read
  · cases read
  · split at read
    · split at read
      · rename_i found
        cases read
        exact Nat.le_of_lt (length_lt_of_after? found)
      · cases read
        exact Nat.le_refl _
    · cases read
      exact Nat.le_refl _

def combinatorNode (combinator : Combinator) : Node :=
  Node.leaf (.combinator combinator) combinator.symbol

/-- What follows the comment that begins with `c` in front of `text`, if one begins there; `none`
inside is a comment that never closes. -/
def commentEnd? (c : Char) (text : List Char) : Option (Option (List Char)) :=
  (after? ['/', '*'] (c :: text)).map (behind? ['*', '/'])

theorem length_le_of_commentEnd? {c : Char} {text rest : List Char}
    (read : commentEnd? c text = some (some rest)) : rest.length ≤ text.length := by
  rw [commentEnd?, Option.map_eq_some_iff] at read
  obtain ⟨inside, found, closed⟩ := read
  have := length_of_after? found
  have := length_le_of_behind? closed
  simp only [List.length_cons, List.length_nil] at *
  omega

/-- The remaining nodes of an entry behind what stands `last`; `spaced` tells whether white
space has been read since then. Inside parentheses a closing one ends the entry. -/
def readItems (inner : Option ListReader) (nested : Bool) (last : Last) (spaced : Bool)
    (text : List Char) : Reading (List Node) :=
  match text with
  | [] => endEntry last []
  | c :: inside =>
    if c = ',' || (nested && c = ')') then endEntry last (c :: inside)
    else if isBlank c then readItems inner nested last true inside
    else
      match _comment : commentEnd? c inside with
      | some none => .error (.unclosed .comment (c :: inside))
      | some (some rest) =>
        (readItems inner nested last spaced rest).prepend
          [Node.leaf .comment (before (c :: inside) rest)]
      | none =>
        match _combined : readCombinator? c inside with
        | some (combinator, rest) =>
          match last with
          | .combinator _ => .error (.doubleCombinator combinator.symbol)
          | _ =>
            (readItems inner nested (.combinator combinator) false rest).prepend
              [combinatorNode combinator]
        | none =>
          match _simple : readSimple inner c inside with
          | .error fault => .error fault
          | .ok (node, rest) =>
            (readItems inner nested .compound false rest).prepend
              (if last = .compound && spaced then [combinatorNode .descendant, node] else [node])
termination_by text.length
decreasing_by
  · simp
  · exact Nat.lt_succ_of_le (length_le_of_commentEnd? _comment)
  · exact Nat.lt_succ_of_le (length_le_of_readCombinator? _combined)
  · exact Nat.lt_succ_of_le (length_le_of_readSimple _simple)

theorem length_le_of_readItems {inner : Option ListReader} {nested : Bool} {last : Last}
    {spaced : Bool} {text rest : List Char} {nodes : List Node}
    (read : readItems inner nested last spaced text = .ok (nodes, rest)) :
    rest.length ≤ text.length := by
  fun_induction readItems inner nested last spaced text generalizing nodes rest with
  | case1 last =>
      cases last <;> cases read
      exact Nat.le_refl _
  | case2 last =>
      cases last <;> cases read
      exact Nat.le_refl _
  | case3 last spaced c inside _ _ inductionHypothesis =>
      exact Nat.le_succ_of_le (inductionHypothesis read)
  | case4 => cases read
  | case5 last spaced c inside _ _ behind comment inductionHypothesis =>
      obtain ⟨more, later, _⟩ := Reading.prepend_eq_ok_iff.1 read
      exact Nat.le_succ_of_le
        (Nat.le_trans (inductionHypothesis later) (length_le_of_commentEnd? comment))
  | case6 => cases read
  | case7 last spaced c inside _ _ _ combinator behind combined _ inductionHypothesis =>
      obtain ⟨more, later, _⟩ := Reading.prepend_eq_ok_iff.1 read
      exact Nat.le_succ_of_le
        (Nat.le_trans (inductionHypothesis later) (length_le_of_readCombinator? combined))
  | case8 => cases read
  | case9 last spaced c inside _ _ _ _ node behind simple inductionHypothesis =>
      obtain ⟨more, later, _⟩ := Reading.prepend_eq_ok_iff.1 read
      exact Nat.le_succ_of_le
        (Nat.le_trans (inductionHypothesis later) (length_le_of_readSimple simple))

def readEntry (inner : Option ListReader) (nested : Bool) (text : List Char) : Reading Node :=
  let start := text.dropWhile isBlank
  match readItems inner nested .nothing false start with
  | .error fault => .error fault
  | .ok (nodes, rest) => .ok (⟨.selector, trim (before start rest), nodes⟩, rest)

theorem length_le_of_readEntry {inner : Option ListReader} {nested : Bool}
    {text rest : List Char} {entry : Node}
    (read : readEntry inner nested text = .ok (entry, rest)) : rest.length ≤ text.length := by
  have ofBlanks := (List.dropWhile_suffix isBlank (l := text)).length_le
  simp only [readEntry] at read
  split at read
  · cases read
  · rename_i items
    cases read
    exact Nat.le_trans (length_le_of_readItems items) ofBlanks

/-! ## Lists -/

def readList (inner : Option ListReader) (nested : Bool) (text : List Char) :
    Reading (List Node) :=
  match _first : readEntry inner nested text with
  | .error fault => .error fault
  | .ok (entry, rest) =>
    match _comma : after? [','] rest with
    | none => .ok ([entry], rest)
    | some more => (readList inner nested more).prepend [entry]
termination_by text.length
decreasing_by
  exact Nat.lt_of_lt_of_le (length_lt_of_after? _comma) (length_le_of_readEntry _first)

theorem length_le_of_readList {inner : Option ListReader} {nested : Bool}
    {text rest : List Char} {entries : List Node}
    (read : readList inner nested text = .ok (entries, rest)) : rest.length ≤ text.length := by
  fun_induction readList inner nested text generalizing entries rest with
  | case1 => cases read
  | case2 text entry _ first =>
      cases read
      exact length_le_of_readEntry first
  | case3 text entry behind first more comma inductionHypothesis =>
      obtain ⟨_, later, _⟩ := Reading.prepend_eq_ok_iff.1 read
      exact Nat.le_trans (inductionHypothesis later)
        (Nat.le_trans (Nat.le_of_lt (length_lt_of_after? comma)) (length_le_of_readEntry first))

/-- The reader for the arguments of pseudo-classes, where at most `levels` of them may stand
inside each other. -/
def argumentReader : Nat → Option ListReader
  | 0 => none
  | levels + 1 =>
    some ⟨readList (argumentReader levels) true, fun read => length_le_of_readList read⟩

def Node.ofText (text : List Char) : Except (Fault Nat) Node :=
  match readList (argumentReader maxNesting) false text with
  | .error fault => .error (fault.locate text)
  | .ok (entries, _) => .ok ⟨.root, trim text, entries⟩

end CssLint.Selector
