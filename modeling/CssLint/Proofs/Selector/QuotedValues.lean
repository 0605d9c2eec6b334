import CssLint.Proofs.Selector.ChangeItems

/-!
# Quoted values of attributes

The end of an attribute selector is found by a scanner that knows escapes: a quote behind
a backslash does not end the string that it stands in.  The value is then cut out of the
text between the brackets at the first quote of its kind.  So a value is accepted as it
is written, unless an escaped quote stands in it: then what follows that quote is no
modifier, and the whole attribute selector is invalid.
-/

namespace CssLint.Selector

open Text
open Written (Word)

/-! ## Strings -/

/-- Whether a text may stand between two quotes: the quote and the backslash stand in it only
behind a backslash that escapes them. -/
def isStringBody (quote : Char) : List Char → Bool
  | [] => true
  | '\\' :: [] => false
  | '\\' :: _ :: text => isStringBody quote text
  | c :: text => c != quote && isStringBody quote text

/-- A string as it is written. -/
structure Quoted where
  quote : Char
  body : List Char
  isQuote : quote = '"' ∨ quote = '\''
  escaped : isStringBody quote body = true
deriving DecidableEq

namespace Quoted

variable (value : Quoted)

def text : List Char :=
  value.quote :: (value.body ++ [value.quote])

theorem isSpace_quote : isSpace value.quote = false := by
  rcases value.isQuote with same | same <;> rw [same] <;> decide

theorem quote_ne_escape : value.quote ≠ '\\' := by
  rcases value.isQuote with same | same <;> rw [same] <;> decide

theorem bareStart_text : BareStart value.text :=
  ⟨value.quote, _, rfl, value.isSpace_quote⟩

theorem bareEnd_text : BareEnd value.text :=
  ⟨value.quote :: value.body, value.quote, rfl, value.isSpace_quote⟩

end Quoted

/-- The scanner finds the quote behind the body. -/
theorem stringEnd?_body {quote : Char} (notEscape : quote ≠ '\\') {body : List Char}
    (escaped : isStringBody quote body = true) (rest : List Char) :
    stringEnd? quote (body ++ quote :: rest) = some rest := by
  fun_induction isStringBody quote body with
  | case1 => rw [List.nil_append, stringEnd?_cons notEscape, if_pos rfl]
  | case2 => cases escaped
  | case3 c text inductionHypothesis =>
      rw [List.cons_append, List.cons_append, stringEnd?]
      exact inductionHypothesis escaped
  | case4 c text notLast notPair inductionHypothesis =>
      have plain : c ≠ '\\' := ne_escape_of_stringEnd? notLast notPair
      rw [Bool.and_eq_true, bne_iff_ne] at escaped
      rw [List.cons_append, stringEnd?_cons plain, if_neg escaped.1]
      exact inductionHypothesis escaped.2

/-! ## Values -/

/-- A text with a quote in it is no modifier. -/
theorem isModifier_of_mem_quote (value : Quoted) {text : List Char}
    (member : value.quote ∈ text) : AttributeTest.isModifier text = false := by
  have left : value.quote ∈ trim text := mem_trim member value.isSpace_quote
  have some : (trim text).isEmpty = false := by
    rw [List.isEmpty_eq_false_iff]
    exact List.ne_nil_of_mem left
  have noLetter : ∀ letter ∈ ['i', 's'], alike (trim text) [letter] = false := by
    intro letter isLetter
    have letters : ∀ letter ∈ ['i', 's'], '"' ∉ lower [letter] ∧ '\'' ∉ lower [letter] :=
      List.all_iff_forall_prop.1 (by decide +kernel)
    have other : value.quote.toLower ∉ lower [letter] := by
      rcases value.isQuote with same | same
      · rw [same]
        exact (letters letter isLetter).1
      · rw [same]
        exact (letters letter isLetter).2
    rw [alike, beq_eq_false_iff_ne]
    intro same
    exact other (same ▸ List.mem_map_of_mem left)
  simp only [AttributeTest.isModifier, some, noLetter 'i' (by decide), noLetter 's' (by decide),
    Bool.or_self]

/-- The value ends at the first quote, and nothing of a string may stand behind it. -/
theorem value?_text (value : Quoted) :
    AttributeTest.value? value.text =
      if value.quote ∈ value.body then none else some value.body := by
  have quotes : (value.quote = '"' || value.quote = '\'') = true := by
    simpa using value.isQuote
  rw [AttributeTest.value?, trim_eq_self value.bareStart_text value.bareEnd_text, Quoted.text,
    AttributeTest.splitValue, if_pos quotes]
  by_cases found : value.quote ∈ value.body
  · obtain ⟨left, right, divided, absent⟩ := List.eq_append_cons_of_mem found
    have behind : value.body ++ [value.quote] =
        left ++ value.quote :: (right ++ [value.quote]) := by
      rw [divided, List.append_assoc]
      rfl
    have noModifier := isModifier_of_mem_quote value
      (List.mem_append_right right (List.mem_singleton_self value.quote))
    rw [if_pos found, behind, Written.splitAt?_append absent]
    dsimp only
    rw [noModifier]
    rfl
  · have modifier : AttributeTest.isModifier [] = true := by decide
    rw [if_neg found, Written.splitAt?_append found]
    dsimp only
    rw [modifier]
    rfl

/-! ## Attribute selectors -/

/-- An attribute selector that compares with a quoted value. -/
def quotedAttribute (name : Word) (comparison : Comparison) (value : Quoted) : List Char :=
  '[' :: (name.text ++ comparison.symbol ++ value.text ++ [']'])

section Attribute

variable (name : Word) (comparison : Comparison) (value : Quoted)

theorem attributeEnd_quoted (start rest : List Char) :
    attributeEnd start (name.text ++ comparison.symbol ++ value.text ++ ']' :: rest) =
      .ok rest := by
  have closed : attributeEnd start (']' :: rest) = .ok rest := by
    rw [attributeEnd, if_pos rfl]
  have quotes : (value.quote = '"' || value.quote = '\'') = true := by
    simpa using value.isQuote
  have noBracket : value.quote ≠ ']' := by
    rcases value.isQuote with same | same <;> rw [same] <;> decide
  have string := stringEnd?_body value.quote_ne_escape value.escaped (']' :: rest)
  rw [List.append_assoc, Written.attributeEnd_append start
    fun c => Written.Test.plain_of_mem_front, Quoted.text, List.cons_append, List.append_assoc,
    List.singleton_append, attributeEnd, if_neg noBracket, if_pos quotes]
  split
  · rename_i unclosed
    rw [string] at unclosed
    cases unclosed
  · rename_i found
    rw [string] at found
    cases found
    exact closed

theorem readAttribute_quoted (rest : List Char) :
    readAttribute (quotedAttribute name comparison value ++ rest) =
      if value.quote ∈ value.body then
        .error (.invalidAttribute (quotedAttribute name comparison value))
      else
        .ok (Node.leaf (.attribute (.compare name.text comparison value.body))
          (quotedAttribute name comparison value), rest) := by
  have inside : ((quotedAttribute name comparison value).drop 1).dropLast =
      name.text ++ comparison.symbol ++ value.text := by
    rw [quotedAttribute, List.drop_one, List.tail_cons, List.dropLast_concat]
  have body := Written.Test.ofBody?_compare name comparison value.bareEnd_text
  have closed : attributeEnd (quotedAttribute name comparison value ++ rest)
      ((quotedAttribute name comparison value ++ rest).drop 1) = .ok rest := by
    have behind : (quotedAttribute name comparison value ++ rest).drop 1 =
        name.text ++ comparison.symbol ++ value.text ++ ']' :: rest := by
      simp [quotedAttribute]
    rw [behind, attributeEnd_quoted]
  rw [readAttribute, closed]
  dsimp only
  rw [before_append, inside, body, value?_text]
  by_cases found : value.quote ∈ value.body
  · rw [if_pos found, if_pos found]
    rfl
  · rw [if_neg found, if_neg found]
    rfl

/-! The bracket makes the reader of items hand on to that of attribute selectors. -/

section Items

variable {inner : Option ListReader} {inside : List Char}

theorem readItems_of_readAttribute_error {fault : Fault (List Char)}
    (refused : readAttribute ('[' :: inside) = .error fault) :
    readItems inner false .nothing false ('[' :: inside) = .error fault := by
  have noComment : commentEnd? '[' inside = none := rfl
  have noCombinator : readCombinator? '[' inside = none := rfl
  have simple : readSimple inner '[' inside = .error fault := refused
  rw [readItems_cons, if_neg (by decide), if_neg (by decide), noComment, noCombinator, simple]

theorem readItems_of_readAttribute {node : Node} {rest : List Char}
    (read : readAttribute ('[' :: inside) = .ok (node, rest)) :
    readItems inner false .nothing false ('[' :: inside) =
      (readItems inner false .compound false rest).prepend [node] := by
  have noComment : commentEnd? '[' inside = none := rfl
  have noCombinator : readCombinator? '[' inside = none := rfl
  have simple : readSimple inner '[' inside = .ok (node, rest) := read
  rw [readItems_cons, if_neg (by decide), if_neg (by decide), noComment, noCombinator, simple]
  rfl

end Items

/-- A quoted value is accepted as it stands between its quotes, whatever brackets, signs, blanks and
escapes it holds; only where a quote of its own kind stands in it, escaped, is the attribute
selector refused. -/
theorem ofText_quotedAttribute :
    Node.ofText (quotedAttribute name comparison value) =
      if value.quote ∈ value.body then
        .error (.invalidAttribute (quotedAttribute name comparison value))
      else
        .ok ⟨.root, quotedAttribute name comparison value,
          [⟨.selector, quotedAttribute name comparison value,
            [Node.leaf (.attribute (.compare name.text comparison value.body))
              (quotedAttribute name comparison value)]⟩]⟩ := by
  have read := readAttribute_quoted name comparison value []
  have bareStart : BareStart (quotedAttribute name comparison value) := ⟨'[', _, rfl, by decide⟩
  have bareEnd : BareEnd (quotedAttribute name comparison value) := ⟨'[' :: _, ']', rfl, by decide⟩
  have whole : ∀ text, before text [] = text := fun text => by
    simpa using before_append text []
  rw [List.append_nil] at read
  rw [Node.ofText, readList_eq, readEntry_eq, bareStart.dropWhile_isBlank]
  by_cases found : value.quote ∈ value.body
  · rw [if_pos found] at read ⊢
    have items : readItems (argumentReader maxNesting) false .nothing false
        (quotedAttribute name comparison value) =
        .error (.invalidAttribute (quotedAttribute name comparison value)) :=
      readItems_of_readAttribute_error read
    rw [items]
    rfl
  · rw [if_neg found] at read ⊢
    have ends : readItems (argumentReader maxNesting) false .compound false [] = .ok ([], []) := by
      rw [readItems]
      rfl
    have items : readItems (argumentReader maxNesting) false .nothing false
        (quotedAttribute name comparison value) =
        (readItems (argumentReader maxNesting) false .compound false []).prepend
          [Node.leaf (.attribute (.compare name.text comparison value.body))
            (quotedAttribute name comparison value)] := readItems_of_readAttribute read
    rw [items, ends]
    dsimp only [Reading.prepend]
    rw [whole, trim_eq_self bareStart bareEnd]
    rfl

end Attribute

/-- An escaped quote is part of the string for the scanner, but ends the value. -/
theorem ofText_quotedAttribute_escapedQuote :
    (Node.ofText (quotedAttribute ⟨['a'], by decide⟩ .equals
      ⟨'"', ['\\', '"'], Or.inl rfl, by decide⟩)).isOk = false := by
  decide +kernel

end CssLint.Selector
