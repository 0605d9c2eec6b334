import CssLint.Selector.Scanner

/-!
The nesting selector.

Inside a rule `&` stands for the selectors of the enclosing rule, unless it is
escaped or stands inside a string or an attribute selector. A selector without
it is read as if `&` and a space stood in front. A rule inside several others is
resolved from the inside out, once for every entry of every enclosing rule.
-/

namespace CssLint.Selector

/-- Whether a nesting selector occurs in the rest of a text. -/
def containsNestingFrom (scanner : Scanner) : List Char → Bool
  | [] => false
  | c :: text =>
    (scanner.isIdle && c = '&') || containsNestingFrom (scanner.step .square c) text

/-- Whether a nesting selector occurs in a text. -/
def containsNesting (text : List Char) : Bool :=
  containsNestingFrom .start text

/-- The rest of a text with `replacement` in place of every nesting selector. -/
def replaceNestingFrom (replacement : List Char) (scanner : Scanner) : List Char → List Char
  | [] => []
  | c :: text =>
    if scanner.isIdle && c = '&' then
      replacement ++ replaceNestingFrom replacement (scanner.step .square c) text
    else c :: replaceNestingFrom replacement (scanner.step .square c) text

/-- The text with `replacement` in place of every nesting selector. -/
def replaceNesting (text replacement : List Char) : List Char :=
  replaceNestingFrom replacement .start text

/-- The selectors that a selector stands for inside rules with the given entries, where the
innermost rule comes first. -/
def resolve : List (List (List Char)) → List Char → List (List Char)
  | [], selector => [selector]
  | entries :: outer, selector =>
    if containsNesting selector then
      entries.flatMap fun entry => (resolve outer entry).map (replaceNesting selector)
    else entries.flatMap fun entry => resolve outer (entry ++ ' ' :: selector)

/-- Outside of all rules selectors stand for themselves. -/
theorem flatMap_resolve_nil (selectors : List (List Char)) :
    selectors.flatMap (resolve []) = selectors :=
  List.flatMap_singleton' selectors

end CssLint.Selector
