import CssLint.Text.Blank
import CssLint.Text.Search

/-!
Selectors that are not plain CSS.

Preprocessors and template languages write selectors with holes in them, in
braces, in `$(...)` or in `<% ... %>`. They also have placeholders that begin with
a percent sign, `:extend`, and calls of mixins. What such a selector stands for is
known only later, so it is not measured.
-/

namespace CssLint.Selector

open Text

/-! ## Holes -/

/-- Whether a hole in braces with at least one character inside occurs in the text. -/
def hasBraceHole : List Char → Bool
  | [] => false
  | c :: text => (c = '\x7b' && (text.drop 1).contains '\x7d') || hasBraceHole text

/-- Whether the line holds a closing parenthesis behind its first character. -/
def closesOnLine (text : List Char) : Bool :=
  ((text.takeWhile fun c => c != '\n').drop 1).contains ')'

/-- Whether a variable `$(…)` on one line and not empty occurs in the text. -/
def hasVariable : List Char → Bool
  | [] => false
  | c :: text =>
    (match after? ['$', '('] (c :: text) with
      | some inside => closesOnLine inside
      | none => false) || hasVariable text

/-- Whether the text has holes that are filled in later. -/
def hasInterpolation (text : List Char) : Bool :=
  hasBraceHole text || hasVariable text

/-! ## Mixins -/

/-- The characters of the name of a mixin: letters, digits, hyphens and low lines, and two
letters that differ from ASCII ones in case only. -/
def isMixinPart (c : Char) : Bool :=
  c.isAlphanum || c == '_' || c == '-' || c == '\u017f' || c == '\u212a'

/-- Whether the line goes on behind a closing parenthesis. -/
def goesOnBehindCall (text : List Char) : Bool :=
  (text.takeWhile fun c => c != '\n').dropLast.contains ')'

/-- Whether the text begins with the call of a mixin and goes on behind it. -/
def startsMixin (text : List Char) : Bool :=
  match after? ['.'] text with
  | none => false
  | some named =>
    !(named.takeWhile isMixinPart).isEmpty &&
      match after? ['('] (named.dropWhile isMixinPart) with
      | none => false
      | some inside => goesOnBehindCall inside

/-- Whether the call of a mixin occurs in the text and the text goes on behind it. -/
def hasMixin : List Char → Bool
  | [] => false
  | c :: text => startsMixin (c :: text) || hasMixin text

/-! ## Plain selectors -/

/-- Whether the text has the word that extends another rule. -/
def hasExtend (text : List Char) : Bool :=
  contains ":extend".toList text

/-- Whether a selector is plain CSS. -/
def isStandard (text : List Char) : Bool :=
  !(hasInterpolation text || (trimStart text).head? == some '%' || hasExtend text ||
    hasMixin text || contains ['<', '%'] text || contains ['%', '>'] text)

/-- Whether a rule with this selector is plain CSS: it is no set of properties, and extends no
other rule. -/
def isStandardRule (text : List Char) : Bool :=
  (trimEnd text).getLast? != some ':' && !hasExtend (trimEnd text)

end CssLint.Selector
