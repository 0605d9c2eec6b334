import CssLint.Proofs.Rule.AlikeFindings
import CssLint.Proofs.Selector.Trimmed
import CssLint.Proofs.Sheet.Preludes

/-!
# Trimmed preludes

The selector of a style rule is its prelude without the white space at the ends.  The
grammar reads the same in both, as long as trimming takes blanks of the grammar only and
none that belongs to an escape.  An escaped space at the end of a prelude is such a blank:
without it the backslash is left alone, and a valid selector becomes invalid.
-/

namespace CssLint

open Sheet Text
open Selector (children? trimsBlanks)

/-- Every style rule of a text stands where its node says, in front of the brace of its block, and
its selector is the trimmed prelude.  The grammar accepts both or none, and reads the same children,
if trimming takes nothing but blanks. -/
theorem ofText_prelude (css : List Char) :
    ∀ entry ∈ (Stylesheet.ofText css).rules,
      ∃ node left more, (Stylesheet.ofText css).node? entry.1 = some node ∧
        node.kind = .rule entry.2 ∧ byteCount left = node.span.start ∧
        css = left ++ (preludeAt css node.span.start ++ '\x7b' :: more) ∧
        entry.2.selector = trim (preludeAt css node.span.start) ∧
        (trimsBlanks (preludeAt css node.span.start) = true →
          children? entry.2.selector = children? (preludeAt css node.span.start)) := by
  intro entry member
  obtain ⟨occurrence, inside, style, describes⟩ :=
    exists_mem_of_forall₂ (rules_described css) member
  obtain ⟨piece, brace, pieces, rest, begins⟩ := allBegin_contents css [] occurrence inside
  obtain ⟨node, found, start⟩ := Option.map_eq_some_iff.1 describes.start
  obtain ⟨left, more, split_, size⟩ := begins.exists_split
  have selector := begins.selector_eq
  rw [style, ← start] at selector
  rw [← start] at split_ size
  refine ⟨node, left, more, found, ?_, size, split_, selector, fun blanksOnly => ?_⟩
  · have kind := describes.rule
    rw [Stylesheet.rule?, Stylesheet.kind?, found, Option.map_some] at kind
    split at kind
    · rename_i rule same
      rw [Option.some.inj same, Option.some.inj kind, style]
    · cases kind
  · rw [selector]
    exact Selector.children?_trim blanksOnly

/-- A nested rule whose prelude holds an escaped space, and ends with a blank and a line feed. -/
theorem ofText_prelude_nested :
    let css := "a\x7bb\\  ,/**/c \n\x7b\x7d\x7d".toList
    let style : StyleRule := ⟨"b\\  ,/**/c".toList, 2⟩
    (2, style) ∈ (Stylesheet.ofText css).rules ∧ preludeAt css 2 = "b\\  ,/**/c \n".toList ∧
      trimsBlanks (preludeAt css 2) = true ∧
      children? style.selector = children? (preludeAt css 2) := by
  intro css style
  have member : (2, style) ∈ (Stylesheet.ofText css).rules := by decide +kernel
  have blanksOnly : trimsBlanks (preludeAt css 2) = true := by decide +kernel
  have start : ((Stylesheet.ofText css).node? 2).map (fun node => node.span.start) = some 2 := by
    decide +kernel
  obtain ⟨node, left, more, found, -, -, -, -, same⟩ := ofText_prelude css (2, style) member
  rw [found] at start
  have place : node.span.start = 2 := Option.some.inj start
  rw [place] at same
  exact ⟨member, by decide +kernel, blanksOnly, same blanksOnly⟩

/-- An escaped space in front of the brace is trimmed, and the backslash that is left is no
selector: the grammar accepts the prelude but not the selector of the rule. -/
theorem ofText_prelude_escapedSpace :
    let css := "a\\ \x7b\x7d".toList
    (Stylesheet.ofText css).rules = [(1, ⟨"a\\".toList, 0⟩)] ∧
      preludeAt css 0 = "a\\ ".toList ∧
      (children? (preludeAt css 0)).isSome = true ∧ (children? "a\\".toList).isSome = false := by
  decide +kernel

end CssLint
