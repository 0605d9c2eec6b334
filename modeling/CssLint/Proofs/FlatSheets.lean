import CssLint.Proofs.Rule.PlainFindings
import CssLint.Proofs.Sheet.PlainSheets

/-!
# Flat style sheets

Plain rules that stand one behind the other, none of them inside another.  Checking
such a style sheet gives one warning for each measure of its selectors that exceeds
the limit, in the order in which they are written, and nothing else.
-/

namespace CssLint

open Selector.Written Sheet Text

namespace Sheet

/-- The rule with declarations in its block only. -/
def PlainRule.text (rule : PlainRule) : List Char :=
  rule.textAround []

/-- Rules one behind the other. -/
def flatText (rules : List PlainRule) (last : Blanks) : List Char :=
  rules.flatMap PlainRule.text ++ last.text

/-- The rules with their places, where `offset` is that of the first byte. -/
def placed (offset : Nat) : List PlainRule → List (StyleRule × PlainRule)
  | [] => []
  | rule :: rules => (rule.style offset, rule) :: placed (offset + byteCount rule.text) rules

/-- The measures of the selectors of a rule. -/
def PlainRule.measures (rule : PlainRule) : List Measure :=
  rule.prelude_.measures (Argument.form Selector.maxNesting) (Argument.measures Selector.maxNesting)

private theorem flatText_eq (rules : List PlainRule) (last : Blanks) :
    flatText rules last = sheetText (rules.map fun rule => [rule]) last := by
  rw [flatText, sheetText, List.flatMap_map]
  rfl

private theorem occurrences_flatText (rules : List PlainRule) (last : Blanks) :
    occurrencesIn [] (contents (flatText rules last)).items =
      sheetOccurrences 0 (rules.map fun rule => [rule]) := by
  rw [flatText_eq]
  apply occurrences_sheetText
  intro chain member
  obtain ⟨rule, _, rfl⟩ := List.mem_map.1 member
  exact Nat.succ_le_succ (Nat.zero_le maxNesting)

private theorem selector_of_mem_placed {rules : List PlainRule} {offset : Nat}
    {pair : StyleRule × PlainRule} (member : pair ∈ placed offset rules) :
    pair.1.selector = pair.2.selector := by
  induction rules generalizing offset with
  | nil => cases member
  | cons rule rules inductionHypothesis =>
      rcases List.mem_cons.1 member with rfl | later
      · rfl
      · exact inductionHypothesis later

/-- The warnings about rules none of which is inside another. -/
private theorem warnings_placed {number : JsonNumber} {limit : Nat} (whole : number.IsWhole limit)
    (setting : RuleSetting) (css : List Char) (rules : List PlainRule) (offset : Nat) :
    ((sheetOccurrences offset (rules.map fun rule => [rule])).flatMap fun occurrence =>
        (occurrence.findings setting (Binary64.ofInt limit)).map (Finding.warning css)) =
      (placed offset rules).flatMap fun (style, rule) =>
        Measure.warnings setting limit css style rule.measures := by
  induction rules generalizing offset with
  | nil => rfl
  | cons rule rules inductionHypothesis =>
      have resolved : (Selector.entries rule.selector).flatMap (Selector.resolve []) =
          rule.prelude_.complexes.map (Complex.text (Argument.form Selector.maxNesting)) := by
        rw [Selector.flatMap_resolve_nil, PlainRule.selector, entries_prelude rule.plain]
      have first := warnings_plain rule offset whole (show inKeyframes [] = false from rfl)
        rule.plain resolved setting css
      rw [List.map_cons, sheetOccurrences, chainOccurrences, chainOccurrences, List.cons_append,
        List.nil_append, List.flatMap_cons, placed, List.flatMap_cons]
      exact congrArg₂ (· ++ ·) first (inductionHypothesis _)

end Sheet

/-- When only the rule about compound selectors runs, and the limit is a whole number from one on,
plain rules one behind the other give the warnings about their selectors that exceed it: rule by
rule, entry by entry, and in front of those about an entry the ones about the negations in it. Each
is found where it stands first in its rule. -/
theorem lint_flatText {number : JsonNumber} {limit : Nat} (whole : number.IsWhole limit)
    (severity : Severity) (message source : Option String) (rules : List PlainRule)
    (last : Blanks) :
    let setting : RuleSetting := ⟨.number number, severity, message⟩
    let css := flatText rules last
    let result := lint (.limiting setting) css source
    result.invalidOptions = [] ∧
      (∀ warning ∈ result.warnings, warning.rule ≠ Reporter.syntaxErrorRule) ∧
      (∀ pair ∈ placed 0 rules, ∀ measure ∈ pair.2.measures,
        contains measure.text pair.1.selector = true) ∧
      result.warnings = (placed 0 rules).flatMap fun (style, rule) =>
        Measure.warnings setting limit css style rule.measures := by
  intro setting css result
  have limits : Rule.limitOf? setting.primary = some (Binary64.ofInt limit) :=
    Rule.limitOf?_whole whole
  have warnings : result.warnings = (placed 0 rules).flatMap fun (style, rule) =>
      Measure.warnings setting limit css style rule.measures := by
    refine (warnings_lint_limiting limits css source).trans ?_
    rw [occurrences_flatText]
    exact warnings_placed whole setting css rules 0
  refine ⟨invalidOptions_lint_limiting limits css source, ?_, ?_, warnings⟩
  · intro warning member
    rw [warnings] at member
    obtain ⟨pair, _, ofRule⟩ := List.mem_flatMap.1 member
    obtain ⟨measure, _, rfl⟩ := List.mem_map.1 ofRule
    change Rule.maxCompoundsName ≠ Reporter.syntaxErrorRule
    decide
  · intro pair member measure measured
    rw [selector_of_mem_placed member]
    exact contains_iff_isInfix.2 (Prelude.infix_of_mem_measures pair.2.plain measured)

/-! ## Negations inside each other -/

section Negations

variable {α : Type}

private def newline : Blanks :=
  ⟨['\n'], List.all_iff_forall_prop.1 (by decide)⟩

/-- Compound selectors with a space between them. -/
private def spaced (first second : Compound α) : Complex α :=
  ⟨none, first, [(.space, second)]⟩

private def tag (name : Word) : Compound α :=
  ⟨some (.type name), [], .inl rfl⟩

private def classed (name : Word) (negations : List (Simple α)) : Compound α :=
  ⟨none, .className name :: negations, .inr (List.cons_ne_nil _ _)⟩

private def negation {levels : Nat} (complex : Complex (Argument levels)) :
    Simple (Argument (levels + 1)) :=
  let listing : Listing (Argument levels) := ⟨[⟨.none, complex, .none⟩], List.cons_ne_nil _ _⟩
  .list .single ⟨['n', 'o', 't'], by decide⟩ listing

/-- `.x .y:not(.a .b:not(c d)),p>q` in front of an empty block. -/
private def negatedRule : PlainRule where
  before := .none
  prelude_ :=
    ⟨spaced (classed ⟨['x'], by decide⟩ [])
        (classed ⟨['y'], by decide⟩ [negation (spaced (classed ⟨['a'], by decide⟩ [])
          (classed ⟨['b'], by decide⟩ [negation (spaced (tag ⟨['c'], by decide⟩)
            (tag ⟨['d'], by decide⟩))]))]),
      [(⟨.none, .none⟩, ⟨none, tag ⟨['p'], by decide⟩,
        [(.sign .none .child (by decide) .none, tag ⟨['q'], by decide⟩)]⟩)]⟩
  plain := by decide
  after := .none
  early := []
  late := []
  inside := .none

/-- `#z *` on a line of its own, in front of a block with the declaration `m:n;`. -/
private def declaringRule : PlainRule where
  before := newline
  prelude_ :=
    ⟨spaced ⟨none, [.id ⟨['z'], by decide⟩], .inr (List.cons_ne_nil _ _)⟩ .universal, []⟩
  plain := by decide
  after := .none
  early := [⟨.none, ⟨['m'], by decide⟩, ⟨['n'], by decide⟩, by decide, by decide⟩]
  late := []
  inside := .none

end Negations

/-- The entry in front has a negation inside a negation, and all three exceed the limit; then come
an entry with a combinator and a second rule. -/
theorem lint_flatText_negations :
    let css := ".x .y:not(.a .b:not(c d)),p>q\x7b\x7d\n#z *\x7bm:n;\x7d\n".toList
    let found (line column : Nat) (text : String) : Warning :=
      ⟨line, column, Rule.maxCompoundsName, .error,
        "Expected \"" ++ text ++ "\" to have no more than 1 compound selectors"⟩
    (JsonNumber.integer 1).IsWhole 1 ∧ (∃ rules last, flatText rules last = css) ∧
      (lint (.limiting ⟨.number (.integer 1), .error, none⟩) css none).warnings =
        [found 1 21 "c d", found 1 11 ".a .b:not(c d)", found 1 1 ".x .y:not(.a .b:not(c d))",
          found 1 27 "p>q", found 2 1 "#z *"] := by
  intro css found
  let rules := [negatedRule, declaringRule]
  have whole : (JsonNumber.integer 1).IsWhole 1 :=
    JsonNumber.isWhole_integer (by decide) (by decide)
  have written : flatText rules newline = css := by decide +kernel
  obtain ⟨_, _, _, warnings⟩ := lint_flatText whole .error none none rules newline
  rw [written] at warnings
  refine ⟨whole, ⟨rules, newline, written⟩, warnings.trans ?_⟩
  -- The places of the rules and their measures, from which the warnings are made.
  decide +kernel

end CssLint
