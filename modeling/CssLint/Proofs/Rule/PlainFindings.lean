import CssLint.Proofs.Number.WholeLimit
import CssLint.Proofs.Rule.Findings
import CssLint.Proofs.Selector.Measures
import CssLint.Proofs.Sheet.PlainChains

/-!
# Findings in plain selectors

When only the rule about compound selectors runs, and its limit is a whole number,
the warnings about plain selectors are those about their measures that exceed it.
-/

namespace CssLint

open Selector.Written Sheet Text

/-! ## One rule alone -/

/-- The configuration in which only the rule about compound selectors runs. -/
def Config.limiting (setting : RuleSetting) : Config :=
  Config.empty.set Rule.maxCompoundsName setting

theorem Config.setting?_limiting (setting : RuleSetting) :
    (limiting setting).setting? Rule.maxCompoundsName = some setting := by
  change List.lookup Rule.maxCompoundsName [(Rule.maxCompoundsName, setting)] = some setting
  exact List.lookup_cons_self

theorem warnings_lint_limiting {setting : RuleSetting} {limit : Binary64}
    (limits : Rule.limitOf? setting.primary = some limit) (css : List Char)
    (source : Option String) :
    (lint (.limiting setting) css source).warnings =
      (occurrencesIn [] (contents css).items).flatMap fun occurrence =>
        (occurrence.findings setting limit).map (Finding.warning css) := by
  have alone : (Config.limiting setting).findingsIn (contents css).items =
      (occurrencesIn [] (contents css).items).flatMap (Occurrence.findings setting limit) := by
    simp only [Config.findingsIn, Config.setting?_limiting, findingsIn, limits]
  rw [warnings_lint, alone, List.map_flatMap]

theorem invalidOptions_lint_limiting {setting : RuleSetting} {limit : Binary64}
    (limits : Rule.limitOf? setting.primary = some limit) (css : List Char)
    (source : Option String) : (lint (.limiting setting) css source).invalidOptions = [] := by
  have checked : lint (.limiting setting) css source =
      Rule.maxCompounds Rule.grammar Rule.resolver setting (Stylesheet.ofText css)
        (.empty source) := rfl
  rw [checked, Rule.maxCompounds, limits]
  exact LintResult.invalidOptions_warnAll _ _

/-! ## Warnings about measures -/

/-- The warning about a measured selector, at the place where it stands in the rule. -/
def Selector.Written.Measure.warning (setting : RuleSetting) (limit : Nat) (css : List Char)
    (style : StyleRule) (measure : Measure) : Warning :=
  let place := Position.ofOffset css
    (style.offset + (find? measure.text style.selector).getD 0)
  ⟨place.line, place.column, Rule.maxCompoundsName, setting.severity,
    setting.message.getD (Rule.expectedText measure.text (Binary64.ofInt limit))⟩

/-- The warnings about measured selectors with more compound selectors than the limit. -/
def Selector.Written.Measure.warnings (setting : RuleSetting) (limit : Nat) (css : List Char)
    (style : StyleRule) (measures : List Measure) : List Warning :=
  (measures.filter fun measure => limit < measure.count).map
    (Measure.warning setting limit css style)

variable {occurrence : Occurrence}

theorem Sheet.Occurrence.place_eq (atStart : occurrence.style.offset = occurrence.start)
    (word : List Char) :
    occurrence.place word =
      occurrence.style.offset + (find? word occurrence.style.selector).getD 0 := by
  cases word with
  | nil =>
      rw [place, find?_nil, atStart]
      rfl
  | cons c word =>
      rw [place, ← atStart]
      cases find? (c :: word) occurrence.style.selector <;> rfl

private theorem findingsOf_complexes (setting : RuleSetting) (limit : Binary64)
    {complexes : List (Complex (Argument Selector.maxNesting))}
    (plain : ∀ complex ∈ complexes, complex.IsPlain (Argument.IsPlain Selector.maxNesting)) :
    occurrence.findingsOf setting limit
        (complexes.map (Complex.text (Argument.form Selector.maxNesting))) =
      (Measure.violations limit (complexes.flatMap
        (Complex.measures (Argument.form Selector.maxNesting)
          (Argument.measures Selector.maxNesting)))).map
        fun violation => occurrence.exceeded setting limit violation.fragment := by
  induction complexes with
  | nil => rfl
  | cons complex complexes inductionHypothesis =>
      have here := plain complex List.mem_cons_self
      have later := inductionHypothesis fun other member =>
        plain other (List.mem_cons_of_mem complex member)
      rw [List.map_cons, Occurrence.findingsOf, grammar_complex, later]
      simp only [violations_root limit here, List.flatMap_cons, Measure.violations,
        List.filter_append, List.map_append]

private theorem warnings_complexes {number : JsonNumber} {limit : Nat}
    (whole : number.IsWhole limit) (atStart : occurrence.style.offset = occurrence.start)
    {complexes : List (Complex (Argument Selector.maxNesting))}
    (plain : ∀ complex ∈ complexes, complex.IsPlain (Argument.IsPlain Selector.maxNesting))
    (setting : RuleSetting) (css : List Char) :
    (occurrence.findingsOf setting (Binary64.ofInt limit)
        (complexes.map (Complex.text (Argument.form Selector.maxNesting)))).map
          (Finding.warning css) =
      Measure.warnings setting limit css occurrence.style (complexes.flatMap
        (Complex.measures (Argument.form Selector.maxNesting)
          (Argument.measures Selector.maxNesting))) := by
  obtain ⟨positive, rounded, isFinite⟩ := whole
  rw [rounded] at isFinite
  obtain ⟨_, exceeded⟩ := Binary64.ofInt_whole positive isFinite
  have exceeds : (fun measure : Measure => (Binary64.ofInt limit).isExceededBy measure.count) =
      fun measure => decide (limit < measure.count) := by
    funext measure
    exact exceeded measure.count (Nat.min_le_right _ _)
  rw [findingsOf_complexes setting _ plain, Measure.violations, Measure.warnings, exceeds,
    List.map_map, List.map_map]
  apply List.map_congr_left
  intro measure _
  simp only [Function.comp_apply, Measure.violation, Occurrence.exceeded, Finding.warning,
    Measure.warning, Occurrence.place_eq atStart]

/-! ## Plain rules -/

section PlainRules

variable (rule : PlainRule) (offset : Nat) {above : List Sheet.Kind}
  {complexes : List (Complex (Argument Selector.maxNesting))}

private theorem isStandard_selector : Selector.isStandardRule rule.selector = true ∧
    Selector.isStandard rule.selector = true := by
  have inert := inert_prelude rule.plain
  exact ⟨inert.isStandardRule (rule.prelude_.bareEnd _), inert.isStandard⟩

/-- Rules around other rules are not measured. -/
theorem Sheet.Occurrence.selectors_around :
    selectors ⟨above, rule.style offset, (rule.style offset).offset, true⟩ = none := by
  obtain ⟨standardRule, standard⟩ := isStandard_selector rule
  simp [selectors, PlainRule.style, standardRule, standard]

/-- What the entries of a rule stand for is measured if no rule is inside it. -/
theorem Sheet.Occurrence.selectors_plain (noKeyframes : inKeyframes above = false)
    (plain : ∀ complex ∈ complexes, complex.IsPlain (Argument.IsPlain Selector.maxNesting))
    (resolved : (Selector.entries rule.selector).flatMap
        (Selector.resolve (above.filterMap Kind.nestingEntries?)) =
      complexes.map (Complex.text (Argument.form Selector.maxNesting))) :
    selectors ⟨above, rule.style offset, (rule.style offset).offset, false⟩ =
      some (complexes.map (Complex.text (Argument.form Selector.maxNesting))) := by
  obtain ⟨standardRule, standard⟩ := isStandard_selector rule
  have allStandard : (complexes.map (Complex.text (Argument.form Selector.maxNesting))).filter
      Selector.isStandard = complexes.map (Complex.text (Argument.form Selector.maxNesting)) := by
    apply List.filter_eq_self.2
    intro text member
    obtain ⟨complex, listed, rfl⟩ := List.mem_map.1 member
    exact (inert_complex (plain complex listed)).isStandard
  simp [selectors, PlainRule.style, standardRule, standard, noKeyframes, resolved, allStandard]

theorem warnings_plain {number : JsonNumber} {limit : Nat} (whole : number.IsWhole limit)
    (noKeyframes : inKeyframes above = false)
    (plain : ∀ complex ∈ complexes, complex.IsPlain (Argument.IsPlain Selector.maxNesting))
    (resolved : (Selector.entries rule.selector).flatMap
        (Selector.resolve (above.filterMap Kind.nestingEntries?)) =
      complexes.map (Complex.text (Argument.form Selector.maxNesting)))
    (setting : RuleSetting) (css : List Char) :
    ((Occurrence.mk above (rule.style offset) (rule.style offset).offset false).findings setting
        (Binary64.ofInt limit)).map (Finding.warning css) =
      Measure.warnings setting limit css (rule.style offset) (complexes.flatMap
        (Complex.measures (Argument.form Selector.maxNesting)
          (Argument.measures Selector.maxNesting))) := by
  rw [Occurrence.findings, Occurrence.selectors_plain rule offset noKeyframes plain resolved]
  exact warnings_complexes whole rfl plain setting css

end PlainRules

end CssLint
