import CssLint.Linter
import CssLint.Proofs.Sheet.Occurrences

/-!
# Findings

What the rules of a configuration find in a style sheet, as a function of its forest:
every warning is a finding at some byte, and the findings come in the order of the
style rules.
-/

namespace CssLint

open Sheet Text

/-- A warning whose place is given by a byte of the text. -/
structure Finding where
  offset : Nat
  rule : String
  severity : Severity
  text : String

def Finding.warning (source : List Char) (finding : Finding) : Warning :=
  let place := Position.ofOffset source finding.offset
  ⟨place.line, place.column, finding.rule, finding.severity, finding.text⟩

namespace Sheet.Occurrence

/-- The selectors of the rule that are measured. -/
def selectors (occurrence : Occurrence) : Option (List (List Char)) :=
  let written := occurrence.style.selector
  if !Selector.isStandardRule written || !Selector.isStandard written then none
  else if occurrence.holdsBlocks then none
  else if inKeyframes occurrence.above then none
  else
    some (((Selector.entries written).flatMap
      (Selector.resolve (occurrence.above.filterMap Kind.nestingEntries?))).filter
        Selector.isStandard)

/-- The byte at which a word of the selector is reported. -/
def place (occurrence : Occurrence) (word : List Char) : Nat :=
  if word.isEmpty then occurrence.start
  else ((find? word occurrence.style.selector).map (occurrence.style.offset + ·)).getD
    occurrence.start

/-- The finding about a selector with too many compound selectors. -/
def exceeded (setting : RuleSetting) (limit : Binary64) (occurrence : Occurrence)
    (fragment : List Char) : Finding :=
  ⟨occurrence.place fragment, Rule.maxCompoundsName, setting.severity,
    setting.message.getD (Rule.expectedText fragment limit)⟩

/-- The finding about a selector that cannot be read. -/
def unreadable (occurrence : Occurrence) (selector : List Char) (reason : String) : Finding :=
  ⟨occurrence.place selector, Reporter.syntaxErrorRule, .error,
    Reporter.unreadableText selector reason⟩

def findingsOf (setting : RuleSetting) (limit : Binary64) (occurrence : Occurrence) :
    List (List Char) → List Finding
  | [] => []
  | selector :: selectors =>
    match Rule.grammar selector with
    | .error fault => [occurrence.unreadable selector fault.message]
    | .ok root =>
      (Rule.violations limit root).map
        (fun violation => occurrence.exceeded setting limit violation.fragment) ++
      findingsOf setting limit occurrence selectors

/-- The findings about one style rule. -/
def findings (setting : RuleSetting) (limit : Binary64) (occurrence : Occurrence) :
    List Finding :=
  match occurrence.selectors with
  | none => []
  | some selectors => occurrence.findingsOf setting limit selectors

end Sheet.Occurrence

/-- The findings of the rule about compound selectors in a forest. -/
def findingsIn (setting : RuleSetting) (items : List Item) : List Finding :=
  match Rule.limitOf? setting.primary with
  | none => []
  | some limit => (occurrencesIn [] items).flatMap (Occurrence.findings setting limit)

/-! ## One style rule -/

section Describes

open Stylesheet

variable {sheet : Stylesheet} {id : NodeId} {occurrence : Occurrence}

theorem effectiveSelectors_eq (describes : Describes sheet id occurrence) :
    Rule.effectiveSelectors Rule.resolver sheet id = occurrence.selectors := by
  have resolved : (fun entry => Rule.resolver entry sheet id) =
      Selector.resolve (occurrence.above.filterMap Kind.nestingEntries?) := by
    funext entry
    rw [Rule.resolver, resolve, describes.above]
  rw [Rule.effectiveSelectors, describes.rule, Occurrence.selectors]
  simp only [describes.blocks, describes.keyframe, resolved]

private theorem map_effectiveSelectors {rules : List (NodeId × StyleRule)}
    {occurrences : List Occurrence}
    (described : List.Forall₂ (fun entry occurrence => Describes sheet entry.1 occurrence) rules
      occurrences) :
    (rules.map fun (id, _) => Rule.effectiveSelectors Rule.resolver sheet id) =
      occurrences.map Occurrence.selectors := by
  induction described with
  | nil => rfl
  | cons describes _ inductionHypothesis =>
      rw [List.map_cons, List.map_cons, inductionHypothesis, ← effectiveSelectors_eq describes]

/-- The rules of a text are measured as those of its forest are. -/
theorem effectiveSelectors_ofText (css : List Char) :
    ((ofText css).rules.map fun (id, _) =>
        Rule.effectiveSelectors Rule.resolver (ofText css) id) =
      (occurrencesIn [] (contents css).items).map Occurrence.selectors :=
  map_effectiveSelectors (rules_ofItems css (contents css).items)

theorem locate_eq (describes : Describes sheet id occurrence) (rule : String)
    (setting : RuleSetting) (word : List Char) :
    Reporter.locate ⟨rule, setting, sheet⟩ id word =
      Position.ofOffset sheet.source (occurrence.place word) := by
  obtain ⟨node, found, start⟩ := Option.map_eq_some_iff.1 describes.start
  rw [Reporter.locate, Occurrence.place, describes.rule]
  simp only [nodePosition, found, Option.elim_some, start]
  by_cases empty : word.isEmpty = true
  · simp only [empty, if_true]
    rfl
  · simp only [empty, if_false, Bool.false_eq_true]
    cases find? word occurrence.style.selector <;> rfl

private theorem selectorWarnings_eq (describes : Describes sheet id occurrence)
    (setting : RuleSetting) (limit : Binary64) (selectors : List (List Char)) :
    Rule.selectorWarnings Rule.grammar ⟨Rule.maxCompoundsName, setting, sheet⟩ limit id selectors =
      (occurrence.findingsOf setting limit selectors).map (Finding.warning sheet.source) := by
  induction selectors with
  | nil => rfl
  | cons selector selectors inductionHypothesis =>
      rw [Rule.selectorWarnings, Occurrence.findingsOf]
      cases Rule.grammar selector with
      | error fault =>
          simp [Reporter.syntaxError, locate_eq describes, Finding.warning, Occurrence.unreadable]
      | ok root =>
          simp [inductionHypothesis, Reporter.warning, locate_eq describes, Finding.warning,
            Occurrence.exceeded]

theorem ruleWarnings_eq (describes : Describes sheet id occurrence) (setting : RuleSetting)
    (limit : Binary64) :
    Rule.ruleWarnings Rule.grammar Rule.resolver ⟨Rule.maxCompoundsName, setting, sheet⟩ limit id =
      (occurrence.findings setting limit).map (Finding.warning sheet.source) := by
  rw [Rule.ruleWarnings, Occurrence.findings, effectiveSelectors_eq describes]
  cases occurrence.selectors with
  | none => rfl
  | some selectors => exact selectorWarnings_eq describes setting limit selectors

theorem flatMap_ruleWarnings (setting : RuleSetting) (limit : Binary64)
    {rules : List (NodeId × StyleRule)} {occurrences : List Occurrence}
    (described : List.Forall₂ (fun entry occurrence => Describes sheet entry.1 occurrence) rules
      occurrences) :
    rules.flatMap (fun (id, _) => Rule.ruleWarnings Rule.grammar Rule.resolver
        ⟨Rule.maxCompoundsName, setting, sheet⟩ limit id) =
      (occurrences.flatMap (Occurrence.findings setting limit)).map
        (Finding.warning sheet.source) := by
  induction described with
  | nil => rfl
  | cons describes _ inductionHypothesis =>
      rw [List.flatMap_cons, List.flatMap_cons, List.map_append, inductionHypothesis,
        ← ruleWarnings_eq describes]

end Describes

/-! ## Results -/

namespace LintResult

theorem warnings_warnAll (result : LintResult) (warnings : List Warning) :
    (result.warnAll warnings).warnings = result.warnings ++ warnings := by
  induction warnings generalizing result with
  | nil => simp [warnAll]
  | cons warning warnings inductionHypothesis =>
      have later := inductionHypothesis (result.warn warning)
      simp only [warnAll, List.foldl_cons] at later ⊢
      rw [later, warn, List.append_assoc]
      rfl

theorem invalidOptions_warnAll (result : LintResult) (warnings : List Warning) :
    (result.warnAll warnings).invalidOptions = result.invalidOptions := by
  induction warnings generalizing result with
  | nil => rfl
  | cons warning warnings inductionHypothesis => exact inductionHypothesis (result.warn warning)

end LintResult

theorem warnings_maxCompounds (setting : RuleSetting) (css : List Char) (result : LintResult) :
    (Rule.maxCompounds Rule.grammar Rule.resolver setting (Stylesheet.ofText css)
        result).warnings =
      result.warnings ++
        (findingsIn setting (contents css).items).map (Finding.warning css) := by
  rw [Rule.maxCompounds, findingsIn]
  cases Rule.limitOf? setting.primary with
  | none => simp [LintResult.invalidOption]
  | some limit =>
      have found := flatMap_ruleWarnings setting limit
        (Stylesheet.rules_ofItems css (contents css).items)
      rw [Stylesheet.source_ofItems] at found
      simp only [LintResult.warnings_warnAll, Stylesheet.ofText, found]

/-- The findings of the rules of a configuration in a forest. -/
def Config.findingsIn (config : Config) (items : List Item) : List Finding :=
  match config.setting? Rule.maxCompoundsName with
  | none => []
  | some setting => CssLint.findingsIn setting items

private theorem warnings_checkRule (css : List Char) (result : LintResult) (name : String)
    (setting : RuleSetting) :
    (checkRule (Stylesheet.ofText css) result name setting).warnings =
      result.warnings ++
        (if name = Rule.maxCompoundsName then findingsIn setting (contents css).items
          else []).map (Finding.warning css) := by
  by_cases same : name = Rule.maxCompoundsName
  · subst same
    rw [if_pos rfl]
    exact warnings_maxCompounds setting css result
  · have unknown : LintRule.find? name = none := by
      simp [LintRule.find?, LintRule.all, Ne.symm same]
    simp [checkRule, unknown, same, LintResult.invalidOption]

private theorem warnings_foldl (css : List Char) (rules : Members RuleSetting)
    (ordered : rules.Ordered) (result : LintResult) :
    (rules.foldl (fun result (name, setting) =>
        checkRule (Stylesheet.ofText css) result name setting) result).warnings =
      result.warnings ++
        (match rules.get? Rule.maxCompoundsName with
          | none => []
          | some setting => findingsIn setting (contents css).items).map
          (Finding.warning css) := by
  induction rules generalizing result with
  | nil => simp [Members.get?]
  | cons rule rules inductionHypothesis =>
      obtain ⟨name, setting⟩ := rule
      obtain ⟨least, later⟩ := List.pairwise_cons.1 ordered
      rw [List.foldl_cons, inductionHypothesis later, warnings_checkRule, List.append_assoc]
      by_cases same : name = Rule.maxCompoundsName
      · subst same
        have alone : Members.get? Rule.maxCompoundsName rules = none := by
          refine List.lookup_eq_none_iff.2 fun pair member => ?_
          have greater := least pair member
          have different : Rule.maxCompoundsName ≠ pair.1 := by
            intro equal
            rw [← equal] at greater
            exact String.lt_irrefl _ greater
          simpa using different
        have found : Members.get? Rule.maxCompoundsName
            ((Rule.maxCompoundsName, setting) :: rules) = some setting := List.lookup_cons_self
        simp [alone, found]
      · have passed : Members.get? Rule.maxCompoundsName ((name, setting) :: rules) =
            Members.get? Rule.maxCompoundsName rules := by
          rw [Members.get?, Members.get?, List.lookup_cons, beq_false_of_ne (Ne.symm same)]
        simp [passed, same]

/-- The warnings about a text are the findings in its forest. -/
theorem warnings_lint (config : Config) (css : List Char) (source : Option String) :
    (lint config css source).warnings =
      (config.findingsIn (contents css).items).map (Finding.warning css) :=
  (warnings_foldl css config.rules config.ordered (.empty source)).trans (List.nil_append _)

end CssLint
