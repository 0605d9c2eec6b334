import CssLint.Proofs.Rule.Findings

/-!
# Style rules are checked one by one

With any grammar and any resolver, the rule about compound selectors adds to a result
what it finds about each style rule by itself, and changes nothing that is there.  A
selector that the grammar refuses ends its own style rule only.
-/

namespace CssLint

open Sheet

/-! ## Failed results -/

namespace LintResult

/-- The result has failed just when it holds a warning that is an error, or a fault of the
configuration. -/
def IsConsistent (result : LintResult) : Prop :=
  result.errored = true ↔
    (∃ warning ∈ result.warnings, warning.severity = .error) ∨ result.invalidOptions ≠ []

theorem isConsistent_empty (source : Option String) : (empty source).IsConsistent := by
  simp [IsConsistent, empty]

theorem IsConsistent.warn {result : LintResult} (isConsistent : result.IsConsistent)
    (warning : Warning) : (result.warn warning).IsConsistent := by
  unfold IsConsistent at isConsistent ⊢
  simp only [LintResult.warn, Bool.or_eq_true, beq_iff_eq, isConsistent, List.mem_append,
    List.mem_singleton]
  constructor
  · rintro ((⟨old, member, serious⟩ | fault) | serious)
    · exact .inl ⟨old, .inl member, serious⟩
    · exact .inr fault
    · exact .inl ⟨warning, .inr rfl, serious⟩
  · rintro (⟨other, old | rfl, serious⟩ | fault)
    · exact .inl (.inl ⟨other, old, serious⟩)
    · exact .inr serious
    · exact .inl (.inr fault)

theorem IsConsistent.warnAll {result : LintResult} (isConsistent : result.IsConsistent)
    (warnings : List Warning) : (result.warnAll warnings).IsConsistent := by
  induction warnings generalizing result with
  | nil => exact isConsistent
  | cons warning warnings inductionHypothesis =>
      exact inductionHypothesis (isConsistent.warn warning)

theorem isConsistent_invalidOption (result : LintResult) (text : String) :
    (result.invalidOption text).IsConsistent := by
  simp [IsConsistent, invalidOption]

theorem source_warnAll (result : LintResult) (warnings : List Warning) :
    (result.warnAll warnings).source = result.source := by
  induction warnings generalizing result with
  | nil => rfl
  | cons warning warnings inductionHypothesis => exact inductionHypothesis (result.warn warning)

end LintResult

namespace Rule

/-! ## One style rule -/

section StyleRule

variable (grammar : Grammar) (resolver : Resolver) (setting : RuleSetting) (limit : Binary64)
  (sheet : Stylesheet) (id : NodeId)

/-- What is reported about the selector of a style rule that has too many compound selectors. -/
def exceededWarning (fragment : List Char) : Warning :=
  let place := Reporter.locate ⟨maxCompoundsName, setting, sheet⟩ id fragment
  ⟨place.line, place.column, maxCompoundsName, setting.severity,
    setting.message.getD (expectedText fragment limit)⟩

/-- What is reported about a selector that the grammar reads. -/
def readWarnings (selector : List Char) : List Warning :=
  match grammar selector with
  | .ok root =>
    (violations limit root).map fun violation =>
      exceededWarning setting limit sheet id violation.fragment
  | .error _ => []

/-- What is reported about a selector that the grammar refuses. -/
def refusedWarnings (selector : List Char) : List Warning :=
  match grammar selector with
  | .ok _ => []
  | .error fault =>
    let place := Reporter.locate ⟨maxCompoundsName, setting, sheet⟩ id selector
    [⟨place.line, place.column, "CssSyntaxError", .error,
      "Unable to parse selector \"" ++ String.ofList selector ++ "\": " ++ fault.message⟩]

/-- What is reported about one style rule: first what is found in its selectors in front of the
first that the grammar refuses, then the refusal of that one. -/
def styleRuleWarnings : List Warning :=
  match effectiveSelectors resolver sheet id with
  | none => []
  | some selectors =>
    let isRead := fun selector => (grammar selector).isOk
    (selectors.takeWhile isRead).flatMap (readWarnings grammar setting limit sheet id) ++
      (selectors.dropWhile isRead).head?.toList.flatMap
        (refusedWarnings grammar setting sheet id)

theorem selectorWarnings_eq_takeWhile (selectors : List (List Char)) :
    selectorWarnings grammar ⟨maxCompoundsName, setting, sheet⟩ limit id selectors =
      (selectors.takeWhile fun selector => (grammar selector).isOk).flatMap
          (readWarnings grammar setting limit sheet id) ++
        (selectors.dropWhile fun selector => (grammar selector).isOk).head?.toList.flatMap
          (refusedWarnings grammar setting sheet id) := by
  induction selectors with
  | nil => rfl
  | cons selector selectors inductionHypothesis =>
      rw [selectorWarnings]
      cases read : grammar selector with
      | error fault =>
          -- The refused selector is the first of what is left, and those behind it do not count.
          have refused : (grammar selector).isOk = false := by
            rw [read]
            rfl
          rw [List.takeWhile_cons, List.dropWhile_cons, refused, if_neg Bool.false_ne_true,
            if_neg Bool.false_ne_true, List.flatMap_nil, List.nil_append, List.head?_cons,
            Option.toList_some, List.flatMap_singleton, refusedWarnings, read]
          rfl
      | ok root =>
          have isRead : (grammar selector).isOk = true := by
            rw [read]
            rfl
          rw [List.takeWhile_cons, List.dropWhile_cons, isRead, if_pos rfl, if_pos rfl,
            List.flatMap_cons, List.append_assoc, ← inductionHypothesis, readWarnings, read]
          rfl

theorem ruleWarnings_eq_styleRuleWarnings :
    ruleWarnings grammar resolver ⟨maxCompoundsName, setting, sheet⟩ limit id =
      styleRuleWarnings grammar resolver setting limit sheet id := by
  rw [ruleWarnings, styleRuleWarnings]
  cases effectiveSelectors resolver sheet id with
  | none => rfl
  | some selectors => exact selectorWarnings_eq_takeWhile grammar setting limit sheet id selectors

end StyleRule

/-! ## The whole style sheet -/

/-- A setting that is a limit only adds warnings, those about each style rule by itself in the order
of the style sheet; any other setting only adds one fault of the configuration. Either way a result
that had failed for a reason fails for a reason. -/
theorem maxCompounds_each (grammar : Grammar) (resolver : Resolver) (setting : RuleSetting)
    (sheet : Stylesheet) (result : LintResult) :
    let checked := maxCompounds grammar resolver setting sheet result
    (match limitOf? setting.primary with
      | some limit =>
        checked.warnings = result.warnings ++
            sheet.rules.flatMap (fun (id, _) =>
              styleRuleWarnings grammar resolver setting limit sheet id) ∧
          checked.invalidOptions = result.invalidOptions
      | none =>
        checked.warnings = result.warnings ∧
          checked.invalidOptions =
            result.invalidOptions ++ [invalidOptionText maxCompoundsName setting.primary]) ∧
      checked.source = result.source ∧
      (result.IsConsistent → checked.IsConsistent) := by
  intro checked
  cases found : limitOf? setting.primary with
  | none =>
      have same : checked =
          result.invalidOption (invalidOptionText maxCompoundsName setting.primary) := by
        simp only [checked, maxCompounds, found]
      rw [same]
      exact ⟨⟨rfl, rfl⟩, rfl, fun _ => LintResult.isConsistent_invalidOption _ _⟩
  | some limit =>
      have same : checked = result.warnAll (sheet.rules.flatMap fun (id, _) =>
          styleRuleWarnings grammar resolver setting limit sheet id) := by
        simp only [checked, maxCompounds, found, ruleWarnings_eq_styleRuleWarnings]
      rw [same]
      exact ⟨⟨result.warnings_warnAll _, result.invalidOptions_warnAll _⟩,
        result.source_warnAll _, fun isConsistent => isConsistent.warnAll _⟩

/-- Two style rules, `a` and `b`. -/
private def twoRules : Stylesheet :=
  ((Stylesheet.empty ['a', '\x7b', '\x7d', 'b', '\x7b', '\x7d']).append Stylesheet.root
    (.rule ⟨['a'], 0⟩) ⟨0, 3⟩).append Stylesheet.root (.rule ⟨['b'], 3⟩) ⟨3, 6⟩

/-- Every selector stands for itself, for `x` and for `y`. -/
private def threefold : Resolver :=
  fun selector _ _ => [selector, ['x'], ['y']]

/-- All selectors but `x` have two compound selectors. -/
private def refusingX : Grammar := fun selector =>
  if selector = ['x'] then .error .emptySelector
  else .ok ⟨.root, [], [⟨.selector, selector, [.leaf (.combinator .child) ['>']]⟩]⟩

/-- Of each of two style rules the first selector is measured, the second is refused, and the third
is not looked at. -/
theorem maxCompounds_each_twoRules :
    let setting : RuleSetting := ⟨.number (.integer 1), .warning, none⟩
    let checked := maxCompounds refusingX threefold setting twoRules (.empty none)
    (LintResult.empty none).IsConsistent ∧
      checked.warnings.map (fun warning => (warning.column, warning.rule)) =
        [(1, maxCompoundsName), (1, "CssSyntaxError"), (4, maxCompoundsName),
          (4, "CssSyntaxError")] ∧
      checked.IsConsistent := by
  intro setting checked
  have limits : limitOf? setting.primary = some (Binary64.ofInt 1) := by decide +kernel
  have checks := maxCompounds_each refusingX threefold setting twoRules (.empty none)
  rw [limits] at checks
  refine ⟨LintResult.isConsistent_empty none, ?_,
    checks.2.2 (LintResult.isConsistent_empty none)⟩
  have warnings : checked.warnings = _ := checks.1.1
  rw [warnings]
  decide +kernel

end Rule

end CssLint
