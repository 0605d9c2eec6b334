import CssLint.Proofs.Rule.Findings
import CssLint.Proofs.Rule.Fragments

/-!
# Findings that are alike

Two style rules whose selectors are judged alike one by one give findings that are
alike one by one, and so do two forests of such rules.  What makes two findings alike
is up to the texts that are compared: it may be the rule and the severity only, or the
place as well.
-/

namespace CssLint

open Sheet Text
open Selector (Change)

/-! ## Selectors -/

/-- Neither of two selectors can be read, or both have violations whose fragments go with each other
one by one. -/
inductive JudgedAlike (keeps : List Char → List Char → Prop) (selector other : List Char) : Prop
  | unreadable (first : (Selector.Node.ofText selector).isOk = false)
      (second : (Selector.Node.ofText other).isOk = false)
  | measured {root changed : Selector.Node} (first : Selector.Node.ofText selector = .ok root)
      (second : Selector.Node.ofText other = .ok changed)
      (violations : ∀ limit, List.Forall₂
        (fun violation other => keeps violation.fragment other.fragment)
        (Rule.violations limit root) (Rule.violations limit changed))

theorem JudgedAlike.refl {keeps : List Char → List Char → Prop} (same : ∀ text, keeps text text)
    (selector : List Char) : JudgedAlike keeps selector selector := by
  cases read : Selector.Node.ofText selector with
  | error fault =>
      have fails : (Selector.Node.ofText selector).isOk = false := by
        rw [read]
        rfl
      exact .unreadable fails fails
  | ok root =>
      exact .measured read read fun limit => List.forall₂_same.2 fun violation _ =>
        same violation.fragment

theorem JudgedAlike.imp {keeps others : List Char → List Char → Prop} {selector other : List Char}
    (judged : JudgedAlike keeps selector other)
    (keeps_ : ∀ fragment changed, keeps fragment changed → others fragment changed) :
    JudgedAlike others selector other := by
  cases judged with
  | unreadable first second => exact .unreadable first second
  | measured first second violations =>
      exact .measured first second fun limit => (violations limit).imp
        fun _ _ kept => keeps_ _ _ kept

/-- A changed selector is judged like the selector itself. -/
theorem JudgedAlike.apply {change : Change} {selector : List Char}
    (extends_ : Rule.Extends change) (spares : change.Spares selector)
    (settled : ∀ fault, Selector.Node.ofText selector = .error fault →
      change.Quiet ∧ (change.tail = [] ∨ fault.isComment = false)) :
    JudgedAlike (fun fragment other => fragment ⊆ selector ∧
      (change.tail = [] → other = change.expand fragment)) selector (change.apply selector) := by
  have verdict := Rule.violations_apply extends_ spares settled
  cases read : Selector.Node.ofText selector with
  | error fault =>
      rw [read] at verdict
      exact .unreadable (by rw [read]; rfl) verdict
  | ok root =>
      rw [read] at verdict
      obtain ⟨changed, accepted, violations⟩ := verdict
      refine .measured read accepted fun limit => ?_
      exact (List.forall₂_and_left _ _).2
        ⟨fun violation member => (Rule.fragment_isInfix read member).subset, violations limit⟩

theorem exists_fault_of_not_isOk {selector : List Char}
    (fails : (Selector.Node.ofText selector).isOk = false) :
    ∃ fault, Selector.Node.ofText selector = .error fault := by
  cases read : Selector.Node.ofText selector with
  | error fault => exact ⟨fault, rfl⟩
  | ok root =>
      rw [read] at fails
      cases fails

/-! ## Style rules -/

section Findings

variable {alike : Finding → Finding → Prop} {keeps whole : List Char → List Char → Prop}
  {setting : RuleSetting} {limit : Binary64} {occurrence changed : Occurrence}

/-- The findings about two style rules whose words are reported alike. -/
theorem findingsOf_alike
    (exceeded : ∀ fragment other, keeps fragment other →
      alike (occurrence.exceeded setting limit fragment) (changed.exceeded setting limit other))
    (unreadable : ∀ selector other, whole selector other → ∀ reason otherReason,
      alike (occurrence.unreadable selector reason) (changed.unreadable other otherReason))
    {selectors others : List (List Char)}
    (judged : List.Forall₂ (fun selector other => whole selector other ∧
      JudgedAlike keeps selector other) selectors others) :
    List.Forall₂ alike (occurrence.findingsOf setting limit selectors)
      (changed.findingsOf setting limit others) := by
  induction judged with
  | nil => exact .nil
  | @cons selector other selectors others first _ inductionHypothesis =>
      obtain ⟨own, judged⟩ := first
      rw [Occurrence.findingsOf, Occurrence.findingsOf, Rule.grammar]
      cases judged with
      | unreadable first second =>
          obtain ⟨fault, first⟩ := exists_fault_of_not_isOk first
          obtain ⟨otherFault, second⟩ := exists_fault_of_not_isOk second
          rw [first, second]
          exact .cons (unreadable selector other own _ _) .nil
      | measured first second violations =>
          rw [first, second]
          refine List.rel_append ?_ inductionHypothesis
          rw [List.forall₂_map_left_iff, List.forall₂_map_right_iff]
          exact (violations limit).imp fun violation other goes =>
            exceeded violation.fragment other.fragment goes

theorem findings_alike
    (exceeded : ∀ fragment other, keeps fragment other →
      alike (occurrence.exceeded setting limit fragment) (changed.exceeded setting limit other))
    (unreadable : ∀ selector other, whole selector other → ∀ reason otherReason,
      alike (occurrence.unreadable selector reason) (changed.unreadable other otherReason))
    (judged : Option.Rel (List.Forall₂ fun selector other => whole selector other ∧
      JudgedAlike keeps selector other) occurrence.selectors changed.selectors) :
    List.Forall₂ alike (occurrence.findings setting limit) (changed.findings setting limit) := by
  rw [Occurrence.findings, Occurrence.findings]
  generalize occurrence.selectors = selectors at judged ⊢
  generalize changed.selectors = others at judged ⊢
  cases judged with
  | none => exact .nil
  | some judged => exact findingsOf_alike exceeded unreadable judged

end Findings

/-! ## Forests -/

/-- Forests whose style rules give findings that are alike do so for every configuration. -/
theorem findingsIn_alike {alike : Finding → Finding → Prop} {items others : List Item}
    (rules : List.Forall₂ (fun occurrence changed => ∀ setting limit,
      List.Forall₂ alike (occurrence.findings setting limit) (changed.findings setting limit))
      (occurrencesIn [] items) (occurrencesIn [] others)) (config : Config) :
    List.Forall₂ alike (config.findingsIn items) (config.findingsIn others) := by
  rw [Config.findingsIn, Config.findingsIn]
  cases config.setting? Rule.maxCompoundsName with
  | none => exact .nil
  | some setting =>
      simp only [CssLint.findingsIn]
      cases Rule.limitOf? setting.primary with
      | none => exact .nil
      | some limit => exact List.rel_flatMap rules fun _ _ same => same setting limit

theorem rule?_of_mem_rules {sheet : Stylesheet} {entry : NodeId × StyleRule}
    (member : entry ∈ sheet.rules) : sheet.rule? entry.1 = some entry.2 := by
  obtain ⟨id, -, rule⟩ := List.mem_filterMap.1 member
  obtain ⟨style, found, rfl⟩ := Option.map_eq_some_iff.1 rule
  exact found

/-- The style rules of a text and those of its forest, one by one. -/
theorem rules_described (css : List Char) :
    List.Forall₂ (fun entry occurrence => occurrence.style = entry.2 ∧
        Stylesheet.Describes (Stylesheet.ofText css) entry.1 occurrence)
      (Stylesheet.ofText css).rules (occurrencesIn [] (contents css).items) := by
  have described := Stylesheet.rules_ofItems css (contents css).items
  have known := (List.forall₂_and_left _ _).2
    ⟨fun entry member => rule?_of_mem_rules member, described⟩
  exact known.imp fun entry occurrence both =>
    ⟨Option.some.inj (both.2.rule.symm.trans both.1), both.2⟩

/-! ## Configurations -/

/-- Which faults of the configuration are found does not depend on the style sheet. -/
theorem invalidOptions_lint (config : Config) (css other : List Char) (source : Option String) :
    (lint config css source).invalidOptions = (lint config other source).invalidOptions := by
  have step : ∀ (name : String) (setting : RuleSetting) (result changed : LintResult),
      result.invalidOptions = changed.invalidOptions →
      (checkRule (Stylesheet.ofText css) result name setting).invalidOptions =
        (checkRule (Stylesheet.ofText other) changed name setting).invalidOptions := by
    intro name setting result changed same
    by_cases known : name = Rule.maxCompoundsName
    · subst known
      have found : LintRule.find? Rule.maxCompoundsName =
          some ⟨Rule.maxCompoundsName, Rule.maxCompounds Rule.grammar Rule.resolver⟩ := by
        simp [LintRule.find?, LintRule.all]
      simp only [checkRule, found, Rule.maxCompounds]
      cases Rule.limitOf? setting.primary with
      | none => exact congrArg (· ++ _) same
      | some limit =>
          simp only [LintResult.invalidOptions_warnAll]
          exact same
    · have unknown : LintRule.find? name = none := by
        simp [LintRule.find?, LintRule.all, Ne.symm known]
      simp only [checkRule, unknown]
      exact congrArg (· ++ _) same
  have run : ∀ (rules : Members RuleSetting) (result changed : LintResult),
      result.invalidOptions = changed.invalidOptions →
      (rules.foldl (fun result rule =>
        checkRule (Stylesheet.ofText css) result rule.1 rule.2) result).invalidOptions =
      (rules.foldl (fun result rule =>
        checkRule (Stylesheet.ofText other) result rule.1 rule.2) changed).invalidOptions := by
    intro rules
    induction rules with
    | nil => exact fun _ _ same => same
    | cons rule rules inductionHypothesis =>
        exact fun result changed same => inductionHypothesis _ _ (step rule.1 rule.2 _ _ same)
  exact run config.rules _ _ rfl

end CssLint
