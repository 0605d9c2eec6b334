import CssLint.Proofs.Rule.PlainFindings
import CssLint.Proofs.Selector.NestedMeasures
import CssLint.Proofs.Sheet.PlainSheets

/-!
# Rules inside each other

A chain of plain rules, each inside the block of the one before.  Only the innermost
rule is measured.  It stands for its entries behind those of the rules around it, each
combined with each, and the compound selectors of the parts add up.
-/

namespace CssLint

open Selector.Written Sheet Text

namespace Sheet

/-- The measures of the entries of a rule. -/
def PlainRule.entryMeasures (rule : PlainRule) : List Measure :=
  rule.prelude_.complexes.map (Complex.measure (Argument.form Selector.maxNesting))

/-- The measures of what the last of some rules stands for, each of them inside the one before, and
the first inside a rule that stands for measured selectors. -/
def chainMeasures (outer : List Measure) : List PlainRule → List Measure
  | [] => outer
  | rule :: rules => chainMeasures (Measure.within outer rule.entryMeasures) rules

/-- The innermost style rule of a chain, where `offset` is the place of the first byte. -/
def innermost (offset : Nat) (rule : PlainRule) : List PlainRule → StyleRule
  | [] => rule.style offset
  | next :: rules => innermost (rule.middle offset) next rules

/-- The rule has no negations. -/
def PlainRule.IsFlat (rule : PlainRule) : Prop :=
  ∀ complex ∈ rule.prelude_.complexes, complex.IsFlat

instance : DecidablePred PlainRule.IsFlat := fun rule =>
  inferInstanceAs (Decidable (∀ complex ∈ rule.prelude_.complexes, complex.IsFlat))

variable {above : List Kind} {rule : PlainRule}
  {complexes : List (Complex (Argument Selector.maxNesting))}

/-- What a rule inside others stands for, and what it adds to the selectors inside it. -/
structure StandsFor (above : List Kind) (rule : PlainRule)
    (complexes : List (Complex (Argument Selector.maxNesting))) : Prop where
  resolved : (Selector.entries rule.selector).flatMap
      (Selector.resolve (above.filterMap Kind.nestingEntries?)) =
    complexes.map (Complex.text (Argument.form Selector.maxNesting))
  nests : Nests (Selector.entries rule.selector :: above.filterMap Kind.nestingEntries?)
    (complexes.map (Complex.text (Argument.form Selector.maxNesting)))
  flat : ∀ complex ∈ complexes, complex.IsFlat
  noKeyframes : inKeyframes above = false

private theorem entries_selector (rule : PlainRule) :
    Selector.entries rule.selector =
      rule.prelude_.complexes.map (Complex.text (Argument.form Selector.maxNesting)) :=
  entries_prelude rule.plain

private theorem not_mem_nesting (rule : PlainRule) :
    ∀ entry ∈ Selector.entries rule.selector, '&' ∉ entry := by
  intro entry member
  rw [entries_selector] at member
  obtain ⟨complex, listed, rfl⟩ := List.mem_map.1 member
  exact (inert_complex (rule.plain complex listed)).not_mem_nesting

/-- The outermost rule stands for its entries. -/
private theorem stands_outermost (flat : rule.IsFlat) :
    StandsFor [] rule rule.prelude_.complexes := by
  constructor
  · rw [← entries_selector]
    exact (List.map_eq_flatMap (f := id)).symm.trans (List.map_id _)
  · rw [← entries_selector]
    exact nests_singleton _
  · exact flat
  · rfl

/-- A rule inside another one stands for its entries behind what that one stands for. -/
private theorem StandsFor.inside (stands : StandsFor above rule complexes) (offset : Nat)
    {next : PlainRule} (flat : next.IsFlat) :
    StandsFor (.rule (rule.style offset) :: above) next
      (Complex.within complexes next.prelude_.complexes) := by
  have entries : (Sheet.Kind.rule (rule.style offset) :: above).filterMap Kind.nestingEntries? =
      Selector.entries rule.selector :: above.filterMap Kind.nestingEntries? := rfl
  have texts : (Complex.within complexes next.prelude_.complexes).map
      (Complex.text (Argument.form Selector.maxNesting)) =
        (Selector.entries next.selector).flatMap fun entry =>
          (complexes.map (Complex.text (Argument.form Selector.maxNesting))).map fun around =>
            around ++ ' ' :: entry := by
    rw [entries_selector]
    exact Complex.map_text_within next.plain
  constructor
  · rw [entries, texts]
    apply List.flatMap_congr
    intro entry member
    exact stands.nests entry (not_mem_nesting next entry member)
  · rw [entries, texts]
    exact stands.nests.cons (not_mem_nesting next)
  · exact Complex.isFlat_within stands.flat flat
  · rfl

/-- Of the rules of a chain only the innermost is measured. -/
private theorem selectors_chain (rules : List PlainRule) (flat : ∀ next ∈ rules, next.IsFlat)
    (stands : StandsFor above rule complexes) (offset : Nat) :
    ∃ selectors : List (Complex (Argument Selector.maxNesting)),
      (∀ complex ∈ selectors, complex.IsFlat) ∧
      selectors.map (Complex.measure (Argument.form Selector.maxNesting)) =
        chainMeasures (complexes.map (Complex.measure (Argument.form Selector.maxNesting))) rules ∧
      (chainOccurrences above offset (rule :: rules)).map Occurrence.selectors =
        List.replicate rules.length none ++
          [some (selectors.map (Complex.text (Argument.form Selector.maxNesting)))] := by
  induction rules generalizing above offset rule complexes with
  | nil =>
      refine ⟨complexes, stands.flat, rfl, ?_⟩
      have plain : ∀ complex ∈ complexes,
          complex.IsPlain (Argument.IsPlain Selector.maxNesting) :=
        fun complex member => (stands.flat complex member).plain
      have measured := Occurrence.selectors_plain rule offset stands.noKeyframes plain
        stands.resolved
      exact congrArg (fun selectors => [selectors]) measured
  | cons next rules inductionHypothesis =>
      have inside := stands.inside offset (flat next List.mem_cons_self)
      obtain ⟨selectors, flatSelectors, measures, later⟩ := inductionHypothesis
        (fun other member => flat other (List.mem_cons_of_mem next member)) inside
        (rule.middle offset)
      have around := @Occurrence.selectors_around rule offset above
      refine ⟨selectors, flatSelectors, ?_, ?_⟩
      · rw [measures, Complex.map_measure_within next.plain]
        rfl
      · rw [chainOccurrences, List.map_cons, later]
        exact congrArg (· :: _) around

/-- Only the innermost rule of a chain gives warnings. -/
private theorem warnings_chain {number : JsonNumber} {limit : Nat} (whole : number.IsWhole limit)
    (setting : RuleSetting) (css : List Char) (rules : List PlainRule)
    (flat : ∀ next ∈ rules, next.IsFlat) (stands : StandsFor above rule complexes)
    (offset : Nat) :
    ((chainOccurrences above offset (rule :: rules)).flatMap fun occurrence =>
        (occurrence.findings setting (Binary64.ofInt limit)).map (Finding.warning css)) =
      Measure.warnings setting limit css (innermost offset rule rules)
        (chainMeasures (complexes.map (Complex.measure (Argument.form Selector.maxNesting)))
          rules) := by
  induction rules generalizing above offset rule complexes with
  | nil =>
      have plain : ∀ complex ∈ complexes,
          complex.IsPlain (Argument.IsPlain Selector.maxNesting) :=
        fun complex member => (stands.flat complex member).plain
      have measures : (complexes.flatMap (Complex.measures (Argument.form Selector.maxNesting)
          (Argument.measures Selector.maxNesting))) =
            complexes.map (Complex.measure (Argument.form Selector.maxNesting)) := by
        rw [List.map_eq_flatMap]
        apply List.flatMap_congr
        intro complex member
        exact (stands.flat complex member).measures _
      have warned := warnings_plain rule offset whole stands.noKeyframes plain stands.resolved
        setting css
      rw [measures] at warned
      exact (List.append_nil _).trans warned
  | cons next rules inductionHypothesis =>
      have inside := stands.inside offset (flat next List.mem_cons_self)
      have later := inductionHypothesis
        (fun other member => flat other (List.mem_cons_of_mem next member)) inside
        (rule.middle offset)
      rw [Complex.map_measure_within next.plain] at later
      rw [chainOccurrences, List.flatMap_cons, later, Occurrence.findings]
      have around := @Occurrence.selectors_around rule offset above
      simp only [List.isEmpty_cons, Bool.not_false, around, List.map_nil, List.nil_append]
      rfl

end Sheet

/-- Plain rules without negations, each inside the block of the one before: no rule but the
innermost is measured, that one as its entries behind all selectors of the rules around it, each of
these is read as one selector with as many compound selectors as its parts have together, and those
that exceed the limit are reported in order. -/
theorem effectiveSelectors_and_lint_chain (outer : PlainRule) (inner : List PlainRule)
    (within : inner.length ≤ Sheet.maxNesting) (flat : ∀ rule ∈ outer :: inner, rule.IsFlat)
    (last : Blanks) :
    let css := chainText (outer :: inner) ++ last.text
    let sheet := Stylesheet.ofText css
    let measures := chainMeasures outer.entryMeasures inner
    (sheet.rules.map fun (id, _) => Rule.effectiveSelectors Rule.resolver sheet id) =
        List.replicate inner.length none ++ [some (measures.map Measure.text)] ∧
      (∀ measure ∈ measures, ∃ nodes,
        Rule.grammar measure.text =
            .ok ⟨.root, measure.text, [⟨.selector, measure.text, nodes⟩]⟩ ∧
          1 + nodes.countP Selector.Node.isCombinator = measure.compounds) ∧
      ∀ (number : JsonNumber) (limit : Nat), number.IsWhole limit →
        ∀ (severity : Severity) (message source : Option String),
          let setting : RuleSetting := ⟨.number number, severity, message⟩
          let result := lint (.limiting setting) css source
          result.invalidOptions = [] ∧
            result.warnings =
              Measure.warnings setting limit css (innermost 0 outer inner) measures := by
  intro css sheet measures
  have flatInner : ∀ rule ∈ inner, rule.IsFlat :=
    fun rule member => flat rule (List.mem_cons_of_mem outer member)
  have stands := stands_outermost (flat outer List.mem_cons_self)
  have occurrences : occurrencesIn [] (contents css).items =
      chainOccurrences [] 0 (outer :: inner) := by
    have only : ∀ chain ∈ [outer :: inner], chain.length ≤ Sheet.maxNesting + 1 := by
      intro chain member
      cases List.mem_singleton.1 member
      exact Nat.succ_le_succ within
    have read := occurrences_sheetText [outer :: inner] only last
    rw [sheetText, List.flatMap_singleton] at read
    exact read.trans (List.append_nil _)
  obtain ⟨selectors, flatSelectors, measured, effective⟩ :=
    selectors_chain inner flatInner stands 0
  have texts : selectors.map (Complex.text (Argument.form Selector.maxNesting)) =
      measures.map Measure.text := by
    refine Eq.trans ?_ (congrArg (List.map Measure.text) measured)
    rw [List.map_map]
    rfl
  refine ⟨?_, ?_, ?_⟩
  · rw [effectiveSelectors_ofText, occurrences, effective, texts]
  · intro measure member
    have listed : measure ∈ selectors.map
        (Complex.measure (Argument.form Selector.maxNesting)) := by
      rw [measured]
      exact member
    obtain ⟨complex, ofSelectors, rfl⟩ := List.mem_map.1 listed
    refine ⟨_, grammar_complex complex, ?_⟩
    rw [Complex.countP_nodes (flatSelectors complex ofSelectors), Nat.add_comm]
    rfl
  · intro number limit whole severity message source setting result
    have limits : Rule.limitOf? setting.primary = some (Binary64.ofInt limit) :=
      Rule.limitOf?_whole whole
    constructor
    · exact invalidOptions_lint_limiting limits css source
    · refine (warnings_lint_limiting limits css source).trans ?_
      rw [occurrences]
      exact warnings_chain whole setting css inner flatInner stands 0

/-- A universal selector in front of a block without declarations. -/
private def universalRule : PlainRule where
  before := .none
  prelude_ := ⟨⟨none, .universal, []⟩, []⟩
  plain := by decide
  after := .none
  early := []
  late := []
  inside := .none

theorem effectiveSelectors_and_lint_chain_universal :
    let css := ['*', '\x7b', '*', '\x7b', '\x7d', '\x7d']
    let setting : RuleSetting := ⟨.number (.integer 1), .warning, some "Too long."⟩
    [universalRule].length ≤ Sheet.maxNesting ∧
      (∀ rule ∈ [universalRule, universalRule], rule.IsFlat) ∧
      (JsonNumber.integer 1).IsWhole 1 ∧
      ((Stylesheet.ofText css).rules.map fun (id, _) =>
          Rule.effectiveSelectors Rule.resolver (Stylesheet.ofText css) id) =
        [none, some [['*', ' ', '*']]] ∧
      (lint (.limiting setting) css none).warnings =
        [⟨1, 3, Rule.maxCompoundsName, .warning, "Too long."⟩] := by
  intro css setting
  have within : [universalRule].length ≤ Sheet.maxNesting := by decide
  have flat : ∀ rule ∈ [universalRule, universalRule], rule.IsFlat := by decide
  have whole : (JsonNumber.integer 1).IsWhole 1 :=
    JsonNumber.isWhole_integer (by decide) (by decide)
  obtain ⟨effective, _, checked⟩ :=
    effectiveSelectors_and_lint_chain universalRule [universalRule] within flat .none
  exact ⟨within, flat, whole, effective,
    (checked (.integer 1) 1 whole .warning (some "Too long.") none).2⟩

end CssLint
