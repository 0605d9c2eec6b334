import CssLint.Proofs.Rule.AlikeFindings
import CssLint.Proofs.Rule.Isolation
import CssLint.Proofs.Rule.PlainFindings
import CssLint.Proofs.Selector.EntryPlaces
import CssLint.Proofs.Sheet.AlikeForests
import CssLint.Proofs.Sheet.Within
import CssLint.Proofs.Text.Lines
import CssLint.Proofs.Text.Search

/-!
# Warnings about entries

A violation is reported where its fragment occurs first in the selector of the rule.  For
an entry of a list this is a place inside the entry, unless the fragment occurs in front
of the entry too: then the warning points there.
-/

namespace CssLint

open Sheet Text
open Selector (PlacedEntry placedEntries)

/-! ## Places in entries -/

section Place

variable {css word : List Char} {occurrence : Occurrence} {entry : PlacedEntry}

theorem Sheet.Placed.occursAt {style : StyleRule} {span : Span}
    (placed : Placed css (.rule style) span) : OccursAt style.selector css style.offset := by
  obtain ⟨boundary, stands, -⟩ := placed.selector style rfl
  exact boundary.occursAt stands

/-- A word with characters is reported where the selector has it first. -/
theorem Sheet.Occurrence.place_of_find? {index : Nat} (nonempty : word ≠ [])
    (found : find? word occurrence.style.selector = some index) :
    occurrence.place word = occurrence.style.offset + index := by
  rw [Occurrence.place, found, if_neg (by simpa using nonempty)]
  rfl

theorem Sheet.Occurrence.onBoundary_place {span : Span}
    (placed : Placed css (.rule occurrence.style) span) (begins : span.start = occurrence.start)
    (word : List Char) : OnBoundary css (occurrence.place word) := by
  have start : OnBoundary css occurrence.start := begins ▸ placed.start
  by_cases empty : word = []
  · rw [empty]
    exact start
  · cases found : find? word occurrence.style.selector with
    | none =>
        rw [Occurrence.place, found, if_neg (by simpa using empty)]
        exact start
    | some index =>
        rw [place_of_find? empty found]
        exact ((occursAt_of_find? found).trans placed.occursAt).onBoundary

/-- A word of an entry is reported inside the entry just when the selector has it nowhere in front.
The empty word is reported at the start of the rule. -/
theorem Sheet.Occurrence.place_within_iff {span : Span}
    (placed : Placed css (.rule occurrence.style) span) (begins : span.start = occurrence.start)
    (member : entry ∈ placedEntries occurrence.style.selector) (inside : word <:+: entry.text) :
    occurrence.style.offset + entry.offset ≤ occurrence.place word ∧
        occurrence.place word < occurrence.style.offset + entry.offset + byteCount entry.text ↔
      ¬ OccursBefore word occurrence.style.selector entry.offset ∧
        (word = [] → occurrence.start = occurrence.style.offset) := by
  obtain ⟨nonempty, front, back, selector, frontSize⟩ :=
    Selector.occursAt_of_mem_placedEntries member
  obtain ⟨index, found, within, before⟩ := find?_of_isInfix inside front back
  rw [← selector] at found before
  rw [frontSize] at within before
  rw [← before]
  by_cases empty : word = []
  · subst empty
    have place : occurrence.place [] = occurrence.start := rfl
    have least : index = 0 := Option.some.inj (found.symm.trans (find?_nil _))
    have behind : occurrence.start ≤ occurrence.style.offset :=
      begins ▸ (placed.selector _ rfl).2.2.1
    have positive : 0 < byteCount entry.text := byteCount_pos nonempty
    rw [place, least]
    simp only [forall_const]
    omega
  · have size : 0 < byteCount word := byteCount_pos empty
    rw [place_of_find? empty found]
    simp only [empty, false_imp_iff, and_true]
    omega

end Place

/-! ## Warnings -/

/-- The line and column of the warning are those of a place of the text from byte `start` on and in
front of byte `stop`. -/
def Warning.PointsInto (warning : Warning) (css : List Char) (start stop : Nat) : Prop :=
  ∃ place, OnBoundary css place ∧ start ≤ place ∧ place < stop ∧
    Position.ofOffset css place = ⟨warning.line, warning.column⟩

/-- No other place has the line and column of the warning. -/
theorem Warning.pointsInto_iff {warning : Warning} {css : List Char} {start stop place : Nat}
    (boundary : OnBoundary css place)
    (stands : Position.ofOffset css place = ⟨warning.line, warning.column⟩) :
    warning.PointsInto css start stop ↔ start ≤ place ∧ place < stop := by
  constructor
  · rintro ⟨other, otherBoundary, after, before, same⟩
    obtain rfl := Position.eq_of_ofOffset_eq otherBoundary boundary (same.trans stands.symm)
    exact ⟨after, before⟩
  · rintro ⟨after, before⟩
    exact ⟨place, boundary, after, before, stands⟩

/-- The rule about compound selectors reports each style rule of a text by itself. -/
theorem warnings_lint_eq_flatMap {config : Config} {setting : RuleSetting} {limit : Binary64}
    (runs : config.setting? Rule.maxCompoundsName = some setting)
    (limits : Rule.limitOf? setting.primary = some limit) (css : List Char)
    (source : Option String) :
    (lint config css source).warnings = (Stylesheet.ofText css).rules.flatMap fun (id, _) =>
      Rule.styleRuleWarnings Rule.grammar Rule.resolver setting limit (Stylesheet.ofText css)
        id := by
  have described := (rules_described css).imp fun _ _ both => both.2
  have found := flatMap_ruleWarnings setting limit described
  simp only [Rule.ruleWarnings_eq_styleRuleWarnings] at found
  rw [warnings_lint, found]
  simp only [Config.findingsIn, runs, findingsIn, limits, Stylesheet.ofText,
    Stylesheet.source_ofItems]

/-- A style rule that stands directly in the style sheet is measured by its own entries. -/
theorem Sheet.Occurrence.selectors_eq_entries {occurrence : Occurrence}
    (top : occurrence.above = []) {selectors : List (List Char)}
    (measured : occurrence.selectors = some selectors) :
    selectors = (Selector.entries occurrence.style.selector).filter Selector.isStandard := by
  simp only [Occurrence.selectors] at measured
  split at measured
  · cases measured
  · split at measured
    · cases measured
    · split at measured
      · cases measured
      · rw [← Option.some.inj measured, top, List.filterMap_nil, Selector.flatMap_resolve_nil]

/-- The rule about compound selectors reports each style rule of a text by itself.  A style rule
that stands directly in the style sheet is measured by its own entries, and what is reported about
a violation in one of them points into the entry just when the fragment of the violation does not
occur in front of the entry; a fragment without characters is reported at the start of the rule. -/
theorem lint_entries {config : Config} {setting : RuleSetting} {limit : Binary64}
    (runs : config.setting? Rule.maxCompoundsName = some setting)
    (limits : Rule.limitOf? setting.primary = some limit) (css : List Char)
    (source : Option String) :
    let sheet := Stylesheet.ofText css
    (lint config css source).warnings = sheet.rules.flatMap (fun (id, _) =>
        Rule.styleRuleWarnings Rule.grammar Rule.resolver setting limit sheet id) ∧
      ∀ id style, (id, style) ∈ sheet.rules → sheet.parent? id = some Stylesheet.root →
        (∀ selectors, Rule.effectiveSelectors Rule.resolver sheet id = some selectors →
          selectors = ((placedEntries style.selector).map PlacedEntry.text).filter
            Selector.isStandard) ∧
        ∀ entry ∈ placedEntries style.selector,
          let start := style.offset + entry.offset
          OccursAt entry.text css start ∧
          ∀ root, Rule.grammar entry.text = .ok root →
            ∀ violation ∈ Rule.violations limit root,
              ((Rule.exceededWarning setting limit sheet id violation.fragment).PointsInto css
                  start (start + byteCount entry.text) ↔
                ¬ OccursBefore violation.fragment style.selector entry.offset ∧
                  (violation.fragment = [] →
                    (sheet.node? id).map (fun node => node.span.start) = some style.offset)) := by
  intro sheet
  refine ⟨warnings_lint_eq_flatMap runs limits css source, fun id style member top => ?_⟩
  obtain ⟨occurrence, occurs, same, describes⟩ :=
    exists_mem_of_forall₂ (rules_described css) member
  obtain ⟨span, placed, begins⟩ := (laidOut_contents css).placed [] occurrence occurs
  obtain rfl : occurrence.style = style := same
  refine ⟨fun selectors measured => ?_, fun entry listed => ?_⟩
  · have above : occurrence.above = [] :=
      describes.above.symm.trans (Stylesheet.ancestors_of_parent?_root top)
    rw [effectiveSelectors_eq describes] at measured
    rw [Selector.map_text_placedEntries, Occurrence.selectors_eq_entries above measured]
  · have entryAt := (Selector.occursAt_of_mem_placedEntries listed).2.trans placed.occursAt
    refine ⟨entryAt, fun root read violation found => ?_⟩
    have within := occurrence.place_within_iff placed begins listed
      (Rule.fragment_isInfix read found)
    have boundary := occurrence.onBoundary_place placed begins violation.fragment
    have stands : Position.ofOffset css (occurrence.place violation.fragment) =
        Reporter.locate ⟨Rule.maxCompoundsName, setting, sheet⟩ id violation.fragment := by
      rw [locate_eq describes, Stylesheet.ofText, Stylesheet.source_ofItems]
    rw [Warning.pointsInto_iff boundary stands, within, describes.start, Option.some_inj]

/-- A list whose second entry is a negation around a selector that is too long as well. -/
theorem lint_entries_list :
    let css := "a b, c > d:not(e + f)\x7b\x7d".toList
    let setting : RuleSetting := ⟨.number (.integer 1), .error, none⟩
    let style : StyleRule := ⟨"a b, c > d:not(e + f)".toList, 0⟩
    let entry : PlacedEntry := ⟨5, "c > d:not(e + f)".toList⟩
    (Config.limiting setting).setting? Rule.maxCompoundsName = some setting ∧
      Rule.limitOf? setting.primary = some (Binary64.ofInt 1) ∧
      (1, style) ∈ (Stylesheet.ofText css).rules ∧
      (Stylesheet.ofText css).parent? 1 = some Stylesheet.root ∧
      entry ∈ placedEntries style.selector ∧
      ∃ root, Rule.grammar entry.text = .ok root ∧
        (Rule.violations (Binary64.ofInt 1) root).map Rule.Violation.fragment =
          ["e + f".toList, entry.text] ∧
        ∀ violation ∈ Rule.violations (Binary64.ofInt 1) root,
          (Rule.exceededWarning setting (Binary64.ofInt 1) (Stylesheet.ofText css) 1
            violation.fragment).PointsInto css 5 21 := by
  intro css setting style entry
  have runs : (Config.limiting setting).setting? Rule.maxCompoundsName = some setting :=
    Config.setting?_limiting setting
  have limits : Rule.limitOf? setting.primary = some (Binary64.ofInt 1) := by decide +kernel
  have member : (1, style) ∈ (Stylesheet.ofText css).rules := by decide +kernel
  have top : (Stylesheet.ofText css).parent? 1 = some Stylesheet.root := by decide +kernel
  have listed : entry ∈ placedEntries style.selector := by decide +kernel
  have measured : (Rule.grammar entry.text).toOption.map (Rule.violations (Binary64.ofInt 1)) =
      some [⟨"e + f".toList, 2⟩, ⟨entry.text, 2⟩] := by decide +kernel
  obtain ⟨root, ofRoot, found⟩ := Option.map_eq_some_iff.1 measured
  have read : Rule.grammar entry.text = .ok root := by
    cases result : Rule.grammar entry.text with
    | error fault => rw [result] at ofRoot; cases ofRoot
    | ok tree => rw [result] at ofRoot; exact congrArg _ (Option.some.inj ofRoot)
  refine ⟨runs, limits, member, top, listed, root, read, by rw [found]; rfl,
    fun violation inside => ?_⟩
  have points := ((lint_entries runs limits css none).2 1 style member top).2 entry listed
  refine (points.2 root read violation inside).2 ?_
  rw [found] at inside
  rcases List.mem_pair.1 inside with rfl | rfl <;> decide +kernel

/-- The fragment of the second entry occurs in the first, and both warnings point there. -/
theorem lint_entries_repeated :
    let css := "a b c, a b \x7b\x7d".toList
    let setting : RuleSetting := ⟨.number (.integer 1), .error, none⟩
    let style : StyleRule := ⟨"a b c, a b".toList, 0⟩
    let second := Rule.exceededWarning setting (Binary64.ofInt 1) (Stylesheet.ofText css) 1
      "a b".toList
    (1, style) ∈ (Stylesheet.ofText css).rules ∧
      (Stylesheet.ofText css).parent? 1 = some Stylesheet.root ∧
      placedEntries style.selector = [⟨0, "a b c".toList⟩, ⟨7, "a b".toList⟩] ∧
      (Rule.grammar "a b".toList).toOption.map (Rule.violations (Binary64.ofInt 1)) =
        some [⟨"a b".toList, 2⟩] ∧
      (lint (.limiting setting) css none).warnings =
        [Rule.exceededWarning setting (Binary64.ofInt 1) (Stylesheet.ofText css) 1
          "a b c".toList, second] ∧
      ¬ second.PointsInto css 7 10 := by
  intro css setting style second
  have first : OnBoundary css 0 := ⟨[], css, rfl, rfl⟩
  have stands : Position.ofOffset css 0 = ⟨second.line, second.column⟩ := by decide +kernel
  refine ⟨by decide +kernel, by decide +kernel, by decide +kernel, by decide +kernel,
    by decide +kernel, ?_⟩
  rw [Warning.pointsInto_iff first stands]
  decide

end CssLint
