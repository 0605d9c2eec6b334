import CssLint.Proofs.Rule.AlikeFindings
import CssLint.Proofs.Sheet.LineEnds

/-!
# Line ends

Whether lines end with a line feed or with a carriage return in front of it, the same
warnings stand at the same lines and columns, unless an escape takes the end of a line
or the call of a mixin reaches up to it: an escape takes one character only, and
behind a call the carriage return counts as more of its line.
-/

namespace CssLint

open Sheet Text
open Selector (Change callEnds entries entry_subset escapesFeed not_mem_resolve
  resolve)

/-! ## Selectors -/

private theorem readItems_lineEnds (inner : Option Selector.ListReader) (nested : Bool)
    (last : Selector.Last) (spaced : Bool) :
    Selector.readItems inner nested last spaced lineEnds.tail = Selector.endEntry last [] := by
  rw [lineEnds, Selector.readItems]

theorem extends_lineEnds : Rule.Extends lineEnds := fun _ =>
  ⟨[], readItems_lineEnds _ _ _ _, fun _ member => absurd member List.not_mem_nil⟩

theorem quiet_lineEnds : lineEnds.Quiet := by
  refine ⟨fun c _ => List.not_mem_nil, fun inner nested last spaced => ⟨[], ?_⟩⟩
  rw [readItems_lineEnds]
  cases last <;> rfl

/-- Carriage returns do not change the verdict about a selector. -/
theorem judgedAlike_lineEnds {selector : List Char} (plain : '\r' ∉ selector)
    (spared : escapesFeed selector = false) :
    JudgedAlike (fun fragment other => '\r' ∉ fragment ∧ other = lineEnds.expand fragment)
      selector (lineEnds.expand selector) := by
  have spares : lineEnds.Spares selector := ⟨Or.inl rfl, Or.inr spared⟩
  have judged := JudgedAlike.apply extends_lineEnds spares fun _ _ =>
    ⟨quiet_lineEnds, Or.inl rfl⟩
  rw [Change.apply_eq_expand rfl] at judged
  exact judged.imp fun fragment other kept =>
    ⟨fun member => plain (kept.1 member), kept.2 rfl⟩

/-! ## Rules -/

/-- In the selector of a rule no call of a mixin reaches up to the end of a line, and nor does one
in what the selector stands for, where no escape takes the end of a line either. -/
def SparesLines (sheet : Stylesheet) (id : NodeId) (style : StyleRule) : Prop :=
  callEnds false style.selector = false ∧
    ∀ entry ∈ entries style.selector, ∀ selector ∈ sheet.resolve id entry,
      escapesFeed selector = false ∧ callEnds false selector = false

instance (sheet : Stylesheet) (id : NodeId) (style : StyleRule) :
    Decidable (SparesLines sheet id style) :=
  inferInstanceAs (Decidable (_ ∧ _))

/-- A finding at the place that stands for that of the other, with another text. -/
structure FindingsMatch (source : List Char) (finding changed : Finding) : Prop where
  place : lineEnds.Moves source finding.offset changed.offset
  rule : changed.rule = finding.rule
  severity : changed.severity = finding.severity

/-- What is measured stands for an entry of the selector. -/
theorem exists_entry_of_mem_selectors {occurrence : Occurrence} {selectors : List (List Char)}
    (measured : occurrence.selectors = some selectors) {selector : List Char}
    (member : selector ∈ selectors) : ∃ entry ∈ entries occurrence.style.selector,
      selector ∈ resolve (occurrence.above.filterMap Kind.nestingEntries?) entry := by
  rw [Occurrence.selectors] at measured
  split at measured
  · cases measured
  · split at measured
    · cases measured
    · split at measured
      · cases measured
      · cases measured
        exact List.mem_flatMap.1 (List.mem_filter.1 member).1

section Rules

variable {source : List Char} {occurrence changed : Occurrence} (plain : '\r' ∉ source)
  (alike : OccurrencesAlike (lineEnds.Moves source) (Expands source) (Expands source) occurrence
    changed)

include plain alike

theorem not_mem_selector : '\r' ∉ occurrence.style.selector := by
  intro member
  cases alike.style with
  | rule selector place =>
      obtain ⟨left, right, whole, -⟩ := place
      rw [whole] at plain
      exact plain (List.mem_append_right left (List.mem_append_left right member))

theorem not_mem_entriesAround :
    ∀ around ∈ occurrence.above.filterMap Kind.nestingEntries?, ∀ entry ∈ around,
      '\r' ∉ entry := by
  have ofKind : ∀ kind ∈ occurrence.above, ∀ around, kind.nestingEntries? = some around →
      ∀ entry ∈ around, '\r' ∉ entry := by
    refine forall_mem_of_forall₂ (fun kind other same around nests entry inAround found => ?_)
      alike.above
    cases same.2 with
    | rule selector place =>
        cases nests
        obtain ⟨left, right, whole, -⟩ := place
        rw [whole] at plain
        exact plain (List.mem_append_right left
          (List.mem_append_left right (entry_subset inAround found)))
    | atRule params part =>
        rw [Kind.nestingEntries?] at nests
        split at nests
        · cases nests
          exact plain (part (entry_subset inAround found))
        · cases nests
  intro around member
  obtain ⟨kind, inAbove, nests⟩ := List.mem_filterMap.1 member
  exact ofKind kind inAbove around nests

/-- Words are reported at the places that stand for theirs. -/
theorem place_lineEnds {word : List Char} (plainWord : '\r' ∉ word) :
    lineEnds.Moves source (occurrence.place word) (changed.place (lineEnds.expand word)) := by
  rw [Occurrence.place, Occurrence.place, lineEnds.isEmpty_expand]
  split
  · exact alike.start
  · rename_i some
    have found := find?_expand (fun none => some (by rw [none]; rfl)) plainWord
      (not_mem_selector plain alike)
    cases alike.style with
    | rule selector place =>
        obtain ⟨left, right, whole, here, there⟩ := place
        rw [selector]
        generalize find? word occurrence.style.selector = inText at found ⊢
        generalize find? (lineEnds.expand word) (lineEnds.expand occurrence.style.selector) =
          inLonger at found ⊢
        cases found with
        | none => exact alike.start
        | some moves =>
            obtain ⟨front, back, same, rfl, rfl⟩ := moves
            refine ⟨left ++ front, back ++ right, ?_, ?_, ?_⟩
            · rw [whole, same]
              simp only [List.append_assoc]
            · rw [byteCount_append, here]
              rfl
            · rw [lineEnds.expand_append, byteCount_append, there]
              rfl

/-- The findings about a rule stand at the places that stand for theirs. -/
theorem findings_lineEnds {sheet : Stylesheet} {id : NodeId}
    (describes : Stylesheet.Describes sheet id occurrence)
    (spares : SparesLines sheet id occurrence.style) (setting : RuleSetting) (limit : Binary64) :
    List.Forall₂ (FindingsMatch source) (occurrence.findings setting limit)
      (changed.findings setting limit) := by
  have resolved : ∀ entry ∈ entries occurrence.style.selector,
      ∀ selector ∈ resolve (occurrence.above.filterMap Kind.nestingEntries?) entry,
        escapesFeed selector = false ∧ callEnds false selector = false := by
    rw [← describes.above]
    exact spares.2
  have judged : Option.Rel (List.Forall₂ fun selector other =>
      ('\r' ∉ selector ∧ other = lineEnds.expand selector) ∧
        JudgedAlike (fun fragment other => '\r' ∉ fragment ∧ other = lineEnds.expand fragment)
          selector other) occurrence.selectors changed.selectors := by
    rw [selectors_lineEnds alike spares.1 fun entry inEntries selector member =>
      (resolved entry inEntries selector member).2]
    cases measured : occurrence.selectors with
    | none => exact .none
    | some selectors =>
        refine .some ?_
        rw [List.forall₂_map_right_iff]
        refine List.forall₂_same.2 fun selector member => ?_
        obtain ⟨entry, inEntries, inside⟩ := exists_entry_of_mem_selectors measured member
        have plainSelector : '\r' ∉ selector := by
          refine not_mem_resolve (by decide) (not_mem_entriesAround plain alike) ?_ selector inside
          exact fun found => not_mem_selector plain alike (entry_subset inEntries found)
        exact ⟨⟨plainSelector, rfl⟩, judgedAlike_lineEnds plainSelector
          (resolved entry inEntries selector inside).1⟩
  refine findings_alike ?_ ?_ judged
  · rintro fragment _ ⟨plainFragment, rfl⟩
    exact ⟨place_lineEnds plain alike plainFragment, rfl, rfl⟩
  · rintro selector _ ⟨plainSelector, rfl⟩ _ _
    exact ⟨place_lineEnds plain alike plainSelector, rfl, rfl⟩

end Rules

/-! ## Style sheets -/

/-- The warnings about a text and about the text with carriage returns are the same, up to what they
quote. -/
theorem lint_lineEnds {css : List Char} (plain : '\r' ∉ css) (spared : escapesFeed css = false)
    (spares : ∀ entry ∈ (Stylesheet.ofText css).rules,
      SparesLines (Stylesheet.ofText css) entry.1 entry.2)
    (config : Config) (source : Option String) :
    (lint config (lineEnds.expand css) source).warnings.map
        (fun warning => (warning.line, warning.column, warning.rule, warning.severity)) =
      (lint config css source).warnings.map
        (fun warning => (warning.line, warning.column, warning.rule, warning.severity)) ∧
    (lint config (lineEnds.expand css) source).invalidOptions =
      (lint config css source).invalidOptions := by
  refine ⟨?_, invalidOptions_lint config _ _ source⟩
  have allowed : ∀ occurrence ∈ occurrencesIn [] (contents css).items, ∀ changed,
      OccurrencesAlike (lineEnds.Moves css) (Expands css) (Expands css) occurrence changed →
      ∀ setting limit, List.Forall₂ (FindingsMatch css) (occurrence.findings setting limit)
        (changed.findings setting limit) := by
    have described := Stylesheet.rules_ofItems css (contents css).items
    have known : List.Forall₂ (fun entry occurrence =>
        ((Stylesheet.ofText css).rule? entry.1 = some entry.2 ∧
          SparesLines (Stylesheet.ofText css) entry.1 entry.2) ∧
        Stylesheet.Describes (Stylesheet.ofText css) entry.1 occurrence)
        (Stylesheet.ofText css).rules (occurrencesIn [] (contents css).items) :=
      (List.forall₂_and_left _ _).2 ⟨fun entry member =>
        ⟨rule?_of_mem_rules member, spares entry member⟩, described⟩
    refine forall_mem_of_forall₂ (fun occurrence entry both changed alike setting limit => ?_)
      known.flip
    obtain ⟨⟨own, spares⟩, describes⟩ := both
    obtain same : entry.2 = occurrence.style := Option.some.inj (own.symm.trans describes.rule)
    rw [same] at spares
    exact findings_lineEnds plain alike describes spares setting limit
  have rules := ((List.forall₂_and_left _ _).2 ⟨allowed, occurrences_lineEnds spared⟩).imp
    fun _ changed both => both.1 changed both.2
  have same := findingsIn_alike rules config
  rw [warnings_lint, warnings_lint, List.map_map, List.map_map]
  generalize config.findingsIn (contents css).items = findings at same ⊢
  generalize config.findingsIn (contents (lineEnds.expand css)).items = others at same ⊢
  induction same with
  | nil => rfl
  | cons first _ inductionHypothesis =>
      have place := ofOffset_expand plain first.place
      rw [List.map_cons, List.map_cons, inductionHypothesis]
      simp only [Function.comp_apply, Finding.warning, place, first.rule, first.severity]

/-- Line feeds around selectors, inside them and in a comment are spared. -/
theorem lint_lineEnds_nested :
    let css := "a\n\x7b\n  b c,\n  /* \n */ & > d \x7b\x7d\n\x7d\n".toList
    '\r' ∉ css ∧ escapesFeed css = false ∧
      (∀ entry ∈ (Stylesheet.ofText css).rules,
        SparesLines (Stylesheet.ofText css) entry.1 entry.2) ∧
      ∀ (config : Config) (source : Option String),
        (lint config (lineEnds.expand css) source).warnings.map
            (fun warning => (warning.line, warning.column, warning.rule, warning.severity)) =
          (lint config css source).warnings.map
            (fun warning => (warning.line, warning.column, warning.rule, warning.severity)) ∧
        (lint config (lineEnds.expand css) source).invalidOptions =
          (lint config css source).invalidOptions := by
  intro css
  have plain : '\r' ∉ css := by decide +kernel
  have spared : escapesFeed css = false := by decide +kernel
  have spares : ∀ entry ∈ (Stylesheet.ofText css).rules,
      SparesLines (Stylesheet.ofText css) entry.1 entry.2 := by decide +kernel
  exact ⟨plain, spared, spares, lint_lineEnds plain spared spares⟩

/-- An escaped line feed stands in a string; of a carriage return and a line feed the escape takes
the first only, and the other one breaks the string off. -/
theorem lint_lineEnds_escapedFeed :
    let css := "a b[c=\"\\\n\"] \x7b\x7d".toList
    let config := Config.empty.set Rule.maxCompoundsName ⟨.number (.integer 1), .error, none⟩
    '\r' ∉ css ∧
      (lint config css none).warnings.map
          (fun warning => (warning.line, warning.column, warning.rule, warning.severity)) =
        [(1, 1, Rule.maxCompoundsName, .error)] ∧
      (lint config (lineEnds.expand css) none).warnings.map
          (fun warning => (warning.line, warning.column, warning.rule, warning.severity)) = [] := by
  decide +kernel

end CssLint
