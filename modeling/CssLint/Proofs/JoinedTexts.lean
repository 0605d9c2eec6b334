import CssLint.Proofs.Rule.MovedFindings
import CssLint.Proofs.Sheet.Joined

/-!
# Checking joined texts

Behind a self-contained text and a semicolon any other text is checked as if it stood
alone: the style sheets are joined, and the warnings of the second text follow those
of the first, each at its own place in the joined text.
-/

namespace CssLint

open Sheet Text

private theorem occurrencesIn_unclosedItems (stop : Nat) {last : Option (Kind × Nat)}
    (lacks : ∀ item ∈ last, item.1.lacksBlock = true) :
    occurrencesIn [] (unclosedItems stop last) = [] := by
  cases last with
  | none => rfl
  | some item =>
      obtain ⟨kind, start⟩ := item
      have lacks := lacks _ rfl
      cases kind with
      | root => cases lacks
      | rule style => cases lacks
      | atRule header => rfl
      | declaration declaration => rfl

theorem findingsIn_contents_append {first : List Char} (selfContained : SelfContained first)
    (config : Config) (second : List Char) :
    config.findingsIn (contents (first ++ ';' :: second)).items =
      config.findingsIn (contents first).items ++
        (config.findingsIn (contents second).items).map (Finding.shift (byteCount first + 1)) := by
  obtain ⟨items, last, lacks, alone, joined⟩ := contents_append selfContained
  have nothing : ∀ setting stop, findingsIn setting (unclosedItems stop last) = [] := by
    intro setting stop
    rw [findingsIn, occurrencesIn_unclosedItems stop lacks]
    cases Rule.limitOf? setting.primary <;> rfl
  rw [Config.findingsIn, Config.findingsIn, Config.findingsIn, joined, alone]
  cases config.setting? Rule.maxCompoundsName with
  | none => rfl
  | some setting => simp only [findingsIn_append, findingsIn_shift, nothing, List.append_nil]

/-- The second warning is the first one, moved from a byte of the second text to the same byte of
the joined text. -/
def Warning.Moved (first second : List Char) (old new : Warning) : Prop :=
  ∃ offset, offset ≤ byteCount second ∧
    Position.ofOffset second offset = ⟨old.line, old.column⟩ ∧
    Position.ofOffset (first ++ ';' :: second) (byteCount first + 1 + offset) =
      ⟨new.line, new.column⟩ ∧
    new.rule = old.rule ∧ new.severity = old.severity ∧ new.text = old.text

/-- Behind a self-contained text and a semicolon any text is read and checked as if it stood
alone. -/
theorem ofText_and_lint_append {first : List Char} (selfContained : SelfContained first) :
    (∃ grown, (Stylesheet.ofText first).Grows grown ∧
      ∀ second, Stylesheet.ofText (first ++ ';' :: second) =
        grown.join (Stylesheet.ofText second)) ∧
    ∀ (config : Config) (source : Option String) (second : List Char),
      ∃ moved, (lint config (first ++ ';' :: second) source).warnings =
          (lint config first source).warnings ++ moved ∧
        List.Forall₂ (Warning.Moved first second) (lint config second source).warnings moved := by
  refine ⟨Stylesheet.ofText_append selfContained, fun config source second => ?_⟩
  have noNewline : (';' :: second).head? ≠ some '\n' := by simp
  refine ⟨((config.findingsIn (contents second).items).map
    (Finding.shift (byteCount first + 1))).map (Finding.warning (first ++ ';' :: second)), ?_, ?_⟩
  · rw [warnings_lint, warnings_lint, findingsIn_contents_append selfContained, List.map_append]
    congr 1
    refine List.map_congr_left fun finding member => ?_
    have place := Position.ofOffset_append noNewline (offset_le_of_mem member)
    simp only [Finding.warning, place]
  · rw [warnings_lint, List.map_map, List.forall₂_map_left_iff, List.forall₂_map_right_iff,
      List.forall₂_same]
    intro finding member
    exact ⟨finding.offset, offset_le_of_mem member, rfl, rfl, rfl, rfl, rfl⟩

/-- Each text has a block and an entry with two compound selectors. The warning of the second text
moves behind the declaration that ends the first one, in its second line. -/
theorem ofText_and_lint_append_blocks :
    let first := "a b\x7bc:(d)\x7d\ne:f".toList
    let second := "g, h > i\x7bj:k\x7d".toList
    let config := Config.empty.set Rule.maxCompoundsName ⟨.number (.integer 1), .error, none⟩
    let found (line column : Nat) (text : String) : Warning :=
      ⟨line, column, Rule.maxCompoundsName, .error,
        "Expected \"" ++ text ++ "\" to have no more than 1 compound selectors"⟩
    SelfContained first ∧
      (∃ grown, (Stylesheet.ofText first).Grows grown ∧
        Stylesheet.ofText (first ++ ';' :: second) = grown.join (Stylesheet.ofText second)) ∧
      (lint config first none).warnings = [found 1 1 "a b"] ∧
      (lint config second none).warnings = [found 1 4 "h > i"] ∧
      (lint config (first ++ ';' :: second) none).warnings =
        [found 1 1 "a b", found 2 8 "h > i"] ∧
      Warning.Moved first second (found 1 4 "h > i") (found 2 8 "h > i") := by
  intro first second config found
  have selfContained : SelfContained first := ⟨by decide +kernel, by decide +kernel⟩
  obtain ⟨⟨grown, grows, joined⟩, moves⟩ := ofText_and_lint_append selfContained
  obtain ⟨moved, warnings, each⟩ := moves config none second
  have early : (lint config first none).warnings = [found 1 1 "a b"] := by decide +kernel
  have late : (lint config second none).warnings = [found 1 4 "h > i"] := by decide +kernel
  have both : (lint config (first ++ ';' :: second) none).warnings =
      [found 1 1 "a b", found 2 8 "h > i"] := by decide +kernel
  rw [both, early] at warnings
  obtain rfl : [found 2 8 "h > i"] = moved := List.tail_eq_of_cons_eq warnings
  rw [late] at each
  exact ⟨selfContained, ⟨grown, grows, joined second⟩, early, late, both,
    (List.forall₂_cons.1 each).1⟩

end CssLint
