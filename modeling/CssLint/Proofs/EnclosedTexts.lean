import CssLint.Proofs.Rule.MovedFindings
import CssLint.Proofs.Sheet.Enclosed

/-!
# Checking texts inside a block

A text of whole items is checked alike at the top and in the block of an at-rule that
takes no part in the nesting of selectors: its rules are measured by the same selectors,
and its warnings stand at the same characters.
-/

namespace CssLint

open Sheet Stylesheet Text

/-! ## Surroundings -/

namespace Sheet

/-- Inside either of these nodes selectors are resolved alike, and as much as in the other inside
key frames. -/
structure SameAround (above other : List Kind) : Prop where
  entries : above.filterMap Kind.nestingEntries? = other.filterMap Kind.nestingEntries?
  keyframes : inKeyframes above = inKeyframes other

theorem SameAround.refl (above : List Kind) : SameAround above above :=
  ⟨rfl, rfl⟩

theorem SameAround.inside {above other : List Kind} (same : SameAround above other) (kind : Kind) :
    SameAround (enclosing kind above) (enclosing kind other) := by
  cases kind with
  | root => exact .refl []
  | rule style => exact ⟨by simp [enclosing, same.entries, List.filterMap_cons], rfl⟩
  | atRule header => exact ⟨by simp [enclosing, same.entries, List.filterMap_cons], rfl⟩
  | declaration declaration =>
      exact ⟨by simp [enclosing, same.entries, List.filterMap_cons], rfl⟩

/-- What is found out about a rule from its measured selectors does not depend on nodes around it
that resolve them alike. -/
def Ignores {β : Type} (find : Occurrence → List β) : Prop :=
  ∀ above other, SameAround above other → ∀ style start holdsBlocks,
    find ⟨above, style, start, holdsBlocks⟩ = find ⟨other, style, start, holdsBlocks⟩

mutual

private theorem flatMap_occurrences {β : Type} {find : Occurrence → List β}
    (ignores : Ignores find) {above other : List Kind} (same : SameAround above other) :
    (item : Item) → (item.occurrences above).flatMap find = (item.occurrences other).flatMap find
  | ⟨kind, span, items⟩ => by
    have below := flatMap_occurrencesIn ignores (same.inside kind) items
    cases kind with
    | rule style =>
        simp only [Item.occurrences, List.singleton_append, List.flatMap_cons, below,
          ignores above other same style]
    | root => exact below
    | atRule header => exact below
    | declaration declaration => exact below

theorem flatMap_occurrencesIn {β : Type} {find : Occurrence → List β} (ignores : Ignores find)
    {above other : List Kind} (same : SameAround above other) : (items : List Item) →
    (occurrencesIn above items).flatMap find = (occurrencesIn other items).flatMap find
  | [] => rfl
  | item :: items => by
    rw [occurrencesIn, occurrencesIn, List.flatMap_append, List.flatMap_append,
      flatMap_occurrences ignores same, flatMap_occurrencesIn ignores same]

end

theorem ignores_selectors : Ignores fun occurrence => [occurrence.selectors] := by
  intro above other same style start holdsBlocks
  simp only [Occurrence.selectors, same.entries, same.keyframes]

theorem ignores_findings (setting : RuleSetting) (limit : Binary64) :
    Ignores (Occurrence.findings setting limit) := by
  intro above other same style start holdsBlocks
  have selectors_ :=
    List.singleton_inj.1 (ignores_selectors above other same style start holdsBlocks)
  rw [Occurrence.findings, Occurrence.findings, selectors_]
  cases Occurrence.selectors ⟨other, style, start, holdsBlocks⟩ with
  | none => rfl
  | some selectors =>
      simp only
      induction selectors with
      | nil => rfl
      | cons selector selectors inductionHypothesis =>
          rw [Occurrence.findingsOf, Occurrence.findingsOf, inductionHypothesis]
          rfl

/-- The at-rule takes no part in the nesting of selectors and has no key frames. -/
theorem sameAround_media : SameAround [.atRule mediaRule] [] :=
  ⟨by decide, by decide⟩

private theorem occurrencesIn_inMedia (distance : Nat) (span : Span) (items : List Item) :
    occurrencesIn [] [⟨.atRule mediaRule, span, shiftItems distance items⟩] =
      (occurrencesIn [.atRule mediaRule] items).map (Occurrence.shift distance) := by
  have moved := occurrencesIn_shift distance [.atRule mediaRule] items
  rw [← moved, occurrencesIn, occurrencesIn, List.append_nil]
  rfl

/-- In the block of the at-rule the rules are measured by the same selectors. -/
theorem selectors_inMedia (distance : Nat) (span : Span) (items : List Item) :
    (occurrencesIn [] [⟨.atRule mediaRule, span, shiftItems distance items⟩]).map
        Occurrence.selectors =
      (occurrencesIn [] items).map Occurrence.selectors := by
  have same := flatMap_occurrencesIn ignores_selectors sameAround_media items
  simp only [← List.map_eq_flatMap] at same
  rw [occurrencesIn_inMedia, List.map_map, ← same]
  exact List.map_congr_left fun occurrence _ => occurrence.selectors_shift distance

theorem findingsIn_inMedia (setting : RuleSetting) (distance : Nat) (span : Span)
    (items : List Item) :
    findingsIn setting [⟨.atRule mediaRule, span, shiftItems distance items⟩] =
      (findingsIn setting items).map (Finding.shift distance) := by
  rw [findingsIn, findingsIn]
  cases Rule.limitOf? setting.primary with
  | none => rfl
  | some limit =>
      have same := flatMap_occurrencesIn (ignores_findings setting limit) sameAround_media items
      simp only [occurrencesIn_inMedia, List.flatMap_map, Occurrence.findings_shift,
        ← List.map_flatMap, same]

end Sheet

/-! ## Rules -/

namespace Stylesheet

private theorem rule?_root (source : List Char) (items : List Item) :
    (ofItems source items).rule? root = none := by
  rw [rule?, kind?, node?, ← Array.getElem?_toList, nodes_ofItems]
  rfl

/-- Every rule is met on the walk from the root. -/
theorem mem_rules {source : List Char} {items : List Item} {id : NodeId} {style : StyleRule}
    (found : (ofItems source items).rule? id = some style) :
    (id, style) ∈ (ofItems source items).rules := by
  have positive : id ≠ root := by
    rintro rfl
    rw [rule?_root] at found
    cases found
  have within : id < countItems items + 1 := by
    have inside : ∃ node, (ofItems source items).node? id = some node := by
      cases node : (ofItems source items).node? id with
      | none =>
          rw [rule?, kind?, node] at found
          cases found
      | some found => exact ⟨found, rfl⟩
    obtain ⟨node, inside⟩ := inside
    have bound := (Array.getElem?_eq_some_iff.1 inside).1
    rwa [← Array.length_toList, nodes_ofItems, List.length_cons, length_nodesOf] at bound
  rw [rules, descendants_ofItems, List.mem_filterMap]
  refine ⟨id, List.mem_range'_1.2 ⟨Nat.pos_of_ne_zero positive, ?_⟩, by rw [found]; rfl⟩
  rwa [Nat.add_comm]

theorem node?_enclose (sheet : Stylesheet) (id : NodeId) :
    sheet.enclose.node? (1 + (1 + id)) =
      (sheet.node? (1 + id)).map (Node.renumber (1 + ·) (byteCount mediaFront)) := by
  have two : 1 + (1 + id) = id + 1 + 1 := by rw [Nat.add_comm 1 id, Nat.add_comm]
  rw [node?, node?, ← Array.getElem?_toList, ← Array.getElem?_toList, enclose, two]
  simp only [List.getElem?_cons_succ, List.getElem?_map, below, List.getElem?_tail]
  rw [Nat.add_comm]

/-- The rules of the text are the rules below the at-rule, one number later; the at-rule itself is
none, like the root. -/
theorem rule?_enclose (text : List Char) (items : List Item) (id : NodeId) :
    (ofItems text items).enclose.rule? (1 + id) = ((ofItems text items).rule? id).map fun style =>
      ⟨style.selector, byteCount mediaFront + style.offset⟩ := by
  rcases Nat.eq_zero_or_pos id with rfl | positive
  · rw [← root, rule?_root]
    rfl
  · obtain ⟨id, rfl⟩ := Nat.exists_eq_add_of_le positive
    have node := node?_enclose (ofItems text items) id
    rw [rule?, rule?, kind?, kind?, node]
    cases (ofItems text items).node? (1 + id) with
    | none => rfl
    | some node =>
      obtain ⟨kind, parent, children, span⟩ := node
      cases kind <;> rfl

theorem rules_enclose (text : List Char) (items : List Item) :
    (ofItems text items).enclose.rules = (ofItems text items).rules.map fun (id, style) =>
      (1 + id, ⟨style.selector, byteCount mediaFront + style.offset⟩) := by
  have count : countItems [⟨.atRule mediaRule, ⟨0, byteCount (inMedia text)⟩,
      shiftItems (byteCount mediaFront) items⟩] = 1 + countItems items := by
    rw [countItems, countItems, Item.count, countItems_shift, Nat.add_zero]
  have top : (ofItems text items).enclose.rule? 1 = none := rfl
  have walk : (ofItems text items).enclose.descendants root =
      1 :: (List.range' 1 (countItems items)).map (1 + ·) := by
    rw [← ofItems_enclose, descendants_ofItems, count, Nat.add_comm, List.range'_succ,
      List.map_add_range']
  rw [rules, rules, walk, descendants_ofItems, List.filterMap_cons, top]
  simp only [Option.map_none, List.filterMap_map, List.map_filterMap]
  congr 1
  funext id
  simp only [Function.comp, rule?_enclose, Option.map_map]
  rfl

end Stylesheet

/-- Below the at-rule every rule has the selectors that it has at the top. -/
theorem effectiveSelectors_inMedia {text : List Char} (enclosable : Enclosable text) (id : NodeId) :
    Rule.effectiveSelectors Rule.resolver (ofText (inMedia text)) (1 + id) =
      Rule.effectiveSelectors Rule.resolver (ofText text) id := by
  have tree := ofText_inMedia enclosable
  have rule_ : (ofText (inMedia text)).rule? (1 + id) = ((ofText text).rule? id).map fun style =>
      ⟨style.selector, byteCount mediaFront + style.offset⟩ := by
    rw [tree]
    exact rule?_enclose text (contents text).items id
  cases found : (ofText text).rule? id with
  | none =>
      rw [found, Option.map_none] at rule_
      rw [Rule.effectiveSelectors, Rule.effectiveSelectors, rule_, found]
  | some style =>
      have rules : (ofText (inMedia text)).rules = (ofText text).rules.map fun (id, style) =>
          (1 + id, ⟨style.selector, byteCount mediaFront + style.offset⟩) := by
        rw [tree]
        exact rules_enclose text (contents text).items
      -- Both walks meet the rules in one order, so the lists of selectors agree rule by rule.
      have measured := effectiveSelectors_ofText (inMedia text)
      rw [enclosable.items_inMedia, selectors_inMedia, ← effectiveSelectors_ofText text, rules,
        List.map_map] at measured
      exact List.map_inj_left.1 measured (id, style) (mem_rules found)

/-! ## Warnings -/

theorem findingsIn_contents_inMedia {text : List Char} (enclosable : Enclosable text)
    (config : Config) :
    config.findingsIn (contents (inMedia text)).items =
      (config.findingsIn (contents text).items).map (Finding.shift (byteCount mediaFront)) := by
  rw [Config.findingsIn, Config.findingsIn, enclosable.items_inMedia]
  cases config.setting? Rule.maxCompoundsName with
  | none => rfl
  | some setting => exact findingsIn_inMedia setting _ _ _

/-- The second warning is the first one, moved from a byte of the source to the byte of the target
that is so much farther. -/
def Warning.MovedBy (distance : Nat) (source target : List Char) (old new : Warning) : Prop :=
  ∃ offset, offset ≤ byteCount source ∧
    Position.ofOffset source offset = ⟨old.line, old.column⟩ ∧
    Position.ofOffset target (distance + offset) = ⟨new.line, new.column⟩ ∧
    new.rule = old.rule ∧ new.severity = old.severity ∧ new.text = old.text

/-- A text of whole items is read and checked alike at the top and in the block of an at-rule. -/
theorem ofText_and_lint_inMedia {text : List Char} (enclosable : Enclosable text) :
    ofText (inMedia text) = (ofText text).enclose ∧
    (∀ id, Rule.effectiveSelectors Rule.resolver (ofText (inMedia text)) (1 + id) =
      Rule.effectiveSelectors Rule.resolver (ofText text) id) ∧
    ∀ (config : Config) (source : Option String),
      List.Forall₂ (Warning.MovedBy (byteCount mediaFront) text (inMedia text))
        (lint config text source).warnings (lint config (inMedia text) source).warnings := by
  refine ⟨ofText_inMedia enclosable, effectiveSelectors_inMedia enclosable,
    fun config source => ?_⟩
  rw [warnings_lint, warnings_lint, findingsIn_contents_inMedia enclosable, List.map_map,
    List.forall₂_map_left_iff, List.forall₂_map_right_iff, List.forall₂_same]
  intro finding member
  exact ⟨finding.offset, offset_le_of_mem member, rfl, rfl, rfl, rfl, rfl⟩

/-- Only the warning on the first line moves. The nested rule is node 5 of the text and node 6 when
the text stands in the block. -/
theorem ofText_and_lint_inMedia_nestedRule :
    let text := "g > h\x7bi:j\x7d\na b\x7bc:d;\n&:not(e f)\x7b\x7d\x7d".toList
    let config := Config.empty.set Rule.maxCompoundsName ⟨.number (.integer 1), .error, none⟩
    let found (line column : Nat) (text : String) : Warning :=
      ⟨line, column, Rule.maxCompoundsName, .error,
        "Expected \"" ++ text ++ "\" to have no more than 1 compound selectors"⟩
    let later := [found 3 7 "e f", found 3 1 "a b:not(e f)"]
    Enclosable text ∧
      ofText (inMedia text) = (ofText text).enclose ∧
      Rule.effectiveSelectors Rule.resolver (ofText text) 5 = some ["a b:not(e f)".toList] ∧
      Rule.effectiveSelectors Rule.resolver (ofText (inMedia text)) 6 =
        some ["a b:not(e f)".toList] ∧
      (lint config text none).warnings = found 1 1 "g > h" :: later ∧
      (lint config (inMedia text) none).warnings = found 1 10 "g > h" :: later ∧
      Warning.MovedBy 9 text (inMedia text) (found 1 1 "g > h") (found 1 10 "g > h") ∧
      ∀ warning ∈ later, Warning.MovedBy 9 text (inMedia text) warning warning := by
  intro text config found later
  have last : (Lexeme.ofText text).getLast? = some ⟨.closing .curly, ⟨32, 33⟩⟩ := by
    decide +kernel
  have enclosable : Enclosable text :=
    ⟨by decide +kernel, by decide +kernel, ⟨_, last, .inr rfl, by decide +kernel⟩,
      by decide +kernel⟩
  obtain ⟨enclosed, effective, moves⟩ := ofText_and_lint_inMedia enclosable
  have selectors : Rule.effectiveSelectors Rule.resolver (ofText text) 5 =
      some ["a b:not(e f)".toList] := by decide +kernel
  have warnings : (lint config text none).warnings = found 1 1 "g > h" :: later := by
    decide +kernel
  have warningsInside : (lint config (inMedia text) none).warnings =
      found 1 10 "g > h" :: later := by decide +kernel
  have moved := moves config none
  rw [warnings, warningsInside, List.forall₂_cons, List.forall₂_same] at moved
  exact ⟨enclosable, enclosed, selectors, (effective 5).trans selectors, warnings, warningsInside,
    moved⟩

end CssLint
