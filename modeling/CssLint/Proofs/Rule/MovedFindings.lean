import CssLint.Proofs.Rule.Findings
import CssLint.Proofs.Sheet.Within
import CssLint.Proofs.Text.Search

/-!
# Findings in moved texts

A forest that stands behind other text has the same findings, each at the same distance
from where it was, and the findings in a text stand inside it.
-/

namespace CssLint

open Sheet Text

/-! ## Moved forests -/

namespace Sheet

def Occurrence.shift (distance : Nat) (occurrence : Occurrence) : Occurrence :=
  ⟨occurrence.above.map (Kind.shift distance),
    ⟨occurrence.style.selector, distance + occurrence.style.offset⟩,
    distance + occurrence.start, occurrence.holdsBlocks⟩

private theorem enclosing_shift (distance : Nat) (kind : Kind) (above : List Kind) :
    enclosing (kind.shift distance) (above.map (Kind.shift distance)) =
      (enclosing kind above).map (Kind.shift distance) := by
  cases kind <;> rfl

private theorem any_isBlock_shift (distance : Nat) (items : List Item) :
    ((shiftItems distance items).any fun item => item.kind.isBlock) =
      items.any fun item => item.kind.isBlock := by
  induction items with
  | nil => rfl
  | cons item items inductionHypothesis =>
      obtain ⟨kind, span, inside⟩ := item
      rw [shiftItems, List.any_cons, List.any_cons, inductionHypothesis]
      cases kind <;> rfl

mutual

private theorem occurrences_shift (distance : Nat) (above : List Kind) : (item : Item) →
    (item.shift distance).occurrences (above.map (Kind.shift distance)) =
      (item.occurrences above).map (Occurrence.shift distance)
  | ⟨kind, span, items⟩ => by
    have below := occurrencesIn_shift distance (enclosing kind above) items
    rw [← enclosing_shift] at below
    have blocks := any_isBlock_shift distance items
    cases kind with
    | rule style =>
        simp only [Kind.shift] at below
        simp only [Item.shift, Kind.shift, Item.occurrences, below, blocks, List.map_append]
        rfl
    | root => simpa [Item.shift, Kind.shift, Item.occurrences] using below
    | atRule header => simpa [Item.shift, Kind.shift, Item.occurrences] using below
    | declaration declaration => simpa [Item.shift, Kind.shift, Item.occurrences] using below

theorem occurrencesIn_shift (distance : Nat) (above : List Kind) : (items : List Item) →
    occurrencesIn (above.map (Kind.shift distance)) (shiftItems distance items) =
      (occurrencesIn above items).map (Occurrence.shift distance)
  | [] => rfl
  | item :: items => by
    rw [shiftItems, occurrencesIn, occurrencesIn, List.map_append, occurrences_shift,
      occurrencesIn_shift]

end

end Sheet

def Finding.shift (distance : Nat) (finding : Finding) : Finding :=
  { finding with offset := distance + finding.offset }

namespace Sheet.Occurrence

variable (distance : Nat) (occurrence : Occurrence)

theorem selectors_shift : (occurrence.shift distance).selectors = occurrence.selectors := by
  have entries : (occurrence.above.map (Kind.shift distance)).filterMap Kind.nestingEntries? =
      occurrence.above.filterMap Kind.nestingEntries? := by
    rw [List.filterMap_map]
    congr 1
    funext kind
    cases kind <;> rfl
  have keyframes : inKeyframes (occurrence.above.map (Kind.shift distance)) =
      inKeyframes occurrence.above := by
    cases occurrence.above with
    | nil => rfl
    | cons kind above => cases kind <;> rfl
  simp only [selectors, shift, entries, keyframes]

theorem place_shift (word : List Char) :
    (occurrence.shift distance).place word = distance + occurrence.place word := by
  rw [place, place, shift]
  by_cases empty : word.isEmpty = true
  · simp only [empty, if_true]
  · simp only [empty, if_false, Bool.false_eq_true]
    cases find? word occurrence.style.selector with
    | none => rfl
    | some index => exact Nat.add_assoc _ _ _

theorem findings_shift (setting : RuleSetting) (limit : Binary64) :
    (occurrence.shift distance).findings setting limit =
      (occurrence.findings setting limit).map (Finding.shift distance) := by
  rw [findings, findings, selectors_shift]
  cases occurrence.selectors with
  | none => rfl
  | some selectors =>
      simp only
      induction selectors with
      | nil => rfl
      | cons selector selectors inductionHypothesis =>
          rw [findingsOf, findingsOf]
          cases Rule.grammar selector with
          | error fault => simp [unreadable, place_shift, Finding.shift]
          | ok root => simp [inductionHypothesis, exceeded, place_shift, Finding.shift]

end Sheet.Occurrence

theorem findingsIn_append (setting : RuleSetting) (left right : List Item) :
    findingsIn setting (left ++ right) = findingsIn setting left ++ findingsIn setting right := by
  rw [findingsIn, findingsIn, findingsIn]
  cases Rule.limitOf? setting.primary with
  | none => rfl
  | some limit => simp only [occurrencesIn_append, List.flatMap_append]

theorem findingsIn_shift (setting : RuleSetting) (distance : Nat) (items : List Item) :
    findingsIn setting (shiftItems distance items) =
      (findingsIn setting items).map (Finding.shift distance) := by
  have moved := occurrencesIn_shift distance [] items
  rw [List.map_nil] at moved
  rw [findingsIn, findingsIn]
  cases Rule.limitOf? setting.primary with
  | none => rfl
  | some limit =>
      simp only [moved, List.flatMap_map, List.map_flatMap, Occurrence.findings_shift]

/-! ## Findings inside the text -/

private theorem place_le {size : Nat} {occurrence : Occurrence} (fits : occurrence.Fits size)
    (word : List Char) : occurrence.place word ≤ size := by
  obtain ⟨start, selector⟩ := fits
  rw [Occurrence.place]
  split
  · exact start
  · cases found : find? word occurrence.style.selector with
    | none => exact start
    | some index =>
        have within := find?_le found
        simp only [Option.map_some, Option.getD_some]
        omega

private theorem offset_le_of_mem_findingsOf {size : Nat} {occurrence : Occurrence}
    (fits : occurrence.Fits size) {setting : RuleSetting} {limit : Binary64}
    {selectors : List (List Char)} {finding : Finding}
    (member : finding ∈ occurrence.findingsOf setting limit selectors) : finding.offset ≤ size := by
  induction selectors with
  | nil => cases member
  | cons selector selectors inductionHypothesis =>
      rw [Occurrence.findingsOf] at member
      split at member
      · cases List.mem_singleton.1 member
        exact place_le fits selector
      · rcases List.mem_append.1 member with early | late
        · obtain ⟨violation, _, rfl⟩ := List.mem_map.1 early
          exact place_le fits violation.fragment
        · exact inductionHypothesis late

/-- Every finding in the forest of a text stands inside the text. -/
theorem offset_le_of_mem {config : Config} {source : List Char} {finding : Finding}
    (member : finding ∈ config.findingsIn (contents source).items) :
    finding.offset ≤ byteCount source := by
  rw [Config.findingsIn] at member
  split at member
  · cases member
  · rw [findingsIn] at member
    split at member
    · cases member
    · obtain ⟨occurrence, inside, found⟩ := List.mem_flatMap.1 member
      rw [Occurrence.findings] at found
      split at found
      · cases found
      · have fits := (laidOut_contents source).fits [] occurrence inside
        exact offset_le_of_mem_findingsOf fits found

end CssLint
