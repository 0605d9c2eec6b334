import CssLint.Linter
import CssLint.Proofs.EnclosingRules
import CssLint.Proofs.Selector.TemplateTexts

/-!
# Rules that are not measured

Nothing is measured inside a rule whose entries are texts of templates, however far inside
and wherever `&` stands, for none of the texts that a selector stands for there is plain
CSS.  Inside a placeholder the same holds only as long as the placeholder stays in
front.
-/

namespace CssLint

open Selector Sheet

namespace Stylesheet

variable {sheet : Stylesheet}

/-! ## Levels above a level -/

/-- Around a node stand the rules between it and a rule above it, that rule, and those above. -/
theorem Built.levels_eq_append (built : Built sheet) {above id : NodeId}
    {entries : List (List Char)} (isAbove : IsAbove sheet above id)
    (adds : sheet.nestingEntries? above = some entries) :
    ∃ nearer, sheet.levels id = nearer ++ entries :: sheet.levels above ∧
      ∀ own ∈ nearer, ∃ between, IsAbove sheet between id ∧ IsAbove sheet above between ∧
        sheet.nestingEntries? between = some own := by
  induction isAbove with
  | parent below =>
      refine ⟨[], ?_, fun _ member => nomatch member⟩
      rw [built.levels_eq below, adds]
      rfl
  | @further id parent below higher inductionHypothesis =>
      obtain ⟨nearer, same, between⟩ := inductionHypothesis
      refine ⟨(sheet.nestingEntries? parent).toList ++ nearer, ?_, fun own member => ?_⟩
      · rw [built.levels_eq below, same, List.append_assoc]
      · rcases List.mem_append.1 member with ofParent | further
        · exact ⟨parent, .parent below, higher, Option.mem_toList.1 ofParent⟩
        · obtain ⟨node, aboveParent, aboveNode, addsOwn⟩ := between own further
          exact ⟨node, .further below aboveParent, aboveNode, addsOwn⟩

theorem entry_ne_nil_of_mem_levels {id : NodeId} :
    ∀ entries ∈ sheet.levels id, ∀ entry ∈ entries, entry ≠ [] := by
  have ofEntries : ∀ text, ∀ entry ∈ Selector.entries text, entry ≠ [] := by
    intro text entry member
    simpa using (List.mem_filter.1 member).2
  intro entries member entry inEntries
  obtain ⟨kind, _, adds⟩ := List.mem_filterMap.1 member
  unfold Kind.nestingEntries? at adds
  split at adds
  · cases adds
    exact ofEntries _ entry inEntries
  · split at adds
    · cases adds
      exact ofEntries _ entry inEntries
    · cases adds
  · cases adds

end Stylesheet

/-! ## Nothing to measure -/

namespace Rule

/-- Nothing is measured about a node: it is left out, or no selector of it is. -/
def IsUnmeasured (sheet : Stylesheet) (id : NodeId) : Prop :=
  (effectiveSelectors resolver sheet id = none ∨ effectiveSelectors resolver sheet id = some []) ∧
    ∀ (grammar : Grammar) (setting : RuleSetting) (limit : Binary64),
      ruleWarnings grammar resolver ⟨maxCompoundsName, setting, sheet⟩ limit id = []

theorem isUnmeasured_of_not_isStandard {sheet : Stylesheet} {id : NodeId}
    (template : ∀ style, sheet.rule? id = some style → ∀ entry ∈ entries style.selector,
      ∀ resolved ∈ sheet.resolve id entry, isStandard resolved = false) :
    IsUnmeasured sheet id := by
  have nothing : effectiveSelectors resolver sheet id = none ∨
      effectiveSelectors resolver sheet id = some [] := by
    unfold effectiveSelectors
    split
    · exact Or.inl rfl
    · rename_i style own
      split
      · exact Or.inl rfl
      split
      · exact Or.inl rfl
      split
      · exact Or.inl rfl
      · refine Or.inr (congrArg some (List.filter_eq_nil_iff.2 fun resolved member => ?_))
        obtain ⟨entry, inEntries, found⟩ := List.mem_flatMap.1 member
        simp [template style own entry inEntries resolved found]
  refine ⟨nothing, fun grammar setting limit => ?_⟩
  unfold ruleWarnings
  rcases nothing with leftOut | noSelector
  · simp only [leftOut]
  · simp only [noSelector, selectorWarnings]

end Rule

open Rule Stylesheet

/-! ## Inside templates -/

/-- Where every entry of a rule above a node is the text of a template, no selector on the node
stands for plain CSS, so nothing is measured there. -/
theorem isUnmeasured_insideTemplate {sheet : Stylesheet} (built : Built sheet)
    {above id : NodeId} {entries : List (List Char)} (isAbove : IsAbove sheet above id)
    (adds : sheet.nestingEntries? above = some entries)
    (marked : ∀ entry ∈ entries, IsTemplate entry) :
    (∀ selector, ∀ resolved ∈ sheet.resolve id selector, isStandard resolved = false) ∧
      IsUnmeasured sheet id := by
  obtain ⟨nearer, same, -⟩ := built.levels_eq_append isAbove adds
  have template : ∀ selector, ∀ resolved ∈ sheet.resolve id selector,
      isStandard resolved = false := by
    intro selector resolved member
    have inside : resolved ∈ resolve (nearer ++ entries :: sheet.levels above) selector := by
      rwa [← same]
    exact (isTemplate_of_mem_resolve marked nearer entry_ne_nil_of_mem_levels selector resolved
      inside).isStandard_eq_false
  exact ⟨template, isUnmeasured_of_not_isStandard fun _ _ entry _ => template entry⟩

/-- A rule inside a rule with two marks, which has `&` in the first and is inside another rule. -/
private def twoMarks : Stylesheet :=
  ((((Stylesheet.empty []).append root (.rule ⟨['a'], 0⟩) ⟨0, 0⟩).append 1
    (.rule ⟨"b-\x7b&\x7d, <%= c %>".toList, 0⟩) ⟨0, 0⟩).append 2
    (.atRule ⟨['m', 'e', 'd', 'i', 'a'], ['p'], true⟩) ⟨0, 0⟩).append 3
    (.rule ⟨"d &".toList, 0⟩) ⟨0, 0⟩

private theorem built_twoMarks : Built twoMarks := by
  refine .append (.append (.append (.append (.empty []) ?_ ?_ _) ?_ ?_ _) ?_ ?_ _) ?_ ?_ _
  all_goals decide

theorem isUnmeasured_insideTemplate_twoMarks :
    let marked := ["b-\x7b&\x7d".toList, "<%= c %>".toList]
    Built twoMarks ∧ IsAbove twoMarks 2 4 ∧ twoMarks.nestingEntries? 2 = some marked ∧
      (∀ entry ∈ marked, IsTemplate entry) ∧
      twoMarks.resolve 4 "d &".toList = ["d b-\x7ba\x7d".toList, "d a <%= c %>".toList] ∧
      (∀ selector, ∀ resolved ∈ twoMarks.resolve 4 selector, isStandard resolved = false) ∧
      IsUnmeasured twoMarks 4 := by
  intro marked
  have isAbove : IsAbove twoMarks 2 4 :=
    .further (by decide : twoMarks.parent? 4 = some 3) (.parent (by decide))
  have adds : twoMarks.nestingEntries? 2 = some marked := by decide +kernel
  have isTemplate : ∀ entry ∈ marked, IsTemplate entry := by
    refine List.forall_mem_cons.2 ⟨?_, List.forall_mem_singleton.2 ?_⟩
    · exact .hole ['b', '-'] (by decide : ['&'] ≠ []) []
    · exact .word [] (by decide : ['<', '%'] ∈ templateWords) "= c %>".toList
  exact ⟨built_twoMarks, isAbove, adds, isTemplate, by decide +kernel,
    isUnmeasured_insideTemplate built_twoMarks isAbove adds isTemplate⟩

/-! ## Inside placeholders -/

/-- Where every entry of a rule above a node begins with the sign of a placeholder and nothing comes
to stand in front of it, nothing is measured: no rule is around the placeholder or it says itself
where the selector of that rule goes, and the entries of the node and between the two keep the
front. -/
theorem isUnmeasured_insidePlaceholder {sheet : Stylesheet} (built : Built sheet)
    {above id : NodeId} {entries : List (List Char)} (isAbove : IsAbove sheet above id)
    (adds : sheet.nestingEntries? above = some entries)
    (placeholders : ∀ entry ∈ entries, BeginsPlaceholder entry)
    (outermost : (∀ further outer, ¬Nearest sheet further outer above) ∨
      ∀ entry ∈ entries, containsNesting entry = true)
    (keepsBetween : ∀ between own, IsAbove sheet between id → IsAbove sheet above between →
      sheet.nestingEntries? between = some own → ∀ entry ∈ own, KeepsFront entry)
    (keeps : ∀ own, sheet.nestingEntries? id = some own → ∀ entry ∈ own, KeepsFront entry) :
    IsUnmeasured sheet id := by
  obtain ⟨nearer, same, between⟩ := built.levels_eq_append isAbove adds
  have keepsNearer : ∀ own ∈ nearer, ∀ entry ∈ own, KeepsFront entry := by
    intro own member
    obtain ⟨node, aboveId, aboveNode, addsOwn⟩ := between own member
    exact keepsBetween node own aboveId aboveNode addsOwn
  refine isUnmeasured_of_not_isStandard fun style own entry inEntries resolved member => ?_
  have ofId : sheet.nestingEntries? id = some (Selector.entries style.selector) := by
    unfold rule? at own
    split at own
    · rename_i kind
      cases own
      rw [nestingEntries?, kind]
      rfl
    · cases own
  have inside : resolved ∈ resolve (nearer ++ entries :: sheet.levels above) entry := by
    rwa [← same]
  exact (beginsPlaceholder_of_mem_resolve placeholders
    (outermost.imp_left built.levels_eq_nil) keepsNearer (keeps _ ofId entry inEntries) resolved
    inside).isStandard_eq_false

/-- A rule with `&` in front of it, inside a rule without, inside a placeholder. -/
private def placeholder : Stylesheet :=
  (((Stylesheet.empty []).append root (.rule ⟨"%a, %b".toList, 0⟩) ⟨0, 0⟩).append 1
    (.rule ⟨"c d".toList, 0⟩) ⟨0, 0⟩).append 2 (.rule ⟨"&:e, f".toList, 0⟩) ⟨0, 0⟩

private theorem built_placeholder : Built placeholder := by
  refine .append (.append (.append (.empty []) ?_ ?_ _) ?_ ?_ _) ?_ ?_ _
  all_goals decide

theorem isUnmeasured_insidePlaceholder_twoEntries :
    IsAbove placeholder 1 3 ∧
      placeholder.nestingEntries? 1 = some [['%', 'a'], ['%', 'b']] ∧
      placeholder.resolve 3 "&:e".toList = ["%a c d:e".toList, "%b c d:e".toList] ∧
      IsUnmeasured placeholder 3 := by
  have isAbove : IsAbove placeholder 1 3 :=
    .further (by decide : placeholder.parent? 3 = some 2) (.parent (by decide))
  have adds : placeholder.nestingEntries? 1 = some [['%', 'a'], ['%', 'b']] := by decide +kernel
  have placeholders : ∀ entry ∈ [['%', 'a'], ['%', 'b']], BeginsPlaceholder entry := by decide
  have noneAbove : ∀ further outer, ¬Nearest placeholder further outer 1 := by
    intro further outer nearest
    have levels := nearest.levels_eq built_placeholder
    cases levels
  have each : ∀ node < 4, ∀ own ∈ placeholder.nestingEntries? node, 1 < node →
      ∀ entry ∈ own, KeepsFront entry := by decide +kernel
  refine ⟨isAbove, adds, by decide +kernel, ?_⟩
  refine isUnmeasured_insidePlaceholder built_placeholder isAbove adds placeholders
    (Or.inl noneAbove) (fun between own isBelow isAbove addsOwn => ?_) (fun own addsOwn => ?_)
  · exact each between (Nat.lt_succ_of_lt (isBelow.lt built_placeholder)) own addsOwn
      (isAbove.lt built_placeholder)
  · exact each 3 (by decide) own addsOwn (by decide)

/-- With `&` at another place than in front, a placeholder comes to stand inside the selector, where
it is taken for a fault. -/
theorem lint_insidePlaceholder_behind :
    let css := "%a\x7b.b &\x7b\x7d\x7d".toList
    let sheet := Stylesheet.ofText css
    let config := Config.empty.set maxCompoundsName ⟨.number (.integer 1), .error, none⟩
    sheet.parent? 2 = some 1 ∧ sheet.nestingEntries? 1 = some [['%', 'a']] ∧
      (∀ entry ∈ [['%', 'a']], BeginsPlaceholder entry) ∧
      effectiveSelectors resolver sheet 2 = some [".b %a".toList] ∧
      (lint config css none).warnings.map (fun warning => (warning.rule, warning.severity)) =
        [(Reporter.syntaxErrorRule, .error)] := by
  decide +kernel

end CssLint
