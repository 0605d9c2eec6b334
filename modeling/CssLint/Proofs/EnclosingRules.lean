import CssLint.Proofs.Selector.NestedTexts
import CssLint.Proofs.Sheet.Built
import CssLint.Sheet.Resolution

/-!
# Selectors and the nearest rule around them

A selector is resolved level by level: only the nearest rule or `@nest` rule above its
node has a say, and what the entries of that rule stand for is resolved on its own.
-/

namespace CssLint

open Sheet

namespace Stylesheet

variable {sheet : Stylesheet}

/-! ## Nodes above a node -/

/-- The entries that a node adds to the selectors inside it. -/
def nestingEntries? (sheet : Stylesheet) (id : NodeId) : Option (List (List Char)) :=
  (sheet.kind? id).bind Kind.nestingEntries?

theorem IsAbove.lt {above id : NodeId} (isAbove : IsAbove sheet above id) (built : Built sheet) :
    above < id :=
  built.grown.isLinked.lt_of_isAbove isAbove

/-- The node `above` is the nearest one above a node that adds entries, and adds these. -/
inductive Nearest (sheet : Stylesheet) (above : NodeId) (entries : List (List Char)) :
    NodeId → Prop
  | parent {id : NodeId} (below : sheet.parent? id = some above)
      (adds : sheet.nestingEntries? above = some entries) : Nearest sheet above entries id
  | further {id parent : NodeId} (below : sheet.parent? id = some parent)
      (passes : sheet.nestingEntries? parent = none)
      (nearest : Nearest sheet above entries parent) : Nearest sheet above entries id

/-! ## Levels -/

/-- The entries of the rules around a node, where the nearest come first. -/
def levels (sheet : Stylesheet) (id : NodeId) : List (List (List Char)) :=
  (sheet.ancestors id).filterMap Kind.nestingEntries?

theorem Built.levels_eq (built : Built sheet) {id parent : NodeId}
    (below : sheet.parent? id = some parent) :
    sheet.levels id = (sheet.nestingEntries? parent).toList ++ sheet.levels parent := by
  obtain ⟨before, inside⟩ := built.parent_lt below
  obtain ⟨kind, kind_⟩ := exists_kind? (Nat.lt_trans before inside)
  rw [levels, built.ancestors_eq below kind_, nestingEntries?, kind_, Option.bind_some]
  split
  · rename_i root
    subst root
    rw [levels, ancestors_of_parent?_eq_none (built.parent?_root kind_)]
    rfl
  · rw [List.filterMap_cons]
    cases kind.nestingEntries? with
    | none => rfl
    | some entries => rfl

theorem Nearest.levels_eq {above id : NodeId} {entries : List (List Char)}
    (nearest : Nearest sheet above entries id) (built : Built sheet) :
    sheet.levels id = entries :: sheet.levels above := by
  induction nearest with
  | parent below adds =>
      rw [built.levels_eq below, adds]
      rfl
  | further below passes _ inductionHypothesis =>
      rw [built.levels_eq below, passes, inductionHypothesis]
      rfl

theorem Built.levels_eq_nil (built : Built sheet) {id : NodeId}
    (without : ∀ above entries, ¬ Nearest sheet above entries id) : sheet.levels id = [] := by
  induction id using Nat.strongRecOn with
  | ind id inductionHypothesis =>
      cases below : sheet.parent? id with
      | none => rw [levels, ancestors_of_parent?_eq_none below, List.filterMap_nil]
      | some parent =>
          have passes : sheet.nestingEntries? parent = none := by
            cases adds : sheet.nestingEntries? parent with
            | none => rfl
            | some entries => exact absurd (.parent below adds) (without parent entries)
          have higher := inductionHypothesis parent (built.parent_lt below).1
            fun above entries nearest => without above entries (.further below passes nearest)
          rw [built.levels_eq below, passes, higher]
          rfl

theorem Built.exists_isAbove (built : Built sheet) {id : NodeId} {entries : List (List Char)}
    (member : entries ∈ sheet.levels id) :
    ∃ above, IsAbove sheet above id ∧ sheet.nestingEntries? above = some entries := by
  induction id using Nat.strongRecOn with
  | ind id inductionHypothesis =>
      cases below : sheet.parent? id with
      | none =>
          rw [levels, ancestors_of_parent?_eq_none below] at member
          cases member
      | some parent =>
          rw [built.levels_eq below, List.mem_append, Option.mem_toList] at member
          rcases member with adds | higher
          · exact ⟨parent, .parent below, adds⟩
          · obtain ⟨above, isAbove, adds⟩ :=
              inductionHypothesis parent (built.parent_lt below).1 higher
            exact ⟨above, .further below isAbove, adds⟩

end Stylesheet

open Selector Stylesheet

/-! ## Resolving -/

/-- Where no rule stands around a node, a selector stands for itself. Otherwise it stands for itself
inside all that the entries of the nearest rule stand for, and one without `&` might as well have
`&` and a space in front. -/
theorem resolve_eq_flatMap_nest {sheet : Stylesheet} (built : Built sheet) (id : NodeId)
    (delimited : ∀ above entries, IsAbove sheet above id →
      sheet.nestingEntries? above = some entries → ∀ entry ∈ entries, IsDelimited entry)
    (selector : List Char) :
    ((∀ above entries, ¬ Nearest sheet above entries id) →
      sheet.resolve id selector = [selector]) ∧
    ∀ above entries, Nearest sheet above entries id →
      sheet.resolve id selector =
          entries.flatMap (fun entry => (sheet.resolve above entry).map (nest selector)) ∧
        (containsNesting selector = false →
          sheet.resolve id ('&' :: ' ' :: selector) = sheet.resolve id selector) := by
  have levelsDelimited : AllDelimited (sheet.levels id) := by
    intro entries member
    obtain ⟨above, isAbove, adds⟩ := built.exists_isAbove member
    exact delimited above entries isAbove adds
  constructor
  · intro without
    have none_ := built.levels_eq_nil without
    rw [levels] at none_
    rw [Stylesheet.resolve, none_]
    rfl
  · intro above entries nearest
    have same := nearest.levels_eq built
    rw [same] at levelsDelimited
    have inside : ∀ written, sheet.resolve id written =
        entries.flatMap fun entry => (sheet.resolve above entry).map (nest written) := by
      intro written
      rw [levels] at same
      rw [Stylesheet.resolve, same]
      exact resolve_cons levelsDelimited written
    refine ⟨inside selector, fun absent => ?_⟩
    rw [inside, inside, nest_ampersand absent]

/-- A rule inside a nesting rule, which is inside an at-rule inside a rule with two entries. -/
private def fourDeep : Stylesheet :=
  ((((Stylesheet.empty []).append root (.rule ⟨['a', ',', 'b'], 0⟩) ⟨0, 0⟩).append 1
    (.atRule ⟨['m', 'e', 'd', 'i', 'a'], ['p'], true⟩) ⟨0, 0⟩).append 2
    (.atRule ⟨['N', 'e', 's', 't'], ['&', '>', 'c'], true⟩) ⟨0, 0⟩).append 3
    (.rule ⟨['d'], 0⟩) ⟨0, 0⟩

private theorem built_fourDeep : Built fourDeep := by
  refine .append (.append (.append (.append (.empty []) ?_ ?_ _) ?_ ?_ _) ?_ ?_ _) ?_ ?_ _
  all_goals decide

theorem resolve_eq_flatMap_nest_fourDeep :
    Built fourDeep ∧
      (∀ above entries, IsAbove fourDeep above 4 →
        fourDeep.nestingEntries? above = some entries → ∀ entry ∈ entries, IsDelimited entry) ∧
      Nearest fourDeep 3 [['&', '>', 'c']] 4 ∧
      fourDeep.resolve 4 ['d'] = [['a', '>', 'c', ' ', 'd'], ['b', '>', 'c', ' ', 'd']] ∧
      fourDeep.resolve 4 ['&', ' ', 'd'] = fourDeep.resolve 4 ['d'] := by
  have each : ∀ above < 4, ∀ entries ∈ fourDeep.nestingEntries? above, ∀ entry ∈ entries,
      IsDelimited entry := by decide
  have delimited : ∀ above entries, IsAbove fourDeep above 4 →
      fourDeep.nestingEntries? above = some entries → ∀ entry ∈ entries, IsDelimited entry :=
    fun above entries isAbove adds => each above (isAbove.lt built_fourDeep) entries adds
  have nearest : Nearest fourDeep 3 [['&', '>', 'c']] 4 := .parent (by decide) (by decide)
  obtain ⟨resolved, same⟩ :=
    (resolve_eq_flatMap_nest built_fourDeep 4 delimited ['d']).2 3 [['&', '>', 'c']] nearest
  have around : fourDeep.resolve 3 ['&', '>', 'c'] = [['a', '>', 'c'], ['b', '>', 'c']] := by
    decide
  refine ⟨built_fourDeep, delimited, nearest, ?_, same (by decide)⟩
  rw [resolved, List.flatMap_singleton, around]
  decide

end CssLint
