import CssLint.Proofs.Sheet.Grown

/-!
# Style sheets that are built node by node

The nodes that are added to a style sheet are rules, at-rules and declarations, so only
its root is one.  Every node has a greater number than its parent, so the walk from a
node to the nodes above it never comes to its limit.
-/

namespace CssLint.Stylesheet

open Sheet

/-! ## Building -/

/-- The style sheets that come about by adding rules, at-rules and declarations below nodes that
are there. -/
inductive Built : Stylesheet → Prop
  | empty (source : List Char) : Built (empty source)
  | append {sheet : Stylesheet} {parent : NodeId} {kind : Kind} (built : Built sheet)
      (within : parent < sheet.size) (notRoot : kind ≠ .root) (span : Span) :
      Built (sheet.append parent kind span)

namespace Built

variable {sheet : Stylesheet}

theorem grown (built : Built sheet) : Grown sheet := by
  induction built with
  | empty source => exact .empty source
  | append _ within _ span inductionHypothesis => exact inductionHypothesis.append within _ span

theorem parent_lt (built : Built sheet) {id parent : NodeId}
    (below : sheet.parent? id = some parent) : parent < id ∧ id < sheet.size :=
  built.grown.isLinked.parent_lt below

/-- Nothing stands above a root. -/
theorem parent?_root (built : Built sheet) {id : NodeId} (root : sheet.kind? id = some .root) :
    sheet.parent? id = none := by
  induction built with
  | empty source =>
      cases id with
      | zero => rfl
      | succ id => cases root
  | @append sheet above kind built within notRoot span inductionHypothesis =>
      rw [kind?_append] at root
      rw [parent?_append]
      split at root
      · cases root
        exact absurd rfl notRoot
      · rename_i earlier
        rw [if_neg earlier]
        exact inductionHypothesis root

/-! ## The walk up -/

private theorem ancestorsWithin_eq (built : Built sheet) {limit other : Nat} {id : NodeId}
    (within : id < limit) (withinOther : id < other) :
    sheet.ancestorsWithin limit id = sheet.ancestorsWithin other id := by
  induction limit generalizing other id with
  | zero => exact absurd within (Nat.not_lt_zero _)
  | succ limit inductionHypothesis =>
      cases other with
      | zero => exact absurd withinOther (Nat.not_lt_zero _)
      | succ other =>
          rw [ancestorsWithin, ancestorsWithin]
          cases below : sheet.parent? id with
          | none => rfl
          | some parent =>
              obtain ⟨before, _⟩ := built.parent_lt below
              have same : sheet.ancestorsWithin limit parent =
                  sheet.ancestorsWithin other parent :=
                inductionHypothesis (Nat.lt_of_lt_of_le before (Nat.le_of_lt_succ within))
                  (Nat.lt_of_lt_of_le before (Nat.le_of_lt_succ withinOther))
              simp only [same]

theorem ancestors_of_parent?_eq_none {id : NodeId} (top : sheet.parent? id = none) :
    sheet.ancestors id = [] := by
  rw [ancestors]
  cases sheet.size with
  | zero => rfl
  | succ limit => rw [ancestorsWithin, top]

/-- The nodes above a node are its parent and the nodes above that, but for the root. -/
theorem ancestors_eq (built : Built sheet) {id parent : NodeId} {kind : Kind}
    (below : sheet.parent? id = some parent) (kind_ : sheet.kind? parent = some kind) :
    sheet.ancestors id = if kind = .root then [] else kind :: sheet.ancestors parent := by
  obtain ⟨before, inside⟩ := built.parent_lt below
  rw [ancestors]
  cases size : sheet.size with
  | zero =>
      rw [size] at inside
      exact absurd inside (Nat.not_lt_zero _)
  | succ limit =>
      rw [size] at inside
      have same : sheet.ancestorsWithin limit parent = sheet.ancestors parent := by
        rw [ancestors, size]
        have within : parent < limit := Nat.lt_of_lt_of_le before (Nat.le_of_lt_succ inside)
        exact built.ancestorsWithin_eq within (Nat.lt_succ_of_lt within)
      rw [ancestorsWithin, below]
      simp only [kind_, same]
      cases kind <;> rfl

end Built

end CssLint.Stylesheet
