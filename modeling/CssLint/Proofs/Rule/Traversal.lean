import CssLint.Proofs.Number.Value
import CssLint.Rule.Compound
import Mathlib.Tactic.NormNum

/-!
# Violations in the order of the walk

A walk over a whole tree meets every node behind those below it.  The violations are the
nodes of this walk that are no lists, are reached through selectors and negations only and
exceed the limit, in its order.  So a greater limit only leaves some of them out, and what
stands below any other child does not matter.
-/

namespace CssLint.Rule

open Selector

/-! ## The walk -/

/-- A node of a tree, and the way down to it: the nodes that are stepped into below the root, itself
the last of them. -/
structure Visit where
  way : List Node
  node : Node

namespace Visit

/-- The visit as it is seen from the parent of `node`. -/
def inside (node : Node) (visit : Visit) : Visit :=
  ⟨node :: visit.way, visit.node⟩

/-- The number of compound selectors between the combinators of the node. -/
def compounds (visit : Visit) : Nat :=
  1 + visit.node.children.countP Node.isCombinator

/-- Whether the way leads through selectors and negations only. -/
def isReached (visit : Visit) : Bool :=
  visit.way.all fun node => node.isSelector || node.isNegation

/-- Whether the node is neither a root nor a pseudo-class. -/
def isCounted (visit : Visit) : Bool :=
  match visit.node.kind with
  | .root => false
  | .pseudo _ => false
  | _ => true

def exceeds (limit : Binary64) (visit : Visit) : Bool :=
  visit.isReached && visit.isCounted && limit.isExceededBy visit.compounds

def violation (visit : Visit) : Violation :=
  ⟨visit.node.text, visit.compounds⟩

end Visit

mutual

/-- All nodes of a tree, each behind those below it. -/
def visits : Node → List Visit
  | ⟨kind, text, children⟩ => visitsBelow children ++ [⟨[], ⟨kind, text, children⟩⟩]

/-- All nodes of the trees, as they are seen from their common parent. -/
def visitsBelow : List Node → List Visit
  | [] => []
  | node :: nodes => (visits node).map (Visit.inside node) ++ visitsBelow nodes

end

/-- Every node has fewer children than the largest number that is counted. -/
def FewChildren (root : Node) : Prop :=
  ∀ visit ∈ visits root, visit.node.children.length < maxCount

instance (root : Node) : Decidable (FewChildren root) :=
  inferInstanceAs (Decidable (∀ visit ∈ visits root, _))

/-! ## Violations -/

section Limit

variable {limit : Binary64}

theorem exceeds_inside (node : Node) (visit : Visit) :
    (visit.inside node).exceeds limit = (isEntered node && visit.exceeds limit) := by
  simp only [Visit.exceeds, Visit.isReached, Visit.inside, Visit.isCounted, Visit.compounds,
    List.all_cons, isEntered, Bool.and_assoc]

/-- Inside a node that is not entered nothing exceeds the limit. -/
theorem filter_inside (node : Node) (found : List Visit) :
    ((found.map (Visit.inside node)).filter (Visit.exceeds limit)).map Visit.violation =
      if isEntered node then (found.filter (Visit.exceeds limit)).map Visit.violation else [] := by
  have own : Visit.exceeds limit ∘ Visit.inside node =
      fun visit => isEntered node && visit.exceeds limit :=
    funext fun visit => exceeds_inside node visit
  rw [List.filter_map, List.map_map, own]
  cases isEntered node with
  | false => simp
  | true => simp only [Bool.true_and, if_true]; rfl

theorem compoundCount_eq {visit : Visit} (few : visit.node.children.length < maxCount) :
    compoundCount visit.node.children = visit.compounds := by
  have bound : visit.node.children.countP Node.isCombinator ≤ visit.node.children.length :=
    List.countP_le_length
  rw [compoundCount, Visit.compounds]
  omega

mutual

theorem violations_eq_visits : (node : Node) → FewChildren node →
    violations limit node =
      ((visits node).filter (Visit.exceeds limit)).map Visit.violation
  | ⟨kind, text, children⟩, few => by
    rw [FewChildren, visits, List.forall_mem_append, List.forall_mem_singleton] at few
    have below := violationsBelow_eq_visits children few.1
    have count := compoundCount_eq few.2
    have own : Visit.exceeds limit ⟨[], ⟨kind, text, children⟩⟩ =
        (isMeasured kind && limit.isExceededBy (compoundCount children)) := by
      rw [count]
      cases kind <;> rfl
    rw [violations, below, visits, List.filter_append, List.map_append]
    congr 1
    rw [List.filter_cons, List.filter_nil, own]
    split
    · exact congrArg (fun count => [(⟨text, count⟩ : Violation)]) count
    · rfl

theorem violationsBelow_eq_visits : (nodes : List Node) →
    (∀ visit ∈ visitsBelow nodes, visit.node.children.length < maxCount) →
    violationsBelow limit nodes =
      ((visitsBelow nodes).filter (Visit.exceeds limit)).map Visit.violation
  | [], _ => rfl
  | node :: nodes, few => by
    rw [visitsBelow, List.forall_mem_append, List.forall_mem_map] at few
    have first := violations_eq_visits node few.1
    have later := violationsBelow_eq_visits nodes few.2
    rw [violationsBelow, first, later, visitsBelow, List.filter_append, List.map_append,
      filter_inside]

end

end Limit

/-! ## Greater limits -/

section Raised

variable {limit raised : Binary64}

mutual

theorem violations_sublist (atMost : limit.AtMost raised) : (node : Node) →
    (violations raised node).Sublist (violations limit node)
  | ⟨kind, text, children⟩ => by
    have below := violationsBelow_sublist atMost children
    rw [violations, violations]
    refine below.append ?_
    cases exceeds : isMeasured kind && raised.isExceededBy (compoundCount children) with
    | false => exact List.nil_sublist _
    | true =>
        obtain ⟨measured, exceeded⟩ := Bool.and_eq_true_iff.1 exceeds
        rw [measured, atMost.isExceededBy exceeded]
        exact List.Sublist.refl _

theorem violationsBelow_sublist (atMost : limit.AtMost raised) : (nodes : List Node) →
    (violationsBelow raised nodes).Sublist (violationsBelow limit nodes)
  | [] => List.nil_sublist _
  | node :: nodes => by
    have first := violations_sublist atMost node
    have later := violationsBelow_sublist atMost nodes
    rw [violationsBelow, violationsBelow]
    refine List.Sublist.append ?_ later
    split
    · exact first
    · exact List.nil_sublist _

end

end Raised

/-! ## What is not reached -/

/-- The second tree has other children below one child, at any depth, that is neither a selector nor
a negation. -/
inductive Regrown : Node → Node → Prop
  | child {kind : Kind} {text : List Char} (front : List Node) {child : Node}
      (noSelector : child.isSelector = false) (noNegation : child.isNegation = false)
      (children back : List Node) :
      Regrown ⟨kind, text, front ++ child :: back⟩
        ⟨kind, text, front ++ { child with children } :: back⟩
  | deeper {kind : Kind} {text : List Char} (front : List Node) {child grown : Node}
      (regrown : Regrown child grown) (back : List Node) :
      Regrown ⟨kind, text, front ++ child :: back⟩ ⟨kind, text, front ++ grown :: back⟩

theorem Regrown.kind_eq {root other : Node} (regrown : Regrown root other) :
    other.kind = root.kind := by
  cases regrown <;> rfl

/-- What is counted and entered is known from the kinds of the children. -/
theorem violations_congr {limit : Binary64} {kind : Kind} {text : List Char}
    {front back : List Node} {child grown : Node} (same : grown.kind = child.kind)
    (below : violationsBelow limit [grown] = violationsBelow limit [child]) :
    violations limit ⟨kind, text, front ++ grown :: back⟩ =
      violations limit ⟨kind, text, front ++ child :: back⟩ := by
  have combinator : grown.isCombinator = child.isCombinator := by
    rw [Node.isCombinator, same, Node.isCombinator]
  have count : compoundCount (front ++ grown :: back) = compoundCount (front ++ child :: back) := by
    simp only [compoundCount, List.countP_append, List.countP_cons, combinator]
  have cut : ∀ node, violationsBelow limit (front ++ node :: back) =
      violationsBelow limit front ++
        (violationsBelow limit [node] ++ violationsBelow limit back) := by
    intro node
    rw [violationsBelow_append, ← List.singleton_append, violationsBelow_append]
  rw [violations, violations, count, cut, cut, below]

theorem Regrown.violations_eq {root other : Node} (regrown : Regrown root other)
    (limit : Binary64) : violations limit other = violations limit root := by
  induction regrown with
  | child front noSelector noNegation children back =>
      rename_i child
      have outside : ∀ grown : Node, grown.kind = child.kind → isEntered grown = false := by
        intro grown same
        rw [Node.isSelector, ← same] at noSelector
        rw [Node.isNegation, ← same] at noNegation
        rw [isEntered, Node.isSelector, noSelector, Node.isNegation, noNegation]
        rfl
      refine violations_congr rfl ?_
      rw [violationsBelow_of_not_isEntered (outside { child with children } rfl),
        violationsBelow_of_not_isEntered (outside child rfl)]
  | deeper front regrown back inductionHypothesis =>
      rename_i child grown
      have entered : isEntered grown = isEntered child := by
        rw [isEntered, Node.isSelector, Node.isNegation, regrown.kind_eq]
        rfl
      refine violations_congr regrown.kind_eq ?_
      rw [violationsBelow, violationsBelow, entered, inductionHypothesis]
      rfl

/-- With few children at every node the violations are the nodes of the walk that are reached,
counted and have more compound selectors than the limit, in the order of the walk.  Raising the
limit leaves some out and keeps the order of the others, and nothing below a child that is neither a
selector nor a negation is looked at. -/
theorem violations_walk (limit : Binary64) (root : Node) :
    (FewChildren root →
      violations limit root = ((visits root).filter (Visit.exceeds limit)).map Visit.violation) ∧
      (∀ count, limit.isExceededBy count = true ↔
        ∃ value, limit.value? = some value ∧ value < ((count : ℚ) : WithTop ℚ)) ∧
      (∀ raised, limit.AtMost raised →
        (violations raised root).Sublist (violations limit root)) ∧
      ∀ other, Regrown root other → violations limit other = violations limit root :=
  ⟨violations_eq_visits root, limit.isExceededBy_iff,
    fun _ atMost => violations_sublist atMost root, fun _ regrown => regrown.violations_eq limit⟩

/-- A selector with two compound selectors. -/
private def pair (text : List Char) : Node :=
  ⟨.selector, text, [.leaf (.combinator .child) ['>']]⟩

/-- A root with a tag and a negation among its children, where the tag has children of its own. -/
private def handBuilt (ofTag : List Node) : Node :=
  ⟨.root, [], [⟨.tag, ['t'], ofTag⟩, ⟨.pseudo [':', 'N', 'o', 'T'], [], [pair ['a']]⟩,
    ⟨.selector, ['b'], [.leaf (.combinator .child) ['>'], pair ['c'],
      .leaf (.combinator .nextSibling) ['+'], ⟨.pseudo [':', 'i', 's'], [], [pair ['d']]⟩]⟩]⟩

/-- The selector in the negation and the one inside a selector come first, those in the tag and in
another pseudo-class are not reached. -/
theorem violations_walk_handBuilt :
    let one : Binary64 := .finite false 1 0
    let more : Binary64 := .finite false 5 (-1)
    let root := handBuilt [pair ['e']]
    FewChildren root ∧ violations one root = [⟨['a'], 2⟩, ⟨['c'], 2⟩, ⟨['b'], 3⟩] ∧
      one.isExceededBy 2 = true ∧ one.AtMost more ∧
      (violations more root).Sublist [⟨['a'], 2⟩, ⟨['c'], 2⟩, ⟨['b'], 3⟩] ∧
      Regrown root (handBuilt []) ∧ violations one (handBuilt []) = violations one root := by
  intro one more root
  obtain ⟨walk, greater, raises, prunes⟩ := violations_walk one root
  have few : FewChildren root := by decide +kernel
  have found : violations one root = [⟨['a'], 2⟩, ⟨['c'], 2⟩, ⟨['b'], 3⟩] :=
    (walk few).trans (by decide +kernel)
  have less : one.AtMost more :=
    ⟨_, _, rfl, rfl, WithBot.coe_le_coe.2 (WithTop.coe_le_coe.2 (by norm_num))⟩
  have regrown : Regrown root (handBuilt []) :=
    @Regrown.child .root [] [] ⟨.tag, ['t'], [pair ['e']]⟩ rfl rfl [] _
  refine ⟨few, found, (greater 2).2 ⟨_, rfl, ?_⟩, less, found ▸ raises more less, regrown,
    prunes _ regrown⟩
  exact WithBot.coe_lt_coe.2 (WithTop.coe_lt_coe.2 (by norm_num))

end CssLint.Rule
