import CssLint.Proofs.Sheet.Grown
import Mathlib.Data.List.Flatten
import Mathlib.Data.List.Nodup
import Mathlib.Data.List.Perm.Subperm

/-!
# The walk down a style sheet

The walk from a node lists the nodes below it in pre-order: each of them once, in front of
those below it, and all that one child leads to in front of the next child.  The same nodes
in the same order are met with a stack of nodes that are still to be visited, which is empty
after at most as many steps as the style sheet has nodes.
-/

namespace CssLint.Stylesheet

open Sheet

variable {sheet : Stylesheet}

/-! ## Above and below -/

/-- The node `top` itself or one below it. -/
def IsWithin (sheet : Stylesheet) (top id : NodeId) : Prop :=
  id = top ∨ IsAbove sheet top id

theorem isAbove_iff_exists_parent {above id : NodeId} :
    IsAbove sheet above id ↔
      ∃ parent, sheet.parent? id = some parent ∧ IsWithin sheet above parent := by
  constructor
  · intro isAbove
    cases isAbove with
    | parent below => exact ⟨above, below, .inl rfl⟩
    | @further _ parent below higher => exact ⟨parent, below, .inr higher⟩
  · intro ⟨parent, below, within⟩
    cases within with
    | inl same => exact .parent (same ▸ below)
    | inr higher => exact .further below higher

theorem isAbove_iff_exists_child {above id : NodeId} :
    IsAbove sheet above id ↔
      ∃ child, sheet.parent? child = some above ∧ IsWithin sheet child id := by
  constructor
  · intro isAbove
    induction isAbove with
    | @parent id below => exact ⟨id, below, .inl rfl⟩
    | @further id parent below _ inductionHypothesis =>
        obtain ⟨child, ofChild, within⟩ := inductionHypothesis
        exact ⟨child, ofChild, .inr (isAbove_iff_exists_parent.2 ⟨parent, below, within⟩)⟩
  · intro ⟨child, ofChild, within⟩
    cases within with
    | inl same => exact .parent (same ▸ ofChild)
    | inr isAbove =>
        induction isAbove with
        | parent below => exact .further below (.parent ofChild)
        | further below _ inductionHypothesis => exact .further below inductionHypothesis

theorem isAbove_iff {above id parent : NodeId} (below : sheet.parent? id = some parent) :
    IsAbove sheet above id ↔ IsWithin sheet above parent := by
  rw [isAbove_iff_exists_parent, below]
  simp

/-- Of two nodes that a node stands below, one stands below the other. -/
theorem IsWithin.total {first second id : NodeId} (ofFirst : IsWithin sheet first id)
    (ofSecond : IsWithin sheet second id) :
    IsWithin sheet first second ∨ IsWithin sheet second first := by
  cases ofFirst with
  | inl same => exact .inr (same ▸ ofSecond)
  | inr isAbove =>
      -- The way up from the node is the same for both; one of them comes first on it.
      induction isAbove with
      | parent below =>
          cases ofSecond with
          | inl same => exact .inl (.inr (same ▸ .parent below))
          | inr higher => exact .inr ((isAbove_iff below).1 higher)
      | further below higher inductionHypothesis =>
          cases ofSecond with
          | inl same => exact .inl (.inr (same ▸ .further below higher))
          | inr isAbove => exact inductionHypothesis ((isAbove_iff below).1 isAbove)

namespace IsLinked

variable (linked : IsLinked sheet)

include linked

theorem le_of_isWithin {top id : NodeId} (within : IsWithin sheet top id) : top ≤ id := by
  cases within with
  | inl same => exact Nat.le_of_eq same.symm
  | inr isAbove => exact Nat.le_of_lt (linked.lt_of_isAbove isAbove)

/-- What the children of one node lead to is apart. -/
theorem eq_of_isWithin {parent first second id : NodeId}
    (ofFirst : sheet.parent? first = some parent) (ofSecond : sheet.parent? second = some parent)
    (inFirst : IsWithin sheet first id) (inSecond : IsWithin sheet second id) :
    first = second := by
  -- A child has a greater number than its parent, so it is not above another one.
  have never : ∀ {above below : NodeId}, sheet.parent? above = some parent →
      sheet.parent? below = some parent → ¬ IsAbove sheet above below := by
    intro above below ofAbove ofBelow isAbove
    have within := (isAbove_iff ofBelow).1 isAbove
    exact Nat.not_lt.2 (linked.le_of_isWithin within) (linked.parent_lt ofAbove).1
  rcases inFirst.total inSecond with (same | isAbove) | (same | isAbove)
  · exact same.symm
  · exact absurd isAbove (never ofFirst ofSecond)
  · exact same
  · exact absurd isAbove (never ofSecond ofFirst)

theorem lt_size_of_isAbove {above id : NodeId} (isAbove : IsAbove sheet above id) :
    id < sheet.size := by
  obtain ⟨parent, below, _⟩ := isAbove_iff_exists_parent.1 isAbove
  exact (linked.parent_lt below).2

theorem isAbove_root {id : NodeId} (notRoot : id ≠ root) (within : id < sheet.size) :
    IsAbove sheet root id := by
  induction id using Nat.strongRecOn with
  | ind id inductionHypothesis =>
      obtain ⟨parent, below⟩ := linked.exists_parent notRoot within
      obtain ⟨before, inside⟩ := linked.parent_lt below
      by_cases first : parent = root
      · exact .parent (first ▸ below)
      · exact .further below (inductionHypothesis parent before first (Nat.lt_trans before inside))

/-- What holds of a node as soon as it holds of its children holds of every node. -/
theorem childrenInduction {property : NodeId → Prop}
    (step : ∀ id, (∀ child, sheet.parent? child = some id → property child) → property id)
    (id : NodeId) : property id := by
  induction left : sheet.size - id using Nat.strongRecOn generalizing id with
  | ind left inductionHypothesis =>
      subst left
      refine step id fun child below => ?_
      obtain ⟨after, inside⟩ := linked.parent_lt below
      have fewer : sheet.size - child < sheet.size - id :=
        Nat.sub_lt_sub_left (Nat.lt_trans after inside) after
      exact inductionHypothesis _ fewer child rfl

end IsLinked

/-! ## Pre-order -/

/-- A node and the nodes below it, in the order of the walk. -/
def subtree (sheet : Stylesheet) (id : NodeId) : List NodeId :=
  id :: sheet.descendants id

/-- The list has the nodes below `top`: each once, in front of those below it, and all that a child
leads to in front of the next child. -/
structure IsPreorder (sheet : Stylesheet) (top : NodeId) (walk : List NodeId) : Prop where
  mem_iff (id : NodeId) : id ∈ walk ↔ IsAbove sheet top id
  nodup : walk.Nodup
  downwards (id below : NodeId) (inside : IsAbove sheet top id) (isAbove : IsAbove sheet id below) :
    [id, below].Sublist walk
  siblings (parent child next first second : NodeId) (inside : IsWithin sheet top parent)
    (order : [child, next].Sublist (sheet.children parent))
    (ofChild : IsWithin sheet child first) (ofNext : IsWithin sheet next second) :
    [first, second].Sublist walk

namespace IsLinked

variable (linked : IsLinked sheet)

include linked

theorem descendants_eq (id : NodeId) :
    sheet.descendants id = (sheet.children id).flatMap sheet.subtree := by
  rw [descendants]
  refine List.flatMap_congr fun child member => ?_
  exact dif_pos (linked.parent_lt (linked.mem_children_iff.1 member))

theorem mem_descendants_iff {top id : NodeId} :
    id ∈ sheet.descendants top ↔ IsAbove sheet top id := by
  induction top using linked.childrenInduction with
  | step top inductionHypothesis =>
      rw [linked.descendants_eq, List.mem_flatMap, isAbove_iff_exists_child]
      refine exists_congr fun child => ?_
      rw [linked.mem_children_iff]
      refine and_congr_right fun below => ?_
      rw [subtree, List.mem_cons, inductionHypothesis child below]
      rfl

theorem mem_subtree_iff {top id : NodeId} : id ∈ sheet.subtree top ↔ IsWithin sheet top id := by
  rw [subtree, List.mem_cons, linked.mem_descendants_iff]
  rfl

theorem nodup_descendants (top : NodeId) : (sheet.descendants top).Nodup := by
  induction top using linked.childrenInduction with
  | step top inductionHypothesis =>
      rw [linked.descendants_eq, List.nodup_flatMap]
      constructor
      · intro child member
        have below := linked.mem_children_iff.1 member
        rw [subtree, List.nodup_cons, linked.mem_descendants_iff]
        exact ⟨fun isAbove => Nat.lt_irrefl child (linked.lt_of_isAbove isAbove),
          inductionHypothesis child below⟩
      · refine (linked.nodup_children top).pairwise_of_forall_ne ?_
        intro first ofFirst second ofSecond different id inFirst inSecond
        exact different (linked.eq_of_isWithin (linked.mem_children_iff.1 ofFirst)
          (linked.mem_children_iff.1 ofSecond) (linked.mem_subtree_iff.1 inFirst)
          (linked.mem_subtree_iff.1 inSecond))

theorem subtree_sublist {top id : NodeId} (isAbove : IsAbove sheet top id) :
    (sheet.subtree id).Sublist (sheet.descendants top) := by
  induction top using linked.childrenInduction with
  | step top inductionHypothesis =>
      obtain ⟨child, below, within⟩ := isAbove_iff_exists_child.1 isAbove
      have ofChild : (sheet.subtree child).Sublist (sheet.descendants top) := by
        have single : [child].Sublist (sheet.children top) :=
          List.singleton_sublist.2 (linked.mem_children_iff.2 below)
        rw [linked.descendants_eq]
        simpa using single.flatMap sheet.subtree
      cases within with
      | inl same => exact same ▸ ofChild
      | inr lower =>
          have later := inductionHypothesis child below lower
          exact (later.trans (List.sublist_cons_self _ _)).trans ofChild

theorem isPreorder_descendants (top : NodeId) : IsPreorder sheet top (sheet.descendants top) where
  mem_iff id := linked.mem_descendants_iff
  nodup := linked.nodup_descendants top
  downwards id below inside isAbove := by
    have later : [below].Sublist (sheet.descendants id) :=
      List.singleton_sublist.2 (linked.mem_descendants_iff.2 isAbove)
    exact (later.cons_cons id).trans (linked.subtree_sublist inside)
  siblings parent child next first second inside order ofChild ofNext := by
    have subtrees := order.flatMap sheet.subtree
    rw [← linked.descendants_eq, List.flatMap_cons, List.flatMap_singleton] at subtrees
    have inChild := List.singleton_sublist.2 (linked.mem_subtree_iff.2 ofChild)
    have inNext := List.singleton_sublist.2 (linked.mem_subtree_iff.2 ofNext)
    have here : [first, second].Sublist (sheet.descendants parent) :=
      (inChild.append inNext).trans subtrees
    cases inside with
    | inl same => exact same ▸ here
    | inr isAbove =>
        exact (here.trans (List.sublist_cons_self _ _)).trans (linked.subtree_sublist isAbove)

theorem length_descendants_le (top : NodeId) : (sheet.descendants top).length ≤ sheet.size := by
  have inside : sheet.descendants top ⊆ List.range sheet.size := by
    intro id member
    exact List.mem_range.2 (linked.lt_size_of_isAbove (linked.mem_descendants_iff.1 member))
  simpa using ((linked.nodup_descendants top).subperm inside).length_le

end IsLinked

/-! ## A walk with a stack -/

/-- The nodes that a walk meets which takes the first node off a stack and puts its children there;
none when the stack is not empty after so many steps. -/
def walkWithin (sheet : Stylesheet) : Nat → List NodeId → Option (List NodeId)
  | _, [] => some []
  | 0, _ :: _ => none
  | steps + 1, id :: stack =>
    (sheet.walkWithin steps (sheet.children id ++ stack)).map (id :: ·)

theorem IsLinked.walkWithin_eq (linked : IsLinked sheet) {steps : Nat} {stack : List NodeId}
    (enough : (stack.flatMap sheet.subtree).length ≤ steps) :
    sheet.walkWithin steps stack = some (stack.flatMap sheet.subtree) := by
  -- A step takes one node off what the stack stands for.
  have popped : ∀ id rest, (id :: rest).flatMap sheet.subtree =
      id :: (sheet.children id ++ rest).flatMap sheet.subtree := by
    intro id rest
    rw [List.flatMap_cons, List.flatMap_append, ← linked.descendants_eq, subtree, List.cons_append]
  induction steps generalizing stack with
  | zero =>
      cases stack with
      | nil => rfl
      | cons id rest =>
          rw [popped, List.length_cons] at enough
          exact absurd enough (Nat.not_succ_le_zero _)
  | succ steps inductionHypothesis =>
      cases stack with
      | nil => rfl
      | cons id rest =>
          rw [popped, List.length_cons] at enough
          rw [walkWithin, inductionHypothesis (Nat.le_of_succ_le_succ enough), popped]
          rfl

/-! ## Style rules -/

theorem map_fst_rules (sheet : Stylesheet) :
    sheet.rules.map Prod.fst =
      (sheet.descendants root).filter fun id => (sheet.rule? id).isSome := by
  rw [rules]
  induction sheet.descendants root with
  | nil => rfl
  | cons id ids inductionHypothesis =>
      cases own : sheet.rule? id with
      | none => simp [own, inductionHypothesis]
      | some style => simp [own, inductionHypothesis]

theorem IsLinked.mem_rules_iff (linked : IsLinked sheet) {id : NodeId} {style : StyleRule} :
    (id, style) ∈ sheet.rules ↔ sheet.rule? id = some style := by
  have own : (id, style) ∈ sheet.rules ↔
      id ∈ sheet.descendants root ∧ sheet.rule? id = some style := by
    simp [rules]
  rw [own, and_iff_right_iff_imp, linked.mem_descendants_iff]
  intro isRule
  have notRoot : id ≠ root := by
    intro same
    rw [rule?, same, linked.kind_root] at isRule
    cases isRule
  refine linked.isAbove_root notRoot (Nat.lt_of_not_le fun outside => ?_)
  rw [rule?, kind?, node?_eq_none_iff.2 outside] at isRule
  cases isRule

/-! ## Growing -/

/-- After one more node below `parent` there is the node with the next number, the parent has it as
its last child, and nothing else is different. -/
structure Adds (sheet : Stylesheet) (parent : NodeId) (kind : Kind) (span : Span)
    (after : Stylesheet) : Prop where
  source : after.source = sheet.source
  size : after.size = sheet.size + 1
  added : after.node? sheet.size = some ⟨kind, some parent, [], span⟩
  adopts : ∃ node, sheet.node? parent = some node ∧
    after.node? parent = some { node with children := node.children ++ [sheet.size] }
  others (id : NodeId) (notAdded : id ≠ sheet.size) (notParent : id ≠ parent) :
    after.node? id = sheet.node? id

theorem adds_append {parent : NodeId} (within : parent < sheet.size) (kind : Kind) (span : Span) :
    Adds sheet parent kind span (sheet.append parent kind span) where
  source := rfl
  size := sheet.size_append parent kind span
  added := by
    rw [node?_append, if_pos rfl, if_neg (Nat.ne_of_gt within)]
    rfl
  adopts := by
    have inside : parent < sheet.nodes.size := within
    have found : sheet.node? parent = some sheet.nodes[parent] := Array.getElem?_eq_getElem inside
    refine ⟨sheet.nodes[parent], found, ?_⟩
    rw [node?_append, if_neg (Nat.ne_of_lt within), found, if_pos rfl]
    rfl
  others id notAdded notParent := by
    rw [node?_append, if_neg notAdded, if_neg notParent]
    simp

/-- However a style sheet has grown: one more node changes nothing but the children of its parent,
every node but the root is once among the children of its parent, which has a smaller number, and of
no other node, the walk below any node comes to its end and is in pre-order, and the style rules are
all that there are, in the order of the walk. -/
theorem Grown.adds_and_walks (grown : Grown sheet) :
    (∀ parent < sheet.size, ∀ kind span,
      Adds sheet parent kind span (sheet.append parent kind span)) ∧
      (∀ id, id ≠ root → id < sheet.size → ∃ parent < id, sheet.parent? id = some parent ∧
        ∀ other, (sheet.children other).count id = if other = parent then 1 else 0) ∧
      (∀ id, IsPreorder sheet id (sheet.descendants id) ∧
        ∀ steps ≥ sheet.size,
          sheet.walkWithin steps (sheet.children id) = some (sheet.descendants id)) ∧
      (∀ id style, (id, style) ∈ sheet.rules ↔ sheet.rule? id = some style) ∧
      sheet.rules.map Prod.fst =
        (sheet.descendants root).filter fun id => (sheet.rule? id).isSome := by
  have linked := grown.isLinked
  refine ⟨fun parent within => adds_append within, fun id notRoot within => ?_, fun id => ?_,
    fun id style => linked.mem_rules_iff, sheet.map_fst_rules⟩
  · obtain ⟨parent, below⟩ := linked.exists_parent notRoot within
    refine ⟨parent, (linked.parent_lt below).1, below, fun other => ?_⟩
    rw [linked.count_children, below]
    simp only [Option.some.injEq, eq_comm]
  · refine ⟨linked.isPreorder_descendants id, fun steps enough => ?_⟩
    have short := linked.length_descendants_le id
    rw [linked.descendants_eq] at short ⊢
    exact linked.walkWithin_eq (Nat.le_trans short enough)

/-- Nodes of all kinds below changing parents, with another end for the first of them between. -/
private def interleaved : Stylesheet :=
  ((((((empty []).append root (.rule ⟨['a'], 0⟩) ⟨0, 0⟩).append root .root ⟨0, 0⟩).append 1
    (.rule ⟨['b'], 0⟩) ⟨0, 0⟩).setStop 1 7).append 2
    (.rule ⟨['c'], 0⟩) ⟨0, 0⟩).append 1 (.declaration ⟨['d'], []⟩) ⟨0, 0⟩

theorem Grown.adds_and_walks_interleaved :
    Grown interleaved ∧ interleaved.children 1 = [3, 5] ∧
      interleaved.descendants root = [1, 3, 5, 2, 4] ∧
      interleaved.rules.map Prod.fst = [1, 3, 4] ∧
      IsPreorder interleaved 2 (interleaved.descendants 2) := by
  have grown : Grown interleaved := by
    refine .append (.append (.setStop (.append (.append (.append (.empty []) ?_ _ _) ?_ _ _)
      ?_ _ _) _ _) ?_ _ _) ?_ _ _
    all_goals decide
  obtain ⟨_, _, walks, _, order⟩ := Grown.adds_and_walks grown
  have found : interleaved.walkWithin 6 [1, 2] = some [1, 3, 5, 2, 4] := by decide
  have below : interleaved.descendants root = [1, 3, 5, 2, 4] :=
    Option.some.inj (((walks root).2 6 (Nat.le_refl 6)).symm.trans found)
  refine ⟨grown, by decide, below, ?_, (walks 2).1⟩
  rw [order, below]
  decide

end CssLint.Stylesheet
