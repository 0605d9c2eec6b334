import CssLint.Proofs.Sheet.Within

/-!
# Style sheets in their text

The tree that is read of a text is faithful to it.  The walk down meets the nodes in the order of
their numbers; every node stands inside its parent and in front of its next sibling, a style rule
has its selector where it says, and no node stands deeper than one level below the deepest block.
-/

namespace CssLint.Stylesheet

open Sheet Text

/-! ## Nodes in their tree -/

/-- The node stands so many levels below the root. -/
inductive IsBelow (sheet : Stylesheet) : Nat → NodeId → Prop
  | root : IsBelow sheet 0 root
  | child {level : Nat} {parent id : NodeId} (above : IsBelow sheet level parent)
      (below : sheet.parent? id = some parent) : IsBelow sheet (level + 1) id

/-- The first node ends where the second one begins, or in front of it. -/
def EndsBefore (sheet : Stylesheet) (first second : NodeId) : Prop :=
  ∃ earlier later, sheet.node? first = some earlier ∧ sheet.node? second = some later ∧
    earlier.span.stop ≤ later.span.start

/-- The node has that parent and lies inside the span. -/
def IsChildWithin (sheet : Stylesheet) (parent : NodeId) (span : Span) (id : NodeId) : Prop :=
  ∃ node, sheet.node? id = some node ∧ node.parent = some parent ∧
    span.start ≤ node.span.start ∧ node.span.stop ≤ span.stop

/-- The node stands in the text and in the tree as its span, its kind, its parent and its children
say. -/
structure IsFaithful (sheet : Stylesheet) (id : NodeId) (node : Node) : Prop where
  placed : Placed sheet.source node.kind node.span
  parent : ∀ parent, node.parent = some parent →
    ∃ outer, sheet.node? parent = some outer ∧ id ∈ outer.children ∧
      outer.span.start ≤ node.span.start ∧ node.span.stop ≤ outer.span.stop
  children : ∀ child ∈ node.children, IsChildWithin sheet id node.span child
  siblings : node.children.Pairwise (EndsBefore sheet)
  level : ∃ level ≤ maxNesting + 1, IsBelow sheet level id

section Forest

variable {sheet : Stylesheet} {source : List Char} {levels level start stop : Nat}
  {parent next : NodeId} {items : List Item}

/-- Items one behind the other become children one behind the other. -/
theorem children_of_laidOut (laid : LaidOut source levels start stop items)
    (holds : Holds sheet parent next items) :
    (∀ id ∈ numbers next items, IsChildWithin sheet parent ⟨start, stop⟩ id) ∧
      (numbers next items).Pairwise (EndsBefore sheet) := by
  induction laid generalizing next with
  | nil => exact ⟨fun id member => (List.not_mem_nil member).elim, .nil⟩
  | @cons levels start stop kind span inside items own after before _ _ _ ofLater =>
      obtain ⟨children, siblings⟩ := ofLater holds.tail
      refine ⟨fun id member => ?_, .cons (fun id member => ?_) siblings⟩
      · rcases List.mem_cons.1 member with rfl | later
        · exact ⟨_, holds.node, rfl, after, before⟩
        · obtain ⟨node, found, below, start_, stop_⟩ := children id later
          exact ⟨node, found, below, Nat.le_trans after (Nat.le_trans own.forward start_), stop_⟩
      · obtain ⟨node, found, _, start_, _⟩ := children id member
        exact ⟨_, node, holds.node, found, start_⟩

/-- The nodes of items that stand inside a node of the tree are faithful to the text. -/
theorem isFaithful_of_laidOut (laid : LaidOut sheet.source levels start stop items)
    (holds : Holds sheet parent next items) {outer : Node}
    (around : sheet.node? parent = some outer)
    (listed : ∀ id ∈ numbers next items, id ∈ outer.children)
    (outerStart : outer.span.start ≤ start) (outerStop : stop ≤ outer.span.stop)
    (above : IsBelow sheet level parent) (depth : level + levels ≤ maxNesting + 1) {index : Nat}
    (within : index < countItems items) {node : Node}
    (found : sheet.node? (next + index) = some node) : IsFaithful sheet (next + index) node := by
  induction laid generalizing parent next outer level index with
  | nil => exact absurd within (Nat.not_lt_zero index)
  | @cons levels start stop kind span inside items own after before inner _ ofInside ofLater =>
      have here := holds.node
      have below : IsBelow sheet (level + 1) next := by
        refine .child above ?_
        rw [parent?, here]
        rfl
      rw [countItems, Item.count] at within
      -- The node itself, a node of its block, or one of a later item.
      rcases Nat.eq_zero_or_pos index with rfl | positive
      · rw [Nat.add_zero, here] at found
        obtain rfl := Option.some.inj found
        obtain ⟨children, siblings⟩ := children_of_laidOut inner holds.inside
        refine ⟨own, ?_, children, siblings, level + 1, ?_, below⟩
        · rintro _ ⟨⟩
          exact ⟨outer, around, listed next List.mem_cons_self, Nat.le_trans outerStart after,
            Nat.le_trans before outerStop⟩
        · omega
      · by_cases inBlock : index < 1 + countItems inside
        · obtain ⟨index, rfl⟩ := Nat.exists_eq_add_of_le positive
          rw [← Nat.add_assoc] at found ⊢
          exact ofInside holds.inside here (fun id member => member) (Nat.le_refl _) (Nat.le_refl _)
            below (by omega) (by omega) found
        · obtain ⟨index, rfl⟩ := Nat.exists_eq_add_of_le (Nat.not_lt.1 inBlock)
          have count : Item.count ⟨kind, span, inside⟩ = 1 + countItems inside := rfl
          rw [← Nat.add_assoc, ← count] at found ⊢
          exact ofLater holds.tail around
            (fun id member => listed id (List.mem_cons_of_mem _ member))
            (Nat.le_trans outerStart (Nat.le_trans after own.forward)) outerStop above depth
            (by omega) found

end Forest

/-- The tree of any text is faithful to the text, and its numbers follow the walk down. -/
theorem isFaithful_ofText (source : List Char) :
    (ofText source).source = source ∧
      (ofText source).descendants root = List.range' 1 ((ofText source).size - 1) ∧
      ∀ id node, (ofText source).node? id = some node → IsFaithful (ofText source) id node := by
  have laid := laidOut_contents source
  rw [ofText]
  generalize (contents source).items = items at laid ⊢
  have nodes := nodes_ofItems source items
  have holds := holds_ofItems source items
  have same : (ofItems source items).source = source := source_ofItems source items
  have size : (ofItems source items).size = countItems items + 1 := by
    rw [Stylesheet.size, ← Array.length_toList, nodes, List.length_cons, length_nodesOf]
  have top : (ofItems source items).node? root =
      some ⟨.root, none, numbers 1 items, ⟨0, byteCount source⟩⟩ := by
    rw [node?, ← Array.getElem?_toList, nodes]
    rfl
  refine ⟨same, ?_, fun id node found => ?_⟩
  · rw [descendants_ofItems, size, Nat.add_sub_cancel]
  · rcases Nat.eq_zero_or_pos id with rfl | positive
    · rw [← root, top] at found
      obtain rfl := Option.some.inj found
      obtain ⟨children, siblings⟩ := children_of_laidOut laid holds
      refine ⟨⟨Nat.zero_le _, ⟨[], _, rfl, rfl⟩, ?_, by simp⟩, by simp, children, siblings, 0,
        Nat.zero_le _, .root⟩
      rw [same]
      exact ⟨source, [], (List.append_nil source).symm, rfl⟩
    · obtain ⟨index, rfl⟩ := Nat.exists_eq_add_of_le positive
      have within : index < countItems items := by
        have bound := (Array.getElem?_eq_some_iff.1 found).1
        rw [← Stylesheet.size, size] at bound
        omega
      rw [← same] at laid
      exact isFaithful_of_laidOut laid holds top (fun id member => member) (Nat.le_refl _)
        (Nat.le_of_eq (congrArg byteCount same)) .root (Nat.le_of_eq (Nat.zero_add _)) within found

/-- A rule with a declaration and a nested rule in its block; the blank in front is the root's
alone, and the letter behind it has two bytes. -/
example : (ofText " é, b \x7bc:d;\n& > e\x7b\x7d\x7d".toList).nodes.toList =
    [⟨.root, none, [1], ⟨0, 21⟩⟩,
      ⟨.rule ⟨"é, b".toList, 1⟩, some 0, [2, 3], ⟨1, 21⟩⟩,
      ⟨.declaration ⟨['c'], ['d']⟩, some 1, [], ⟨8, 12⟩⟩,
      ⟨.rule ⟨"& > e".toList, 13⟩, some 1, [], ⟨13, 20⟩⟩] := by
  decide +kernel

end CssLint.Stylesheet
