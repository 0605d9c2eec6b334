import CssLint.Proofs.Sheet.JoinedItems
import CssLint.Proofs.Sheet.Numbered

/-!
# Joined style sheets

The style sheet of a self-contained text, a semicolon and any other text is the
style sheet of the first followed by that of the second, with other numbers and
offsets.  Only the last node of the first may grow by the semicolon.
-/

namespace CssLint

open Sheet Text

/-! ## Joining -/

namespace Sheet

/-- The number of a node behind `count` others; the root stays. -/
def moveId (count : Nat) (id : NodeId) : NodeId :=
  if id = Stylesheet.root then id else count + id

/-- The node with other numbers around it, behind `distance` bytes. -/
def Node.renumber (rename : NodeId → NodeId) (distance : Nat) (node : Node) : Node :=
  ⟨node.kind.shift distance, node.parent.map rename, node.children.map rename,
    node.span.shift distance⟩

/-- The node behind `count` others and `distance` bytes. -/
def Node.move (count distance : Nat) (node : Node) : Node :=
  ⟨node.kind.shift distance, node.parent.map (moveId count), node.children.map (moveId count),
    node.span.shift distance⟩

end Sheet

namespace Stylesheet

/-- The nodes below the root in the order of their numbers. -/
def below (sheet : Stylesheet) : List Node :=
  sheet.nodes.toList.tail

/-- The style sheet with the nodes of the first and then those of the second, and a semicolon
between the texts. -/
def join (first second : Stylesheet) : Stylesheet :=
  let source := first.source ++ ';' :: second.source
  let count := first.below.length
  ⟨source,
    (⟨.root, none, first.children root ++ (second.children root).map (moveId count),
      ⟨0, byteCount source⟩⟩ ::
      (first.below ++ second.below.map (Node.move count (byteCount first.source + 1)))).toArray⟩

/-- The style sheet may end its last node, one without a block, behind the next byte. -/
def Grows (sheet grown : Stylesheet) : Prop :=
  grown = sheet ∨ ∃ id node, (sheet.children root).getLast? = some id ∧
    sheet.node? id = some node ∧ node.kind.lacksBlock = true ∧
    node.span.stop = byteCount sheet.source ∧
    grown = sheet.setStop id (byteCount sheet.source + 1)

/-! ## Nodes -/

private theorem moveId_of_pos {id : NodeId} (positive : 0 < id) (count : Nat) :
    moveId count id = count + id :=
  if_neg (Nat.ne_of_gt positive)

mutual

private theorem count_shift (distance : Nat) : (item : Item) →
    (item.shift distance).count = item.count
  | ⟨kind, span, items⟩ => by
    rw [Item.shift, Item.count, Item.count, countItems_shift]

theorem countItems_shift (distance : Nat) : (items : List Item) →
    countItems (shiftItems distance items) = countItems items
  | [] => rfl
  | item :: items => by
    rw [shiftItems, countItems, countItems, count_shift, countItems_shift]

end

section Renumber

variable {rename : NodeId → NodeId} {count : Nat}

/-- Nodes behind `count` others have numbers that are so much greater. -/
theorem numbers_shift (renames : ∀ id, 0 < id → rename id = count + id) (distance : Nat)
    {next : NodeId} (positive : 0 < next) (items : List Item) :
    numbers (count + next) (shiftItems distance items) = (numbers next items).map rename := by
  induction items generalizing next with
  | nil => rfl
  | cons item items inductionHypothesis =>
      have later := inductionHypothesis (Nat.add_pos_left positive item.count)
      rw [← Nat.add_assoc] at later
      rw [shiftItems, numbers, numbers, List.map_cons, renames next positive, count_shift, later]

mutual

private theorem nodes_shift (renames : ∀ id, 0 < id → rename id = count + id) (distance : Nat)
    (parent : NodeId) {id : NodeId} (positive : 0 < id) : (item : Item) →
    (item.shift distance).nodes (rename parent) (count + id) =
      (item.nodes parent id).map (Node.renumber rename distance)
  | ⟨kind, span, items⟩ => by
    have children := numbers_shift renames distance (Nat.add_pos_left positive 1) items
    have inside := nodesOf_shift renames distance id (Nat.add_pos_left positive 1) items
    rw [renames id positive] at inside
    rw [← Nat.add_assoc] at children inside
    rw [Item.shift, Item.nodes, Item.nodes, List.map_cons, children, inside]
    rfl

theorem nodesOf_shift (renames : ∀ id, 0 < id → rename id = count + id) (distance : Nat)
    (parent : NodeId) {next : NodeId} (positive : 0 < next) : (items : List Item) →
    nodesOf (rename parent) (count + next) (shiftItems distance items) =
      (nodesOf parent next items).map (Node.renumber rename distance)
  | [] => rfl
  | item :: items => by
    have later :=
      nodesOf_shift renames distance parent (Nat.add_pos_left positive item.count) items
    rw [← Nat.add_assoc] at later
    rw [shiftItems, nodesOf, nodesOf, List.map_append,
      nodes_shift renames distance parent positive, count_shift, later]

end

end Renumber

theorem children_ofItems (source : List Char) (items : List Item) :
    (ofItems source items).children root = numbers 1 items := by
  have nodes := nodes_ofItems source items
  have first : (ofItems source items).nodes[root]? = (ofItems source items).nodes.toList[root]? :=
    (Array.getElem?_toList).symm
  rw [children, node?, first, nodes]
  rfl

theorem below_ofItems (source : List Char) (items : List Item) :
    (ofItems source items).below = nodesOf root 1 items := by
  rw [below, nodes_ofItems]
  rfl

theorem ext_of_toList {first second : Stylesheet} (source : first.source = second.source)
    (nodes : first.nodes.toList = second.nodes.toList) : first = second := by
  obtain ⟨firstSource, firstNodes⟩ := first
  obtain ⟨secondSource, secondNodes⟩ := second
  cases source
  exact congrArg (Stylesheet.mk _) (Array.toList_inj.1 nodes)

/-- Forests one behind the other become joined style sheets. -/
theorem ofItems_append (first second : List Char) (left right : List Item) :
    ofItems (first ++ ';' :: second) (left ++ shiftItems (byteCount first + 1) right) =
      (ofItems first left).join (ofItems second right) := by
  have sources := source_ofItems first left
  have renames : ∀ id, 0 < id → moveId (countItems left) id = countItems left + id :=
    fun id positive => moveId_of_pos positive (countItems left)
  have children : numbers 1 (left ++ shiftItems (byteCount first + 1) right) =
      numbers 1 left ++ (numbers 1 right).map (moveId (countItems left)) := by
    rw [numbers_append, Nat.add_comm 1, numbers_shift renames _ Nat.one_pos]
  have nodes : nodesOf root 1 (left ++ shiftItems (byteCount first + 1) right) =
      nodesOf root 1 left ++
        (nodesOf root 1 right).map (Node.move (countItems left) (byteCount first + 1)) := by
    have moved : nodesOf root (countItems left + 1) (shiftItems (byteCount first + 1) right) =
        (nodesOf root 1 right).map (Node.move (countItems left) (byteCount first + 1)) :=
      nodesOf_shift renames (byteCount first + 1) root Nat.one_pos right
    rw [nodesOf_append, Nat.add_comm 1, moved]
  apply ext_of_toList
  · rw [source_ofItems, join, source_ofItems, source_ofItems]
  · rw [nodes_ofItems, children, nodes]
    simp only [join, sources, source_ofItems, children_ofItems, below_ofItems, length_nodesOf]

/-! ## The last node -/

private theorem nodes_concat (source : List Char) (items : List Item) (kind : Kind) (span : Span) :
    (ofItems source (items ++ [⟨kind, span, []⟩])).nodes.toList =
      (⟨.root, none, numbers 1 items ++ [1 + countItems items], ⟨0, byteCount source⟩⟩ ::
        nodesOf root 1 items) ++ [⟨kind, some root, [], span⟩] := by
  rw [nodes_ofItems, numbers_append, nodesOf_append]
  rfl

private theorem grows_concat (source : List Char) (items : List Item) {kind : Kind}
    (lacks : kind.lacksBlock = true) (start : Nat) :
    Grows (ofItems source (items ++ [⟨kind, ⟨start, byteCount source⟩, []⟩]))
      (ofItems source (items ++ [⟨kind, ⟨start, byteCount source + 1⟩, []⟩])) := by
  have nodes := nodes_concat source items kind
  have length : ((⟨.root, none, numbers 1 items ++ [1 + countItems items],
      ⟨0, byteCount source⟩⟩ : Node) :: nodesOf root 1 items).length = 1 + countItems items := by
    rw [List.length_cons, length_nodesOf, Nat.add_comm]
  refine Or.inr ⟨1 + countItems items, ⟨kind, some root, [], ⟨start, byteCount source⟩⟩,
    ?_, ?_, lacks, ?_, ?_⟩
  · rw [children_ofItems, numbers_append]
    simp [numbers]
  · rw [node?, ← Array.getElem?_toList, nodes, List.getElem?_append_right (Nat.le_of_eq length),
      length, Nat.sub_self]
    rfl
  · rw [source_ofItems]
  · apply ext_of_toList
    · rw [setStop, source_ofItems, source_ofItems]
    · rw [setStop, Array.toList_modify, nodes, nodes, source_ofItems, modify_last length]

/-- The nodes of a self-contained text and then those of any other text, where the last node of
the first may grow by the semicolon between them. -/
theorem ofText_append {first : List Char} (selfContained : SelfContained first) :
    ∃ grown, Grows (ofText first) grown ∧
      ∀ second, ofText (first ++ ';' :: second) = grown.join (ofText second) := by
  obtain ⟨items, last, lacks, alone, joined⟩ := Sheet.contents_append selfContained
  refine ⟨ofItems first (items ++ unclosedItems (byteCount first + 1) last), ?_, fun second => ?_⟩
  · rw [ofText, alone]
    cases last with
    | none => exact Or.inl rfl
    | some last => exact grows_concat first items (lacks last rfl) last.2
  · rw [ofText, joined, ofItems_append]
    rfl

end Stylesheet

end CssLint
