import CssLint.Sheet.Item

/-!
# The nodes of a forest

The nodes that a forest becomes, in the order of their numbers: each item in front
of what its block holds, and that in front of the items that follow.
-/

namespace CssLint

namespace Sheet

/-! ## Numbers -/

mutual

/-- How many nodes an item becomes. -/
def Item.count : Item → Nat
  | ⟨_, _, items⟩ => 1 + countItems items

def countItems : List Item → Nat
  | [] => 0
  | item :: items => item.count + countItems items

end

/-- The numbers of the items themselves, where the first has the number `next`. -/
def numbers (next : NodeId) : List Item → List NodeId
  | [] => []
  | item :: items => next :: numbers (next + item.count) items

mutual

/-- The nodes of an item with the number `id` below `parent`. -/
def Item.nodes (parent id : NodeId) : Item → List Node
  | ⟨kind, span, items⟩ =>
    ⟨kind, some parent, numbers (id + 1) items, span⟩ :: nodesOf id (id + 1) items

/-- The nodes of items below `parent`, where the first has the number `next`. -/
def nodesOf (parent next : NodeId) : List Item → List Node
  | [] => []
  | item :: items => item.nodes parent next ++ nodesOf parent (next + item.count) items

end

mutual

theorem Item.length_nodes (parent id : NodeId) : (item : Item) →
    (item.nodes parent id).length = item.count
  | ⟨kind, span, items⟩ => by
    rw [Item.nodes, Item.count, List.length_cons, length_nodesOf, Nat.add_comm]

theorem length_nodesOf (parent next : NodeId) : (items : List Item) →
    (nodesOf parent next items).length = countItems items
  | [] => rfl
  | item :: items => by
    rw [nodesOf, countItems, List.length_append, item.length_nodes, length_nodesOf]

end

theorem numbers_append (next : NodeId) (left right : List Item) :
    numbers next (left ++ right) =
      numbers next left ++ numbers (next + countItems left) right := by
  induction left generalizing next with
  | nil => rfl
  | cons item left inductionHypothesis =>
      simp only [List.cons_append, numbers, countItems, inductionHypothesis, Nat.add_assoc]

theorem nodesOf_append (parent next : NodeId) (left right : List Item) :
    nodesOf parent next (left ++ right) =
      nodesOf parent next left ++ nodesOf parent (next + countItems left) right := by
  induction left generalizing next with
  | nil => rfl
  | cons item left inductionHypothesis =>
      simp only [List.cons_append, nodesOf, countItems, inductionHypothesis, Nat.add_assoc,
        List.append_assoc]

end Sheet

namespace Stylesheet

open Sheet

/-! ## Appending -/

private def adopt (ids : List NodeId) (node : Node) : Node :=
  { node with children := node.children ++ ids }

private theorem modify_append {α : Type} (left right : List α) {index : Nat}
    (within : index < left.length) (change : α → α) :
    (left ++ right).modify index change = left.modify index change ++ right := by
  induction left generalizing index with
  | nil => exact absurd within (Nat.not_lt_zero _)
  | cons first left inductionHypothesis =>
      cases index with
      | zero => rfl
      | succ index =>
          rw [List.cons_append, List.modify_succ_cons, List.modify_succ_cons, List.cons_append,
            inductionHypothesis (Nat.lt_of_succ_lt_succ within)]

theorem modify_last {α : Type} {left : List α} {index : Nat}
    (length : left.length = index) (last : α) (change : α → α) :
    (left ++ [last]).modify index change = left ++ [change last] := by
  subst length
  induction left with
  | nil => rfl
  | cons first left inductionHypothesis =>
      rw [List.cons_append, List.length_cons, List.modify_succ_cons, inductionHypothesis]
      rfl

private theorem nodes_append (sheet : Stylesheet) {parent : NodeId} (within : parent < sheet.size)
    (kind : Kind) (span : Span) :
    (sheet.append parent kind span).nodes.toList =
      sheet.nodes.toList.modify parent (adopt [sheet.size]) ++ [⟨kind, some parent, [], span⟩] := by
  have within' : parent < sheet.nodes.toList.length := by simpa [size] using within
  rw [append, Array.toList_modify, Array.toList_push, modify_append _ _ within']
  rfl

mutual

private theorem nodes_appendItem (sheet : Stylesheet) {parent : NodeId}
    (within : parent < sheet.size) : (item : Item) →
    (appendItem sheet parent item).nodes.toList =
      sheet.nodes.toList.modify parent (adopt [sheet.size]) ++ item.nodes parent sheet.size
  | ⟨kind, span, items⟩ => by
    have first := nodes_append sheet within kind span
    have length : (sheet.append parent kind span).size = sheet.size + 1 := by
      simpa [size] using congrArg List.length first
    have within' : sheet.size < (sheet.append parent kind span).size := by
      rw [length]
      exact Nat.lt_succ_self _
    have below := nodes_appendItems (sheet.append parent kind span) within' items
    have old : (sheet.nodes.toList.modify parent (adopt [sheet.size])).length = sheet.size := by
      simp [size]
    rw [appendItem, below, first, length, modify_last old, List.append_assoc]
    rfl

private theorem nodes_appendItems (sheet : Stylesheet) {parent : NodeId}
    (within : parent < sheet.size) : (items : List Item) →
    (appendItems sheet parent items).nodes.toList =
      sheet.nodes.toList.modify parent (adopt (numbers sheet.size items)) ++
        nodesOf parent sheet.size items
  | [] => by
    have same : adopt [] = id := by
      funext node
      simp [adopt]
    simp [appendItems, numbers, nodesOf, same]
  | item :: items => by
    have first := nodes_appendItem sheet within item
    have length : (appendItem sheet parent item).size = sheet.size + item.count := by
      simpa [size, item.length_nodes] using congrArg List.length first
    have within' : parent < (appendItem sheet parent item).size := by
      rw [length]
      exact Nat.lt_of_lt_of_le within (Nat.le_add_right _ _)
    have inside : parent < (sheet.nodes.toList.modify parent (adopt [sheet.size])).length := by
      simpa [size] using within
    have twice : adopt (numbers (sheet.size + item.count) items) ∘ adopt [sheet.size] =
        adopt (numbers sheet.size (item :: items)) := by
      funext node
      simp [adopt, numbers]
    rw [appendItems, nodes_appendItems _ within' items, first, length, modify_append _ _ inside,
      List.modify_modify_eq, twice, nodesOf, List.append_assoc]

end

/-- Items below a node are its last children, in their order. -/
theorem children_appendItems (sheet : Stylesheet) {parent : NodeId} (within : parent < sheet.size)
    (items : List Item) :
    (appendItems sheet parent items).children parent =
      sheet.children parent ++ numbers sheet.size items := by
  have appended := nodes_appendItems sheet within items
  have inside : parent < sheet.nodes.toList.length := by simpa [size] using within
  rw [children, children, node?, node?, ← Array.getElem?_toList, ← Array.getElem?_toList, appended,
    List.getElem?_append_left (by simpa using inside), List.getElem?_modify_eq,
    List.getElem?_eq_getElem inside]
  rfl

/-- The first of the items gets the next free number. -/
theorem node?_appendItems (sheet : Stylesheet) {parent : NodeId} (within : parent < sheet.size)
    (kind : Kind) (span : Span) (inside items : List Item) :
    (appendItems sheet parent (⟨kind, span, inside⟩ :: items)).node? sheet.size =
      some ⟨kind, some parent, numbers (sheet.size + 1) inside, span⟩ := by
  have appended := nodes_appendItems sheet within (⟨kind, span, inside⟩ :: items)
  have old (ids : List NodeId) :
      (sheet.nodes.toList.modify parent (adopt ids)).length = sheet.size := by
    simp [size]
  rw [node?, ← Array.getElem?_toList, appended,
    List.getElem?_append_right (Nat.le_of_eq (old _)), old, Nat.sub_self, nodesOf, Item.nodes]
  rfl

mutual

private theorem source_appendItem (sheet : Stylesheet) (parent : NodeId) : (item : Item) →
    (appendItem sheet parent item).source = sheet.source
  | ⟨kind, span, items⟩ => source_appendItems (sheet.append parent kind span) sheet.size items

private theorem source_appendItems (sheet : Stylesheet) (parent : NodeId) : (items : List Item) →
    (appendItems sheet parent items).source = sheet.source
  | [] => rfl
  | item :: items => by
    rw [appendItems, source_appendItems, source_appendItem]

end

/-! ## The style sheet of a forest -/

theorem nodes_ofItems (source : List Char) (items : List Item) :
    (ofItems source items).nodes.toList =
      ⟨.root, none, numbers 1 items, ⟨0, Text.byteCount source⟩⟩ :: nodesOf root 1 items := by
  have appended := nodes_appendItems (empty source) (show root < 1 from Nat.one_pos) items
  rw [ofItems, appended]
  simp [empty, size, root, adopt]

theorem source_ofItems (source : List Char) (items : List Item) :
    (ofItems source items).source = source :=
  source_appendItems (empty source) root items

end Stylesheet

end CssLint
