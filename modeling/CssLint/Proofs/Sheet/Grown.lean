import CssLint.Sheet.Item

/-!
# Style sheets that grow

A style sheet grows by nodes of any kind below nodes that are there already, and the place
of a node may change at any time.  Parents and children are kept twice, in the node below
and in the one above, and always agree: every node but the root is once among the children
of its parent and of no other node, and it has a greater number than its parent.
-/

namespace CssLint.Stylesheet

open Sheet

variable {sheet : Stylesheet}

theorem exists_kind? {id : NodeId} (within : id < sheet.size) :
    ∃ kind, sheet.kind? id = some kind := by
  have inside : id < sheet.nodes.size := within
  have node : sheet.node? id = some sheet.nodes[id] := Array.getElem?_eq_getElem inside
  refine ⟨sheet.nodes[id].kind, ?_⟩
  rw [kind?, node]
  rfl

theorem node?_eq_none_iff {id : NodeId} : sheet.node? id = none ↔ sheet.size ≤ id :=
  Array.getElem?_eq_none_iff

/-! ## One more node -/

section Append

variable (sheet : Stylesheet) (parent : NodeId) (kind : Kind) (span : Span)

theorem size_append : (sheet.append parent kind span).size = sheet.size + 1 := by
  simp [append, size]

/-- The new node has the next number and becomes the last child of its parent. -/
theorem node?_append (id : NodeId) :
    (sheet.append parent kind span).node? id =
      (if id = sheet.size then some ⟨kind, some parent, [], span⟩ else sheet.node? id).map
        fun node =>
          { node with children := node.children ++ if id = parent then [sheet.size] else [] } := by
  by_cases adopts : id = parent
  · simp [append, node?, Array.getElem?_modify, Array.getElem?_push, size, adopts]
  · simp [append, node?, Array.getElem?_modify, Array.getElem?_push, size, adopts, Ne.symm adopts]
    rfl

theorem kind?_append (id : NodeId) :
    (sheet.append parent kind span).kind? id =
      if id = sheet.size then some kind else sheet.kind? id := by
  rw [kind?, node?_append, Option.map_map]
  by_cases last : id = sheet.size
  · rw [if_pos last, if_pos last]
    rfl
  · rw [if_neg last, if_neg last]
    rfl

theorem parent?_append (id : NodeId) :
    (sheet.append parent kind span).parent? id =
      if id = sheet.size then some parent else sheet.parent? id := by
  rw [parent?, node?_append, Option.bind_map]
  by_cases last : id = sheet.size
  · rw [if_pos last, if_pos last]
    rfl
  · rw [if_neg last, if_neg last]
    rfl

variable {parent}

theorem children_append (within : parent < sheet.size) (id : NodeId) :
    (sheet.append parent kind span).children id =
      sheet.children id ++ if id = parent then [sheet.size] else [] := by
  rw [children, node?_append, children]
  by_cases last : id = sheet.size
  · have none_ : sheet.node? id = none := node?_eq_none_iff.2 (Nat.le_of_eq last.symm)
    rw [if_pos last, none_]
    rfl
  · rw [if_neg last]
    cases found : sheet.node? id with
    | none =>
        have outside : id ≠ parent := by
          intro same
          rw [node?_eq_none_iff, same] at found
          exact Nat.not_lt.2 found within
        rw [if_neg outside]
        rfl
    | some node => rfl

end Append

/-! ## Another place -/

/-- The style sheet with another place of the text of a node. -/
def changeSpan (sheet : Stylesheet) (changed : NodeId) (change : Span → Span) : Stylesheet :=
  { sheet with
    nodes := sheet.nodes.modify changed fun node => { node with span := change node.span } }

section ChangeSpan

variable (sheet : Stylesheet) (changed : NodeId) (change : Span → Span)

@[simp] theorem size_changeSpan : (sheet.changeSpan changed change).size = sheet.size := by
  simp [changeSpan, size]

theorem node?_changeSpan (id : NodeId) :
    (sheet.changeSpan changed change).node? id =
      (sheet.node? id).map fun node =>
        { node with span := if id = changed then change node.span else node.span } := by
  by_cases here : id = changed
  · simp [changeSpan, node?, Array.getElem?_modify, ← here]
  · simp [changeSpan, node?, Array.getElem?_modify, here, Ne.symm here]

@[simp] theorem kind?_changeSpan (id : NodeId) :
    (sheet.changeSpan changed change).kind? id = sheet.kind? id := by
  rw [kind?, node?_changeSpan, Option.map_map]
  rfl

@[simp] theorem parent?_changeSpan (id : NodeId) :
    (sheet.changeSpan changed change).parent? id = sheet.parent? id := by
  rw [parent?, node?_changeSpan, Option.bind_map]
  rfl

@[simp] theorem children_changeSpan (id : NodeId) :
    (sheet.changeSpan changed change).children id = sheet.children id := by
  rw [children, node?_changeSpan, children]
  cases sheet.node? id with
  | none => rfl
  | some node => rfl

end ChangeSpan

/-! ## Parents and children -/

/-- What the nodes say of their parents and of their children agrees. -/
structure IsLinked (sheet : Stylesheet) : Prop where
  kind_root : sheet.kind? root = some .root
  parent_lt {id parent : NodeId} (below : sheet.parent? id = some parent) :
    parent < id ∧ id < sheet.size
  exists_parent {id : NodeId} (notRoot : id ≠ root) (within : id < sheet.size) :
    ∃ parent, sheet.parent? id = some parent
  count_children (parent id : NodeId) :
    (sheet.children parent).count id = if sheet.parent? id = some parent then 1 else 0

namespace IsLinked

theorem empty (source : List Char) : IsLinked (empty source) where
  kind_root := rfl
  parent_lt {id parent} below := by
    cases id with
    | zero => cases below
    | succ id => cases below
  exists_parent {id} notRoot within := absurd (Nat.lt_one_iff.1 within) notRoot
  count_children parent id := by
    have none_ : (Stylesheet.empty source).parent? id = none := by
      cases id with
      | zero => rfl
      | succ id => rfl
    have childless : (Stylesheet.empty source).children parent = [] := by
      cases parent with
      | zero => rfl
      | succ parent => rfl
    rw [none_, childless]
    rfl

theorem append (linked : IsLinked sheet) {parent : NodeId} (within : parent < sheet.size)
    (kind : Kind) (span : Span) : IsLinked (sheet.append parent kind span) where
  kind_root := by
    have first : root ≠ sheet.size := Nat.ne_of_lt (Nat.lt_of_le_of_lt (Nat.zero_le _) within)
    rw [kind?_append, if_neg first, linked.kind_root]
  parent_lt {id above} below := by
    rw [parent?_append] at below
    rw [size_append]
    split at below
    · rename_i last
      cases below
      exact ⟨last ▸ within, last ▸ Nat.lt_succ_self _⟩
    · obtain ⟨before, inside⟩ := linked.parent_lt below
      exact ⟨before, Nat.lt_succ_of_lt inside⟩
  exists_parent {id} notRoot inside := by
    rw [size_append] at inside
    rw [parent?_append]
    split
    · exact ⟨parent, rfl⟩
    · rename_i earlier
      exact linked.exists_parent notRoot (Nat.lt_of_le_of_ne (Nat.le_of_lt_succ inside) earlier)
  count_children above id := by
    rw [children_append _ _ _ within, parent?_append, List.count_append, linked.count_children]
    by_cases last : id = sheet.size
    · have orphan : sheet.parent? id = none := by
        rw [parent?, node?_eq_none_iff.2 (Nat.le_of_eq last.symm), Option.bind_none]
      rw [orphan, if_pos last]
      by_cases adopts : above = parent
      · simp [adopts, last]
      · simp [adopts, Ne.symm adopts]
    · have other : (if above = parent then [sheet.size] else []).count id = 0 := by
        split
        · exact List.count_eq_zero.2 (by simpa using last)
        · rfl
      rw [other, if_neg last, Nat.add_zero]

theorem changeSpan (linked : IsLinked sheet) (changed : NodeId) (change : Span → Span) :
    IsLinked (sheet.changeSpan changed change) where
  kind_root := by rw [kind?_changeSpan, linked.kind_root]
  parent_lt below := by
    rw [parent?_changeSpan] at below
    rw [size_changeSpan]
    exact linked.parent_lt below
  exists_parent notRoot within := by
    rw [size_changeSpan] at within
    rw [parent?_changeSpan]
    exact linked.exists_parent notRoot within
  count_children parent id := by
    rw [children_changeSpan, parent?_changeSpan, linked.count_children]

theorem mem_children_iff (linked : IsLinked sheet) {parent id : NodeId} :
    id ∈ sheet.children parent ↔ sheet.parent? id = some parent := by
  rw [← List.count_pos_iff, linked.count_children]
  split <;> simp [*]

theorem nodup_children (linked : IsLinked sheet) (parent : NodeId) :
    (sheet.children parent).Nodup := by
  rw [List.nodup_iff_count]
  intro id
  rw [linked.count_children]
  split
  · exact Nat.le_refl 1
  · exact Nat.zero_le 1

end IsLinked

/-- The style sheets that come about by adding nodes below nodes that are there and by changing the
places of nodes. -/
inductive Grown : Stylesheet → Prop
  | empty (source : List Char) : Grown (empty source)
  | append {sheet : Stylesheet} {parent : NodeId} (grown : Grown sheet)
      (within : parent < sheet.size) (kind : Kind) (span : Span) :
      Grown (sheet.append parent kind span)
  | changeSpan {sheet : Stylesheet} (grown : Grown sheet) (changed : NodeId)
      (change : Span → Span) : Grown (sheet.changeSpan changed change)

theorem Grown.setStop (grown : Grown sheet) (id : NodeId) (stop : Nat) :
    Grown (sheet.setStop id stop) :=
  grown.changeSpan id fun span => ⟨span.start, stop⟩

theorem Grown.isLinked (grown : Grown sheet) : IsLinked sheet := by
  induction grown with
  | empty source => exact .empty source
  | append _ within kind span inductionHypothesis =>
      exact inductionHypothesis.append within kind span
  | changeSpan _ changed change inductionHypothesis =>
      exact inductionHypothesis.changeSpan changed change

/-! ## Forests -/

mutual

private theorem grown_appendItem {sheet : Stylesheet} {parent : NodeId} (grown : Grown sheet)
    (within : parent < sheet.size) : (item : Item) →
    Grown (appendItem sheet parent item) ∧ sheet.size < (appendItem sheet parent item).size
  | ⟨kind, span, items⟩ => by
    have size := sheet.size_append parent kind span
    have own : sheet.size < (sheet.append parent kind span).size := by
      rw [size]
      exact Nat.lt_succ_self _
    obtain ⟨inside, larger⟩ := grown_appendItems (grown.append within kind span) own items
    exact ⟨inside, Nat.lt_of_lt_of_le own larger⟩

private theorem grown_appendItems {sheet : Stylesheet} {parent : NodeId} (grown : Grown sheet)
    (within : parent < sheet.size) : (items : List Item) →
    Grown (appendItems sheet parent items) ∧ sheet.size ≤ (appendItems sheet parent items).size
  | [] => ⟨grown, Nat.le_refl _⟩
  | item :: items => by
    obtain ⟨first, larger⟩ := grown_appendItem grown within item
    obtain ⟨later, largest⟩ := grown_appendItems first (Nat.lt_trans within larger) items
    exact ⟨later, Nat.le_trans (Nat.le_of_lt larger) largest⟩

end

/-- So the style sheet of every forest has grown, that of every text among them. -/
theorem grown_ofItems (source : List Char) (items : List Item) : Grown (ofItems source items) :=
  (grown_appendItems (.empty source) Nat.one_pos items).1

/-! ## Nodes above a node -/

/-- The node `above` is the parent of a node, or stands above the parent. -/
inductive IsAbove (sheet : Stylesheet) (above : NodeId) : NodeId → Prop
  | parent {id : NodeId} (below : sheet.parent? id = some above) : IsAbove sheet above id
  | further {id parent : NodeId} (below : sheet.parent? id = some parent)
      (higher : IsAbove sheet above parent) : IsAbove sheet above id

theorem IsLinked.lt_of_isAbove (linked : IsLinked sheet) {above id : NodeId}
    (isAbove : IsAbove sheet above id) : above < id := by
  induction isAbove with
  | parent below => exact (linked.parent_lt below).1
  | further below _ inductionHypothesis =>
      exact Nat.lt_trans inductionHypothesis (linked.parent_lt below).1

end CssLint.Stylesheet
