import CssLint.Proofs.Sheet.Numbered
import CssLint.Rule.Effective
import Mathlib.Data.List.Forall2

/-!
# The rules of a forest

The style rules of a forest in the order of the text, each with what is around it
and with whether its block holds other blocks.  A style sheet that was made of the
forest has these rules, and its walks up and down the tree agree with them.
-/

namespace CssLint

open Sheet Text

namespace Sheet

/-- What stands above the nodes inside a node of the given kind; nothing stands above those inside
the root. -/
def enclosing (kind : Kind) (above : List Kind) : List Kind :=
  match kind with
  | .root => []
  | kind => kind :: above

def Kind.isBlock : Kind → Bool
  | .rule _ => true
  | .atRule _ => true
  | _ => false

/-- A style rule of a forest: what its enclosing nodes are from the nearest on, where it begins, and
whether its block holds rules or at-rules. -/
structure Occurrence where
  above : List Kind
  style : StyleRule
  start : Nat
  holdsBlocks : Bool

mutual

def Item.occurrences (above : List Kind) : Item → List Occurrence
  | ⟨kind, span, items⟩ =>
    (match kind with
      | .rule style => [⟨above, style, span.start, items.any fun item => item.kind.isBlock⟩]
      | _ => []) ++ occurrencesIn (enclosing kind above) items

/-- The style rules of a forest inside the given nodes. -/
def occurrencesIn (above : List Kind) : List Item → List Occurrence
  | [] => []
  | item :: items => item.occurrences above ++ occurrencesIn above items

end

theorem occurrencesIn_append (above : List Kind) (left right : List Item) :
    occurrencesIn above (left ++ right) =
      occurrencesIn above left ++ occurrencesIn above right := by
  induction left with
  | nil => rfl
  | cons item left inductionHypothesis =>
      simp only [List.cons_append, occurrencesIn, inductionHypothesis, List.append_assoc]

/-- Whether a rule for key frames is the nearest of the enclosing nodes. -/
def inKeyframes : List Kind → Bool
  | .atRule header :: _ => alike (withoutVendor header.name) "keyframes".toList
  | _ => false

end Sheet

namespace Stylesheet

variable {sheet : Stylesheet}

/-! ## Forests in a style sheet -/

/-- The style sheet has the items below `parent`, where the first has the number `next`. -/
def Holds (sheet : Stylesheet) (parent next : NodeId) (items : List Item) : Prop :=
  ∀ index, index < countItems items →
    sheet.node? (next + index) = (nodesOf parent next items)[index]?

theorem holds_ofItems (source : List Char) (items : List Item) :
    Holds (ofItems source items) root 1 items := by
  intro index within
  rw [node?, ← Array.getElem?_toList, nodes_ofItems, Nat.add_comm, List.getElem?_cons_succ]

theorem Holds.node {parent next : NodeId} {kind : Kind} {span : Span} {inside items : List Item}
    (holds : Holds sheet parent next (⟨kind, span, inside⟩ :: items)) :
    sheet.node? next = some ⟨kind, some parent, numbers (next + 1) inside, span⟩ := by
  have first := holds 0 (by
    rw [countItems, Item.count]
    omega)
  rw [Nat.add_zero] at first
  rw [first]
  rfl

theorem Holds.inside {parent next : NodeId} {kind : Kind} {span : Span} {inside items : List Item}
    (holds : Holds sheet parent next (⟨kind, span, inside⟩ :: items)) :
    Holds sheet next (next + 1) inside := by
  intro index within
  have later := holds (1 + index) (by
    rw [countItems, Item.count]
    omega)
  have length : index < (nodesOf next (next + 1) inside).length := by rwa [length_nodesOf]
  rw [← Nat.add_assoc] at later
  rw [later, nodesOf, Item.nodes, List.cons_append, Nat.add_comm 1 index,
    List.getElem?_cons_succ, List.getElem?_append_left length]

theorem Holds.tail {parent next : NodeId} {item : Item} {items : List Item}
    (holds : Holds sheet parent next (item :: items)) :
    Holds sheet parent (next + item.count) items := by
  intro index within
  have later := holds (item.count + index) (by
    rw [countItems]
    omega)
  rw [← Nat.add_assoc] at later
  rw [later, nodesOf, List.getElem?_append_right (by
    rw [item.length_nodes]
    omega), item.length_nodes, Nat.add_sub_cancel_left]

theorem Holds.kinds {parent next : NodeId} {items : List Item}
    (holds : Holds sheet parent next items) :
    (numbers next items).map sheet.kind? = items.map fun item => some item.kind := by
  induction items generalizing next with
  | nil => rfl
  | cons item items inductionHypothesis =>
      obtain ⟨kind, span, inside⟩ := item
      rw [numbers, List.map_cons, List.map_cons, inductionHypothesis holds.tail, kind?, holds.node]
      rfl

/-! ## The walk down -/

mutual

private theorem descendants_item {parent next : NodeId} (above : parent < next) : (item : Item) →
    {items : List Item} → Holds sheet parent next (item :: items) →
    (if parent < next ∧ next < sheet.size then next :: sheet.descendants next else [next]) =
      List.range' next item.count
  | ⟨kind, span, inside⟩, items, holds => by
    have within : next < sheet.size := by
      have node := holds.node
      exact (Array.getElem?_eq_some_iff.1 node).1
    have below := descendants_items (Nat.lt_succ_self next) inside holds.inside
    have children : sheet.children next = numbers (next + 1) inside := by
      rw [children, holds.node]
      rfl
    rw [if_pos ⟨above, within⟩, descendants, children]
    simp only [dite_eq_ite]
    rw [below, Item.count, Nat.add_comm 1, List.range'_succ]

private theorem descendants_items {parent next : NodeId} (above : parent < next) :
    (items : List Item) → Holds sheet parent next items →
    ((numbers next items).flatMap fun child =>
      if parent < child ∧ child < sheet.size then child :: sheet.descendants child else [child]) =
      List.range' next (countItems items)
  | [], _ => rfl
  | item :: items, holds => by
    have first := descendants_item above item holds
    have later := descendants_items (Nat.lt_of_lt_of_le above (Nat.le_add_right next item.count))
      items holds.tail
    rw [numbers, List.flatMap_cons, first, later, countItems, List.range'_append_1]

end

/-- The nodes below the root come in the order of their numbers. -/
theorem descendants_ofItems (source : List Char) (items : List Item) :
    (ofItems source items).descendants root = List.range' 1 (countItems items) := by
  have node : (ofItems source items).node? root =
      some ⟨.root, none, numbers 1 items, ⟨0, byteCount source⟩⟩ := by
    rw [node?, ← Array.getElem?_toList, nodes_ofItems]
    rfl
  have below := descendants_items (show root < 1 from Nat.one_pos) items
    (holds_ofItems source items)
  rw [descendants, children, node]
  simpa only [dite_eq_ite, Option.elim_some] using below

/-! ## The walk up -/

/-- The kinds of `parent` and of the nodes around it, as the nodes below it find them. -/
structure Encloses (sheet : Stylesheet) (parent : NodeId) (above : List Kind) : Prop where
  kind : ∃ kind outer, sheet.kind? parent = some kind ∧ above = enclosing kind outer
  walk : ∀ id limit, sheet.parent? id = some parent → parent < limit →
    sheet.ancestorsWithin limit id = above

private theorem encloses_root {source : List Char} {items : List Item} :
    Encloses (ofItems source items) root [] := by
  have kind : (ofItems source items).kind? root = some .root := by
    rw [kind?, node?, ← Array.getElem?_toList, nodes_ofItems]
    rfl
  refine ⟨⟨.root, [], kind, rfl⟩, fun id limit parent positive => ?_⟩
  cases limit with
  | zero => rfl
  | succ limit =>
      rw [ancestorsWithin, parent]
      simp only [kind]

/-- No rule stands around a node that stands directly in the style sheet. -/
theorem ancestors_of_parent?_root {source : List Char} {items : List Item} {id : NodeId}
    (top : (ofItems source items).parent? id = some root) :
    (ofItems source items).ancestors id = [] := by
  rw [ancestors]
  cases (ofItems source items).size with
  | zero => rfl
  | succ limit => exact encloses_root.walk id _ top (Nat.succ_pos limit)

private theorem Encloses.inside {parent next : NodeId} {above : List Kind}
    (encloses : Encloses sheet parent above) (before : parent < next) {kind : Kind}
    {children : List NodeId} {span : Span}
    (node : sheet.node? next = some ⟨kind, some parent, children, span⟩) :
    Encloses sheet next (enclosing kind above) := by
  have kind_ : sheet.kind? next = some kind := by
    rw [kind?, node]
    rfl
  have parent_ : sheet.parent? next = some parent := by
    rw [parent?, node]
    rfl
  refine ⟨⟨kind, above, kind_, rfl⟩, fun id limit below within => ?_⟩
  cases limit with
  | zero => exact absurd within (Nat.not_lt_zero next)
  | succ limit =>
      have outer := encloses.walk next limit parent_
        (Nat.lt_of_lt_of_le before (Nat.le_of_lt_succ within))
      rw [ancestorsWithin, below]
      simp only [kind_]
      cases kind with
      | root => rfl
      | rule style => simp only [outer, enclosing]
      | atRule header => simp only [outer, enclosing]
      | declaration declaration => simp only [outer, enclosing]

/-! ## Rules -/

/-- What the style sheet says about the node is what the forest says about the rule. -/
structure Describes (sheet : Stylesheet) (id : NodeId) (occurrence : Occurrence) : Prop where
  rule : sheet.rule? id = some occurrence.style
  start : (sheet.node? id).map (fun node => node.span.start) = some occurrence.start
  blocks : Rule.holdsBlocks sheet id = occurrence.holdsBlocks
  above : sheet.ancestors id = occurrence.above
  keyframe : sheet.isKeyframe id = inKeyframes occurrence.above

private theorem isKeyframe_eq {parent id : NodeId} {above : List Kind}
    (encloses : Encloses sheet parent above) (below : sheet.parent? id = some parent) :
    sheet.isKeyframe id = inKeyframes above := by
  obtain ⟨kind, outer, kind_, rfl⟩ := encloses.kind
  rw [isKeyframe, below, Option.bind_some, atRule?, kind_]
  cases kind <;> rfl

private theorem holdsBlocks_eq {next : NodeId} {kind : Kind} {parent : Option NodeId}
    {span : Span} {inside : List Item} (holds : Holds sheet next (next + 1) inside)
    (node : sheet.node? next = some ⟨kind, parent, numbers (next + 1) inside, span⟩) :
    Rule.holdsBlocks sheet next = inside.any fun item => item.kind.isBlock := by
  have children_ : sheet.children next = numbers (next + 1) inside := by
    rw [children, node]
    rfl
  have look : ∀ id, ((sheet.rule? id).isSome || (sheet.atRule? id).isSome) =
      (sheet.kind? id).any Kind.isBlock := by
    intro id
    rw [rule?, atRule?]
    cases sheet.kind? id with
    | none => rfl
    | some kind => cases kind <;> rfl
  have kinds := congrArg (fun kinds => kinds.any fun kind => kind.any Kind.isBlock) holds.kinds
  simp only [List.any_map] at kinds
  rw [Rule.holdsBlocks, children_]
  simp only [look]
  exact kinds

mutual

private theorem rules_item {parent next : NodeId} {above : List Kind}
    (encloses : Encloses sheet parent above) (before : parent < next) : (item : Item) →
    {items : List Item} → Holds sheet parent next (item :: items) →
    List.Forall₂ (fun entry occurrence => Describes sheet entry.1 occurrence)
      ((List.range' next item.count).filterMap fun id => (sheet.rule? id).map (id, ·))
      (item.occurrences above)
  | ⟨kind, span, inside⟩, items, holds => by
    have node := holds.node
    have encloses_ := encloses.inside before node
    have below := rules_items encloses_ (Nat.lt_succ_self next) inside holds.inside
    have kind_ : sheet.kind? next = some kind := by
      rw [kind?, node]
      rfl
    have range : List.range' next (Item.count ⟨kind, span, inside⟩) =
        next :: List.range' (next + 1) (countItems inside) := by
      rw [Item.count, Nat.add_comm, List.range'_succ]
    cases kind with
    | rule style =>
        have rule_ : sheet.rule? next = some style := by
          rw [rule?, kind_]
        have parent_ : sheet.parent? next = some parent := by
          rw [parent?, node]
          rfl
        have size : parent < sheet.size :=
          Nat.lt_trans before (Array.getElem?_eq_some_iff.1 node).1
        have describes : Describes sheet next
            ⟨above, style, span.start, inside.any fun item => item.kind.isBlock⟩ := by
          refine ⟨rule_, ?_, holdsBlocks_eq holds.inside node,
            encloses.walk next sheet.size parent_ size, isKeyframe_eq encloses parent_⟩
          rw [node]
          rfl
        rw [range, List.filterMap_cons, rule_]
        exact .cons describes below
    | root =>
        have rule_ : sheet.rule? next = none := by rw [rule?, kind_]
        rw [range, List.filterMap_cons, rule_]
        exact below
    | atRule header =>
        have rule_ : sheet.rule? next = none := by rw [rule?, kind_]
        rw [range, List.filterMap_cons, rule_]
        exact below
    | declaration declaration =>
        have rule_ : sheet.rule? next = none := by rw [rule?, kind_]
        rw [range, List.filterMap_cons, rule_]
        exact below

private theorem rules_items {parent next : NodeId} {above : List Kind}
    (encloses : Encloses sheet parent above) (before : parent < next) : (items : List Item) →
    Holds sheet parent next items →
    List.Forall₂ (fun entry occurrence => Describes sheet entry.1 occurrence)
      ((List.range' next (countItems items)).filterMap fun id => (sheet.rule? id).map (id, ·))
      (occurrencesIn above items)
  | [], _ => .nil
  | item :: items, holds => by
    have first := rules_item encloses before item holds
    have later := rules_items encloses
      (Nat.lt_of_lt_of_le before (Nat.le_add_right next item.count)) items holds.tail
    rw [countItems, ← List.range'_append_1, List.filterMap_append, occurrencesIn]
    exact List.rel_append first later

end

/-- The style rules of a style sheet are those of its forest. -/
theorem rules_ofItems (source : List Char) (items : List Item) :
    List.Forall₂ (fun entry occurrence => Describes (ofItems source items) entry.1 occurrence)
      (ofItems source items).rules (occurrencesIn [] items) := by
  rw [rules, descendants_ofItems]
  exact rules_items encloses_root Nat.one_pos items (holds_ofItems source items)

end Stylesheet

end CssLint
