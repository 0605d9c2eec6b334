import CssLint.Proofs.Selector.Accepted
import CssLint.Rule.Compound

/-!
# The shape of accepted selectors

In the entry of an accepted selector combinators stand between compound selectors,
one of them at most in front, and only lists have entries inside them.  So the
combinators of an entry, and one more, count its compound selectors; an entry that
begins with a combinator counts the selector that it is relative to as well.

A compound selector is a longest run of children that are no combinators.  Comments
do not divide it: `.a/**/.b` is one compound selector.
-/

namespace CssLint.Selector

open Text Written

/-! ## Marks -/

/-- Whether this is a pseudo-class with the entries of its list inside it. -/
def Node.isListing (node : Node) : Bool :=
  match node.kind with
  | .pseudo _ => !node.children.isEmpty
  | _ => false

/-- Which of the nodes are combinators, with comments left out. -/
def marks (nodes : List Node) : List Bool :=
  (nodes.filter fun node => !node.isComment).map Node.isCombinator

theorem marks_combinator (combinator : Combinator) (nodes : List Node) :
    marks (combinatorNode combinator :: nodes) = true :: marks nodes := rfl

/-- No combinator is left out. -/
theorem countP_marks (nodes : List Node) :
    (marks nodes).countP id = nodes.countP Node.isCombinator := by
  rw [marks, List.countP_map, List.countP_filter]
  refine List.countP_congr fun node _ => ?_
  obtain ⟨kind, text, children⟩ := node
  cases kind <;> simp [Node.isComment, Node.isCombinator]

/-! ## Combinators between compound selectors -/

/-- What combinators do in an entry: they neither stand alone nor meet nor end it. -/
structure Alternates (marks : List Bool) : Prop where
  compound : false ∈ marks
  apart : marks.IsChain fun left right => ¬(left = true ∧ right = true)
  ends : marks.getLast? = some false

/-- How many longest runs without combinators there are. -/
def runs (marks : List Bool) : Nat :=
  (marks.splitOnP id).countP fun run => !run.isEmpty

/-- The compound selectors of an entry, with the one that a combinator in front is relative to. -/
def compounds (nodes : List Node) : Nat :=
  runs (marks nodes) + if (marks nodes).head? = some true then 1 else 0

theorem runs_true (marks : List Bool) : runs (true :: marks) = runs marks := by
  simp [runs, List.splitOnP_cons_eq_if_modifyHead]

theorem runs_false_true (marks : List Bool) : runs (false :: true :: marks) = runs marks + 1 := by
  simp [runs, List.splitOnP_cons_eq_if_modifyHead]

theorem runs_false_false (marks : List Bool) :
    runs (false :: false :: marks) = runs (false :: marks) := by
  obtain ⟨run, others, split_⟩ := List.exists_cons_of_ne_nil (List.splitOnP_ne_nil id marks)
  simp [runs, List.splitOnP_cons_eq_if_modifyHead, split_]

theorem Alternates.singleton : Alternates [false] :=
  ⟨List.mem_singleton_self _, .singleton _, rfl⟩

theorem Alternates.cons {first second : Bool} {marks : List Bool}
    (alternates : Alternates (second :: marks)) (apart : ¬(first = true ∧ second = true)) :
    Alternates (first :: second :: marks) :=
  ⟨List.mem_cons_of_mem _ alternates.compound, List.isChain_cons_cons.2 ⟨apart, alternates.apart⟩,
    List.getLast?_cons_cons.trans alternates.ends⟩

/-- The combinators and one more are as many as the compound selectors, and the one that stands in
front of a leading combinator. -/
theorem Alternates.count {marks : List Bool} (alternates : Alternates marks) :
    marks.countP id + 1 = runs marks + if marks.head? = some true then 1 else 0 := by
  induction marks with
  | nil => cases alternates.compound
  | cons first marks inductionHypothesis =>
      cases marks with
      | nil =>
          obtain rfl : first = false := Option.some.inj alternates.ends
          rfl
      | cons second marks =>
          obtain ⟨apart, chain⟩ := List.isChain_cons_cons.1 alternates.apart
          have ends := List.getLast?_cons_cons.symm.trans alternates.ends
          have later := inductionHypothesis ⟨List.mem_of_getLast? ends, chain, ends⟩
          cases first <;> cases second
          · rw [runs_false_false]
            simpa using later
          · rw [runs_true] at later
            rw [runs_false_true]
            simpa using later
          · rw [runs_true]
            simpa using later
          · exact absurd ⟨rfl, rfl⟩ apart

/-! ## Items -/

/-- What stands last as the mark of the children that have been read. -/
def Last.marks : Last → List Bool
  | .nothing => []
  | .compound => [false]
  | .combinator _ => [true]

variable {inner : Option ListReader}

theorem SimpleAt.marks {text rest : List Char} {node : Node}
    (simple : SimpleAt inner text node rest) (nodes : List Node) :
    marks (node :: nodes) = false :: marks nodes := by
  cases simple with
  | @leaf kind written _ simple _ =>
      cases kind <;> first | rfl | cases simple
  | list => rfl

/-- The items of an entry alternate with what stands in front of them. -/
theorem ItemsAt.alternates {nested spaced : Bool} {last : Last} {text rest : List Char}
    {nodes : List Node} (items : ItemsAt inner nested last spaced text nodes rest) :
    Alternates (last.marks ++ marks nodes) := by
  induction items with
  | stop => exact .singleton
  | blank _ _ inductionHypothesis => exact inductionHypothesis
  | comment _ inductionHypothesis => exact inductionHypothesis
  | @combinator last _ _ _ _ _ _ free _ inductionHypothesis =>
      cases last with
      | nothing => exact inductionHypothesis
      | compound => exact inductionHypothesis.cons (by simp)
      | combinator other => exact absurd rfl (free other)
  | @simple last spaced _ _ _ node nodes simple _ inductionHypothesis =>
      have joined : Alternates (last.marks ++ marks (node :: nodes)) := by
        rw [simple.marks]
        cases last with
        | nothing => exact inductionHypothesis
        | compound => exact inductionHypothesis.cons (by simp)
        | combinator => exact inductionHypothesis.cons (by simp)
      split
      · rename_i spaced
        obtain ⟨rfl, -⟩ : last = .compound ∧ _ := by simpa using spaced
        rw [List.cons_append, List.singleton_append, marks_combinator, simple.marks]
        have combined : Alternates (true :: false :: marks nodes) :=
          inductionHypothesis.cons (by simp)
        exact combined.cons (by simp)
      · exact joined

/-! ## Nodes -/

/-- What an accepted selector has at each of its nodes. -/
structure WellShaped (node : Node) : Prop where
  parents : node.children ≠ [] →
    node.kind = .root ∨ node.kind = .selector ∨ ∃ name, node.kind = .pseudo name
  listing : ∀ name, node.kind = .pseudo name → node.children ≠ [] →
    takesList (name.filter fun c => c != ':') = true ∧
      ∀ child ∈ node.children, child.kind = .selector
  alternates : node.kind = .selector → Alternates (marks node.children)

theorem WellShaped.leaf {kind : Kind} (noEntry : kind ≠ .selector) (text : List Char) :
    WellShaped (Node.leaf kind text) :=
  ⟨fun children => absurd rfl children, fun _ _ children => absurd rfl children,
    fun entry => absurd entry noEntry⟩

/-- A path from a node down to one of the nodes inside it, with both ends. -/
inductive Path : Node → List Node → Prop
  | here {node : Node} : Path node [node]
  | down {node child : Node} {path : List Node} (member : child ∈ node.children)
      (inside : Path child path) : Path node (node :: path)

/-- All nodes on the paths from a node are well-shaped, and no path has more than `levels` lists. -/
def WellShapedWithin (levels : Nat) (node : Node) : Prop :=
  ∀ path, Path node path → path.countP Node.isListing ≤ levels ∧ ∀ inside ∈ path, WellShaped inside

theorem WellShapedWithin.ofChildren {levels : Nat} (below : Nat) {node : Node}
    (shaped : WellShaped node)
    (inside : ∀ child ∈ node.children, WellShapedWithin below child)
    (enough : below + (if node.isListing then 1 else 0) ≤ levels) :
    WellShapedWithin levels node := by
  rintro path (_ | ⟨member, down⟩)
  · refine ⟨?_, fun _ here => List.mem_singleton.1 here ▸ shaped⟩
    rw [List.countP_singleton]
    omega
  · obtain ⟨few, shapes⟩ := inside _ member _ down
    refine ⟨?_, fun _ here => ?_⟩
    · rw [List.countP_cons]
      omega
    · rcases List.mem_cons.1 here with rfl | here
      · exact shaped
      · exact shapes _ here

theorem WellShapedWithin.leaf {kind : Kind} (noEntry : kind ≠ .selector) (levels : Nat)
    (text : List Char) : WellShapedWithin levels (Node.leaf kind text) := by
  refine .ofChildren levels (.leaf noEntry text) (fun _ member => nomatch member) ?_
  cases kind <;> exact Nat.le_refl _

/-! ## Lists -/

/-- The shape of the entries of a list in which at most `levels` lists may stand inside each
other. -/
def WellShapedEntries (levels : Nat) (entries : List Node) : Prop :=
  entries ≠ [] ∧ ∀ entry ∈ entries, entry.kind = .selector ∧ WellShapedWithin levels entry

theorem filter_colons {mark name : List Char} (colons : ∀ c ∈ mark, c = ':')
    (listed : takesList name = true) :
    (mark ++ name).filter (fun c => c != ':') = name := by
  have ofMark : mark.filter (fun c => c != ':') = [] :=
    List.filter_eq_nil_iff.2 fun c member => by simp [colons c member]
  have ofName : name.filter (fun c => c != ':') = name := by
    refine List.filter_eq_self.2 fun c member => ?_
    have part := (⟨name, listed⟩ : ListName).parts c member
    rw [bne_iff_ne]
    rintro rfl
    cases part
  rw [List.filter_append, ofMark, ofName, List.nil_append]

section Levels

/-! The induction is on the levels: the argument of a list is read one level further inside. -/

variable {levels : Nat}
  (deeper : ∀ lower, levels = lower + 1 → ∀ {text rest : List Char} {entries : List Node},
    ListAt (argumentReader lower) true text entries rest → WellShapedEntries lower entries)

include deeper

theorem SimpleAt.within {text rest : List Char} {node : Node}
    (simple : SimpleAt (argumentReader levels) text node rest) : WellShapedWithin levels node := by
  cases simple with
  | leaf simple _ =>
      refine .leaf ?_ levels _
      rintro rfl
      cases simple
  | list reads colons listed _ read _ =>
      obtain ⟨lower, rfl, list⟩ := listAt_of_argumentReader reads read
      obtain ⟨-, shapes⟩ := deeper lower rfl list
      refine .ofChildren lower ⟨?_, ?_, ?_⟩ (fun child member => (shapes child member).2) ?_
      · exact fun _ => Or.inr (Or.inr ⟨_, rfl⟩)
      · rintro _ ⟨rfl⟩ -
        exact ⟨(filter_colons colons listed).symm ▸ listed, fun child member =>
          (shapes child member).1⟩
      · exact fun entry => nomatch entry
      · split <;> omega

theorem ItemsAt.within {nested spaced : Bool} {last : Last} {text rest : List Char}
    {nodes : List Node}
    (items : ItemsAt (argumentReader levels) nested last spaced text nodes rest) :
    ∀ node ∈ nodes, WellShapedWithin levels node := by
  induction items with
  | stop => exact fun _ member => nomatch member
  | blank _ _ inductionHypothesis => exact inductionHypothesis
  | comment _ inductionHypothesis =>
      exact List.forall_mem_cons.2 ⟨.leaf (by simp) levels _, inductionHypothesis⟩
  | combinator _ _ _ inductionHypothesis =>
      exact List.forall_mem_cons.2 ⟨.leaf (by simp) levels _, inductionHypothesis⟩
  | simple simple _ inductionHypothesis =>
      have shaped := simple.within deeper
      refine List.forall_mem_append.2 ⟨?_, inductionHypothesis⟩
      split
      · exact List.forall_mem_cons.2 ⟨.leaf (by simp) levels _, List.forall_mem_singleton.2 shaped⟩
      · exact List.forall_mem_singleton.2 shaped

theorem EntryAt.within {nested : Bool} {text rest : List Char} {entry : Node}
    (read : EntryAt (argumentReader levels) nested text entry rest) :
    entry.kind = .selector ∧ WellShapedWithin levels entry := by
  obtain ⟨_, items⟩ := read
  refine ⟨rfl, .ofChildren levels ⟨?_, ?_, ?_⟩ (items.within deeper) (Nat.le_refl _)⟩
  · exact fun _ => Or.inr (Or.inl rfl)
  · exact fun _ pseudo => nomatch pseudo
  · exact fun _ => items.alternates

theorem ListAt.within {nested : Bool} {text rest : List Char} {entries : List Node}
    (list : ListAt (argumentReader levels) nested text entries rest) :
    WellShapedEntries levels entries := by
  induction list with
  | last first _ => exact ⟨List.cons_ne_nil _ _, List.forall_mem_singleton.2 (first.within deeper)⟩
  | cons first _ inductionHypothesis =>
      exact ⟨List.cons_ne_nil _ _,
        List.forall_mem_cons.2 ⟨first.within deeper, inductionHypothesis.2⟩⟩

end Levels

/-! ## Whole texts -/

theorem wellShaped_of_ofText {text : List Char} {root : Node}
    (accepted : Node.ofText text = .ok root) :
    root.kind = .root ∧ root.children ≠ [] ∧ (∀ child ∈ root.children, child.kind = .selector) ∧
      WellShapedWithin maxNesting root := by
  obtain ⟨entries, rest, rfl, list⟩ := listAt_of_ofText accepted
  obtain ⟨nonempty, shapes⟩ := ListAt.byLevels
    (motive := fun levels _ entries _ => WellShapedEntries levels entries)
    (fun _ deeper => ListAt.within deeper) maxNesting list
  refine ⟨rfl, nonempty, fun child member => (shapes child member).1, ?_⟩
  refine .ofChildren maxNesting ⟨?_, ?_, ?_⟩ (fun child member => (shapes child member).2)
    (Nat.le_refl _)
  · exact fun _ => Or.inl rfl
  · exact fun _ pseudo => nomatch pseudo
  · exact fun entry => nomatch entry

/-- The tree of every accepted selector is well-shaped, with at most `maxNesting` lists inside each
other, and the count of each of its entries is that of the compound selectors, with the one that a
leading combinator is relative to. -/
theorem wellShaped_and_compoundCount {text : List Char} {root : Node}
    (accepted : Node.ofText text = .ok root) :
    root.kind = .root ∧ root.children ≠ [] ∧ (∀ child ∈ root.children, child.kind = .selector) ∧
      ∀ path, Path root path → path.countP Node.isListing ≤ maxNesting ∧ ∀ node ∈ path,
        WellShaped node ∧ (node.kind = .selector →
          node.children.countP Node.isCombinator + 1 = compounds node.children ∧
          Rule.compoundCount node.children = min (compounds node.children) Rule.maxCount) := by
  obtain ⟨isRoot, nonempty, entries, shapes⟩ := wellShaped_of_ofText accepted
  refine ⟨isRoot, nonempty, entries, fun path down => ?_⟩
  obtain ⟨few, shaped⟩ := shapes path down
  refine ⟨few, fun node member => ⟨shaped node member, fun entry => ?_⟩⟩
  have count : node.children.countP Node.isCombinator + 1 = compounds node.children := by
    rw [← countP_marks]
    exact ((shaped node member).alternates entry).count
  exact ⟨count, by rw [Rule.compoundCount, count]⟩

/-- A comment inside a compound selector does not divide it, and the list inside begins with a
combinator. -/
theorem wellShaped_and_compoundCount_relative :
    ∃ root, Node.ofText "a /**/ b/**/.c:has(> d, e f)".toList = .ok root ∧
      root.kind = .root ∧ root.children ≠ [] ∧
      (∀ child ∈ root.children, child.kind = .selector) ∧
      ∀ path, Path root path → path.countP Node.isListing ≤ maxNesting ∧ ∀ node ∈ path,
        WellShaped node ∧ (node.kind = .selector →
          node.children.countP Node.isCombinator + 1 = compounds node.children ∧
          Rule.compoundCount node.children = min (compounds node.children) Rule.maxCount) := by
  have isOk : (Node.ofText "a /**/ b/**/.c:has(> d, e f)".toList).isOk = true := by decide +kernel
  obtain ⟨root, accepted⟩ := exists_of_isOk isOk
  exact ⟨root, accepted, wellShaped_and_compoundCount accepted⟩

end CssLint.Selector
