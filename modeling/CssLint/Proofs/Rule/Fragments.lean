import CssLint.Proofs.Selector.ChangeItems
import CssLint.Proofs.Selector.Measures
import CssLint.Proofs.Selector.Shape
import Mathlib.Data.List.Forall2

/-!
# Fragments of violations

A violation quotes an entry of the selector or of a list inside it, so its fragment is a
part of the selector.  A change of the selector that keeps its
combinators keeps the violations, and quotes what it makes of their fragments.
-/

namespace CssLint.Rule

open Selector Text

/-! ## What violations quote -/

theorem mem_violations_of_mem_below {limit : Binary64} {node : Node} {violation : Violation}
    (member : violation ∈ violationsBelow limit [node]) : violation ∈ violations limit node := by
  rw [violationsBelow, violationsBelow, List.append_nil] at member
  split at member
  · exact member
  · cases member

/-- The violations inside the nodes quote parts of the text. -/
def Quotes (text : List Char) (nodes : List Node) : Prop :=
  ∀ limit, ∀ violation ∈ violationsBelow limit nodes, violation.fragment <:+: text

theorem Quotes.mono {text outer : List Char} {nodes : List Node} (quotes : Quotes text nodes)
    (inside : text <:+: outer) : Quotes outer nodes :=
  fun limit violation member => (quotes limit violation member).trans inside

theorem Quotes.nil (text : List Char) : Quotes text [] := by
  intro limit violation member
  cases member

theorem Quotes.append {text : List Char} {left right : List Node} (first : Quotes text left)
    (second : Quotes text right) : Quotes text (left ++ right) := by
  intro limit violation member
  rw [violationsBelow_append] at member
  rcases List.mem_append.1 member with inLeft | inRight
  · exact first limit violation inLeft
  · exact second limit violation inRight

/-- What is not entered quotes nothing. -/
theorem Quotes.of_not_isEntered {node : Node} (outside : isEntered node = false)
    (text : List Char) : Quotes text [node] := by
  intro limit violation member
  rw [violationsBelow_of_not_isEntered outside] at member
  cases member

/-- A list in parentheses quotes only what its entries quote. -/
theorem Quotes.pseudo {text : List Char} {entries : List Node} (quotes : Quotes text entries)
    (name written : List Char) : Quotes text [⟨.pseudo name, written, entries⟩] := by
  intro limit violation member
  have inside := mem_violations_of_mem_below member
  rw [violations] at inside
  simp only [isMeasured, Bool.false_and, Bool.false_eq_true, if_false, List.append_nil] at inside
  exact quotes limit violation inside

theorem Quotes.entry {text written : List Char} {nodes : List Node} (quotes : Quotes text nodes)
    (inside : written <:+: text) : Quotes text [⟨.selector, written, nodes⟩] := by
  intro limit violation member
  have found := mem_violations_of_mem_below member
  rw [violations] at found
  rcases List.mem_append.1 found with below | own
  · exact quotes limit violation below
  · split at own
    · rw [List.mem_singleton.1 own]
      exact inside
    · cases own

/-! ## Accepted selectors -/

section Levels

/-! The induction is on the levels, as for everything that an accepted selector has. -/

variable {levels : Nat}
  (deeper : ∀ lower, levels = lower + 1 → ∀ {text rest : List Char} {entries : List Node},
    ListAt (argumentReader lower) true text entries rest → rest <:+ text ∧ Quotes text entries)

include deeper

private theorem quotes_simple {text rest : List Char} {node : Node}
    (simple : SimpleAt (argumentReader levels) text node rest) :
    rest <:+ text ∧ Quotes text [node] := by
  cases simple with
  | @leaf kind written _ simple split_ =>
      refine ⟨⟨written, split_.symm⟩, ?_⟩
      cases kind with
      | pseudo name => exact .pseudo (.nil text) name written
      | root => cases simple
      | selector => cases simple
      | _ => exact .of_not_isEntered rfl text
  | @list reader mark name blanks argument rest entries reads _ _ _ read split_ =>
      obtain ⟨lower, rfl, list⟩ := listAt_of_argumentReader reads read
      obtain ⟨suffix, quotes⟩ := deeper lower rfl list
      have inside : argument <:+ text := by
        rw [split_]
        exact ⟨mark ++ name ++ '(' :: blanks, by simp⟩
      exact ⟨((List.suffix_cons _ rest).trans suffix).trans inside,
        (quotes.mono inside.isInfix).pseudo _ _⟩

private theorem quotes_items {nested spaced : Bool} {last : Last} {text rest : List Char}
    {nodes : List Node}
    (items : ItemsAt (argumentReader levels) nested last spaced text nodes rest) :
    rest <:+ text ∧ Quotes text nodes := by
  have descendant : ∀ text, Quotes text [combinatorNode .descendant] :=
    fun text => .of_not_isEntered rfl text
  induction items with
  | stop => exact ⟨List.suffix_refl _, .nil _⟩
  | @blank _ _ c text _ _ _ _ inductionHypothesis =>
      obtain ⟨suffix, quotes⟩ := inductionHypothesis
      exact ⟨suffix.trans (List.suffix_cons c text), quotes.mono (List.suffix_cons c text).isInfix⟩
  | @comment _ _ written text _ _ _ inductionHypothesis =>
      obtain ⟨suffix, quotes⟩ := inductionHypothesis
      have ahead := List.suffix_append written text
      have comment : Quotes (written ++ text) [Node.leaf .comment written] :=
        .of_not_isEntered rfl _
      exact ⟨suffix.trans ahead, comment.append (quotes.mono ahead.isInfix)⟩
  | @combinator _ _ combinator text _ _ _ _ _ inductionHypothesis =>
      obtain ⟨suffix, quotes⟩ := inductionHypothesis
      have ahead := List.suffix_append combinator.symbol text
      have own : Quotes (combinator.symbol ++ text) [combinatorNode combinator] :=
        .of_not_isEntered rfl _
      exact ⟨suffix.trans ahead, own.append (quotes.mono ahead.isInfix)⟩
  | @simple _ _ text behind _ node _ simple _ inductionHypothesis =>
      obtain ⟨ahead, own⟩ := quotes_simple deeper simple
      obtain ⟨suffix, quotes⟩ := inductionHypothesis
      refine ⟨suffix.trans ahead, .append ?_ (quotes.mono ahead.isInfix)⟩
      split
      · exact (descendant text).append own
      · exact own

private theorem quotes_entry {nested : Bool} {text rest : List Char} {entry : Node}
    (read : EntryAt (argumentReader levels) nested text entry rest) :
    rest <:+ text ∧ Quotes text [entry] := by
  obtain ⟨_, items⟩ := read
  rename_i blanks start nodes _
  obtain ⟨suffix, quotes⟩ := quotes_items deeper items
  have ahead := List.suffix_append blanks start
  have inside : trim (before start rest) <:+: start := by
    obtain ⟨front, rfl⟩ := suffix
    rw [before_append]
    exact (trim_isInfix front).trans (List.prefix_append front _).isInfix
  exact ⟨suffix.trans ahead,
    .entry (quotes.mono ahead.isInfix) (inside.trans ahead.isInfix)⟩

private theorem quotes_list {nested : Bool} {text rest : List Char} {entries : List Node}
    (list : ListAt (argumentReader levels) nested text entries rest) :
    rest <:+ text ∧ Quotes text entries := by
  induction list with
  | last first _ => exact quotes_entry deeper first
  | cons first _ inductionHypothesis =>
      obtain ⟨suffix, own⟩ := quotes_entry deeper first
      obtain ⟨suffixLater, quotes⟩ := inductionHypothesis
      have ahead := (List.suffix_cons _ _).trans suffix
      exact ⟨suffixLater.trans ahead, own.append (quotes.mono ahead.isInfix)⟩

end Levels

/-- The root itself is not counted. -/
theorem violations_root_eq {text : List Char} {root : Node} (accepted : Node.ofText text = .ok root)
    (limit : Binary64) : violations limit root = violationsBelow limit root.children := by
  obtain ⟨entries, _, rfl, -⟩ := listAt_of_ofText accepted
  rw [violations]
  simp only [isMeasured, Bool.false_and, Bool.false_eq_true, if_false, List.append_nil]

/-- The fragments of an accepted selector are parts of it. -/
theorem fragment_isInfix {text : List Char} {root : Node} (accepted : Node.ofText text = .ok root)
    {limit : Binary64} {violation : Violation} (member : violation ∈ violations limit root) :
    violation.fragment <:+: text := by
  rw [violations_root_eq accepted] at member
  obtain ⟨entries, rest, rfl, list⟩ := listAt_of_ofText accepted
  obtain ⟨-, quotes⟩ := ListAt.byLevels
    (motive := fun _ text entries rest => rest <:+ text ∧ Quotes text entries)
    (fun _ deeper => quotes_list deeper) maxNesting list
  exact quotes limit violation member

/-! ## Changed selectors -/

section Change

variable {change : Change} {limit : Binary64}

theorem isEntered_mapTexts (node : Node) :
    isEntered (node.mapTexts change.expand) = isEntered node := by
  obtain ⟨kind, text, children⟩ := node
  rw [Node.mapTexts_mk]
  cases kind with
  | pseudo name =>
      have negation : alike (change.expand name) [':', 'n', 'o', 't'] =
          alike name [':', 'n', 'o', 't'] := change.alike_expand (by decide) name
      rw [isEntered, Node.isNegation, Kind.mapTexts, isEntered, Node.isNegation]
      simp only [negation]
      rfl
  | _ => rfl

theorem compoundCount_map (nodes : List Node) :
    compoundCount (nodes.map (Node.mapTexts change.expand)) = compoundCount nodes := by
  have same : Node.isCombinator ∘ Node.mapTexts change.expand = Node.isCombinator := by
    funext node
    obtain ⟨kind, text, children⟩ := node
    rw [Function.comp_apply, Node.mapTexts_mk]
    cases kind <;> rfl
  rw [compoundCount, List.countP_map, same, compoundCount]

def Violation.mapFragment (change : List Char → List Char) (violation : Violation) : Violation :=
  ⟨change violation.fragment, violation.count⟩

mutual

theorem violations_mapTexts : (node : Node) →
    violations limit (node.mapTexts change.expand) =
      (violations limit node).map (Violation.mapFragment change.expand)
  | ⟨kind, text, children⟩ => by
    have measured : isMeasured (kind.mapTexts change.expand) = isMeasured kind := by
      cases kind <;> rfl
    have below := violationsBelow_map children
    rw [Node.mapTexts_mk, violations, measured, compoundCount_map, below, violations,
      List.map_append]
    split <;> rfl

theorem violationsBelow_map : (nodes : List Node) →
    violationsBelow limit (nodes.map (Node.mapTexts change.expand)) =
      (violationsBelow limit nodes).map (Violation.mapFragment change.expand)
  | [] => rfl
  | node :: nodes => by
    have first := violations_mapTexts node
    have later := violationsBelow_map nodes
    rw [List.map_cons, violationsBelow, isEntered_mapTexts, first, later, violationsBelow,
      List.map_append]
    split <;> rfl

end

/-- Comments at the end of an entry count for nothing. -/
theorem violationsBelow_comments {nodes : List Node}
    (comments : ∀ node ∈ nodes, node.isComment = true) : violationsBelow limit nodes = [] := by
  induction nodes with
  | nil => rfl
  | cons node nodes inductionHypothesis =>
      obtain ⟨first, later⟩ := List.forall_mem_cons.1 comments
      obtain ⟨kind, text, children⟩ := node
      obtain rfl : kind = .comment := eq_of_beq first
      rw [violationsBelow, inductionHypothesis later]
      rfl

theorem compoundCount_append_comments (nodes : List Node) {more : List Node}
    (comments : ∀ node ∈ more, node.isComment = true) :
    compoundCount (nodes ++ more) = compoundCount nodes := by
  have none : more.countP Node.isCombinator = 0 := by
    refine List.countP_eq_zero.2 fun node member => ?_
    have comment := comments node member
    obtain ⟨kind, text, children⟩ := node
    obtain rfl : kind = .comment := eq_of_beq comment
    exact Bool.false_ne_true
  rw [compoundCount, List.countP_append, none, Nat.add_zero, compoundCount]

/-- A tail that adds nothing but comments to a compound selector. -/
def Extends (change : Change) : Prop :=
  ∀ spaced, ∃ more,
    readItems (argumentReader maxNesting) false .compound spaced change.tail = .ok (more, []) ∧
      ∀ node ∈ more, node.isComment = true

/-- The violations of a changed selector are those of the selector; without a tail their fragments
are the changed fragments. -/
theorem violations_apply {text : List Char} (extends_ : Extends change)
    (spares : change.Spares text)
    (settled : ∀ fault, Node.ofText text = .error fault →
      change.Quiet ∧ (change.tail = [] ∨ fault.isComment = false)) :
    match Node.ofText text with
    | .error _ => (Node.ofText (change.apply text)).isOk = false
    | .ok root => ∃ changed, Node.ofText (change.apply text) = .ok changed ∧ ∀ limit,
        List.Forall₂ (fun violation other => change.tail = [] →
          other.fragment = change.expand violation.fragment) (violations limit root)
          (violations limit changed) := by
  have follows := ofText_apply spares
  cases read : Node.ofText text with
  | error fault =>
      rw [read] at follows
      exact follows (settled fault read).1
        ((settled fault read).2.imp_left Change.endsNoComment_of_nil)
  | ok root =>
      rw [read] at follows
      obtain ⟨front, last, spaced, children, ends⟩ := follows
      obtain ⟨more, tail, comments⟩ := extends_ spaced
      obtain ⟨changed, written, accepted, ofTail, changedChildren⟩ := ends more tail
      refine ⟨changed, accepted, fun limit => ?_⟩
      have isEntry : last.kind = .selector := by
        refine (wellShaped_of_ofText read).2.2.1 last ?_
        rw [children]
        exact List.mem_append_right front List.mem_cons_self
      have kept : ∀ found : List Violation,
          List.Forall₂ (fun violation other => change.tail = [] →
            other.fragment = change.expand violation.fragment) found
            (found.map (Violation.mapFragment change.expand)) := by
        intro found
        rw [List.forall₂_map_right_iff]
        exact List.forall₂_same.2 fun _ _ _ => rfl
      rw [violations_root_eq read, violations_root_eq accepted, children, changedChildren,
        violationsBelow_append, violationsBelow_append, violationsBelow_map]
      refine List.rel_append (kept _) ?_
      obtain ⟨kind, text_, inside⟩ := last
      obtain rfl : kind = .selector := isEntry
      have entered : ∀ {written : List Char} {nodes : List Node},
          violationsBelow limit [⟨.selector, written, nodes⟩] =
            violationsBelow limit nodes ++
              if limit.isExceededBy (compoundCount nodes) then [⟨written, compoundCount nodes⟩]
              else [] := by
        intro written nodes
        rw [violationsBelow, violationsBelow, List.append_nil, violations]
        rfl
      rw [entered, entered, violationsBelow_append, violationsBelow_map,
        violationsBelow_comments comments, List.append_nil,
        compoundCount_append_comments _ comments, compoundCount_map]
      refine List.rel_append (kept _) ?_
      split
      · exact .cons (fun none => ofTail (by simp [none])) .nil
      · exact .nil

end Change

end CssLint.Rule
