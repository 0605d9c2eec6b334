import CssLint.Proofs.Selector.ChangeItems
import CssLint.Rule.Compound
import CssLint.Selector.Nesting

/-!
# Selectors one behind the other

A selector without the nesting selector is written behind those of the enclosing rule,
with a space in between.  Both keep their compound selectors, and the space is
one descendant combinator, unless an escape at the end of the first selector takes
the space for itself.
-/

namespace CssLint.Selector

open Text

/-! ## What stands behind a compound selector -/

section Linked

variable {inner : Option ListReader} {nested : Bool}

/-- An entry that begins with a compound selector goes on behind another compound selector and a
blank as it does at the beginning, with a descendant combinator in front. -/
theorem readItems_linked {last : Last} (begins : last = .nothing) {spaced : Bool}
    {text rest : List Char} {nodes : List Node}
    (read : readItems inner nested last spaced text = .ok (nodes, rest))
    (simple : (nodes.find? fun node => !node.isComment).any Node.isCombinator = false) :
    ∃ front back, nodes = front ++ back ∧ (∀ node ∈ front, node.isComment = true) ∧
      readItems inner nested .compound true text =
        .ok (front ++ combinatorNode .descendant :: back, rest) := by
  fun_induction readItems inner nested last spaced text generalizing nodes rest with
  | case1 =>
      subst begins
      cases read
  | case2 =>
      subst begins
      cases read
  | case3 last spaced c behind noStop blank inductionHypothesis =>
      rw [readItems_cons, if_neg noStop, if_pos blank]
      exact inductionHypothesis begins read simple
  | case4 => cases read
  | case5 last spaced c behind noStop notBlank closed comment inductionHypothesis =>
      obtain ⟨more, later, rfl⟩ := Reading.prepend_eq_ok_iff.1 read
      obtain ⟨front, back, rfl, comments, linked⟩ := inductionHypothesis begins later simple
      refine ⟨Node.leaf .comment (before (c :: behind) closed) :: front, back, rfl,
        List.forall_mem_cons.2 ⟨rfl, comments⟩, ?_⟩
      rw [readItems_cons, if_neg noStop, if_neg notBlank, comment]
      dsimp only
      rw [linked]
      rfl
  | case6 => cases read
  | case7 last spaced c behind noStop notBlank comment combinator rest combined free _ =>
      obtain ⟨more, later, rfl⟩ := Reading.prepend_eq_ok_iff.1 read
      cases simple
  | case8 => cases read
  | case9 last spaced c behind noStop notBlank comment noCombinator node rest found _ =>
      subst begins
      obtain ⟨more, later, rfl⟩ := Reading.prepend_eq_ok_iff.1 read
      refine ⟨[], node :: more, by simp, by simp, ?_⟩
      rw [readItems_cons, if_neg noStop, if_neg notBlank, comment, noCombinator, found]
      dsimp only
      rw [later]
      rfl

end Linked

/-! ## Single selectors -/

/-- A text that is one entry is read by the reader of items. -/
theorem readItems_of_single {text : List Char} {root entry : Node}
    (accepted : Node.ofText text = .ok root) (single : root.children = [entry]) :
    readItems (argumentReader maxNesting) false .nothing false text =
      .ok (entry.children, []) := by
  unfold Node.ofText at accepted
  split at accepted
  · cases accepted
  · rename_i entries rest list
    cases accepted
    obtain rfl : entries = [entry] := single
    obtain rfl := (listAt_of_readList list).rest_eq_nil
    rw [readList_eq, readEntry_eq] at list
    split at list
    · cases list
    · rename_i first
      split at first
      · cases first
      · rename_i items
        cases first
        split at list
        · cases list
          exact items
        · obtain ⟨others, later, same⟩ := Reading.prepend_eq_ok_iff.1 list
          obtain rfl : others = [] := (List.cons.inj same).2.symm
          cases listAt_of_readList later

/-- A single selector behind another and a space: the children of both with one descendant
combinator between them, so that their compound selectors add up.  The second may not begin with a
combinator, and the first may not end with an escape that would take the space. -/
theorem ofText_joined {front back : List Char} {frontRoot backRoot frontEntry backEntry : Node}
    (acceptedFront : Node.ofText front = .ok frontRoot)
    (singleFront : frontRoot.children = [frontEntry])
    (acceptedBack : Node.ofText back = .ok backRoot)
    (singleBack : backRoot.children = [backEntry])
    (simple : (backEntry.children.find? fun node => !node.isComment).any Node.isCombinator = false)
    (settled : endsInEscape front = false) :
    (containsNesting back = false → resolve [[front]] back = [front ++ ' ' :: back]) ∧
      ∃ root entry, Node.ofText (front ++ ' ' :: back) = .ok root ∧ root.children = [entry] ∧
        entry.children.filter (!·.isComment) =
          frontEntry.children.filter (!·.isComment) ++
            combinatorNode .descendant :: backEntry.children.filter (!·.isComment) ∧
        entry.children.countP Node.isCombinator + 1 =
          (frontEntry.children.countP Node.isCombinator + 1) +
            (backEntry.children.countP Node.isCombinator + 1) := by
  refine ⟨fun plain => by simp [resolve, plain], ?_⟩
  let change : Change := ⟨['\n'], ' ' :: back, Or.inl rfl, by simp [isBlank]⟩
  have identity : change.expand = id := funext fun text => change.expand_eq_self rfl text
  have applied : change.apply front = front ++ ' ' :: back := by
    rw [Change.apply, identity]
    rfl
  have spares : change.Spares front := ⟨Or.inr settled, Or.inl rfl⟩
  have follows := ofText_apply spares
  rw [acceptedFront] at follows
  obtain ⟨others, last, spaced, children, ends⟩ := follows
  obtain ⟨rfl, rfl⟩ : others = [] ∧ last = frontEntry := by
    rw [singleFront] at children
    cases others with
    | nil => exact ⟨rfl, (List.cons.inj children).1.symm⟩
    | cons _ others => simp at children
  obtain ⟨comments, more, parted, areComments, linked⟩ :=
    readItems_linked rfl (readItems_of_single acceptedBack singleBack) simple
  have tail : readItems (argumentReader maxNesting) false .compound spaced change.tail =
      .ok (comments ++ combinatorNode .descendant :: more, []) := by
    rw [← linked]
    exact readItems_cons false .compound spaced ' ' back
  obtain ⟨root, written, accepted, -, joined⟩ := ends _ tail
  rw [applied] at accepted
  rw [identity, List.map_nil, List.nil_append] at joined
  have unchanged : last.children.map (Node.mapTexts id) = last.children := by
    rw [funext Node.mapTexts_id]
    exact List.map_id' _
  have noOthers : comments.filter (!·.isComment) = [] :=
    List.filter_eq_nil_iff.2 fun node member => by simp [areComments node member]
  have isCombinator : (combinatorNode .descendant).isCombinator = true := rfl
  refine ⟨root, _, accepted, joined, ?_, ?_⟩
  · rw [unchanged, parted]
    simp only [List.filter_append, noOthers, List.nil_append]
    rfl
  · rw [unchanged, parted]
    simp only [List.countP_append, List.countP_cons, isCombinator, if_true]
    omega

/-- Whether the text is a single selector that does not begin with a combinator. -/
def isSingle (text : List Char) : Bool :=
  match Node.ofText text with
  | .ok ⟨_, _, [entry]⟩ =>
    !(entry.children.find? fun node => !node.isComment).any Node.isCombinator
  | _ => false

theorem exists_of_isSingle {text : List Char} (single : isSingle text = true) :
    ∃ root entry, Node.ofText text = .ok root ∧ root.children = [entry] ∧
      (entry.children.find? fun node => !node.isComment).any Node.isCombinator = false := by
  unfold isSingle at single
  split at single
  · rename_i entry accepted
    exact ⟨_, entry, accepted, rfl, by simpa using single⟩
  · cases single

/-- An escaped space and a comment at the end of the first selector take no further space. -/
theorem ofText_joined_escapedSpace :
    ∃ frontRoot frontEntry backRoot backEntry root entry : Node,
      Node.ofText ".a\\ /*\\*/".toList = .ok frontRoot ∧ frontRoot.children = [frontEntry] ∧
      Node.ofText "/**/b > c".toList = .ok backRoot ∧ backRoot.children = [backEntry] ∧
      endsInEscape ".a\\ /*\\*/".toList = false ∧
      Node.ofText (".a\\ /*\\*/".toList ++ ' ' :: "/**/b > c".toList) = .ok root ∧
      root.children = [entry] ∧
      entry.children.filter (!·.isComment) =
        frontEntry.children.filter (!·.isComment) ++
          combinatorNode .descendant :: backEntry.children.filter (!·.isComment) ∧
      entry.children.countP Node.isCombinator + 1 =
        (frontEntry.children.countP Node.isCombinator + 1) +
          (backEntry.children.countP Node.isCombinator + 1) := by
  have singleFront : isSingle ".a\\ /*\\*/".toList = true := by decide +kernel
  have singleBack : isSingle "/**/b > c".toList = true := by decide +kernel
  have settled : endsInEscape ".a\\ /*\\*/".toList = false := by decide +kernel
  obtain ⟨frontRoot, frontEntry, acceptedFront, ofFront, -⟩ := exists_of_isSingle singleFront
  obtain ⟨backRoot, backEntry, acceptedBack, ofBack, simple⟩ := exists_of_isSingle singleBack
  obtain ⟨-, root, entry, accepted, single, children, counts⟩ :=
    ofText_joined acceptedFront ofFront acceptedBack ofBack simple settled
  exact ⟨frontRoot, frontEntry, backRoot, backEntry, root, entry, acceptedFront, ofFront,
    acceptedBack, ofBack, settled, accepted, single, children, counts⟩

/-- The numbers of compound selectors of the entries of a text. -/
def entryCounts (text : List Char) : Option (List Nat) :=
  match Node.ofText text with
  | .ok root => some (root.children.map fun entry => entry.children.countP Node.isCombinator + 1)
  | .error _ => none

/-- A hexadecimal escape at the end of the first selector takes the space, so that one compound
selector is left of two. -/
theorem entryCounts_joined_hexEscape :
    isSingle ".\\61".toList = true ∧ isSingle ".b".toList = true ∧
      entryCounts ".\\61".toList = some [1] ∧ entryCounts ".b".toList = some [1] ∧
      resolve [[".\\61".toList]] ".b".toList = [".\\61 .b".toList] ∧
      entryCounts ".\\61 .b".toList = some [1] := by
  decide +kernel

end CssLint.Selector
