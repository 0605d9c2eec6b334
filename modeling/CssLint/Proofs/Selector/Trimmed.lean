import CssLint.Proofs.Selector.ChangeItems
import CssLint.Proofs.Selector.Shape

/-!
# Trimmed selectors

Blanks around a selector list mean nothing to its grammar, with one exception: an escape
at the end takes the blank behind it.  Trimming knows neither escapes nor that the
grammar has only five blank characters.  Where it takes nothing but such blanks, and
none of an escape, the same tree is read of what it leaves.
-/

namespace CssLint.Selector

open Text

/-- Whether trimming takes nothing but blanks of the text, and none behind an escape that would take
it for itself. -/
def trimsBlanks (text : List Char) : Bool :=
  let behind := text.reverse.takeWhile isSpace
  (text.takeWhile isSpace).all isBlank && behind.all isBlank &&
    (behind.isEmpty || !endsInEscape (trim text))

/-- The children of the tree that is read of the text; none if it is no selector list. -/
def children? (text : List Char) : Option (List Node) :=
  (Node.ofText text).toOption.map Node.children

/-! ## Blanks at the ends -/

section Blanks

variable {text blanks : List Char} (blank : ∀ c ∈ blanks, isBlank c = true)

include blank

/-- Blanks in front of a selector list are passed over. -/
theorem children?_blanks_append : children? (blanks ++ text) = children? text := by
  have same : readList (argumentReader maxNesting) false (blanks ++ text) =
      readList (argumentReader maxNesting) false text := by
    rw [← Written.readList_dropWhile, List.dropWhile_append_of_pos blank,
      Written.readList_dropWhile]
  unfold children? Node.ofText
  rw [same]
  cases readList (argumentReader maxNesting) false text <;> rfl

theorem readItems_blanks_only (inner : Option ListReader) (nested : Bool) (last : Last)
    (spaced : Bool) : readItems inner nested last spaced blanks = endEntry last [] := by
  rw [← List.append_nil blanks, Written.readItems_blanks blank, readItems]

/-- Blanks behind a selector list are passed over, unless an escape takes them. -/
theorem children?_append_blanks (settled : blanks = [] ∨ endsInEscape text = false) :
    children? (text ++ blanks) = children? text := by
  have stops : Stops blanks := fun c first => blank c (List.mem_of_mem_head? first)
  let change := Change.adding blanks stops
  have identity : change.expand = id := funext fun text => change.expand_eq_self rfl text
  have spares : change.Spares text := ⟨settled, Or.inl rfl⟩
  have quiet : change.Quiet := by
    refine ⟨fun c closing member => ?_, fun inner nested last spaced => ⟨[], ?_⟩⟩
    · have ofBlank := blank c member
      have noBlank : ∀ d ∈ ['"', '\'', ')', ']'], isBlank d = false :=
        List.all_iff_forall_prop.1 (by decide)
      rw [noBlank c closing] at ofBlank
      cases ofBlank
    · have ofTail : ∀ c ∈ change.tail, isBlank c = true := blank
      rw [readItems_blanks_only ofTail, Written.prepend_nil]
  have follows := ofText_apply spares
  rw [Change.apply_adding] at follows
  unfold children?
  cases read : Node.ofText text with
  | error fault =>
      rw [read] at follows
      have fails := follows quiet (Or.inl (Change.endsNoComment_of_isBlank blank))
      cases changed : Node.ofText (text ++ blanks) with
      | error _ => rfl
      | ok _ =>
          rw [changed] at fails
          cases fails
  | ok root =>
      rw [read] at follows
      obtain ⟨front, last, spaced, children, ends⟩ := follows
      obtain ⟨changed, written, accepted, same, changedChildren⟩ :=
        ends [] (readItems_blanks_only blank _ _ _ _)
      have isEntry : last.kind = .selector := by
        refine (wellShaped_of_ofText read).2.2.1 last ?_
        rw [children]
        exact List.mem_append_right front List.mem_cons_self
      have unchanged : ∀ nodes : List Node, nodes.map (Node.mapTexts id) = nodes := by
        intro nodes
        rw [funext Node.mapTexts_id]
        exact List.map_id' nodes
      obtain ⟨kind, ownText, inside⟩ := last
      obtain rfl : kind = .selector := isEntry
      rw [identity] at same changedChildren
      rw [accepted]
      simp only [Except.toOption, Option.map_some, changedChildren, children, same blank,
        unchanged, List.append_nil, id_eq]

end Blanks

/-! ## Trimming -/

/-- What trimming takes of such a text are blanks, and an escape at the end of what is left has none
behind it. -/
theorem exists_blanks_of_trimsBlanks {text : List Char} (blanksOnly : trimsBlanks text = true) :
    ∃ early late, text = early ++ (trim text ++ late) ∧ (∀ c ∈ early, isBlank c = true) ∧
      (∀ c ∈ late, isBlank c = true) ∧ (late = [] ∨ endsInEscape (trim text) = false) := by
  obtain ⟨early, late, whole, -, spaceEarly, spaceLate⟩ := exists_trim text
  simp only [trimsBlanks, Bool.and_eq_true, Bool.or_eq_true, Bool.not_eq_true'] at blanksOnly
  obtain ⟨⟨blankEarly, blankLate⟩, settled⟩ := blanksOnly
  have front : text.takeWhile isSpace = early ++ (trim text ++ late).takeWhile isSpace := by
    conv => lhs; rw [whole]
    exact List.takeWhile_append_of_pos spaceEarly
  have spaceReversed : ∀ c ∈ late.reverse, isSpace c = true :=
    fun c member => spaceLate c (List.mem_reverse.1 member)
  have back : text.reverse.takeWhile isSpace =
      late.reverse ++ (early ++ trim text).reverse.takeWhile isSpace := by
    conv => lhs; rw [whole, ← List.append_assoc, List.reverse_append]
    exact List.takeWhile_append_of_pos spaceReversed
  rw [front] at blankEarly
  rw [back] at blankLate settled
  refine ⟨early, late, whole, fun c member => ?_, fun c member => ?_,
    settled.imp_left fun none => ?_⟩
  · exact List.all_eq_true.1 blankEarly c (List.mem_append_left _ member)
  · exact List.all_eq_true.1 blankLate c (List.mem_append_left _ (List.mem_reverse.2 member))
  · have nothing := (List.append_eq_nil_iff.1 (List.isEmpty_iff.1 none)).1
    exact List.reverse_eq_nil_iff.1 nothing

/-- Where trimming takes nothing but blanks, the same is read of the trimmed text. -/
theorem children?_trim {text : List Char} (blanksOnly : trimsBlanks text = true) :
    children? (trim text) = children? text := by
  obtain ⟨early, late, whole, blankEarly, blankLate, settled⟩ :=
    exists_blanks_of_trimsBlanks blanksOnly
  calc
    children? (trim text) = children? (trim text ++ late) :=
      (children?_append_blanks blankLate settled).symm
    _ = children? (early ++ (trim text ++ late)) := (children?_blanks_append blankEarly).symm
    _ = children? text := congrArg children? whole.symm

end CssLint.Selector
