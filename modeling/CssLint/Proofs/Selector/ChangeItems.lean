import CssLint.Proofs.Selector.ChangeRead
import CssLint.Proofs.Selector.Accepted

/-!
# Changed selector lists

The reader of items goes through a changed text as through the text itself, and at
the end goes on with the tail.  So do the readers of entries and of lists, and by
induction on the levels those of the lists in parentheses.
-/

namespace CssLint.Selector

open Text CssLint.Name

variable {change : Change}

/-! ## Items -/

section Items

variable {inner : Option ListReader}

/-- The reader of items at a character. -/
theorem readItems_cons (nested : Bool) (last : Last) (spaced : Bool) (c : Char)
    (text : List Char) :
    readItems inner nested last spaced (c :: text) =
      if c = ',' || (nested && c = ')') then endEntry last (c :: text)
      else if isBlank c then readItems inner nested last true text
      else
        match commentEnd? c text with
        | some none => .error (.unclosed .comment (c :: text))
        | some (some rest) =>
          (readItems inner nested last spaced rest).prepend
            [Node.leaf .comment (before (c :: text) rest)]
        | none =>
          match readCombinator? c text with
          | some (combinator, rest) =>
            match last with
            | .combinator _ => .error (.doubleCombinator combinator.symbol)
            | _ =>
              (readItems inner nested (.combinator combinator) false rest).prepend
                [combinatorNode combinator]
          | none =>
            match readSimple inner c text with
            | .error fault => .error fault
            | .ok (node, rest) =>
              (readItems inner nested .compound false rest).prepend
                (if last = .compound && spaced then [combinatorNode .descendant, node]
                else [node]) := by
  rw [readItems.eq_def]
  dsimp only
  split
  · rfl
  split
  · rfl
  split
  · rename_i comment
    rw [comment]
  · rename_i comment
    rw [comment]
  · rename_i comment
    rw [comment]
    dsimp only
    split
    · rename_i combined
      rewrite [combined]
      cases last <;> rfl
    · rename_i combined
      rw [combined]
      dsimp only
      split
      · rename_i simple
        rw [simple]
      · rename_i simple
        rw [simple]

/-- The items of an entry are followed up to what stops it; where nothing does, the reader goes on
with the tail. -/
def Change.FollowsItems (change : Change) (inner : Option ListReader) (nested : Bool)
    (original changed : Reading (List Node)) : Prop :=
  match original with
  | .ok (nodes, []) => ∃ spaced, changed =
      (readItems inner nested .compound spaced change.tail).prepend
        (nodes.map (Node.mapTexts change.expand))
  | .ok (nodes, c :: rest) =>
      changed = .ok (nodes.map (Node.mapTexts change.expand), change.apply (c :: rest)) ∧
        change.Spares (c :: rest)
  | .error fault => change.Quiet → (change.EndsNoComment ∨ fault.isComment = false) →
      changed.isOk = false

theorem Change.FollowsItems.prepend {nested : Bool} {original changed : Reading (List Node)}
    (follows : change.FollowsItems inner nested original changed) (front : List Node) :
    change.FollowsItems inner nested (original.prepend front)
      (changed.prepend (front.map (Node.mapTexts change.expand))) := by
  cases original with
  | error fault =>
      intro quiet comment
      have fails := follows quiet comment
      cases changed with
      | error _ => rfl
      | ok _ => cases fails
  | ok result =>
      obtain ⟨nodes, rest⟩ := result
      cases rest with
      | nil =>
          obtain ⟨spaced, rfl⟩ := follows
          refine ⟨spaced, ?_⟩
          rw [Written.prepend_prepend, List.map_append]
      | cons c rest =>
          obtain ⟨rfl, spares⟩ := follows
          refine ⟨?_, spares⟩
          rw [List.map_append]
          rfl

theorem combinatorNode_mapTexts (combinator : Combinator) :
    (combinatorNode combinator).mapTexts change.expand = combinatorNode combinator := by
  have plain : '\n' ∉ combinator.symbol := by cases combinator <;> decide
  rw [combinatorNode, Node.leaf, Node.mapTexts_mk, change.expand_of_not_mem plain]
  rfl

/-! ## Comments -/

theorem commentEnd?_apply {c : Char} {text : List Char} (noFeed : c ≠ '\n')
    (closes : change.EndsNoComment ∨ commentEnd? c text ≠ some none) :
    commentEnd? c (change.apply text) = (commentEnd? c text).map (Option.map change.apply) := by
  have here : after? ['/', '*'] (c :: change.apply text) =
      (after? ['/', '*'] (c :: text)).map change.apply := by
    rw [← change.apply_cons noFeed, after?_apply (List.all_iff_forall_prop.1 (by decide))]
  rw [commentEnd?] at closes
  rw [commentEnd?, commentEnd?, here]
  cases begins : after? ['/', '*'] (c :: text) with
  | none => rfl
  | some behind =>
      rw [begins] at closes
      refine congrArg some (behind?_apply (List.all_iff_forall_prop.1 (by decide)) behind
        (closes.imp_right fun closed => ?_))
      exact Option.isSome_iff_ne_none.2 fun none => closed (by rw [Option.map_some, none])

theorem Change.Spares.commentEnd {c : Char} {text rest : List Char}
    (spares : change.Spares (c :: text)) (comment : commentEnd? c text = some (some rest)) :
    change.Spares rest := by
  rw [commentEnd?, Option.map_eq_some_iff] at comment
  obtain ⟨behind, begins, closed⟩ := comment
  rw [eq_append_of_after? begins] at spares
  exact ((spares.behind (by decide)).behind (by decide)).comment closed

/-! ## Combinators -/

theorem readCombinator?_apply (c : Char) (text : List Char) :
    readCombinator? c (change.apply text) =
      (readCombinator? c text).map fun (combinator, rest) => (combinator, change.apply rest) := by
  unfold readCombinator?
  cases Combinator.ofChar? c with
  | none => rfl
  | some combinator =>
      dsimp only
      split
      · rw [after?_apply (List.all_iff_forall_prop.1 (by decide))]
        cases after? ['>', '>'] text <;> rfl
      · rfl

theorem Change.Spares.combinator {c : Char} {text rest : List Char} {combinator : Combinator}
    (spares : change.Spares (c :: text))
    (combined : readCombinator? c text = some (combinator, rest)) : change.Spares rest := by
  rw [(eq_append_of_readCombinator? combined).2] at spares
  exact .after (by cases combinator <;> decide) spares

variable (inside : ∀ reader, inner = some reader → reader.Follows change)

include inside

theorem readItems_apply {nested : Bool} {last : Last} {spaced : Bool} {text : List Char}
    (spares : change.Spares text) :
    change.FollowsItems inner nested (readItems inner nested last spaced text)
      (readItems inner nested last spaced (change.apply text)) := by
  fun_induction readItems inner nested last spaced text with
  | case1 last spaced =>
      cases last with
      | compound => exact ⟨spaced, (Written.prepend_nil _).symm⟩
      | nothing =>
          intro quiet _
          obtain ⟨more, ends⟩ := quiet.ends inner nested .nothing spaced
          rw [change.apply_nil, ends]
          rfl
      | combinator combinator =>
          intro quiet _
          obtain ⟨more, ends⟩ := quiet.ends inner nested (.combinator combinator) spaced
          rw [change.apply_nil, ends]
          rfl
  | case2 last spaced c behind stops =>
      have noFeed : c ≠ '\n' := by
        rintro rfl
        simp at stops
      rw [change.apply_cons noFeed, readItems_cons, if_pos stops]
      cases last with
      | compound => exact ⟨by rw [change.apply_cons noFeed]; rfl, spares⟩
      | nothing => exact fun _ _ => rfl
      | combinator combinator => exact fun _ _ => rfl
  | case3 last spaced c behind noStop blank inductionHypothesis =>
      obtain ⟨first, more, single, -, same⟩ := change.exists_expand_cons c
      have blanks : ∀ d ∈ change.expand [c], isBlank d = true :=
        fun d member => (same isBlank rfl d (single ▸ member)).trans blank
      have later := inductionHypothesis (spares.behind (ne_of_isBlank blank (by decide)))
      rw [← List.singleton_append, change.apply_append, Written.readItems_blanks blanks,
        ← single]
      simpa using later
  | case4 last spaced c behind noStop notBlank comment =>
      intro quiet closes
      have noFeed := ne_feed_of_not_isBlank notBlank
      have none := closes.resolve_right (by simp [Fault.isComment])
      rw [change.apply_cons noFeed, readItems_cons, if_neg noStop, if_neg notBlank,
        commentEnd?_apply noFeed (Or.inl none), comment]
      rfl
  | case5 last spaced c behind noStop notBlank rest comment inductionHypothesis =>
      have noFeed := ne_feed_of_not_isBlank notBlank
      have left := suffix_of_commentEnd? comment
      rw [change.apply_cons noFeed, readItems_cons, if_neg noStop, if_neg notBlank,
        commentEnd?_apply noFeed (Or.inr (by simp [comment])), comment]
      dsimp only [Option.map_some]
      have later := (inductionHypothesis (spares.commentEnd comment)).prepend
        [Node.leaf .comment (before (c :: behind) rest)]
      rw [← change.apply_cons noFeed, before_apply left]
      rw [List.map_singleton, Node.leaf, Node.mapTexts_mk] at later
      exact later
  | case6 spaced c behind noStop notBlank comment combinator rest combined _ =>
      have noFeed := ne_feed_of_not_isBlank notBlank
      rw [change.apply_cons noFeed, readItems_cons, if_neg noStop, if_neg notBlank,
        commentEnd?_apply noFeed (Or.inr (by simp [comment])), comment, readCombinator?_apply,
        combined]
      exact fun _ _ => rfl
  | case7 last spaced c behind noStop notBlank comment combinator rest combined free
      inductionHypothesis =>
      have noFeed := ne_feed_of_not_isBlank notBlank
      have later := (inductionHypothesis (spares.combinator combined)).prepend
        [combinatorNode combinator]
      rw [List.map_singleton, combinatorNode_mapTexts] at later
      rw [change.apply_cons noFeed, readItems_cons, if_neg noStop, if_neg notBlank,
        commentEnd?_apply noFeed (Or.inr (by simp [comment])), comment, readCombinator?_apply,
        combined]
      cases last with
      | combinator other => exact absurd rfl (free other)
      | nothing => exact later
      | compound => exact later
  | case8 last spaced c behind noStop notBlank comment noCombinator fault simple =>
      have noFeed := ne_feed_of_not_isBlank notBlank
      have follows := readSimple_apply inside notBlank spares
      rw [simple] at follows
      intro quiet closes
      have fails := follows quiet closes
      rw [change.apply_cons noFeed, readItems_cons, if_neg noStop, if_neg notBlank,
        commentEnd?_apply noFeed (Or.inr (by simp [comment])), comment, readCombinator?_apply,
        noCombinator]
      dsimp only [Option.map_none]
      cases changed : readSimple inner c (change.apply behind) with
      | error _ => rfl
      | ok _ =>
          rw [changed] at fails
          cases fails
  | case9 last spaced c behind noStop notBlank comment noCombinator node rest simple
      inductionHypothesis =>
      have noFeed := ne_feed_of_not_isBlank notBlank
      have follows := readSimple_apply inside notBlank spares
      rw [simple] at follows
      have later := (inductionHypothesis follows.2).prepend
        (if last = .compound && spaced then [combinatorNode .descendant, node] else [node])
      rw [change.apply_cons noFeed, readItems_cons, if_neg noStop, if_neg notBlank,
        commentEnd?_apply noFeed (Or.inr (by simp [comment])), comment, readCombinator?_apply,
        noCombinator]
      dsimp only [Option.map_none]
      rw [follows.1]
      convert later using 2
      split <;> simp [combinatorNode_mapTexts]

end Items

/-! ## Entries -/

section Entries

variable {inner : Option ListReader} {nested : Bool} {text rest : List Char}

/-- At the beginning of an entry it makes no difference whether blanks stand in front. -/
theorem readItems_nothing (inner : Option ListReader) (nested spaced : Bool) (text : List Char) :
    readItems inner nested .nothing spaced text = readItems inner nested .nothing false text := by
  cases text with
  | nil => rw [readItems, readItems]
  | cons c text =>
      have noLink : ∀ spaced, (decide (Last.nothing = .compound) && spaced) = false := by simp
      rw [readItems_cons, readItems_cons]
      simp only [noLink]
      split
      · rfl
      split
      · rfl
      split
      · rfl
      · rename_i rest comment
        rw [readItems_nothing inner nested spaced rest]
      · rfl
termination_by text.length
decreasing_by exact Nat.lt_succ_of_le (length_le_of_commentEnd? (by assumption))

theorem readItems_dropWhile (inner : Option ListReader) (nested : Bool) (text : List Char) :
    readItems inner nested .nothing false (text.dropWhile isBlank) =
      readItems inner nested .nothing false text := by
  have blank : ∀ c ∈ text.takeWhile isBlank, isBlank c = true :=
    fun c member => List.mem_takeWhile_imp member
  conv => rhs; rw [← List.takeWhile_append_dropWhile (p := isBlank) (l := text)]
  rw [Written.readItems_blanks blank]
  exact (readItems_nothing inner nested _ _).symm

theorem readEntry_eq (inner : Option ListReader) (nested : Bool) (text : List Char) :
    readEntry inner nested text =
      match readItems inner nested .nothing false text with
      | .error fault => .error fault
      | .ok (nodes, rest) =>
        .ok (⟨.selector, trim (before (text.dropWhile isBlank) rest), nodes⟩, rest) := by
  rewrite [readEntry, readItems_dropWhile]
  cases readItems inner nested .nothing false text <;> rfl

/-- An entry is followed up to what stops it; where nothing does, it may go on in the tail. -/
def Change.FollowsEntry (change : Change) (inner : Option ListReader) (nested : Bool)
    (original changed : Reading Node) : Prop :=
  match original with
  | .ok (entry, []) => ∃ spaced, ∀ more final,
      readItems inner nested .compound spaced change.tail = .ok (more, final) →
      ∃ written, ((∀ c ∈ change.tail, isBlank c = true) → written = change.expand entry.text) ∧
        changed = .ok (⟨.selector, written,
          entry.children.map (Node.mapTexts change.expand) ++ more⟩, final)
  | .ok (entry, c :: rest) =>
      changed = .ok (entry.mapTexts change.expand, change.apply (c :: rest)) ∧
        change.Spares (c :: rest)
  | .error fault => change.Quiet → (change.EndsNoComment ∨ fault.isComment = false) →
      changed.isOk = false

variable (inside : ∀ reader, inner = some reader → reader.Follows change)

include inside

theorem readEntry_apply (spares : change.Spares text) :
    change.FollowsEntry inner nested (readEntry inner nested text)
      (readEntry inner nested (change.apply text)) := by
  rw [readEntry_eq, readEntry_eq]
  have follows : change.FollowsItems inner nested (readItems inner nested .nothing false text)
      (readItems inner nested .nothing false (change.apply text)) := readItems_apply inside spares
  cases read : readItems inner nested .nothing false text with
  | error fault =>
      rw [read] at follows
      intro quiet closes
      have fails := follows quiet closes
      cases changed : readItems inner nested .nothing false (change.apply text) with
      | error _ => rfl
      | ok _ =>
          rw [changed] at fails
          cases fails
  | ok result =>
      obtain ⟨nodes, rest⟩ := result
      rw [read] at follows
      cases rest with
      | nil =>
          obtain ⟨spaced, same⟩ := follows
          refine ⟨spaced, fun more final tail => ?_⟩
          rw [same, tail]
          refine ⟨_, fun blank => ?_, rfl⟩
          obtain rfl : final = [] := by
            rw [← List.append_nil change.tail, Written.readItems_blanks blank, readItems] at tail
            cases tail
            rfl
          have whole : ∀ text, before text [] = text := fun text => by
            simpa using before_append text []
          have space : ∀ c ∈ change.tail, isSpace c = true :=
            fun c member => isSpace_of_isBlank (blank c member)
          rw [whole, whole, trim_dropWhile_isBlank, trim_dropWhile_isBlank, Change.apply,
            trim_append_of_isSpace space, change.trim_expand]
      | cons c rest =>
          obtain ⟨same, spared⟩ := follows
          rw [same]
          refine ⟨?_, spared⟩
          have left : c :: rest <:+ text.dropWhile isBlank := by
            rw [← readItems_dropWhile] at read
            exact (itemsAt_of_readItems read).suffix fun reader reads => (inside reader reads).suffix
          have some : text.dropWhile isBlank ≠ [] := by
            intro none
            rw [none, List.suffix_nil] at left
            cases left
          dsimp only
          rw [dropWhile_apply, if_neg some, before_apply left, change.trim_expand,
            Node.mapTexts_mk]
          rfl

end Entries

/-! ## Lists -/

section Lists

variable {inner : Option ListReader} {nested : Bool} {text rest : List Char}

/-- A list is followed up to what stops it; where nothing does, its last entry may go on in the
tail. -/
def Change.FollowsList (change : Change) (inner : Option ListReader) (nested : Bool)
    (original changed : Reading (List Node)) : Prop :=
  match original with
  | .ok (entries, []) => ∃ front last spaced, entries = front ++ [last] ∧ ∀ more,
      readItems inner nested .compound spaced change.tail = .ok (more, []) →
      ∃ written, ((∀ c ∈ change.tail, isBlank c = true) → written = change.expand last.text) ∧
        changed = .ok (front.map (Node.mapTexts change.expand) ++ [⟨.selector, written,
          last.children.map (Node.mapTexts change.expand) ++ more⟩], [])
  | .ok (entries, c :: rest) =>
      changed = .ok (entries.map (Node.mapTexts change.expand), change.apply (c :: rest)) ∧
        change.Spares (c :: rest)
  | .error fault => change.Quiet → (change.EndsNoComment ∨ fault.isComment = false) →
      changed.isOk = false

theorem readList_eq (inner : Option ListReader) (nested : Bool) (text : List Char) :
    readList inner nested text =
      match readEntry inner nested text with
      | .error fault => .error fault
      | .ok (entry, rest) =>
        match after? [','] rest with
        | none => .ok ([entry], rest)
        | some more => (readList inner nested more).prepend [entry] := by
  rw [readList.eq_def]
  split
  · rename_i first
    rw [first]
  · rename_i first
    rw [first]
    dsimp only
    split
    · rename_i comma
      rw [comma]
    · rename_i comma
      rw [comma]

theorem Change.FollowsList.cons {original changed : Reading (List Node)}
    (follows : change.FollowsList inner nested original changed) (first : Node) :
    change.FollowsList inner nested (original.prepend [first])
      (changed.prepend [first.mapTexts change.expand]) := by
  cases original with
  | error fault =>
      intro quiet closes
      have fails := follows quiet closes
      cases changed with
      | error _ => rfl
      | ok _ => cases fails
  | ok result =>
      obtain ⟨entries, rest⟩ := result
      cases rest with
      | nil =>
          obtain ⟨front, last, spaced, rfl, ends⟩ := follows
          refine ⟨first :: front, last, spaced, rfl, fun more tail => ?_⟩
          obtain ⟨written, text_, same⟩ := ends more tail
          exact ⟨written, text_, by rw [same]; rfl⟩
      | cons c rest =>
          obtain ⟨same, spares⟩ := follows
          exact ⟨by rw [same]; rfl, spares⟩

variable (inside : ∀ reader, inner = some reader → reader.Follows change)

include inside

theorem readList_apply (spares : change.Spares text) :
    change.FollowsList inner nested (readList inner nested text)
      (readList inner nested (change.apply text)) := by
  fun_induction readList inner nested text with
  | case1 text fault first =>
      have follows : change.FollowsEntry inner nested (readEntry inner nested text)
        (readEntry inner nested (change.apply text)) := readEntry_apply inside spares
      rw [first] at follows
      intro quiet closes
      have fails := follows quiet closes
      rw [readList_eq]
      cases changed : readEntry inner nested (change.apply text) with
      | error _ => rfl
      | ok _ =>
          rw [changed] at fails
          cases fails
  | case2 text entry rest first noComma =>
      have follows : change.FollowsEntry inner nested (readEntry inner nested text)
        (readEntry inner nested (change.apply text)) := readEntry_apply inside spares
      rw [first] at follows
      cases rest with
      | nil =>
          obtain ⟨spaced, ends⟩ := follows
          refine ⟨[], entry, spaced, rfl, fun more tail => ?_⟩
          obtain ⟨written, text_, same⟩ := ends more [] tail
          exact ⟨written, text_, by rw [readList_eq, same]; rfl⟩
      | cons c rest =>
          obtain ⟨same, spared⟩ := follows
          refine ⟨?_, spared⟩
          rw [readList_eq, same]
          dsimp only
          rw [after?_apply (List.all_iff_forall_prop.1 (by decide)), noComma]
          rfl
  | case3 text entry rest first more comma inductionHypothesis =>
      have follows : change.FollowsEntry inner nested (readEntry inner nested text)
        (readEntry inner nested (change.apply text)) := readEntry_apply inside spares
      obtain rfl := eq_append_of_after? comma
      rw [first] at follows
      obtain ⟨same, spared⟩ := follows
      have later := (inductionHypothesis (spared.behind (by decide))).cons entry
      rw [readList_eq inner nested (change.apply text), same]
      dsimp only
      rw [← List.singleton_append, after?_apply (List.all_iff_forall_prop.1 (by decide))]
      exact later

end Lists

/-- Inside parentheses a list that nothing stops is not closed by a quiet tail. -/
theorem Change.FollowsList.inside {inner : Option ListReader}
    {original changed : Reading (List Node)}
    (follows : change.FollowsList inner true original changed) :
    change.FollowsInside original changed := by
  cases original with
  | error fault => exact follows
  | ok result =>
      obtain ⟨entries, rest⟩ := result
      cases rest with
      | cons c rest => exact follows
      | nil =>
          obtain ⟨front, last, spaced, -, ends⟩ := follows
          intro quiet entries rest same
          obtain ⟨more, tail⟩ := quiet.ends inner true .compound spaced
          obtain ⟨written, -, changed_⟩ := ends (more ++ []) tail
          rw [same] at changed_
          cases changed_
          rfl

/-- The readers of arguments follow every change. -/
theorem follows_argumentReader (change : Change) (levels : Nat) :
    ∀ reader, argumentReader levels = some reader → reader.Follows change := by
  induction levels with
  | zero => rintro reader ⟨⟩
  | succ levels inductionHypothesis =>
      rintro reader ⟨⟩
      exact ⟨fun text spares => (readList_apply inductionHypothesis spares).inside,
        Written.readList_dropWhile _ _, leavesSuffixes_argumentReader (levels + 1) _ rfl⟩

/-! ## Whole texts -/

/-- The children of the tree of a changed text. -/
theorem ofText_apply {text : List Char} (spares : change.Spares text) :
    match Node.ofText text with
    | .ok root => ∃ front last spaced, root.children = front ++ [last] ∧ ∀ more,
        readItems (argumentReader maxNesting) false .compound spaced change.tail =
          .ok (more, []) →
        ∃ changed written, Node.ofText (change.apply text) = .ok changed ∧
          ((∀ c ∈ change.tail, isBlank c = true) → written = change.expand last.text) ∧
          changed.children = front.map (Node.mapTexts change.expand) ++ [⟨.selector, written,
            last.children.map (Node.mapTexts change.expand) ++ more⟩]
    | .error fault => change.Quiet → (change.EndsNoComment ∨ fault.isComment = false) →
        (Node.ofText (change.apply text)).isOk = false := by
  have follows : change.FollowsList (argumentReader maxNesting) false
      (readList (argumentReader maxNesting) false text)
      (readList (argumentReader maxNesting) false (change.apply text)) :=
    readList_apply (follows_argumentReader change maxNesting) spares
  unfold Node.ofText
  cases read : readList (argumentReader maxNesting) false text with
  | error fault =>
      rw [read] at follows
      intro quiet closes
      rw [Fault.locate, Fault.isComment_mapPlace] at closes
      have fails := follows quiet closes
      cases changed : readList (argumentReader maxNesting) false (change.apply text) with
      | error _ => rfl
      | ok _ =>
          rw [changed] at fails
          cases fails
  | ok result =>
      obtain ⟨entries, rest⟩ := result
      obtain rfl := (listAt_of_readList read).rest_eq_nil
      rw [read] at follows
      obtain ⟨front, last, spaced, same, ends⟩ := follows
      refine ⟨front, last, spaced, same, fun more tail => ?_⟩
      obtain ⟨written, text_, changed⟩ := ends more tail
      rw [changed]
      exact ⟨_, written, rfl, text_, rfl⟩

end CssLint.Selector
