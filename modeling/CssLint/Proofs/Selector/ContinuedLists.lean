import CssLint.Proofs.Selector.Continued

/-!
# Selector lists in front of more text

The items of an entry, entries and lists are read in front of a tail as they were
read alone.  The lists in parentheses may then stand one level further inside, as
long as no more of them stand inside each other than can be read there.  So the
reader of arguments reads every accepted selector that is not too deep.
-/

namespace CssLint.Selector

open Text CssLint.Name
open Written (EndsEntry readItems_end)

variable {tail text rest : List Char}

/-! ## Comments and combinators -/

section Items

variable (ends : EndsEntry true tail)

include ends

theorem behind?_continued {word : List Char} (other : ',' ∉ word ∧ ')' ∉ word)
    (found : behind? word text = some rest) :
    behind? word (text ++ tail) = some (rest ++ tail) := by
  induction text with
  | nil =>
      cases word with
      | nil =>
          cases found
          cases tail <;> rfl
      | cons => cases found
  | cons c text inductionHypothesis =>
      have here := after?_continued ends other (c :: text)
      rw [List.cons_append] at here ⊢
      rw [behind?, Option.or_eq_some_iff] at found
      rw [behind?, here]
      rcases found with found | ⟨notHere, later⟩
      · rw [found]
        rfl
      · rw [notHere, inductionHypothesis later]
        rfl

theorem commentEnd?_continued {c : Char} (closes : commentEnd? c text ≠ some none) :
    commentEnd? c (text ++ tail) = (commentEnd? c text).map (Option.map (· ++ tail)) := by
  have here := after?_continued ends (show ',' ∉ ['/', '*'] ∧ ')' ∉ ['/', '*'] by decide)
    (c :: text)
  rw [commentEnd?] at closes ⊢
  rw [commentEnd?, ← List.cons_append, here]
  cases begins : after? ['/', '*'] (c :: text) with
  | none => rfl
  | some inside =>
      rw [begins] at closes
      cases closed : behind? ['*', '/'] inside with
      | none => exact absurd (by rw [Option.map_some, closed]) closes
      | some rest =>
          simp only [Option.map_some, closed, behind?_continued ends (by decide) closed]

theorem readCombinator?_continued (c : Char) (text : List Char) :
    readCombinator? c (text ++ tail) =
      (readCombinator? c text).map fun (combinator, rest) => (combinator, rest ++ tail) := by
  unfold readCombinator?
  cases Combinator.ofChar? c with
  | none => rfl
  | some combinator =>
      dsimp only
      split
      · rw [after?_continued ends (by decide)]
        cases after? ['>', '>'] text <;> rfl
      · rfl

end Items

/-! ## Items -/

/-- A backslash alone is nothing. -/
theorem readItems_escape (inner : Option ListReader) (nested : Bool) (last : Last)
    (spaced : Bool) : (readItems inner nested last spaced ['\\']).isOk = false := by
  rw [readItems_cons, if_neg (by simp)]
  rfl

theorem readSimple_close (inner : Option ListReader) (text : List Char) :
    (readSimple inner ')' text).isOk = false := rfl

section Lists

variable {allowed : Node → Prop} {inner inner' : Option ListReader} {nested nested' : Bool}
  (continues : Continues tail allowed inner inner') (wider : nested = true → nested' = true)
  (ends : EndsEntry nested' tail)

include continues wider ends

theorem readItems_continued {last : Last} {spaced : Bool} {nodes : List Node}
    (read : readItems inner nested last spaced text = .ok (nodes, rest))
    (lists : ∀ node ∈ nodes, node.Lists allowed) :
    readItems inner' nested' last spaced (text ++ tail) = .ok (nodes, rest ++ tail) := by
  have ends_ : EndsEntry true tail := ends.imp_right (Or.imp_right fun ends => ⟨rfl, ends.2⟩)
  have goesOn : ∀ {c : Char}, ¬(c = ',' || (nested && c = ')')) = true → c ≠ ')' →
      ¬(c = ',' || (nested' && c = ')')) = true := by
    intro c noStop notClose
    simp only [Bool.or_eq_true, not_or] at noStop
    simp [notClose, noStop.1]
  fun_induction readItems inner nested last spaced text generalizing nodes rest with
  | case1 last spaced =>
      cases last <;> cases read
      exact readItems_end ends spaced
  | case2 last spaced c inside stops =>
      have stops_ : (c = ',' || (nested' && c = ')')) = true := by
        simp only [Bool.or_eq_true, Bool.and_eq_true] at stops ⊢
        exact stops.imp_right (And.imp_left wider)
      cases last <;> cases read
      rw [List.cons_append, readItems_cons, if_pos stops_]
      rfl
  | case3 last spaced c inside noStop blank inductionHypothesis =>
      have notClose := ne_of_isBlank blank (show isBlank ')' = false by decide)
      rw [List.cons_append, readItems_cons, if_neg (goesOn noStop notClose), if_pos blank]
      exact inductionHypothesis read lists
  | case4 => cases read
  | case5 last spaced c inside noStop notBlank behind comment inductionHypothesis =>
      obtain ⟨more, later, rfl⟩ := Reading.prepend_eq_ok_iff.1 read
      have notClose : c ≠ ')' := by
        rintro rfl
        cases comment
      have same := before_continued (suffix_of_commentEnd? comment) tail
      rw [List.cons_append] at same ⊢
      rw [readItems_cons, if_neg (goesOn noStop notClose), if_neg notBlank,
        commentEnd?_continued ends_ (by simp [comment]), comment]
      dsimp only [Option.map_some]
      rw [inductionHypothesis later fun node member => lists node (List.mem_append_right _ member),
        same]
      rfl
  | case6 => cases read
  | case7 last spaced c inside noStop notBlank comment combinator behind combined free
      inductionHypothesis =>
      obtain ⟨more, later, rfl⟩ := Reading.prepend_eq_ok_iff.1 read
      have notClose : c ≠ ')' := by
        rintro rfl
        cases combined
      have later := inductionHypothesis later fun node member =>
        lists node (List.mem_append_right _ member)
      rw [List.cons_append, readItems_cons, if_neg (goesOn noStop notClose), if_neg notBlank,
        commentEnd?_continued ends_ (by simp [comment]), comment,
        readCombinator?_continued ends_, combined]
      dsimp only [Option.map_none, Option.map_some]
      rw [later]
      cases last with
      | combinator other => exact absurd rfl (free other)
      | nothing => rfl
      | compound => rfl
  | case8 => cases read
  | case9 last spaced c inside noStop notBlank comment noCombinator node behind simple
      inductionHypothesis =>
      obtain ⟨more, later, rfl⟩ := Reading.prepend_eq_ok_iff.1 read
      have notClose : c ≠ ')' := by
        rintro rfl
        have fails := readSimple_close inner inside
        rw [simple] at fails
        cases fails
      have complete : behind ≠ ['\\'] := by
        rintro rfl
        have fails := readItems_escape inner nested .compound false
        rw [later] at fails
        cases fails
      have own : node.Lists allowed := by
        refine lists node (List.mem_append_left _ ?_)
        split <;> simp
      rw [List.cons_append, readItems_cons, if_neg (goesOn noStop notClose), if_neg notBlank,
        commentEnd?_continued ends_ (by simp [comment]), comment,
        readCombinator?_continued ends_, noCombinator]
      dsimp only [Option.map_none]
      rw [readSimple_continued ends_ continues simple complete own]
      dsimp only
      rw [inductionHypothesis later fun node member => lists node (List.mem_append_right _ member)]
      rfl

/-- Every child of an entry has a list that is allowed, or none. -/
theorem readEntry_continued {entry : Node}
    (read : readEntry inner nested text = .ok (entry, rest))
    (lists : ∀ node ∈ entry.children, node.Lists allowed) :
    readEntry inner' nested' (text ++ tail) = .ok (entry, rest ++ tail) := by
  have ends_ : EndsEntry true tail := ends.imp_right (Or.imp_right fun ends => ⟨rfl, ends.2⟩)
  rw [readEntry_eq] at read ⊢
  cases items : readItems inner nested .nothing false text with
  | error fault =>
      rw [items] at read
      cases read
  | ok result =>
      obtain ⟨nodes, behind⟩ := result
      rw [items] at read
      cases read
      have left : rest <:+ text.dropWhile isBlank := by
        rw [← readItems_dropWhile] at items
        exact (itemsAt_of_readItems items).suffix continues.leaves
      rw [readItems_continued continues wider ends items lists]
      dsimp only
      rw [dropWhile_continued ends_, before_continued left]

/-- A list is read in front of the tail, and goes on with it where it begins with a comma that
nothing of the text stands in front of. -/
theorem readList_continued {entries : List Node}
    (read : readList inner nested text = .ok (entries, rest))
    (lists : ∀ entry ∈ entries, ∀ node ∈ entry.children, node.Lists allowed) :
    readList inner' nested' (text ++ tail) =
      match after? [','] (rest ++ tail) with
      | none => .ok (entries, rest ++ tail)
      | some more => (readList inner' nested' more).prepend entries := by
  fun_induction readList inner nested text generalizing entries rest with
  | case1 => cases read
  | case2 text entry behind first noComma =>
      cases read
      rewrite [readList_eq, readEntry_continued continues wider ends first
        (lists entry (List.mem_singleton_self entry))]
      rfl
  | case3 text entry behind first more comma inductionHypothesis =>
      obtain ⟨others, later, rfl⟩ := Reading.prepend_eq_ok_iff.1 read
      have own := lists entry List.mem_cons_self
      have joined : behind ++ tail = ',' :: (more ++ tail) := by
        rw [eq_append_of_after? comma]
        rfl
      rw [readList_eq, readEntry_continued continues wider ends first own]
      dsimp only
      rw [joined, after?, if_pos rfl, after?]
      dsimp only
      rw [inductionHypothesis later fun entry member =>
        lists entry (List.mem_cons_of_mem _ member)]
      cases after? [','] (rest ++ tail) with
      | none => rfl
      | some more => exact Written.prepend_prepend _ _ _

end Lists

/-! ## Levels -/

/-- No path from the node has more than `levels` lists inside each other. -/
def Node.NestsWithin (levels : Nat) (node : Node) : Prop :=
  ∀ path, Path node path → path.countP Node.isListing ≤ levels

/-- An entry of a list that is one of `levels` lists at most. -/
def Node.FitsInside (levels : Nat) (entry : Node) : Prop :=
  ∃ lower, levels = lower + 1 ∧ entry.NestsWithin lower

section Levels

variable {levels : Nat} {node : Node}

theorem WellShapedWithin.nestsWithin (shaped : WellShapedWithin levels node) :
    node.NestsWithin levels :=
  fun path down => (shaped path down).1

theorem Node.NestsWithin.child (within : node.NestsWithin levels) {child : Node}
    (member : child ∈ node.children) : child.NestsWithin levels := by
  intro path down
  have below := within _ (.down member down)
  rw [List.countP_cons] at below
  omega

theorem Node.NestsWithin.mono (within : node.NestsWithin levels) {more : Nat}
    (few : levels ≤ more) : node.NestsWithin more :=
  fun path down => (within path down).trans few

/-- Inside a list one level fewer is left. -/
theorem Node.NestsWithin.lists (within : node.NestsWithin levels) :
    node.Lists (Node.FitsInside levels) := by
  intro listing entry member
  have below : ∀ path, Path entry path → path.countP Node.isListing + 1 ≤ levels := by
    intro path down
    have whole := within _ (.down member down)
    rwa [List.countP_cons, if_pos listing] at whole
  have some := below _ .here
  refine ⟨levels - 1, by omega, fun path down => ?_⟩
  have few := below path down
  omega

theorem ListAt.ne_nil {inner : Option ListReader} {nested : Bool} {entries : List Node}
    (list : ListAt inner nested text entries rest) : entries ≠ [] := by
  cases list <;> exact List.cons_ne_nil _ _

/-- Lists in parentheses are read in front of a tail wherever so many levels are left as they need:
the induction is on the levels that they were read with. -/
theorem continues_argumentReader (ends : EndsEntry true tail) (levels levels' : Nat) :
    Continues tail (Node.FitsInside levels') (argumentReader levels) (argumentReader levels') := by
  induction levels generalizing levels' with
  | zero => exact ⟨leavesSuffixes_argumentReader 0, fun _ none => nomatch none⟩
  | succ levels inductionHypothesis =>
      refine ⟨leavesSuffixes_argumentReader (levels + 1), ?_⟩
      rintro reader ⟨⟩ text rest entries read fits
      obtain ⟨entry, others, split_⟩ :=
        List.exists_cons_of_ne_nil (listAt_of_readList read).ne_nil
      obtain ⟨lower, rfl, -⟩ := fits entry (split_ ▸ List.mem_cons_self)
      refine ⟨_, rfl, ?_⟩
      have lists : ∀ entry ∈ entries, ∀ node ∈ entry.children,
          node.Lists (Node.FitsInside lower) := by
        intro entry member node inside
        obtain ⟨lower', same, within⟩ := fits entry member
        cases same
        exact (within.child inside).lists
      exact readList_continued (inductionHypothesis lower) id ends read lists

end Levels

/-! ## Whole texts -/

theorem readList_of_ofText {root : Node} (read : Node.ofText text = .ok root) :
    readList (argumentReader maxNesting) false text = .ok (root.children, []) := by
  unfold Node.ofText at read
  split at read
  · cases read
  · rename_i list
    cases read
    rw [list, (listAt_of_readList list).rest_eq_nil]

/-- An accepted selector is read in front of a tail, inside parentheses or not, where so many
levels are left as it needs. -/
theorem readList_append {root : Node} (read : Node.ofText text = .ok root) {levels : Nat}
    (within : root.NestsWithin levels) {nested : Bool} (ends : EndsEntry nested tail) :
    readList (argumentReader levels) nested (text ++ tail) =
      match after? [','] tail with
      | none => .ok (root.children, tail)
      | some more => (readList (argumentReader levels) nested more).prepend root.children := by
  have ends_ : EndsEntry true tail := ends.imp_right (Or.imp_right fun ends => ⟨rfl, ends.2⟩)
  have outside : false = true → nested = true := fun inside => nomatch inside
  exact readList_continued (continues_argumentReader ends_ maxNesting levels) outside ends
    (readList_of_ofText read) fun entry member node inside =>
      ((within.child member).child inside).lists

/-- A selector for which fewer levels are enough is accepted, and no deeper than these. -/
theorem exists_ofText_of_readList {levels : Nat} (few : levels ≤ maxNesting)
    (isOk : (readList (argumentReader levels) false text).isOk = true) :
    ∃ root, Node.ofText text = .ok root ∧ root.NestsWithin levels := by
  cases read : readList (argumentReader levels) false text with
  | error fault =>
      rw [read] at isOk
      cases isOk
  | ok result =>
      obtain ⟨entries, rest⟩ := result
      have list := listAt_of_readList read
      obtain rfl := list.rest_eq_nil
      obtain ⟨-, shaped⟩ := ListAt.byLevels
        (motive := fun levels _ entries _ => WellShapedEntries levels entries)
        (fun _ deeper => ListAt.within deeper) levels list
      have within : ∀ entry ∈ entries, entry.NestsWithin levels :=
        fun entry member => (shaped entry member).2.nestsWithin
      have ends : EndsEntry true [] := Or.inl rfl
      have same := readList_continued (continues_argumentReader ends levels maxNesting) id
        (Or.inl rfl) read fun entry member node inside =>
          (((within entry member).child inside).mono few).lists
      rw [List.append_nil] at same
      refine ⟨⟨.root, trim text, entries⟩, by rw [Node.ofText, same]; rfl, ?_⟩
      rintro path (_ | ⟨member, down⟩)
      · exact Nat.zero_le _
      · rw [List.countP_cons_of_neg (by simp [Node.isListing])]
        exact within _ member _ down

end CssLint.Selector
