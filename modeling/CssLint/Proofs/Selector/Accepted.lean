import CssLint.Proofs.Selector.ReadBack
import CssLint.Proofs.Selector.Suffix

/-!
# What the readers of selectors accept

One relation for each reader says everything that a successful reading can be: a
simple selector with what it took from the text, then the steps of the reader of
items, then entries and lists.  The invariants of accepted selectors are inductions
over these relations and do not look into the readers again.
-/

namespace CssLint.Selector

open Text Written

/-! ## Simple selectors -/

/-- Whether nodes of this kind are parts of compound selectors; the others are lists, entries,
combinators and comments. -/
def Kind.isSimple : Kind → Bool
  | .root => false
  | .selector => false
  | .combinator _ => false
  | .comment => false
  | _ => true

def Node.isSimple (node : Node) : Bool :=
  node.kind.isSimple

def Node.isComment (node : Node) : Bool :=
  node.kind == .comment

/-- A simple selector at the beginning of a text, and what follows it: a node without children, or a
pseudo-class whose list has been read by the inner reader. -/
inductive SimpleAt (inner : Option ListReader) (text : List Char) : Node → List Char → Prop
  | leaf {kind : Kind} {written rest : List Char} (simple : kind.isSimple = true)
      (split : text = written ++ rest) : SimpleAt inner text (Node.leaf kind written) rest
  | list {reader : ListReader} {mark name blanks argument rest : List Char} {entries : List Node}
      (reads : inner = some reader) (colons : ∀ c ∈ mark, c = ':')
      (listed : takesList name = true) (blank : ∀ c ∈ blanks, isBlank c = true)
      (read : reader.read argument = .ok (entries, ')' :: rest))
      (split : text = mark ++ name ++ '(' :: (blanks ++ argument)) :
      SimpleAt inner text ⟨.pseudo (mark ++ name), before text rest, entries⟩ rest

variable {inner : Option ListReader}

theorem append_of_suffix {text rest : List Char} (suffix : rest <:+ text) :
    before text rest ++ rest = text := by
  obtain ⟨front, rfl⟩ := suffix
  rw [before_append]

private theorem SimpleAt.leafBefore {text rest : List Char} {kind : Kind}
    {result : Node × List Char} (simple : kind.isSimple = true) (suffix : rest <:+ text)
    (same : Selector.leafBefore kind text rest = result) :
    SimpleAt inner text result.1 result.2 := by
  cases same
  exact .leaf simple (append_of_suffix suffix).symm

private theorem simpleAt_of_readQualified {start text rest : List Char} {node : Node}
    (inside : text <:+ start) (read : readQualified start text = .ok (node, rest)) :
    SimpleAt inner start node rest := by
  unfold readQualified at read
  split at read
  · rename_i found
    exact .leafBefore rfl ((suffix_of_after? found).trans inside) (Except.ok.inj read)
  · split at read
    · exact .leafBefore rfl ((Name.suffix_drop text).trans inside) (Except.ok.inj read)
    · cases read

private theorem simpleAt_of_readTypeEnd {kind : Kind} {start text rest : List Char} {node : Node}
    (simple : kind.isSimple = true) (inside : text <:+ start)
    (read : readTypeEnd kind start text = .ok (node, rest)) : SimpleAt inner start node rest := by
  unfold readTypeEnd at read
  split at read
  · exact simpleAt_of_readQualified ((List.drop_suffix 1 text).trans inside) read
  · exact .leafBefore simple inside (Except.ok.inj read)

private theorem simpleAt_of_readAttribute {text rest : List Char} {node : Node}
    (read : readAttribute text = .ok (node, rest)) : SimpleAt inner text node rest := by
  unfold readAttribute at read
  split at read
  · cases read
  · rename_i closed
    dsimp only at read
    split at read
    · cases read
      have inside := (suffix_of_attributeEnd closed).trans (List.drop_suffix 1 text)
      exact .leaf rfl (append_of_suffix inside).symm
    · cases read

private theorem simpleAt_of_readArgument {mark name text rest argument : List Char} {node : Node}
    (colons : ∀ c ∈ mark, c = ':') (split_ : text = mark ++ name ++ '(' :: argument)
    {opened : List Char}
    (read : readArgument inner (takesList name) (mark ++ name) text opened argument =
      .ok (node, rest)) :
    SimpleAt inner text node rest := by
  have inside : argument <:+ text := by
    rw [split_]
    exact ⟨mark ++ name ++ ['('], by simp⟩
  unfold readArgument at read
  split at read
  · rename_i listed
    split at read
    · rename_i found
      have ofBlanks : argument.dropWhile isBlank <:+ argument := List.dropWhile_suffix isBlank
      exact .leafBefore rfl (((suffix_of_after? found).trans ofBlanks).trans inside)
        (Except.ok.inj read)
    · split at read
      · cases read
      · split at read
        · cases read
        · rename_i reader _ _ _ readList
          split at read
          · cases read
          · rename_i found
            cases read
            rw [eq_append_of_after? found] at readList
            have blank : ∀ c ∈ argument.takeWhile isBlank, isBlank c = true :=
              fun c member => List.mem_takeWhile_imp member
            refine .list rfl colons listed blank readList ?_
            rw [List.takeWhile_append_dropWhile, split_]
  · split at read
    · cases read
    · rename_i closed
      exact .leafBefore rfl ((suffix_of_parenthesisEnd closed).trans inside) (Except.ok.inj read)

private theorem simpleAt_of_readPseudo {text rest : List Char} {node : Node}
    (begins : ∃ inside, text = ':' :: inside) (read : readPseudo inner text = .ok (node, rest)) :
    SimpleAt inner text node rest := by
  obtain ⟨mark, colons, chosen, marked⟩ : ∃ mark : List Char, (∀ c ∈ mark, c = ':') ∧
      (if (after? [':', ':'] text).isSome then [':', ':'] else [':']) = mark ∧
      mark ++ text.drop mark.length = text := by
    cases double : after? [':', ':'] text with
    | some behind =>
        refine ⟨[':', ':'], by simp, by simp, ?_⟩
        rw [eq_append_of_after? double]
        rfl
    | none =>
        obtain ⟨inside, rfl⟩ := begins
        exact ⟨[':'], by simp, by simp, rfl⟩
  simp only [readPseudo, chosen] at read
  have split_ := append_of_suffix (Name.suffix_drop (text.drop mark.length))
  generalize named : text.drop mark.length = behind at *
  generalize written : before behind (Name.drop behind) = name at *
  generalize Name.drop behind = left at *
  have whole : text = mark ++ name ++ left := by rw [List.append_assoc, split_, marked]
  have same : before text left = mark ++ name := by rw [whole, before_append]
  split at read
  · rw [same] at read
    split at read
    · cases read
      exact .leaf rfl whole
    · rename_i argument found
      have parted : text = mark ++ name ++ '(' :: argument :=
        whole.trans (congrArg (mark ++ name ++ ·) (eq_append_of_after? found))
      exact simpleAt_of_readArgument colons parted read
  · cases read

theorem simpleAt_of_readSimple {c : Char} {inside rest : List Char} {node : Node}
    (read : readSimple inner c inside = .ok (node, rest)) :
    SimpleAt inner (c :: inside) node rest := by
  have ofName := (Name.suffix_drop inside).trans (List.suffix_cons c inside)
  simp only [readSimple] at read
  split at read
  · split at read
    · exact .leafBefore rfl ofName (Except.ok.inj read)
    · cases read
  split at read
  · split at read
    · exact .leafBefore rfl ofName (Except.ok.inj read)
    · cases read
  split at read
  · exact simpleAt_of_readTypeEnd rfl (List.suffix_cons c inside) read
  split at read
  · exact simpleAt_of_readQualified (List.suffix_cons c inside) read
  split at read
  · exact .leafBefore rfl (List.suffix_cons c inside) (Except.ok.inj read)
  split at read
  · exact simpleAt_of_readAttribute read
  split at read
  · rename_i colon
    exact simpleAt_of_readPseudo ⟨inside, by rw [colon]⟩ read
  split at read
  · split at read
    · rename_i closed
      exact .leafBefore rfl ((suffix_of_stringEnd? closed).trans (List.suffix_cons c inside))
        (Except.ok.inj read)
    · cases read
  split at read
  · exact simpleAt_of_readTypeEnd rfl (Name.suffix_drop (c :: inside)) read
  · cases read

/-! ## Items -/

/-- The items of an entry behind what stands `last`, and what follows the entry; `spaced` tells
whether blank characters have been read since then. -/
inductive ItemsAt (inner : Option ListReader) (nested : Bool) :
    Last → Bool → List Char → List Node → List Char → Prop
  | stop {spaced : Bool} {rest : List Char} (ends : EndsEntry nested rest) :
      ItemsAt inner nested .compound spaced rest [] rest
  | blank {last : Last} {spaced : Bool} {c : Char} {text rest : List Char} {nodes : List Node}
      (blank : isBlank c = true) (later : ItemsAt inner nested last true text nodes rest) :
      ItemsAt inner nested last spaced (c :: text) nodes rest
  | comment {last : Last} {spaced : Bool} {written text rest : List Char} {nodes : List Node}
      (later : ItemsAt inner nested last spaced text nodes rest) :
      ItemsAt inner nested last spaced (written ++ text) (Node.leaf .comment written :: nodes) rest
  | combinator {last : Last} {spaced : Bool} {combinator : Combinator} {text rest : List Char}
      {nodes : List Node} (explicit : combinator ≠ .descendant)
      (free : ∀ other, last ≠ .combinator other)
      (later : ItemsAt inner nested (.combinator combinator) false text nodes rest) :
      ItemsAt inner nested last spaced (combinator.symbol ++ text)
        (combinatorNode combinator :: nodes) rest
  | simple {last : Last} {spaced : Bool} {text behind rest : List Char} {node : Node}
      {nodes : List Node} (simple : SimpleAt inner text node behind)
      (later : ItemsAt inner nested .compound false behind nodes rest) :
      ItemsAt inner nested last spaced text
        ((if last = .compound && spaced then [combinatorNode .descendant, node] else [node]) ++
          nodes) rest

private theorem itemsAt_of_endEntry {nested spaced : Bool} {last : Last} {text rest : List Char}
    {nodes : List Node} (ends : EndsEntry nested text)
    (read : endEntry last text = .ok (nodes, rest)) :
    ItemsAt inner nested last spaced text nodes rest := by
  cases last with
  | nothing => cases read
  | combinator combinator => cases read
  | compound =>
      cases read
      exact .stop ends

theorem itemsAt_of_readItems {nested spaced : Bool} {last : Last} {text rest : List Char}
    {nodes : List Node} (read : readItems inner nested last spaced text = .ok (nodes, rest)) :
    ItemsAt inner nested last spaced text nodes rest := by
  fun_induction readItems inner nested last spaced text generalizing nodes rest with
  | case1 last => exact itemsAt_of_endEntry (Or.inl rfl) read
  | case2 last spaced c inside stops =>
      have ends : EndsEntry nested (c :: inside) := by
        simp only [Bool.or_eq_true, Bool.and_eq_true, decide_eq_true_eq] at stops
        rcases stops with rfl | ⟨isNested, rfl⟩
        · exact Or.inr (Or.inl ⟨inside, rfl⟩)
        · exact Or.inr (Or.inr ⟨isNested, inside, rfl⟩)
      exact itemsAt_of_endEntry ends read
  | case3 last spaced c inside _ blank inductionHypothesis =>
      exact .blank blank (inductionHypothesis read)
  | case4 => cases read
  | case5 last spaced c inside _ _ behind comment inductionHypothesis =>
      obtain ⟨more, later, rfl⟩ := Reading.prepend_eq_ok_iff.1 read
      have split_ := append_of_suffix (suffix_of_commentEnd? comment)
      generalize before (c :: inside) behind = written at split_ ⊢
      rw [← split_]
      exact .comment (inductionHypothesis later)
  | case6 => cases read
  | case7 last spaced c inside _ _ _ combinator behind combined free inductionHypothesis =>
      obtain ⟨more, later, rfl⟩ := Reading.prepend_eq_ok_iff.1 read
      obtain ⟨explicit, split_⟩ := eq_append_of_readCombinator? combined
      rw [split_]
      exact .combinator explicit free (inductionHypothesis later)
  | case8 => cases read
  | case9 last spaced c inside _ _ _ _ node behind simple inductionHypothesis =>
      obtain ⟨more, later, rfl⟩ := Reading.prepend_eq_ok_iff.1 read
      exact .simple (simpleAt_of_readSimple simple) (inductionHypothesis later)

theorem ItemsAt.ends {nested spaced : Bool} {last : Last}
    {text rest : List Char} {nodes : List Node}
    (items : ItemsAt inner nested last spaced text nodes rest) : EndsEntry nested rest := by
  induction items with
  | stop ends => exact ends
  | blank _ _ inductionHypothesis => exact inductionHypothesis
  | comment _ inductionHypothesis => exact inductionHypothesis
  | combinator _ _ _ inductionHypothesis => exact inductionHypothesis
  | simple _ _ inductionHypothesis => exact inductionHypothesis

/-! ## Entries and lists -/

/-- An entry behind blank characters, and what follows it. -/
inductive EntryAt (inner : Option ListReader) (nested : Bool) :
    List Char → Node → List Char → Prop
  | mk {blanks start rest : List Char} {nodes : List Node}
      (blank : ∀ c ∈ blanks, isBlank c = true)
      (items : ItemsAt inner nested .nothing false start nodes rest) :
      EntryAt inner nested (blanks ++ start) ⟨.selector, trim (before start rest), nodes⟩ rest

theorem entryAt_of_readEntry {nested : Bool} {text rest : List Char} {entry : Node}
    (read : readEntry inner nested text = .ok (entry, rest)) :
    EntryAt inner nested text entry rest := by
  simp only [readEntry] at read
  split at read
  · cases read
  · rename_i items
    cases read
    have blank : ∀ c ∈ text.takeWhile isBlank, isBlank c = true :=
      fun c member => List.mem_takeWhile_imp member
    have entry := EntryAt.mk blank (itemsAt_of_readItems items)
    rwa [List.takeWhile_append_dropWhile] at entry

/-- The entries of a selector list with commas between them, and what follows the list. -/
inductive ListAt (inner : Option ListReader) (nested : Bool) :
    List Char → List Node → List Char → Prop
  | last {text rest : List Char} {entry : Node} (first : EntryAt inner nested text entry rest)
      (noComma : ∀ more, rest ≠ ',' :: more) : ListAt inner nested text [entry] rest
  | cons {text more rest : List Char} {entry : Node} {entries : List Node}
      (first : EntryAt inner nested text entry (',' :: more))
      (later : ListAt inner nested more entries rest) :
      ListAt inner nested text (entry :: entries) rest

theorem listAt_of_readList {nested : Bool} {text rest : List Char} {entries : List Node}
    (read : readList inner nested text = .ok (entries, rest)) :
    ListAt inner nested text entries rest := by
  fun_induction readList inner nested text generalizing entries rest with
  | case1 => cases read
  | case2 text entry behind first noComma =>
      cases read
      refine .last (entryAt_of_readEntry first) ?_
      rintro more rfl
      simp [after?] at noComma
  | case3 text entry behind first more comma inductionHypothesis =>
      obtain ⟨others, later, rfl⟩ := Reading.prepend_eq_ok_iff.1 read
      have behind_ : behind = ',' :: more := eq_append_of_after? comma
      exact .cons (behind_ ▸ entryAt_of_readEntry first) (inductionHypothesis later)

/-- An inner reader has read a list, and may itself read lists one level further inside. -/
theorem listAt_of_argumentReader {levels : Nat} {reader : ListReader}
    (reads : argumentReader levels = some reader) {text rest : List Char} {entries : List Node}
    (read : reader.read text = .ok (entries, rest)) :
    ∃ lower, levels = lower + 1 ∧ ListAt (argumentReader lower) true text entries rest := by
  cases levels with
  | zero => cases reads
  | succ lower =>
      cases reads
      exact ⟨lower, rfl, listAt_of_readList read⟩

/-- Behind a list outside of parentheses nothing is left. -/
theorem ListAt.rest_eq_nil {text rest : List Char}
    {entries : List Node} (list : ListAt inner false text entries rest) : rest = [] := by
  induction list with
  | last first noComma =>
      obtain ⟨_, items⟩ := first
      rcases items.ends with ended | ⟨more, comma⟩ | ⟨nested, _⟩
      · exact ended
      · exact absurd comma (noComma more)
      · cases nested
  | cons _ _ inductionHypothesis => exact inductionHypothesis

/-- Blank characters may stand in front of a list. -/
theorem ListAt.blanks {nested : Bool} {blanks text rest : List Char} {entries : List Node}
    (blank : ∀ c ∈ blanks, isBlank c = true) (list : ListAt inner nested text entries rest) :
    ListAt inner nested (blanks ++ text) entries rest := by
  have ofEntry : ∀ {entry : Node} {rest : List Char}, EntryAt inner nested text entry rest →
      EntryAt inner nested (blanks ++ text) entry rest := by
    rintro _ rest ⟨own, items⟩
    rw [← List.append_assoc]
    exact .mk (List.forall_mem_append.2 ⟨blank, own⟩) items
  cases list with
  | last first noComma => exact .last (ofEntry first) noComma
  | cons first later => exact .cons (ofEntry first) later

/-! ## What is left -/

/-- The lists that are read inside leave ends of their texts. -/
def LeavesSuffixes (inner : Option ListReader) : Prop :=
  ∀ reader, inner = some reader → ∀ {text rest : List Char} {entries : List Node},
    reader.read text = .ok (entries, rest) → rest <:+ text

section Suffix

variable (leaves : LeavesSuffixes inner)

include leaves

theorem SimpleAt.suffix {text rest : List Char} {node : Node}
    (simple : SimpleAt inner text node rest) : rest <:+ text := by
  cases simple with
  | leaf _ split_ => exact ⟨_, split_.symm⟩
  | list reads _ _ _ read split_ =>
      have ofList := (List.suffix_cons _ _).trans (leaves _ reads read)
      rw [split_]
      exact ((ofList.trans (List.suffix_append _ _)).trans (List.suffix_cons _ _)).trans
        (List.suffix_append _ _)

theorem ItemsAt.suffix {nested spaced : Bool} {last : Last} {text rest : List Char}
    {nodes : List Node} (items : ItemsAt inner nested last spaced text nodes rest) :
    rest <:+ text := by
  induction items with
  | stop => exact List.suffix_refl _
  | blank _ _ inductionHypothesis => exact inductionHypothesis.trans (List.suffix_cons _ _)
  | comment _ inductionHypothesis => exact inductionHypothesis.trans (List.suffix_append _ _)
  | combinator _ _ _ inductionHypothesis =>
      exact inductionHypothesis.trans (List.suffix_append _ _)
  | simple simple _ inductionHypothesis => exact inductionHypothesis.trans (simple.suffix leaves)

theorem ListAt.suffix {nested : Bool} {text rest : List Char} {entries : List Node}
    (list : ListAt inner nested text entries rest) : rest <:+ text := by
  have ofEntry : ∀ {text rest : List Char} {entry : Node},
      EntryAt inner nested text entry rest → rest <:+ text := by
    rintro _ rest _ ⟨_, items⟩
    exact (items.suffix leaves).trans (List.suffix_append _ _)
  induction list with
  | last first _ => exact ofEntry first
  | cons first _ inductionHypothesis =>
      exact (inductionHypothesis.trans (List.suffix_cons _ _)).trans (ofEntry first)

end Suffix

theorem leavesSuffixes_argumentReader (levels : Nat) : LeavesSuffixes (argumentReader levels) := by
  induction levels with
  | zero => exact fun _ none => nomatch none
  | succ levels inductionHypothesis =>
      rintro reader ⟨⟩ text rest entries read
      exact (listAt_of_readList read).suffix inductionHypothesis

/-! ## Induction on the levels -/

/-- What holds of all lists as soon as it holds of the lists one level further inside, by induction
on the levels. -/
theorem ListAt.byLevels {motive : Nat → List Char → List Node → List Char → Prop}
    (step : ∀ levels,
      (∀ lower, levels = lower + 1 → ∀ {text rest : List Char} {entries : List Node},
        ListAt (argumentReader lower) true text entries rest → motive lower text entries rest) →
      ∀ {nested : Bool} {text rest : List Char} {entries : List Node},
        ListAt (argumentReader levels) nested text entries rest → motive levels text entries rest)
    (levels : Nat) {nested : Bool} {text rest : List Char} {entries : List Node}
    (list : ListAt (argumentReader levels) nested text entries rest) :
    motive levels text entries rest := by
  induction levels generalizing nested text rest entries with
  | zero => exact step 0 (fun _ none => absurd none (Nat.succ_ne_zero _).symm) list
  | succ levels inductionHypothesis =>
      refine step (levels + 1) (fun lower same _ _ _ inside => ?_) list
      cases same
      exact inductionHypothesis inside

/-! ## Whole texts -/

/-- A text is accepted as a list outside of parentheses. -/
theorem listAt_of_ofText {text : List Char} {root : Node} (read : Node.ofText text = .ok root) :
    ∃ entries rest, root = ⟨.root, trim text, entries⟩ ∧
      ListAt (argumentReader maxNesting) false text entries rest := by
  unfold Node.ofText at read
  split at read
  · cases read
  · rename_i list
    cases read
    exact ⟨_, _, rfl, listAt_of_readList list⟩

theorem exists_of_isOk {text : List Char} (isOk : (Node.ofText text).isOk = true) :
    ∃ root, Node.ofText text = .ok root := by
  cases accepted : Node.ofText text with
  | error fault =>
      rw [accepted] at isOk
      cases isOk
  | ok root => exact ⟨root, rfl⟩

end CssLint.Selector
