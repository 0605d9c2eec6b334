import CssLint.Proofs.Selector.Change
import CssLint.Proofs.Selector.Shape
import CssLint.Proofs.Selector.Tiling
import CssLint.Proofs.Selector.WellNested

/-!
# Entries are where the reader finds them

The entries of a selector list come from a scan of its text that knows quotes,
escapes and the depth of brackets; the reader finds its entries by the grammar.  On
an accepted text without comments whose brackets are well nested, both divide
it at the same commas.  Every part that the reader takes is crossed by the scan,
and can at most leave brackets open, never close one that was open before.
-/

namespace CssLint.Selector

open Text Written CssLint.Name Nesting

/-! ## Names -/

section Names

variable {due : List Char}

/-- Characters of a class without commas and delimiters. -/
theorem Crosses.ofClass {property : Char → Bool}
    (others : ((',' :: delimiters).all fun sign => decide (property sign = false)) = true)
    {c : Char} (holds : property c = true) (text : List Char) :
    Crosses (atRest due) (c :: text) (atRest due) text := by
  have other : ∀ sign ∈ ',' :: delimiters, property sign = false :=
    List.all_iff_forall_prop.1 others
  refine .char (fun member => ?_) ?_ text
  · rw [other c (List.mem_cons_of_mem _ member)] at holds
    cases holds
  · rintro rfl
    rw [other ',' List.mem_cons_self] at holds
    cases holds

theorem Crosses.blank {c : Char} (blank : isBlank c = true) (text : List Char) :
    Crosses (atRest due) (c :: text) (atRest due) text :=
  .ofClass (by decide) blank text

theorem Crosses.blanks (text : List Char) :
    Crosses (atRest due) text (atRest due) (text.dropWhile isBlank) := by
  induction text with
  | nil => exact .refl _ _
  | cons c text inductionHypothesis =>
      by_cases blank : isBlank c = true
      · rw [List.dropWhile_cons_of_pos blank]
        exact (Crosses.blank blank text).trans inductionHypothesis
      · rw [List.dropWhile_cons_of_neg blank]
        exact .refl _ _

private theorem Crosses.digits (limit : Nat) (text : List Char) :
    Crosses (atRest due) text (atRest due) (takeAtMost isHexDigit limit text).2 := by
  induction limit generalizing text with
  | zero => exact .refl _ _
  | succ limit inductionHypothesis =>
      cases text with
      | nil => exact .refl _ _
      | cons c text =>
          by_cases digit : isHexDigit c = true
          · simp only [takeAtMost, digit, if_true]
            exact (Crosses.ofClass (by decide) digit text).trans (inductionHypothesis text)
          · simp only [takeAtMost, digit, Bool.false_eq_true, if_false]
            exact .refl _ _

private theorem Crosses.dropBlank (text : List Char) :
    Crosses (atRest due) text (atRest due) (dropBlank text) := by
  cases text with
  | nil => exact .refl _ _
  | cons c text =>
      by_cases blank : isBlank c = true
      · simp only [CssLint.Name.dropBlank, blank, if_true]
        exact .blank blank text
      · simp only [CssLint.Name.dropBlank, blank, Bool.false_eq_true, if_false]
        exact .refl _ _

/-- The digits of an escape behind the first one are crossed like any others. -/
theorem Crosses.nameEscape {text : List Char} (begins : Name.startsEscape ('\\' :: text) = true) :
    Crosses (atRest due) ('\\' :: text) (atRest due) (Name.dropEscape text) := by
  cases text with
  | nil => cases begins
  | cons c text =>
      refine (Crosses.escape c text).trans ?_
      by_cases digit : isHexDigit c = true
      · simp only [Name.dropEscape, digit, if_true, takeAtMost]
        exact (Crosses.digits 5 text).trans (.dropBlank _)
      · simp only [Name.dropEscape, digit, Bool.false_eq_true, if_false]
        exact .refl _ _

theorem Crosses.name (text : List Char) :
    Crosses (atRest due) text (atRest due) (Name.drop text) := by
  fun_induction Name.drop text with
  | case1 => exact .refl _ _
  | case2 c text part inductionHypothesis =>
      exact (Crosses.ofClass (by decide) part text).trans inductionHypothesis
  | case3 c text _ begins inductionHypothesis =>
      have backslash : c = '\\' := by
        unfold Name.startsEscape at begins
        split at begins
        · rename_i same
          exact (List.cons.inj same).1
        · cases begins
      subst backslash
      exact (Crosses.nameEscape begins).trans inductionHypothesis
  | case4 => exact .refl _ _

end Names

/-! ## Brackets -/

section Brackets

variable {due text rest start : List Char}

/-- A character inside brackets, when it has no meaning of its own to their reader: it may open
brackets, and close those that were opened inside. -/
theorem Open.inside {inner : List Char} {c : Char} (nonempty : inner ≠ [])
    (noQuote : ¬(decide (c = '"') || decide (c = '\'')) = true) (noEscape : c ≠ '\\')
    (opened : Open (inner ++ due) (c :: text)) :
    ∃ deeper, Crosses (atRest (inner ++ due)) (c :: text) (atRest (deeper ++ due)) text ∧
      (deeper = inner ∨ (∃ closer, closer? c = some closer ∧ deeper = closer :: inner) ∨
        inner = c :: deeper) := by
  cases opens : closer? c with
  | some closer =>
      exact ⟨closer :: inner, .opener opens text, Or.inr (Or.inl ⟨closer, rfl, rfl⟩)⟩
  | none =>
      by_cases closes : c ∈ Brackets.all.closers
      · obtain ⟨below, split_, crosses⟩ := opened.closer closes
        cases inner with
        | nil => exact absurd rfl nonempty
        | cons first deeper =>
            cases split_
            exact ⟨deeper, crosses, Or.inr (Or.inr rfl)⟩
      · have noOpener : c ∉ ['(', '[', '\x7b'] := by
          intro member
          have signs : ∀ sign ∈ ['(', '[', '\x7b'], closer? sign ≠ none :=
            List.all_iff_forall_prop.1 (by decide)
          exact signs c member opens
        have plain : c ∉ delimiters := by
          simp_all [delimiters, Brackets.all]
        have deep : inner ++ due ≠ [] := fun none => nonempty (List.append_eq_nil_iff.1 none).1
        exact ⟨inner, .char plain (fun _ => deep) text, Or.inl rfl⟩

/-- An attribute test ends at the first bracket that closes its own. -/
theorem crosses_of_attributeEnd {inner : List Char} (inside : ']' ∈ inner)
    (opened : Open (inner ++ due) text) (closed : attributeEnd start text = .ok rest) :
    ∃ more, Crosses (atRest (inner ++ due)) text (atRest (more ++ due)) rest := by
  fun_induction attributeEnd start text generalizing inner with
  | case1 => cases closed
  | case2 text =>
      cases closed
      obtain ⟨below, split_, crosses⟩ := opened.closer (by decide)
      cases inner with
      | nil => cases inside
      | cons first more =>
          cases split_
          exact ⟨more, crosses⟩
  | case3 => cases closed
  | case4 c text notEnd quotes behind found inductionHypothesis =>
      have crosses : Crosses (atRest (inner ++ due)) (c :: text) (atRest (inner ++ due)) behind :=
        .string (quote_cases quotes) found
      obtain ⟨more, later⟩ := inductionHypothesis inside (crosses.isOpen opened) closed
      exact ⟨more, crosses.trans later⟩
  | case5 text notEnd _ inductionHypothesis =>
      cases text with
      | nil => rw [List.drop_nil, attributeEnd] at closed; cases closed
      | cons c text =>
          have crosses : Crosses (atRest (inner ++ due)) ('\\' :: c :: text)
              (atRest (inner ++ due)) text := .escape c text
          obtain ⟨more, later⟩ := inductionHypothesis inside (crosses.isOpen opened) closed
          exact ⟨more, crosses.trans later⟩
  | case6 c text notEnd notQuote notEscape inductionHypothesis =>
      obtain ⟨deeper, crosses, shape⟩ :=
        opened.inside (List.ne_nil_of_mem inside) notQuote notEscape
      have stillInside : ']' ∈ deeper := by
        rcases shape with rfl | ⟨closer, -, rfl⟩ | rfl
        · exact inside
        · exact List.mem_cons_of_mem _ inside
        · exact (List.mem_cons.1 inside).resolve_left fun same => notEnd same.symm
      obtain ⟨more, later⟩ := inductionHypothesis stillInside (crosses.isOpen opened) closed
      exact ⟨more, crosses.trans later⟩

/-- The depth of the reader is the number of parentheses among the brackets opened inside, behind
the first. -/
theorem crosses_of_parenthesisEnd {depth : Nat} {inner : List Char}
    (inside : inner.count ')' = depth + 1)
    (opened : Open (inner ++ due) text) (closed : parenthesisEnd start depth text = .ok rest) :
    ∃ more, Crosses (atRest (inner ++ due)) text (atRest (more ++ due)) rest := by
  have nonempty : ∀ {inner : List Char} {depth : Nat},
      inner.count ')' = depth + 1 → inner ≠ [] := by
    rintro _ _ counted rfl
    cases counted
  have closing : ∀ {inner : List Char} {depth : Nat} {text : List Char},
      inner.count ')' = depth + 1 → Open (inner ++ due) (')' :: text) →
      ∃ more, more.count ')' = depth ∧
        Crosses (atRest (inner ++ due)) (')' :: text) (atRest (more ++ due)) text := by
    intro inner depth text counted opened
    obtain ⟨below, split_, crosses⟩ := opened.closer (by decide)
    cases inner with
    | nil => cases counted
    | cons first more =>
        cases split_
        rw [List.count_cons_self] at counted
        exact ⟨more, Nat.succ.inj counted, crosses⟩
  fun_induction parenthesisEnd start depth text generalizing inner with
  | case1 => cases closed
  | case2 => cases closed
  | case3 depth c text quotes behind found inductionHypothesis =>
      have crosses : Crosses (atRest (inner ++ due)) (c :: text) (atRest (inner ++ due)) behind :=
        .string (quote_cases quotes) found
      obtain ⟨more, later⟩ := inductionHypothesis inside (crosses.isOpen opened) closed
      exact ⟨more, crosses.trans later⟩
  | case4 depth text _ inductionHypothesis =>
      have crosses : Crosses (atRest (inner ++ due)) ('(' :: text)
          (atRest (')' :: inner ++ due)) text := .opener rfl text
      have counted : (')' :: inner).count ')' = depth + 1 + 1 := by
        rw [List.count_cons_self, inside]
      obtain ⟨more, later⟩ := inductionHypothesis counted (crosses.isOpen opened) closed
      exact ⟨more, crosses.trans later⟩
  | case5 text =>
      cases closed
      obtain ⟨more, -, crosses⟩ := closing inside opened
      exact ⟨more, crosses⟩
  | case6 text _ _ depth inductionHypothesis =>
      obtain ⟨deeper, counted, crosses⟩ := closing inside opened
      obtain ⟨more, later⟩ := inductionHypothesis counted (crosses.isOpen opened) closed
      exact ⟨more, crosses.trans later⟩
  | case7 depth text _ _ _ inductionHypothesis =>
      cases text with
      | nil => rw [List.drop_nil, parenthesisEnd] at closed; cases closed
      | cons c text =>
          have crosses : Crosses (atRest (inner ++ due)) ('\\' :: c :: text)
              (atRest (inner ++ due)) text := .escape c text
          obtain ⟨more, later⟩ := inductionHypothesis inside (crosses.isOpen opened) closed
          exact ⟨more, crosses.trans later⟩
  | case8 depth c text notQuote notOpen notClose notEscape inductionHypothesis =>
      obtain ⟨deeper, crosses, shape⟩ := opened.inside (nonempty inside) notQuote notEscape
      have counted : deeper.count ')' = depth + 1 := by
        rcases shape with rfl | ⟨closer, opens, rfl⟩ | rfl
        · exact inside
        · have other : closer ≠ ')' := by
            rintro rfl
            unfold closer? at opens
            split at opens <;> first | exact notOpen rfl | cases opens
          rw [List.count_cons_of_ne other, inside]
        · rwa [List.count_cons_of_ne notClose] at inside
      obtain ⟨more, later⟩ := inductionHypothesis counted (crosses.isOpen opened) closed
      exact ⟨more, crosses.trans later⟩

end Brackets

/-! ## Simple selectors -/

mutual

/-- Whether there is a comment anywhere in the tree. -/
def Node.hasComment : Node → Bool
  | ⟨kind, _, children⟩ => kind == .comment || haveComment children

/-- Whether there is a comment anywhere in one of the trees. -/
def haveComment : List Node → Bool
  | [] => false
  | node :: nodes => node.hasComment || haveComment nodes

end

theorem hasComment_of_haveComment {nodes : List Node} (uncommented : haveComment nodes = false) :
    ∀ node ∈ nodes, node.hasComment = false := by
  induction nodes with
  | nil => exact fun _ member => nomatch member
  | cons first nodes inductionHypothesis =>
      rw [haveComment, Bool.or_eq_false_iff] at uncommented
      exact List.forall_mem_cons.2 ⟨uncommented.1, inductionHypothesis uncommented.2⟩

theorem Node.hasComment_child {node : Node} (uncommented : node.hasComment = false) :
    ∀ child ∈ node.children, child.hasComment = false := by
  obtain ⟨kind, text, children⟩ := node
  rw [Node.hasComment, Bool.or_eq_false_iff] at uncommented
  exact hasComment_of_haveComment uncommented.2

/-- Between `text` and `rest` no bracket is closed that is due in front. -/
def Keeps (due text rest : List Char) : Prop :=
  ∃ more, Crosses (atRest due) text (atRest (more ++ due)) rest

section Keeps

variable {due text between rest : List Char}

theorem Crosses.keeps (crosses : Crosses (atRest due) text (atRest due) rest) :
    Keeps due text rest :=
  ⟨[], crosses⟩

theorem Crosses.andThen {below : List Char}
    (first : Crosses (atRest due) text (atRest below) between)
    (second : Keeps below between rest) (above : due <:+ below) : Keeps due text rest := by
  obtain ⟨more, crosses⟩ := second
  obtain ⟨front, rfl⟩ := above
  exact ⟨more ++ front, by rw [List.append_assoc]; exact first.trans crosses⟩

theorem Keeps.trans (first : Keeps due text between) (opened : Open due text)
    (second : ∀ below, due <:+ below → Open below between → Keeps below between rest) :
    Keeps due text rest := by
  obtain ⟨more, crosses⟩ := first
  have above : due <:+ more ++ due := List.suffix_append more due
  exact crosses.andThen (second _ above (crosses.isOpen opened)) above

end Keeps

section Simple

variable {due text rest : List Char} {node : Node}

private theorem Crosses.sign {c : Char} (plain : c ∉ ',' :: delimiters) (text : List Char) :
    Crosses (atRest due) (c :: text) (atRest due) text :=
  .char (fun member => plain (List.mem_cons_of_mem _ member))
    (fun comma => absurd (comma ▸ List.mem_cons_self) plain) text

private theorem crosses_of_readQualified {start : List Char}
    (read : readQualified start text = .ok (node, rest)) :
    Crosses (atRest due) text (atRest due) rest := by
  unfold readQualified at read
  split at read
  · rename_i found
    cases read
    rw [eq_append_of_after? found]
    exact .sign (by decide) rest
  · split at read
    · cases read
      exact .name text
    · cases read

private theorem crosses_of_readTypeEnd {kind : Kind} {start : List Char}
    (read : readTypeEnd kind start text = .ok (node, rest)) :
    Crosses (atRest due) text (atRest due) rest := by
  unfold readTypeEnd at read
  split at read
  · rename_i bar
    unfold startsNamespaceBar at bar
    split at bar
    · cases bar
    · cases bar
    · exact .trans (.sign (by decide) _) (crosses_of_readQualified read)
    · cases bar
  · cases read
    exact .refl _ _

private theorem keeps_of_readAttribute {inside : List Char}
    (opened : Open due ('[' :: inside)) (read : readAttribute ('[' :: inside) = .ok (node, rest)) :
    Keeps due ('[' :: inside) rest := by
  have begins : Crosses (atRest due) ('[' :: inside) (atRest ([']'] ++ due)) inside :=
    .opener rfl inside
  unfold readAttribute at read
  split at read
  · cases read
  · rename_i closed
    dsimp only at read
    split at read
    · cases read
      obtain ⟨more, crosses⟩ :=
        crosses_of_attributeEnd List.mem_cons_self (begins.isOpen opened) closed
      exact ⟨more, begins.trans crosses⟩
    · cases read

/-- What holds of the readers of arguments: inside brackets, the lists that they read without
comments close nothing that was open in front. -/
def KeepsArguments (inner : Option ListReader) : Prop :=
  ∀ reader, inner = some reader → ∀ {due text rest : List Char} {entries : List Node},
    reader.read text = .ok (entries, rest) → (∀ entry ∈ entries, entry.hasComment = false) →
    due ≠ [] → Open due text → Keeps due text rest

private theorem crosses_of_symbol {combinator : Combinator} (explicit : combinator ≠ .descendant)
    (text : List Char) :
    Crosses (atRest due) (combinator.symbol ++ text) (atRest due) text := by
  cases combinator with
  | descendant => exact absurd rfl explicit
  | child => exact .sign (by decide) text
  | nextSibling => exact .sign (by decide) text
  | subsequentSibling => exact .sign (by decide) text
  | deepDescendant =>
      exact .trans (.sign (by decide) _) (.trans (.sign (by decide) _) (.sign (by decide) text))

variable {inner : Option ListReader} (keepsArguments : KeepsArguments inner)

include keepsArguments

private theorem keeps_of_readArgument {listed : Bool} {name start opening : List Char}
    (opened : Open due ('(' :: text)) (uncommented : node.hasComment = false)
    (read : readArgument inner listed name start opening text = .ok (node, rest)) :
    Keeps due ('(' :: text) rest := by
  have begins : Crosses (atRest due) ('(' :: text) (atRest (')' :: due)) text := .opener rfl text
  have closing : ∀ (more : List Char) {rest : List Char},
      Crosses (atRest due) ('(' :: text) (atRest (more ++ ')' :: due)) (')' :: rest) →
      Keeps due ('(' :: text) rest := by
    intro more rest crosses
    obtain ⟨below, split_, closes⟩ := (crosses.isOpen opened).closer (by decide)
    have left : below = more.drop 1 ++ (if more = [] then [] else [')']) ++ due := by
      cases more with
      | nil => simpa using split_.symm
      | cons first more => simpa using (List.cons.inj split_).2.symm
    exact ⟨_, left ▸ crosses.trans closes⟩
  unfold readArgument at read
  split at read
  · have behind := begins.trans (.blanks text)
    split at read
    · rename_i found
      cases read
      rw [eq_append_of_after? found] at behind
      exact closing [] behind
    · split at read
      · cases read
      · split at read
        · cases read
        · rename_i reader _ entries _ readList
          split at read
          · cases read
          · rename_i found
            cases read
            rw [eq_append_of_after? found] at readList
            obtain ⟨more, crosses⟩ := keepsArguments reader rfl readList
              (Node.hasComment_child uncommented) (List.cons_ne_nil _ _)
              (behind.isOpen opened)
            exact closing more (behind.trans crosses)
  · split at read
    · cases read
    · rename_i closed
      cases read
      have counted : [')'].count ')' = 0 + 1 := rfl
      obtain ⟨more, crosses⟩ := crosses_of_parenthesisEnd counted (begins.isOpen opened) closed
      exact ⟨more, begins.trans crosses⟩

private theorem keeps_of_readPseudo {inside : List Char}
    (opened : Open due (':' :: inside)) (uncommented : node.hasComment = false)
    (read : readPseudo inner (':' :: inside) = .ok (node, rest)) :
    Keeps due (':' :: inside) rest := by
  have marked : ∀ mark,
      (if (after? [':', ':'] (':' :: inside)).isSome then [':', ':'] else [':']) = mark →
      Crosses (atRest due) (':' :: inside) (atRest due) ((':' :: inside).drop mark.length) := by
    rintro mark rfl
    split
    · rename_i double
      obtain ⟨behind, found⟩ := Option.isSome_iff_exists.1 double
      rw [eq_append_of_after? found]
      exact .trans (.sign (by decide) _) (.sign (by decide) _)
    · exact .sign (by decide) _
  simp only [readPseudo] at read
  generalize chosen : (if (after? [':', ':'] (':' :: inside)).isSome = true then [':', ':']
    else [':']) = mark at read
  have named := (marked mark chosen).trans (.name _)
  split at read
  · split at read
    · cases read
      exact named.keeps
    · rename_i argument found
      rw [eq_append_of_after? found] at named
      exact named.andThen
        (keeps_of_readArgument keepsArguments (named.isOpen opened) uncommented read)
        (List.suffix_refl _)
  · cases read

theorem keeps_of_readSimple {c : Char} {inside : List Char}
    (opened : Open due (c :: inside)) (uncommented : node.hasComment = false)
    (read : readSimple inner c inside = .ok (node, rest)) :
    Keeps due (c :: inside) rest := by
  simp only [readSimple] at read
  split at read
  · rename_i dot
    subst dot
    split at read
    · cases read
      exact (Crosses.trans (.sign (by decide) _) (.name inside)).keeps
    · cases read
  split at read
  · rename_i hash
    subst hash
    split at read
    · cases read
      exact (Crosses.trans (.sign (by decide) _) (.name inside)).keeps
    · cases read
  split at read
  · rename_i star
    subst star
    exact (Crosses.trans (.sign (by decide) _) (crosses_of_readTypeEnd read)).keeps
  split at read
  · rename_i bar
    subst bar
    exact (Crosses.trans (.sign (by decide) _) (crosses_of_readQualified read)).keeps
  split at read
  · rename_i ampersand
    subst ampersand
    cases read
    exact (Crosses.sign (by decide) _).keeps
  split at read
  · rename_i bracket
    subst bracket
    exact keeps_of_readAttribute opened read
  split at read
  · rename_i colon
    subst colon
    exact keeps_of_readPseudo keepsArguments opened uncommented read
  split at read
  · rename_i quotes
    split at read
    · rename_i closed
      cases read
      exact (Crosses.string (quote_cases quotes) closed).keeps
    · cases read
  split at read
  · exact (Crosses.trans (.name (c :: inside)) (crosses_of_readTypeEnd read)).keeps
  · cases read

/-! ## Entries and lists -/

theorem keeps_of_readItems {nested spaced : Bool} {last : Last} {nodes : List Node}
    (opened : Open due text) (uncommented : ∀ node ∈ nodes, node.hasComment = false)
    (read : readItems inner nested last spaced text = .ok (nodes, rest)) : Keeps due text rest := by
  fun_induction readItems inner nested last spaced text generalizing due nodes rest with
  | case1 last =>
      cases last <;> cases read
      exact (Crosses.refl _ _).keeps
  | case2 last =>
      cases last <;> cases read
      exact (Crosses.refl _ _).keeps
  | case3 last spaced c inside _ blank inductionHypothesis =>
      have crosses : Crosses (atRest due) (c :: inside) (atRest due) inside := .blank blank inside
      exact crosses.andThen (inductionHypothesis (crosses.isOpen opened) uncommented read)
        (List.suffix_refl _)
  | case4 => cases read
  | case5 last spaced c inside _ _ behind comment inductionHypothesis =>
      obtain ⟨more, later, rfl⟩ := Reading.prepend_eq_ok_iff.1 read
      cases uncommented _ List.mem_cons_self
  | case6 => cases read
  | case7 last spaced c inside _ _ _ combinator behind combined free inductionHypothesis =>
      obtain ⟨more, later, rfl⟩ := Reading.prepend_eq_ok_iff.1 read
      have crosses : Crosses (atRest due) (c :: inside) (atRest due) behind := by
        obtain ⟨explicit, written⟩ := eq_append_of_readCombinator? combined
        rw [written]
        exact crosses_of_symbol explicit behind
      exact crosses.andThen (inductionHypothesis (crosses.isOpen opened)
        (fun node member => uncommented node (List.mem_append_right _ member)) later)
        (List.suffix_refl _)
  | case8 => cases read
  | case9 last spaced c inside _ _ _ _ node behind simple inductionHypothesis =>
      obtain ⟨more, later, rfl⟩ := Reading.prepend_eq_ok_iff.1 read
      have uncommentedNode : node.hasComment = false := by
        refine uncommented node (List.mem_append_left _ ?_)
        split <;> simp
      refine (keeps_of_readSimple keepsArguments opened uncommentedNode simple).trans opened ?_
      intro below _ opened
      exact inductionHypothesis opened
        (fun node member => uncommented node (List.mem_append_right _ member)) later

theorem keeps_of_readEntry {nested : Bool} {entry : Node}
    (opened : Open due text) (uncommented : entry.hasComment = false)
    (read : readEntry inner nested text = .ok (entry, rest)) : Keeps due text rest := by
  have blanks : Crosses (atRest due) text (atRest due) (text.dropWhile isBlank) := .blanks text
  simp only [readEntry] at read
  split at read
  · cases read
  · rename_i items
    cases read
    exact blanks.andThen (keeps_of_readItems keepsArguments (blanks.isOpen opened)
      (Node.hasComment_child uncommented) items) (List.suffix_refl _)

/-- Inside brackets, a whole list is crossed with its commas. -/
theorem keeps_of_readList {nested : Bool} {entries : List Node}
    (inside : due ≠ []) (opened : Open due text)
    (uncommented : ∀ entry ∈ entries, entry.hasComment = false)
    (read : readList inner nested text = .ok (entries, rest)) : Keeps due text rest := by
  fun_induction readList inner nested text generalizing due entries rest with
  | case1 => cases read
  | case2 text entry behind first =>
      cases read
      exact keeps_of_readEntry keepsArguments opened (uncommented entry List.mem_cons_self) first
  | case3 text entry behind first more comma inductionHypothesis =>
      obtain ⟨others, later, rfl⟩ := Reading.prepend_eq_ok_iff.1 read
      refine (keeps_of_readEntry keepsArguments opened (uncommented entry List.mem_cons_self)
        first).trans opened fun below above opened => ?_
      have stillInside : below ≠ [] := by
        rintro rfl
        exact inside (List.suffix_nil.1 above)
      rw [eq_append_of_after? comma] at opened ⊢
      have crosses : Crosses (atRest below) (',' :: more) (atRest below) more :=
        .char (by decide) (fun _ => stillInside) more
      exact crosses.andThen (inductionHypothesis stillInside (crosses.isOpen opened)
        (fun entry member => uncommented entry (List.mem_cons_of_mem _ member)) later)
        (List.suffix_refl _)

end Simple

theorem keepsArguments_argumentReader (levels : Nat) : KeepsArguments (argumentReader levels) := by
  induction levels with
  | zero =>
      rintro reader ⟨⟩
  | succ levels inductionHypothesis =>
      rintro reader ⟨⟩ due text rest entries read uncommented inside opened
      exact keeps_of_readList inductionHypothesis inside opened uncommented read

/-! ## Whole texts -/

/-- An entry is a part of the text, up to the end or a comma outside brackets. -/
private theorem part_of_readEntry {levels : Nat} {due text rest : List Char} {entry : Node}
    (opened : Open due text) (uncommented : entry.hasComment = false)
    (read : readEntry (argumentReader levels) false text = .ok (entry, rest)) :
    ∃ more segment, text = segment ++ rest ∧ entry.text = trim segment ∧
      Crosses (atRest due) (segment ++ rest) (atRest (more ++ due)) rest := by
  have segmented : ∀ lower, levels = lower + 1 →
      ∀ {text rest : List Char} {entries : List Node},
        ListAt (argumentReader lower) true text entries rest → Segmented text entries rest :=
    fun lower _ _ _ _ list => ListAt.byLevels
      (motive := fun _ text entries rest => Segmented text entries rest)
      (fun _ deeper => ListAt.tiled deeper) lower list
  obtain ⟨segment, rfl, tiled⟩ := (entryAt_of_readEntry read).tiled segmented
  obtain ⟨more, crosses⟩ :=
    keeps_of_readEntry (keepsArguments_argumentReader levels) opened uncommented read
  exact ⟨more, segment, rfl, by cases tiled; rfl, crosses⟩

private theorem split_append_of_crosses {segment rest : List Char}
    (crosses : Crosses (atRest []) (segment ++ rest) (atRest []) rest) (following : List Char) :
    split ',' (segment ++ following) = glue segment (split ',' following) := by
  obtain ⟨written, joined, -, parts⟩ := crosses
  obtain rfl := List.append_cancel_right joined
  exact parts following

/-- Outside brackets, the parts between the commas are those of the entries: a bracket that an
entry left open would still be due at the end. -/
theorem parts_of_readList {text rest due : List Char} {levels : Nat} {entries : List Node}
    (closed : ((atRest due).run text).any (·.due.isEmpty) = true)
    (uncommented : ∀ entry ∈ entries, entry.hasComment = false)
    (read : readList (argumentReader levels) false text = .ok (entries, rest)) :
    due = [] ∧ (split ',' text).map trim = entries.map Node.text := by
  fun_induction readList (argumentReader levels) false text generalizing due entries rest with
  | case1 => cases read
  | case2 text entry behind first noComma =>
      cases read
      obtain ⟨more, segment, rfl, ofEntry, crosses⟩ := part_of_readEntry
        (Option.isSome_of_any closed) (uncommented entry List.mem_cons_self) first
      have stops : ∀ more, behind ≠ ',' :: more := by
        rintro more rfl
        cases noComma
      obtain rfl : behind = [] :=
        (ListAt.last (entryAt_of_readEntry first) stops).rest_eq_nil
      rw [crosses.run_eq, Nesting.run_nil, Option.any_some, List.isEmpty_iff] at closed
      obtain ⟨rfl, rfl⟩ := List.append_eq_nil_iff.1 closed
      refine ⟨rfl, ?_⟩
      rw [split_append_of_crosses crosses]
      simp [split, splitFrom, glue, ofEntry]
  | case3 text entry behind first later comma inductionHypothesis =>
      obtain ⟨others, readLater, rfl⟩ := Reading.prepend_eq_ok_iff.1 read
      obtain ⟨more, segment, rfl, ofEntry, crosses⟩ := part_of_readEntry
        (Option.isSome_of_any closed) (uncommented entry List.mem_cons_self) first
      obtain rfl := eq_append_of_after? comma
      rw [crosses.run_eq, List.singleton_append, Nesting.run_cons,
        Nesting.step_of_not_mem_delimiters (by decide), Option.bind_some] at closed
      obtain ⟨none, parts⟩ := inductionHypothesis closed
        (fun entry member => uncommented entry (List.mem_cons_of_mem _ member)) readLater
      obtain ⟨rfl, rfl⟩ := List.append_eq_nil_iff.1 none
      refine ⟨rfl, ?_⟩
      have here : split ',' ([','] ++ later) = [] :: split ',' later := rfl
      rw [split_append_of_crosses crosses, here, glue, List.map_cons, parts, List.append_nil,
        ← ofEntry]
      rfl

/-- The entries of an accepted text are the texts of its entries in the tree. -/
theorem entries_eq_texts {text : List Char} {root : Node} (accepted : Node.ofText text = .ok root)
    (uncommented : root.hasComment = false) (nested : WellNested text) :
    entries text = (root.children.map Node.text).filter fun entry => !entry.isEmpty := by
  unfold Node.ofText at accepted
  split at accepted
  · cases accepted
  · rename_i list
    cases accepted
    obtain ⟨-, parts⟩ := parts_of_readList nested (Node.hasComment_child uncommented) list
    rw [entries, parts]

/-- Commas in a string, behind a backslash, in a list of its own and in an argument of braces divide
no entries. -/
theorem entries_eq_texts_brackets :
    ∃ root, Node.ofText "a[b=\"],(\"]:not(c\\, , d) , .e:x(\x7b,\x7d)".toList = .ok root ∧
      root.hasComment = false ∧
      WellNested "a[b=\"],(\"]:not(c\\, , d) , .e:x(\x7b,\x7d)".toList ∧
      entries "a[b=\"],(\"]:not(c\\, , d) , .e:x(\x7b,\x7d)".toList =
        (root.children.map Node.text).filter fun entry => !entry.isEmpty := by
  have plain : (Node.ofText "a[b=\"],(\"]:not(c\\, , d) , .e:x(\x7b,\x7d)".toList).toOption.any
      (!·.hasComment) = true := by decide +kernel
  have nested : WellNested "a[b=\"],(\"]:not(c\\, , d) , .e:x(\x7b,\x7d)".toList := by
    decide +kernel
  cases accepted : Node.ofText "a[b=\"],(\"]:not(c\\, , d) , .e:x(\x7b,\x7d)".toList with
  | error fault =>
      rw [accepted] at plain
      cases plain
  | ok root =>
      rw [accepted] at plain
      have uncommented : root.hasComment = false := by simpa [Except.toOption] using plain
      exact ⟨root, rfl, uncommented, nested, entries_eq_texts accepted uncommented nested⟩

end CssLint.Selector
