import CssLint.Proofs.Selector.ChangeItems
import CssLint.Proofs.Selector.Shape

/-!
# Selectors in front of more text

Behind a selector may stand a comma, or inside parentheses the one that closes them.
No name, string or comment goes on there, so every reader reads what it reads of the
selector alone, and leaves the tail behind what it leaves of it.

The inner readers need not be the same: what counts is that the lists which are read
can be read by the other one, too.
-/

namespace CssLint.Selector

open Text CssLint.Name
open Written (EndsEntry readItems_end)

variable {tail text start rest : List Char}

/-! ## The beginning of the tail -/

section Tail

variable (ends : EndsEntry true tail)

include ends

/-- The tail begins with a comma or a closing parenthesis. -/
theorem head_continued {c : Char} {more : List Char} (same : tail = c :: more) :
    c = ',' ∨ c = ')' := by
  rcases ends with rfl | ⟨_, rfl⟩ | ⟨-, _, rfl⟩
  · cases same
  · cases same
    exact Or.inl rfl
  · cases same
    exact Or.inr rfl

/-- A word without either is found at the beginning of a text as it was. -/
theorem after?_continued {word : List Char} (other : ',' ∉ word ∧ ')' ∉ word)
    (text : List Char) : after? word (text ++ tail) = (after? word text).map (· ++ tail) := by
  induction word generalizing text with
  | nil => rfl
  | cons expected word inductionHypothesis =>
      simp only [List.mem_cons, not_or] at other
      cases text with
      | nil =>
          cases tail with
          | nil => rfl
          | cons c more =>
              have different : expected ≠ c := by
                rcases head_continued ends rfl with rfl | rfl
                · exact fun same => other.1.1 same.symm
                · exact fun same => other.2.1 same.symm
              simp [after?, different]
      | cons c text =>
          rw [List.cons_append, after?, after?]
          split
          · exact inductionHypothesis ⟨other.1.2, other.2.2⟩ text
          · rfl

theorem head?_continued {c : Char} (other : c ≠ ',' ∧ c ≠ ')') (text : List Char) :
    ((text ++ tail).head? == some c) = (text.head? == some c) := by
  cases text with
  | cons d text => rfl
  | nil =>
      cases tail with
      | nil => rfl
      | cons d more =>
          have different : d ≠ c := by
            rcases head_continued ends rfl with rfl | rfl
            · exact fun same => other.1 same.symm
            · exact fun same => other.2 same.symm
          simp [different]

theorem dropWhile_continued (text : List Char) :
    (text ++ tail).dropWhile isBlank = text.dropWhile isBlank ++ tail := by
  induction text with
  | nil =>
      cases tail with
      | nil => rfl
      | cons c more =>
          rcases head_continued ends rfl with rfl | rfl <;> rfl
  | cons c text inductionHypothesis =>
      by_cases blank : isBlank c = true
      · simpa [blank] using inductionHypothesis
      · simp [blank]

end Tail

/-- The first character is that of the text, if there is one. -/
theorem after?_singleton_continued {c : Char} (some : text ≠ []) (tail : List Char) :
    after? [c] (text ++ tail) = (after? [c] text).map (· ++ tail) := by
  cases text with
  | nil => exact absurd rfl some
  | cons d more =>
      simp only [List.cons_append, after?]
      split <;> rfl

theorem before_continued (suffix : rest <:+ text) (tail : List Char) :
    before (text ++ tail) (rest ++ tail) = before text rest := by
  obtain ⟨front, rfl⟩ := suffix
  rw [List.append_assoc, before_append, before_append]

theorem leafBefore_continued (kind : Kind) (suffix : rest <:+ text) (tail : List Char) :
    leafBefore kind (text ++ tail) (rest ++ tail) =
      ((leafBefore kind text rest).1, (leafBefore kind text rest).2 ++ tail) := by
  rw [leafBefore, before_continued suffix]
  rfl

/-! ## Names -/

namespace Name

theorem startsEscape_continued (begins : startsEscape text = true) (tail : List Char) :
    startsEscape (text ++ tail) = true := by
  unfold startsEscape at begins
  split at begins
  · exact begins
  · cases begins

theorem starts_continued (begins : starts text = true) (tail : List Char) :
    starts (text ++ tail) = true := by
  unfold starts at begins
  split at begins
  · split at begins
    · cases begins
    · rename_i c more
      have later : startsEscape (c :: more) = true → startsEscape (c :: more ++ tail) = true :=
        fun escape => startsEscape_continued escape tail
      simp only [Bool.or_eq_true] at begins
      simp only [List.cons_append, starts, Bool.or_eq_true]
      exact begins.imp_right later
  · cases begins
  · rename_i c more notHyphen
    have other : c ≠ '-' := fun same => notHyphen same
    have later : startsEscape (c :: more) = true → startsEscape (c :: more ++ tail) = true :=
      fun escape => startsEscape_continued escape tail
    simp only [Bool.or_eq_true] at begins
    rw [List.cons_append, starts]
    · simpa using begins.imp_right later
    · exact other

variable (ends : EndsEntry true tail)

include ends

private theorem takeAtMost_continued (limit : Nat) (text : List Char) :
    (takeAtMost isHexDigit limit (text ++ tail)).2 =
      (takeAtMost isHexDigit limit text).2 ++ tail := by
  induction limit generalizing text with
  | zero => rfl
  | succ limit inductionHypothesis =>
      cases text with
      | nil =>
          cases tail with
          | nil => rfl
          | cons c more => rcases head_continued ends rfl with rfl | rfl <;> rfl
      | cons c text =>
          rw [List.cons_append, takeAtMost, takeAtMost]
          split
          · exact inductionHypothesis text
          · rfl

private theorem dropBlank_continued (text : List Char) :
    dropBlank (text ++ tail) = dropBlank text ++ tail := by
  cases text with
  | nil =>
      cases tail with
      | nil => rfl
      | cons c more => rcases head_continued ends rfl with rfl | rfl <;> rfl
  | cons c text =>
      rw [List.cons_append, dropBlank, dropBlank]
      split <;> rfl

private theorem dropEscape_continued (c : Char) (text : List Char) :
    dropEscape (c :: text ++ tail) = dropEscape (c :: text) ++ tail := by
  have digits := takeAtMost_continued ends 6 (c :: text)
  rw [List.cons_append] at digits ⊢
  rw [dropEscape, dropEscape, digits, dropBlank_continued ends]
  split <;> rfl

/-- A name ends in front of the tail where it ended, unless a backslash would escape the tail. -/
theorem drop_continued (complete : drop text ≠ ['\\']) :
    drop (text ++ tail) = drop text ++ tail := by
  fun_induction drop text with
  | case1 =>
      exact Written.drop_append (List.forall_mem_nil _) ends.breaks.stops
  | case2 c text part inductionHypothesis =>
      rw [List.cons_append, drop, if_pos part]
      exact inductionHypothesis complete
  | case3 c text notPart begins inductionHypothesis =>
      have still := startsEscape_continued begins tail
      obtain ⟨d, more, rfl⟩ : ∃ d more, text = d :: more := by
        cases text with
        | nil =>
            unfold startsEscape at begins
            split at begins
            · rename_i same
              cases same
            · cases begins
        | cons d more => exact ⟨d, more, rfl⟩
      rw [List.cons_append] at still ⊢
      rw [drop, if_neg notPart, if_pos still, dropEscape_continued ends]
      exact inductionHypothesis complete
  | case4 c text notPart noEscape =>
      have none : ¬startsEscape (c :: (text ++ tail)) = true := by
        cases text with
        | cons d more =>
            rw [List.cons_append]
            by_cases slash : c = '\\'
            · subst slash
              exact noEscape
            · simp [startsEscape, slash]
        | nil =>
            have other : c ≠ '\\' := by
              rintro rfl
              exact complete rfl
            simp [startsEscape, other]
      rw [List.cons_append, drop, if_neg notPart, if_neg none]

end Name

/-! ## Closing ends -/

theorem stringEnd?_continued {quote : Char} (closed : stringEnd? quote text = some rest)
    (tail : List Char) : stringEnd? quote (text ++ tail) = some (rest ++ tail) := by
  fun_induction stringEnd? quote text with
  | case1 => cases closed
  | case2 => cases closed
  | case3 c text inductionHypothesis =>
      rw [List.cons_append, List.cons_append, stringEnd?]
      exact inductionHypothesis closed
  | case4 text notLast notEscape =>
      cases closed
      rw [List.cons_append, stringEnd?_cons (ne_escape_of_stringEnd? notLast notEscape), if_pos rfl]
  | case5 c text notLast notEscape different inductionHypothesis =>
      rw [List.cons_append, stringEnd?_cons (ne_escape_of_stringEnd? notLast notEscape),
        if_neg different]
      exact inductionHypothesis closed

/-- What an escape passes over stands in front of the tail, too. -/
private theorem drop_one_continued {result : List Char → Except (Fault (List Char)) (List Char)}
    (open_ : (result []).isOk = false) (closed : result (text.drop 1) = .ok rest)
    (tail : List Char) : (text ++ tail).drop 1 = text.drop 1 ++ tail := by
  cases text with
  | nil =>
      rw [List.drop_nil] at closed
      rw [closed] at open_
      cases open_
  | cons c text => rfl

theorem attributeEnd_continued (closed : attributeEnd start text = .ok rest)
    (start' tail : List Char) : attributeEnd start' (text ++ tail) = .ok (rest ++ tail) := by
  have open_ : (attributeEnd start []).isOk = false := by rw [attributeEnd]; rfl
  fun_induction attributeEnd start text with
  | case1 => cases closed
  | case2 text =>
      cases closed
      rw [List.cons_append, attributeEnd, if_pos rfl]
  | case3 => cases closed
  | case4 c text notEnd quotes behind found inductionHypothesis =>
      have string := stringEnd?_continued found tail
      rw [List.cons_append, attributeEnd, if_neg notEnd, if_pos quotes]
      split
      · rename_i unclosed
        rw [string] at unclosed
        cases unclosed
      · rename_i found
        rw [string] at found
        cases found
        exact inductionHypothesis closed
  | case5 text notEnd notQuote inductionHypothesis =>
      rw [List.cons_append, attributeEnd, if_neg notEnd, if_neg notQuote, if_pos rfl,
        drop_one_continued open_ closed]
      exact inductionHypothesis closed
  | case6 c text notEnd notQuote notEscape inductionHypothesis =>
      rw [List.cons_append, attributeEnd, if_neg notEnd, if_neg notQuote, if_neg notEscape]
      exact inductionHypothesis closed

theorem parenthesisEnd_continued {depth : Nat}
    (closed : parenthesisEnd start depth text = .ok rest) (start' tail : List Char) :
    parenthesisEnd start' depth (text ++ tail) = .ok (rest ++ tail) := by
  have open_ : ∀ depth, (parenthesisEnd start depth []).isOk = false := fun depth => by
    rw [parenthesisEnd]
    rfl
  fun_induction parenthesisEnd start depth text with
  | case1 => cases closed
  | case2 => cases closed
  | case3 depth c text quotes behind found inductionHypothesis =>
      rw [List.cons_append, parenthesisEnd_cons, if_pos quotes, stringEnd?_continued found]
      exact inductionHypothesis closed
  | case4 depth text notQuote inductionHypothesis =>
      rw [List.cons_append, parenthesisEnd_cons, if_neg notQuote, if_pos rfl]
      exact inductionHypothesis closed
  | case5 text notQuote notOpen =>
      cases closed
      rw [List.cons_append, parenthesisEnd_cons, if_neg notQuote, if_neg notOpen, if_pos rfl]
  | case6 text depth notQuote notOpen inductionHypothesis =>
      rw [List.cons_append, parenthesisEnd_cons, if_neg notQuote, if_neg notOpen, if_pos rfl]
      exact inductionHypothesis closed
  | case7 depth text notQuote notOpen notClose inductionHypothesis =>
      rw [List.cons_append, parenthesisEnd_cons, if_neg notQuote, if_neg notOpen, if_neg notClose,
        if_pos rfl, drop_one_continued (open_ depth) closed]
      exact inductionHypothesis closed
  | case8 depth c text notQuote notOpen notClose notEscape inductionHypothesis =>
      rw [List.cons_append, parenthesisEnd_cons, if_neg notQuote, if_neg notOpen, if_neg notClose,
        if_neg notEscape]
      exact inductionHypothesis closed

/-! ## Simple selectors -/

section Simple

variable (ends : EndsEntry true tail)

include ends

theorem readQualified_continued {node : Node} (suffix : text <:+ start)
    (read : readQualified start text = .ok (node, rest)) (complete : rest ≠ ['\\']) :
    readQualified (start ++ tail) (text ++ tail) = .ok (node, rest ++ tail) := by
  unfold readQualified at read ⊢
  rw [after?_continued ends (by decide)]
  split at read
  · rename_i found
    cases read
    rw [found]
    exact congrArg Except.ok
      (leafBefore_continued .universal ((suffix_of_after? found).trans suffix) tail)
  · rename_i notFound
    split at read
    · rename_i begins
      cases read
      rw [notFound, Option.map_none, if_pos (Name.starts_continued begins tail),
        Name.drop_continued ends complete]
      exact congrArg Except.ok
        (leafBefore_continued .tag ((Name.suffix_drop text).trans suffix) tail)
    · cases read

theorem startsNamespaceBar_continued (text : List Char) :
    startsNamespaceBar (text ++ tail) = startsNamespaceBar text := by
  rw [startsNamespaceBar_eq, startsNamespaceBar_eq, head?_continued ends (by decide)]
  cases text with
  | nil => simp
  | cons c more =>
      rw [List.cons_append, List.tail_cons, List.tail_cons, head?_continued ends (by decide),
        head?_continued ends (by decide)]

theorem readTypeEnd_continued {kind : Kind} {node : Node} (suffix : text <:+ start)
    (read : readTypeEnd kind start text = .ok (node, rest)) (complete : rest ≠ ['\\']) :
    readTypeEnd kind (start ++ tail) (text ++ tail) = .ok (node, rest ++ tail) := by
  unfold readTypeEnd at read ⊢
  rw [startsNamespaceBar_continued ends]
  split at read
  · rename_i bar
    obtain ⟨more, rfl⟩ := exists_cons_of_startsNamespaceBar bar
    rw [if_pos bar]
    exact readQualified_continued ends ((List.suffix_cons _ _).trans suffix) read complete
  · rename_i noBar
    cases read
    rw [if_neg noBar]
    exact congrArg Except.ok (leafBefore_continued kind suffix tail)

omit ends in
theorem readAttribute_continued {inside : List Char} {node : Node}
    (read : readAttribute ('[' :: inside) = .ok (node, rest)) (tail : List Char) :
    readAttribute ('[' :: inside ++ tail) = .ok (node, rest ++ tail) := by
  unfold readAttribute at read ⊢
  rw [List.drop_one, List.tail_cons] at read
  rw [List.drop_one, List.cons_append, List.tail_cons]
  split at read
  · cases read
  · rename_i behind closed
    have suffix := (suffix_of_attributeEnd closed).trans (List.suffix_cons '[' inside)
    have same := before_continued suffix tail
    rw [attributeEnd_continued closed]
    dsimp only at read ⊢
    rw [← List.cons_append, same]
    generalize before ('[' :: inside) behind = written at read ⊢
    cases tests : AttributeTest.ofBody? (written.drop 1).dropLast with
    | none =>
        rw [tests] at read
        cases read
    | some test =>
        rw [tests] at read
        cases read
        rfl

end Simple

/-! ## Inner readers -/

/-- Lists with allowed entries that `inner` reads up to a closing parenthesis are read by `inner'`
in front of the tail. -/
structure Continues (tail : List Char) (allowed : Node → Prop)
    (inner inner' : Option ListReader) : Prop where
  leaves : LeavesSuffixes inner
  read : ∀ reader, inner = some reader → ∀ {text rest : List Char} {entries : List Node},
    reader.read text = .ok (entries, ')' :: rest) → (∀ entry ∈ entries, allowed entry) →
    ∃ reader', inner' = some reader' ∧
      reader'.read (text ++ tail) = .ok (entries, ')' :: (rest ++ tail))

/-- The entries of a list in parentheses are allowed. -/
def Node.Lists (allowed : Node → Prop) (node : Node) : Prop :=
  node.isListing = true → ∀ entry ∈ node.children, allowed entry

section Readers

variable {allowed : Node → Prop} {inner inner' : Option ListReader}
  (ends : EndsEntry true tail) (continues : Continues tail allowed inner inner')

include ends continues

theorem readArgument_continued {listed : Bool} {name opened opened' : List Char} {node : Node}
    (suffix : text <:+ start)
    (read : readArgument inner listed name start opened text = .ok (node, rest))
    (lists : node.Lists allowed) :
    readArgument inner' listed name (start ++ tail) opened' (text ++ tail) =
      .ok (node, rest ++ tail) := by
  have ofBlanks : text.dropWhile isBlank <:+ text := List.dropWhile_suffix isBlank
  unfold readArgument at read ⊢
  rw [dropWhile_continued ends]
  split at read
  · rename_i isListed
    rw [if_pos isListed]
    split at read
    · rename_i found
      have some : text.dropWhile isBlank ≠ [] := fun none => by rw [none] at found; cases found
      cases read
      rw [after?_singleton_continued some tail, found]
      exact congrArg Except.ok
        (leafBefore_continued _ (((suffix_of_after? found).trans ofBlanks).trans suffix) tail)
    · rename_i notEmpty
      split at read
      · cases read
      · split at read
        · cases read
        · rename_i reader _ _ behind listRead
          split at read
          · cases read
          · rename_i found
            cases read
            have closes := eq_append_of_after? found
            rw [closes, List.singleton_append] at listRead
            have left := continues.leaves reader rfl listRead
            have some : text.dropWhile isBlank ≠ [] := fun none => by
              rw [none, List.suffix_nil] at left
              cases left
            have entries : ∀ entry ∈ _, allowed entry := fun entry member =>
              lists (by cases member <;> rfl) entry member
            obtain ⟨reader', reads, same⟩ := continues.read reader rfl listRead entries
            have whole := ((List.suffix_cons ')' rest).trans left).trans (ofBlanks.trans suffix)
            rw [after?_singleton_continued some tail, notEmpty, reads]
            dsimp only [Option.map_none]
            rw [same]
            dsimp only
            rw [after?, if_pos rfl, after?]
            exact congrArg (fun written => Except.ok ((⟨_, written, _⟩ : Node), _))
              (before_continued whole tail)
  · rename_i notListed
    rw [if_neg notListed]
    split at read
    · cases read
    · rename_i closed
      cases read
      rw [parenthesisEnd_continued closed]
      exact congrArg Except.ok
        (leafBefore_continued _ ((suffix_of_parenthesisEnd closed).trans suffix) tail)

theorem readPseudo_continued {inside : List Char} {node : Node}
    (read : readPseudo inner (':' :: inside) = .ok (node, rest)) (complete : rest ≠ ['\\'])
    (lists : node.Lists allowed) :
    readPseudo inner' (':' :: inside ++ tail) = .ok (node, rest ++ tail) := by
  generalize whole : ':' :: inside = text at read ⊢
  obtain ⟨mark, chosen, named, rfl⟩ : ∃ mark : List Char,
      (if (after? [':', ':'] text).isSome then [':', ':'] else [':']) = mark ∧
      ∃ named, text = mark ++ named := by
    cases double : after? [':', ':'] text with
    | some behind => exact ⟨[':', ':'], by simp, behind, eq_append_of_after? double⟩
    | none => exact ⟨[':'], by simp, inside, whole.symm⟩
  have ofName := (Name.suffix_drop named).trans (List.suffix_append mark named)
  have behindMark : (mark ++ named ++ tail).drop mark.length = named ++ tail := by
    rw [List.append_assoc, List.drop_left]
  unfold readPseudo at read ⊢
  simp only [after?_continued ends (show ',' ∉ [':', ':'] ∧ ')' ∉ [':', ':'] by decide),
    Option.isSome_map, chosen, List.drop_left, behindMark] at read ⊢
  split at read
  · rename_i begins
    rw [if_pos (Name.starts_continued begins tail)]
    split at read
    · rename_i noArgument
      cases read
      rw [Name.drop_continued ends complete, after?_continued ends (by decide), noArgument,
        before_continued ofName]
      rfl
    · rename_i argument opens
      have split_ := eq_append_of_after? opens
      have closed : Name.drop named ≠ ['\\'] := by
        rw [split_]
        simp
      have left := (suffix_of_after? opens).trans ofName
      rw [Name.drop_continued ends closed, after?_continued ends (by decide), opens,
        before_continued ofName, before_continued (Name.suffix_drop named)]
      exact readArgument_continued ends continues left read lists
  · cases read

/-- A simple selector is read in front of the tail as it was, unless what it leaves is a backslash
alone. -/
theorem readSimple_continued {c : Char} {inside : List Char} {node : Node}
    (read : readSimple inner c inside = .ok (node, rest)) (complete : rest ≠ ['\\'])
    (lists : node.Lists allowed) :
    readSimple inner' c (inside ++ tail) = .ok (node, rest ++ tail) := by
  have ofInside := List.suffix_cons c inside
  have ofName := (Name.suffix_drop inside).trans ofInside
  unfold readSimple at read ⊢
  dsimp only at read ⊢
  split at read
  · rename_i dot
    rw [if_pos dot]
    split at read
    · rename_i begins
      cases read
      rw [if_pos (Name.starts_continued begins tail), Name.drop_continued ends complete]
      exact congrArg Except.ok (leafBefore_continued .className ofName tail)
    · cases read
  rename_i notDot
  rw [if_neg notDot]
  split at read
  · rename_i hash
    rw [if_pos hash]
    split at read
    · rename_i some
      cases read
      rw [Name.drop_continued ends complete,
        if_pos fun same => some (List.append_cancel_right same)]
      exact congrArg Except.ok (leafBefore_continued .id ofName tail)
    · cases read
  rename_i notHash
  rw [if_neg notHash]
  split at read
  · rename_i star
    rw [if_pos star]
    exact readTypeEnd_continued ends ofInside read complete
  rename_i notStar
  rw [if_neg notStar]
  split at read
  · rename_i bar
    rw [if_pos bar]
    exact readQualified_continued ends ofInside read complete
  rename_i notBar
  rw [if_neg notBar]
  split at read
  · rename_i ampersand
    cases read
    rw [if_pos ampersand]
    exact congrArg Except.ok (leafBefore_continued .nesting ofInside tail)
  rename_i notAmpersand
  rw [if_neg notAmpersand]
  split at read
  · rename_i bracket
    subst bracket
    rw [if_pos rfl]
    exact readAttribute_continued read tail
  rename_i notBracket
  rw [if_neg notBracket]
  split at read
  · rename_i colon
    subst colon
    rw [if_pos rfl]
    exact readPseudo_continued ends continues read complete lists
  rename_i notColon
  rw [if_neg notColon]
  split at read
  · rename_i quotes
    rw [if_pos quotes]
    split at read
    · rename_i closed
      cases read
      rw [stringEnd?_continued closed]
      exact congrArg Except.ok
        (leafBefore_continued .string ((suffix_of_stringEnd? closed).trans ofInside) tail)
    · cases read
  rename_i notQuote
  rw [if_neg notQuote]
  split at read
  · rename_i begins
    have starts := Name.starts_continued begins tail
    have closed : Name.drop (c :: inside) ≠ ['\\'] := by
      intro open_
      rw [open_] at read
      cases read
      exact complete rfl
    have dropped := Name.drop_continued ends closed
    rw [List.cons_append] at starts dropped
    rw [if_pos starts, dropped]
    exact readTypeEnd_continued ends (Name.suffix_drop _) read complete
  · cases read

end Readers

end CssLint.Selector
