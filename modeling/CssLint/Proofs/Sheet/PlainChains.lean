import CssLint.Proofs.Sheet.Occurrences
import CssLint.Proofs.Sheet.PlainRules

/-!
# Chains of plain rules

Plain rules, each inside the block of the one before, with plain declarations around
them.  As long as there are no more of them than blocks may stand inside each other,
they are read as written, and so are their places.
-/

namespace CssLint.Sheet

open Selector.Written Text

/-- A plain rule: its prelude, the declarations of its block in front of a rule inside it and behind
that, and the blank characters between these parts. -/
structure PlainRule where
  before : Blanks
  prelude_ : Prelude (Argument Selector.maxNesting)
  plain : prelude_.IsPlain (Argument.IsPlain Selector.maxNesting)
  after : Blanks
  early : List PlainDeclaration
  late : List PlainDeclaration
  inside : Blanks

namespace PlainRule

def selector (rule : PlainRule) : List Char :=
  rule.prelude_.text (Argument.form Selector.maxNesting)

/-- The prelude with the blank characters behind it. -/
def head (rule : PlainRule) : List Char :=
  headText rule.prelude_ rule.after

/-- The inside of the block behind a rule in it. -/
def tail (rule : PlainRule) : List Char :=
  declarationsText rule.late ++ rule.inside.text

/-- The rule around the text of another rule, which may be empty. -/
def textAround (rule : PlainRule) (middle : List Char) : List Char :=
  rule.before.text ++ (rule.head ++
    (['\x7b'] ++ ((declarationsText rule.early ++ (middle ++ rule.tail)) ++ ['\x7d'])))

/-- The style rule, where `offset` is the place of the first byte. -/
def style (rule : PlainRule) (offset : Nat) : StyleRule :=
  ⟨rule.selector, offset + byteCount rule.before.text⟩

/-- Where the text of another rule begins. -/
def middle (rule : PlainRule) (offset : Nat) : Nat :=
  offset + byteCount rule.before.text + byteCount rule.head + byteCount ['\x7b'] +
    byteCount (declarationsText rule.early)

end PlainRule

/-- Rules, each inside the block of the one before. -/
def chainText : List PlainRule → List Char
  | [] => []
  | rule :: rules => rule.textAround (chainText rules)

/-- The rules of a chain with their places, where `offset` is that of the first byte. -/
def chainOccurrences (above : List Kind) (offset : Nat) : List PlainRule → List Occurrence
  | [] => []
  | rule :: rules =>
    ⟨above, rule.style offset, (rule.style offset).offset, !rules.isEmpty⟩ ::
      chainOccurrences (.rule (rule.style offset) :: above) (rule.middle offset) rules

/-! ## Characters and tokens -/

theorem noDigit_blanks (blanks : Blanks) : NoDigit blanks.text := by
  have signs : ∀ c ∈ ['\n', '\t', ' ', '\r', '\x0c'], c.isDigit = false :=
    List.all_iff_forall_prop.1 (by decide)
  intro c member
  exact signs c (mem_of_isBlank (blanks.blank c member))

private theorem noDigit_word {name : Word} (plain : name.IsPlain) : NoDigit name.text :=
  fun c member => not_isDigit_of_isAlpha (plain c member)

private theorem noDigit_char {c : Char} (notDigit : c.isDigit = false) : NoDigit [c] := by
  intro other member
  exact List.mem_singleton.1 member ▸ notDigit

private theorem noDigit_declarations (declarations : List PlainDeclaration) :
    NoDigit (declarationsText declarations) := by
  intro c member
  obtain ⟨declaration, _, inside⟩ := List.mem_flatMap.1 member
  have each : NoDigit declaration.text :=
    .append (noDigit_blanks _) (.append (noDigit_word declaration.plainName)
      (.append (noDigit_char (by decide : ':'.isDigit = false))
        (.append (noDigit_word declaration.plainValue) (noDigit_char (by decide)))))
  exact each c inside

private theorem noDigit_tail (rule : PlainRule) : NoDigit rule.tail :=
  .append (noDigit_declarations rule.late) (noDigit_blanks rule.inside)

theorem noDigit_chainText (rules : List PlainRule) : NoDigit (chainText rules) := by
  induction rules with
  | nil =>
      intro c member
      cases member
  | cons rule rules inductionHypothesis =>
      have inside := NoDigit.append (noDigit_declarations rule.early)
        (.append inductionHypothesis (noDigit_tail rule))
      exact .append (noDigit_blanks rule.before)
        (.append (noDigit_headText rule.plain rule.after)
          (.append (noDigit_char (by decide))
            (.append inside (noDigit_char (by decide)))))

theorem reads_blanks (blanks : Blanks) {rest : List Char} (ends : EndsBlanks rest) :
    Reads Token.isTame blanks.text rest :=
  (Reads.blanks blanks ends).mono fun _ => Token.isTame_of_isQuiet

private theorem endsBlanks_head (rule : PlainRule) (rest : List Char) :
    EndsBlanks (rule.head ++ rest) :=
  endsBlanks_of_bareStart
    ((rule.prelude_.bareStart (Argument.form Selector.maxNesting)).append rule.after.text) rest

private theorem reads_tail (rule : PlainRule) (rest : List Char) :
    Reads Token.isTame rule.tail ('\x7d' :: rest) :=
  .append (reads_declarations rule.late _)
    (reads_blanks rule.inside (endsBlanks_cons (by decide) rest))

theorem reads_chainText (rules : List PlainRule) (rest : List Char) :
    Reads Token.isTame (chainText rules) rest := by
  induction rules generalizing rest with
  | nil => exact .nil rest
  | cons rule rules inductionHypothesis =>
      have head := (readsQuiet_headText rule.plain rule.after
        ((declarationsText rule.early ++ (chainText rules ++ rule.tail)) ++ ['\x7d'] ++ rest)).mono
        fun _ => Token.isTame_of_isQuiet
      have inside := Reads.append (reads_declarations rule.early (chainText rules ++ rule.tail ++
        '\x7d' :: rest)) (.append (inductionHypothesis _) (reads_tail rule rest))
      have block : Reads Token.isTame (['\x7b'] ++ ((declarationsText rule.early ++
          (chainText rules ++ rule.tail)) ++ ['\x7d'])) rest :=
        .block (by decide) (Token.read_punctuation rfl) rfl rfl rfl rfl inside
      apply Reads.append
      · rw [List.append_assoc]
        exact reads_blanks rule.before (endsBlanks_head rule _)
      · exact .append head block

/-! ## Items -/

variable {inner : Option BlockReader} {source : List Char}

/-- What the items of a chain say about its rules; declarations around them say nothing. -/
structure Item.AreChain (items : List Item) (start : Nat) (rules : List PlainRule) : Prop where
  blocks : (items.any fun item => item.kind.isBlock) = !rules.isEmpty
  occurrences : ∀ above, occurrencesIn above items = chainOccurrences above start rules

private theorem ignored_declarations {items : List Item}
    (declarations : ∀ item ∈ items, item.IsDeclaration) :
    (items.any fun item => item.kind.isBlock) = false ∧
      ∀ above, occurrencesIn above items = [] := by
  induction items with
  | nil => exact ⟨rfl, fun _ => rfl⟩
  | cons item items inductionHypothesis =>
      obtain ⟨kind, span, rfl⟩ := declarations item List.mem_cons_self
      obtain ⟨noBlocks, noRules⟩ := inductionHypothesis fun other member =>
        declarations other (List.mem_cons_of_mem _ member)
      constructor
      · rw [List.any_cons, noBlocks]
        rfl
      · intro above
        rw [occurrencesIn, noRules]
        rfl

private theorem Item.AreChain.around {items early late : List Item} {start : Nat}
    {rules : List PlainRule} (chain : AreChain items start rules)
    (before : ∀ item ∈ early, item.IsDeclaration) (behind : ∀ item ∈ late, item.IsDeclaration) :
    AreChain (early ++ (items ++ late)) start rules := by
  obtain ⟨noBlocks, noRules⟩ := ignored_declarations before
  obtain ⟨noBlocksBehind, noRulesBehind⟩ := ignored_declarations behind
  constructor
  · rw [List.any_append, List.any_append, noBlocks, noBlocksBehind, chain.blocks, Bool.false_or,
      Bool.or_false]
  · intro above
    rw [occurrencesIn_append, occurrencesIn_append, noRules, noRulesBehind, chain.occurrences,
      List.nil_append, List.append_nil]

private theorem Item.areChain_nil (start : Nat) : AreChain [] start [] :=
  ⟨rfl, fun _ => rfl⟩

/-- The brace at the given byte that closes a block. -/
private def closingBrace (offset : Nat) : Piece :=
  ⟨.closing .curly, ⟨offset, offset + byteCount ['\x7d']⟩, false⟩

/-- The block of a rule without another rule inside it, where no block may stand any deeper. -/
private theorem readBlockContents_deepest (rule : PlainRule) {rest : List Char}
    (noDigit : NoDigit rest) (offset : Nat) :
    let stop := offset + byteCount (declarationsText rule.early ++ rule.tail)
    readBlockContents none
        (piecesAt offset ((declarationsText rule.early ++ rule.tail) ++ '\x7d' :: rest)) =
      ⟨[], [.nestedTooDeeply],
        closingBrace stop :: piecesAt (stop + byteCount ['\x7d']) rest⟩ := by
  have reads : Reads Token.isTame (declarationsText rule.early ++ rule.tail) ('\x7d' :: rest) :=
    .append (reads_declarations rule.early _) (reads_tail rule rest)
  have digits : NoDigit ((declarationsText rule.early ++ rule.tail) ++ '\x7d' :: rest) :=
    .append (.append (noDigit_declarations rule.early) (noDigit_tail rule))
      (.append (noDigit_char (by decide)) noDigit)
  obtain ⟨pieces, same, consists⟩ := reads digits offset
  rw [piecesAt_punctuation rfl] at same
  intro stop
  have closes : (closingBrace stop).token = .closing .curly := rfl
  rw [readBlockContents, same]
  exact congrArg (Contents.mk [] [.nestedTooDeeply]) (blockEnd_closing consists.nested closes _)

/-- The block of a rule, where what stands between its declarations is read as some items. -/
private theorem readItems_inside (rule : PlainRule) {middle rest : List Char} {offset : Nat}
    {items : List Item} {notices : List Notice}
    (read : readItems inner source true (piecesAt (offset + byteCount (declarationsText rule.early))
        (middle ++ (rule.tail ++ '\x7d' :: rest))) =
      (readItems inner source true (piecesAt
        (offset + byteCount (declarationsText rule.early) + byteCount middle)
        (rule.tail ++ '\x7d' :: rest))).prepend items notices) :
    let stop := offset + byteCount (declarationsText rule.early ++ (middle ++ rule.tail))
    ∃ before behind : List Item, (∀ item ∈ before, item.IsDeclaration) ∧
      (∀ item ∈ behind, item.IsDeclaration) ∧
      readItems inner source true (piecesAt offset
          ((declarationsText rule.early ++ (middle ++ rule.tail)) ++ '\x7d' :: rest)) =
        ⟨before ++ (items ++ behind), notices,
          closingBrace stop :: piecesAt (stop + byteCount ['\x7d']) rest⟩ := by
  obtain ⟨before, declarations, early⟩ := @readItems_declarations inner source rule.early true
    offset (middle ++ (rule.tail ++ '\x7d' :: rest))
  let there := offset + byteCount (declarationsText rule.early) + byteCount middle
  obtain ⟨behind, declarationsBehind, late⟩ := @readItems_declarations inner source rule.late true
    there (rule.inside.text ++ '\x7d' :: rest)
  have ends : readItems inner source true (piecesAt
      (there + byteCount (declarationsText rule.late))
      (rule.inside.text ++ '\x7d' :: rest)) =
      ⟨[], [], closingBrace (there + byteCount (declarationsText rule.late) +
          byteCount rule.inside.text) ::
        piecesAt (there + byteCount (declarationsText rule.late) + byteCount rule.inside.text +
          byteCount ['\x7d']) rest⟩ := by
    rw [readItems_blanks rule.inside true (endsBlanks_cons (by decide) rest),
      piecesAt_punctuation rfl, readItems_of_closing rfl]
    rfl
  have stop : offset + byteCount (declarationsText rule.early ++ (middle ++ rule.tail)) =
      there + byteCount (declarationsText rule.late) + byteCount rule.inside.text := by
    simp only [PlainRule.tail, byteCount_append, there, Nat.add_assoc]
  have tail : rule.tail ++ '\x7d' :: rest =
      declarationsText rule.late ++ (rule.inside.text ++ '\x7d' :: rest) :=
    List.append_assoc ..
  refine ⟨before, behind, declarations, declarationsBehind, ?_⟩
  rw [List.append_assoc, List.append_assoc, early, read, tail, late, ends, stop]
  simp [Contents.prepend]

/-- A rule around the items of a chain begins a longer one. -/
private theorem Item.areChain_rule (rule : PlainRule) {offset : Nat} {span : Span}
    (start : span.start = offset + byteCount rule.before.text) {items : List Item}
    {rules : List PlainRule}
    (chain : AreChain items (span.start + byteCount rule.head + byteCount ['\x7b'] +
      byteCount (declarationsText rule.early)) rules) :
    AreChain [⟨.rule ⟨rule.selector, span.start⟩, span, items⟩] offset (rule :: rules) := by
  constructor
  · rfl
  · intro above
    rw [occurrencesIn, Item.occurrences, occurrencesIn, chain.blocks, List.append_nil,
      chain.occurrences, chainOccurrences, start]
    rfl

/-- Wherever the chain stands in the source, it is read as written if at most `levels` blocks may
stand inside each other in those of its first rule. -/
def ReadsChain (source : List Char) (levels : Nat) (rules : List PlainRule) : Prop :=
  ∀ front rest : List Char, NoDigit rest → source = front ++ (chainText rules ++ rest) →
    ∀ nested, ∃ items notices, Item.AreChain items (byteCount front) rules ∧
      readItems (blockReader source levels) source nested
          (piecesAt (byteCount front) (chainText rules ++ rest)) =
        (readItems (blockReader source levels) source nested
          (piecesAt (byteCount front + byteCount (chainText rules)) rest)).prepend items notices

/-- The inside of the block of a rule with a chain in it. -/
private def blockText (rule : PlainRule) (rules : List PlainRule) : List Char :=
  declarationsText rule.early ++ (chainText rules ++ rule.tail)

private theorem noDigit_blockText (rule : PlainRule) (rules : List PlainRule) :
    NoDigit (blockText rule rules) :=
  .append (noDigit_declarations rule.early)
    (.append (noDigit_chainText rules) (noDigit_tail rule))

/-- The block is passed over where no rule may stand inside it, and is read otherwise. -/
private theorem readBlockContents_chain (rule : PlainRule) {rules : List PlainRule} {levels : Nat}
    (within : rules.length ≤ levels)
    (inside : ∀ lower, levels = lower + 1 → ReadsChain source lower rules)
    {front rest : List Char} (noDigit : NoDigit rest)
    (written : source = front ++ (blockText rule rules ++ '\x7d' :: rest)) :
    let stop := byteCount front + byteCount (blockText rule rules)
    ∃ items notices,
      Item.AreChain items (byteCount front + byteCount (declarationsText rule.early)) rules ∧
        readBlockContents (blockReader source levels)
            (piecesAt (byteCount front) (blockText rule rules ++ '\x7d' :: rest)) =
          ⟨items, notices, closingBrace stop :: piecesAt (stop + byteCount ['\x7d']) rest⟩ := by
  intro stop
  cases levels with
  | zero =>
      have alone : rules = [] := List.length_eq_zero_iff.1 (Nat.le_zero.1 within)
      subst alone
      exact ⟨[], [.nestedTooDeeply], Item.areChain_nil _,
        readBlockContents_deepest rule noDigit (byteCount front)⟩
  | succ levels =>
      have digits : NoDigit (rule.tail ++ '\x7d' :: rest) :=
        .append (noDigit_tail rule) (.append (noDigit_char (by decide)) noDigit)
      obtain ⟨items, notices, chain, read⟩ := inside levels rfl
        (front ++ declarationsText rule.early) (rule.tail ++ '\x7d' :: rest) digits
        (by simp [written, blockText]) true
      rw [byteCount_append] at chain read
      obtain ⟨before, behind, declarations, declarationsBehind, contents⟩ :=
        readItems_inside rule read
      exact ⟨before ++ (items ++ behind), notices,
        chain.around declarations declarationsBehind, contents⟩

private theorem readsChain_cons (rule : PlainRule) {rules : List PlainRule} {levels : Nat}
    (within : rules.length ≤ levels)
    (inside : ∀ lower, levels = lower + 1 → ReadsChain source lower rules) :
    ReadsChain source levels (rule :: rules) := by
  intro front rest noDigit written nested
  let ahead := front ++ rule.before.text
  let opened := byteCount ahead + byteCount rule.head + byteCount ['\x7b']
  let stop := opened + byteCount (blockText rule rules)
  have text : chainText (rule :: rules) ++ rest =
      rule.before.text ++ (rule.head ++ '\x7b' :: (blockText rule rules ++ '\x7d' :: rest)) := by
    simp [chainText, PlainRule.textAround, blockText]
  have placed : source =
      ahead ++ (rule.head ++ '\x7b' :: (blockText rule rules ++ '\x7d' :: rest)) := by
    rw [written, text]
    exact (List.append_assoc ..).symm
  have begins : byteCount ahead = byteCount front + byteCount rule.before.text :=
    byteCount_append _ _
  have opens : byteCount (ahead ++ (rule.head ++ ['\x7b'])) = opened := by
    simp only [byteCount_append, opened, Nat.add_assoc]
  have ends : byteCount front + byteCount (chainText (rule :: rules)) =
      stop + byteCount ['\x7d'] := by
    simp only [chainText, PlainRule.textAround, byteCount_append, stop, opened, ahead, blockText,
      Nat.add_assoc]
  have block := readBlockContents_chain rule within inside noDigit
    (placed.trans (by simp : _ = (ahead ++ (rule.head ++ ['\x7b'])) ++
      (blockText rule rules ++ '\x7d' :: rest)))
  rw [opens] at block
  obtain ⟨items, notices, chain, read⟩ := block
  have digits : NoDigit (blockText rule rules ++ '\x7d' :: rest) :=
    .append (noDigit_blockText rule rules) (.append (noDigit_char (by decide)) noDigit)
  have same := readItems_rule rule.plain rule.after digits nested rfl read placed
  let span : Span := ⟨byteCount ahead, stop + byteCount ['\x7d']⟩
  have longer := @Item.areChain_rule rule (byteCount front) span begins items rules chain
  refine ⟨_, notices, longer, ?_⟩
  rw [text, readItems_blanks rule.before nested (endsBlanks_head rule _), ← begins, ends]
  exact same

/-- A chain of rules is read as written if its rules stand no deeper than blocks may. -/
theorem readsChain (source : List Char) (rules : List PlainRule) {levels : Nat}
    (within : rules.length ≤ levels + 1) : ReadsChain source levels rules := by
  induction rules generalizing levels with
  | nil =>
      intro front rest _ _ nested
      exact ⟨[], [], Item.areChain_nil _, rfl⟩
  | cons rule rules inductionHypothesis =>
      have fewer : rules.length ≤ levels := Nat.le_of_succ_le_succ within
      apply readsChain_cons rule fewer
      rintro lower rfl
      exact inductionHypothesis fewer

end CssLint.Sheet
