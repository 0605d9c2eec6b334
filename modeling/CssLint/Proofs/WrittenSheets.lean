import CssLint.Proofs.Sheet.Numbered
import CssLint.Proofs.Sheet.PhraseItems

/-!
# Written style sheets are read back

A style sheet as it is written: rules, at-rules and declarations whose texts are
phrases, with any blank characters between them and around their braces.  If no
block stands deeper than blocks may, its tree has exactly these items, each in front
of those in its block, with their texts and places.
-/

namespace CssLint

namespace Sheet

open Selector.Written Text

/-! ## Written items -/

/-- An item with a block or with a semicolon, and the blank characters in front of it, behind its
head, and in front of the brace that closes its block. -/
inductive WrittenItem where
  | block (before : Blanks) (head : BlockHead) (after : Blanks) (items : List WrittenItem)
      (inside : Blanks)
  | line (before : Blanks) (head : LineHead) (after : Blanks)

mutual

def WrittenItem.text : WrittenItem → List Char
  | .block before head after items inside =>
    before.text ++ (head.text ++ after.text ++
      '\x7b' :: (writtenText items ++ (inside.text ++ ['\x7d'])))
  | .line before head after => before.text ++ (head.text ++ after.text ++ [';'])

def writtenText : List WrittenItem → List Char
  | [] => []
  | item :: items => item.text ++ writtenText items

end

mutual

/-- How many blocks stand inside each other, that of the item included. -/
def WrittenItem.depth : WrittenItem → Nat
  | .block _ _ _ items _ => writtenDepth items + 1
  | .line _ _ _ => 0

def writtenDepth : List WrittenItem → Nat
  | [] => 0
  | item :: items => max item.depth (writtenDepth items)

end

mutual

/-- The item that is written, where `offset` is the place of the first byte. -/
def WrittenItem.item (offset : Nat) : WrittenItem → Item
  | .block before head after items inside =>
    let start := offset + byteCount before.text
    let opened := start + byteCount (head.text ++ after.text) + byteCount ['\x7b']
    let stop := opened + byteCount (writtenText items) + byteCount inside.text +
      byteCount ['\x7d']
    ⟨head.kind start, ⟨start, stop⟩, itemsWritten opened items⟩
  | .line before head after =>
    let start := offset + byteCount before.text
    ⟨head.kind, ⟨start, start + byteCount (head.text ++ after.text) + byteCount [';']⟩, []⟩

def itemsWritten (offset : Nat) : List WrittenItem → List Item
  | [] => []
  | item :: items => item.item offset :: itemsWritten (offset + byteCount item.text) items

end

/-! ## Texts without sigils -/

private theorem splits_blanks (blanks : Blanks) {rest : List Char} (ends : EndsBlanks rest) :
    Splits blanks.text rest := by
  obtain ⟨text, blank⟩ := blanks
  cases text with
  | nil => exact .nil rest
  | cons c text =>
      obtain ⟨first, more⟩ := List.forall_mem_cons.1 blank
      exact .token (ne_of_isBlank first (by decide)) (Token.read_blanks first more ends) rfl

private theorem splits_punctuation {c : Char} {token : Token}
    (punctuation : Token.ofPunctuation? c = some token) (tame : token.isTame = true)
    (rest : List Char) : Splits [c] rest := by
  have notSlash : c ≠ '/' := by
    rintro rfl
    cases punctuation
  exact .token notSlash (Token.read_punctuation punctuation rest) tame

mutual

private theorem WrittenItem.splits (rest : List Char) : (item : WrittenItem) →
    Splits item.text rest
  | .block before head after items inside => by
    have closing := splits_punctuation (c := '\x7d') rfl rfl rest
    have last := (splits_blanks inside (endsBlanks_cons (by decide) rest)).append closing
    have body := (splits_writtenText (inside.text ++ ['\x7d'] ++ rest) items).append last
    have opening := (splits_punctuation (c := '\x7b') rfl rfl _).append body
    have whole := (head.splits after (endsPhrase_cons (by decide) _)).append opening
    exact (splits_blanks before (by
      rw [List.append_assoc]
      exact head.endsBlanks after _)).append whole
  | .line before head after => by
    have semicolon := splits_punctuation (c := ';') rfl rfl rest
    have whole := (head.splits after (endsPhrase_cons (by decide) _)).append semicolon
    exact (splits_blanks before (by
      rw [List.append_assoc]
      exact head.endsBlanks after _)).append whole

private theorem splits_writtenText (rest : List Char) : (items : List WrittenItem) →
    Splits (writtenText items) rest
  | [] => .nil rest
  | item :: items => (item.splits (writtenText items ++ rest)).append
      (splits_writtenText rest items)

end

/-! ## Reading back -/

variable {inner : Option BlockReader} {source : List Char}

/-- The blank characters at the end of a block, and the brace that closes it. -/
private theorem readItems_closing (inside : Blanks) (offset : Nat) (rest : List Char) :
    readItems inner source true (piecesAt offset (inside.text ++ '\x7d' :: rest)) =
      ⟨[], [], ⟨.closing .curly, ⟨offset + byteCount inside.text,
          offset + byteCount inside.text + byteCount ['\x7d']⟩, false⟩ ::
        piecesAt (offset + byteCount inside.text + byteCount ['\x7d']) rest⟩ := by
  rw [readItems_blanks inside true (endsBlanks_cons (by decide) rest), piecesAt_punctuation rfl,
    readItems_of_closing rfl]

mutual

/-- Wherever an item stands, it is read as written if its blocks are no deeper than the reader
reaches. -/
private theorem WrittenItem.readItems {levels : Nat} (nested : Bool) {front rest : List Char} :
    (item : WrittenItem) → item.depth ≤ levels → source = front ++ (item.text ++ rest) →
    Sheet.readItems (blockReader source levels) source nested
        (piecesAt (byteCount front) (item.text ++ rest)) =
      (Sheet.readItems (blockReader source levels) source nested
        (piecesAt (byteCount front + byteCount item.text) rest)).prepend
        [item.item (byteCount front)] []
  | .block before head after items inside, within, written => by
    obtain ⟨lower, rfl⟩ : ∃ lower, levels = lower + 1 :=
      Nat.exists_eq_add_one.2 (Nat.lt_of_lt_of_le (Nat.succ_pos _) within)
    let ahead := front ++ before.text
    let body := writtenText items ++ (inside.text ++ '\x7d' :: rest)
    have joined : (WrittenItem.block before head after items inside).text ++ rest =
        before.text ++ (head.text ++ after.text ++ '\x7b' :: body) := by
      simp [WrittenItem.text, body]
    have placed : source = ahead ++ (head.text ++ after.text ++ '\x7b' :: body) := by
      rw [written, joined, ← List.append_assoc]
    have begins : byteCount ahead = byteCount front + byteCount before.text :=
      byteCount_append _ _
    have opens : byteCount (ahead ++ (head.text ++ after.text ++ ['\x7b'])) =
        byteCount ahead + byteCount (head.text ++ after.text) + byteCount ['\x7b'] := by
      rw [byteCount_append, byteCount_append (head.text ++ after.text), Nat.add_assoc]
    have contents := readItems_written true items (Nat.le_of_succ_le_succ within)
      (placed.trans (by simp [body] : _ = (ahead ++ (head.text ++ after.text ++ ['\x7b'])) ++
        (writtenText items ++ (inside.text ++ '\x7d' :: rest))))
    rw [opens, readItems_closing] at contents
    simp only [Contents.prepend, List.append_nil] at contents
    have block : readBlockContents (blockReader source (lower + 1))
        (piecesAt (byteCount ahead + byteCount (head.text ++ after.text) + byteCount ['\x7b'])
          body) = _ := contents
    have read := head.readItems after nested rfl block placed
    have size : byteCount front +
        byteCount (WrittenItem.block before head after items inside).text =
        byteCount ahead + byteCount (head.text ++ after.text) + byteCount ['\x7b'] +
          byteCount (writtenText items) + byteCount inside.text + byteCount ['\x7d'] := by
      simp only [WrittenItem.text, byteCount_append, byteCount_cons, byteCount_nil, ahead,
        Nat.add_zero, Nat.add_assoc]
    rw [joined, readItems_blanks before nested (head.endsBlanks after _), ← begins, read, size,
      WrittenItem.item]
    simp only [begins]
  | .line before head after, _, written => by
    have joined : (WrittenItem.line before head after).text ++ rest =
        before.text ++ (head.text ++ after.text ++ ';' :: rest) := by
      simp [WrittenItem.text]
    have placed : source = (front ++ before.text) ++ (head.text ++ after.text ++ ';' :: rest) := by
      rw [written, joined, ← List.append_assoc]
    have size : byteCount front + byteCount (WrittenItem.line before head after).text =
        byteCount (front ++ before.text) + byteCount (head.text ++ after.text) +
          byteCount [';'] := by
      simp only [WrittenItem.text, byteCount_append, Nat.add_assoc]
    rw [joined, readItems_blanks before nested (head.endsBlanks after _), ← byteCount_append,
      head.readItems after nested placed, size, WrittenItem.item]
    simp only [byteCount_append]

private theorem readItems_written {levels : Nat} (nested : Bool) {front rest : List Char} :
    (items : List WrittenItem) → writtenDepth items ≤ levels →
    source = front ++ (writtenText items ++ rest) →
    Sheet.readItems (blockReader source levels) source nested
        (piecesAt (byteCount front) (writtenText items ++ rest)) =
      (Sheet.readItems (blockReader source levels) source nested
        (piecesAt (byteCount front + byteCount (writtenText items)) rest)).prepend
        (itemsWritten (byteCount front) items) []
  | [], _, _ => rfl
  | item :: items, within, written => by
    obtain ⟨first, later⟩ := Nat.max_le.1 within
    have joined : writtenText (item :: items) ++ rest =
        item.text ++ (writtenText items ++ rest) := List.append_assoc ..
    have size : byteCount (front ++ item.text) = byteCount front + byteCount item.text :=
      byteCount_append _ _
    have here := item.readItems nested first (written.trans (congrArg (front ++ ·) joined))
    have behind := readItems_written nested items later
      (written.trans ((congrArg (front ++ ·) joined).trans (List.append_assoc ..).symm))
    rw [size] at behind
    rw [joined, here, behind, writtenText, byteCount_append, ← Nat.add_assoc]
    rfl

end

/-! ## Style sheets -/

/-- The text of a style sheet, with blank characters behind the last item. -/
def sheetWritten (items : List WrittenItem) (last : Blanks) : List Char :=
  writtenText items ++ last.text

/-- A written style sheet is read without notices, with its items and no others. -/
theorem contents_sheetWritten {items : List WrittenItem} (within : writtenDepth items ≤ maxNesting)
    (last : Blanks) :
    contents (sheetWritten items last) = ⟨itemsWritten 0 items, [], []⟩ := by
  have splits : Splits (sheetWritten items last) [] := by
    refine (splits_writtenText _ items).append (splits_blanks last endsBlanks_nil)
  have tame : ∀ piece ∈ piecesAt 0 (sheetWritten items last), piece.token.isTame = true := by
    obtain ⟨pieces, same, tame⟩ := splits 0
    rw [List.append_nil, piecesAt_nil, List.append_nil] at same
    rwa [same]
  have read := @readItems_written (sheetWritten items last) maxNesting false [] last.text items
    within rfl
  have blanks := @readItems_blanks (blockReader (sheetWritten items last) maxNesting)
    (sheetWritten items last) last false [] endsBlanks_nil
      (byteCount [] + byteCount (writtenText items))
  rw [List.append_nil, piecesAt_nil, Sheet.readItems] at blanks
  rw [blanks] at read
  rw [contents, ofText_eq_piecesAt_of_isTame tame]
  refine read.trans ?_
  rw [Contents.prepend, List.append_nil]
  rfl

end Sheet

open Sheet Selector.Written Text

/-- The tree of a written style sheet has exactly its items, in the order of the text: each with its
text and place, and with its parent and children as they stand inside each other. -/
theorem Stylesheet.nodes_ofText_written {items : List WrittenItem}
    (within : writtenDepth items ≤ maxNesting) (last : Blanks) :
    (ofText (sheetWritten items last)).nodes.toList =
      ⟨.root, none, numbers 1 (itemsWritten 0 items),
        ⟨0, byteCount (sheetWritten items last)⟩⟩ ::
      nodesOf root 1 (itemsWritten 0 items) := by
  rw [ofText, contents_sheetWritten within last, nodes_ofItems]

/-- An at-rule with a rule in its block, and behind it an at-rule without one. -/
theorem Stylesheet.nodes_ofText_written_media :
    ∃ items last, sheetWritten items last =
        ("@media screen \x7b\na.b \x7bcolor: dark-red;\x7d\n\x7d\n" ++
          "@import x.1;\n").toList ∧
      writtenDepth items ≤ maxNesting ∧
      (ofText (sheetWritten items last)).nodes.toList =
        [⟨.root, none, [1, 4], ⟨0, 54⟩⟩,
          ⟨.atRule ⟨"media".toList, "screen".toList, true⟩, some 0, [2], ⟨0, 40⟩⟩,
          ⟨.rule ⟨"a.b".toList, 16⟩, some 1, [3], ⟨16, 38⟩⟩,
          ⟨.declaration ⟨"color".toList, "dark-red".toList⟩, some 2, [], ⟨21, 37⟩⟩,
          ⟨.atRule ⟨"import".toList, "x.1".toList, false⟩, some 0, [], ⟨41, 53⟩⟩] := by
  let nothing : Blanks := ⟨[], List.all_iff_forall_prop.1 (by decide)⟩
  let space : Blanks := ⟨[' '], List.all_iff_forall_prop.1 (by decide)⟩
  let line : Blanks := ⟨['\n'], List.all_iff_forall_prop.1 (by decide)⟩
  let gap : Gap := ⟨space, List.cons_ne_nil _ _⟩
  let media : AtHead :=
    ⟨⟨"media".toList, by decide, List.all_iff_forall_prop.1 (by decide)⟩, gap,
      ⟨"screen".toList, by decide⟩⟩
  let import_ : AtHead :=
    ⟨⟨"import".toList, by decide, List.all_iff_forall_prop.1 (by decide)⟩, gap,
      ⟨"x.1".toList, by decide⟩⟩
  let color : LineHead := .declaration
    ⟨"color".toList, by decide, List.all_iff_forall_prop.1 (by decide)⟩ space
    ⟨"dark-red".toList, by decide⟩
  let rule : WrittenItem := .block line (.rule ⟨"a.b".toList, by decide⟩) space
    [.line nothing color nothing] nothing
  let items : List WrittenItem :=
    [.block nothing (.atRule media) space [rule] line, .line line (.atRule import_) nothing]
  have within : writtenDepth items ≤ maxNesting := by decide
  refine ⟨items, line, by decide, within, ?_⟩
  rw [nodes_ofText_written within]
  decide

end CssLint
