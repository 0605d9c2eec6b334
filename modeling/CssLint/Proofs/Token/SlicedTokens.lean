import CssLint.Proofs.Token.ChangeRead
import CssLint.Proofs.Token.PlainRead
import CssLint.Proofs.Token.Slices

/-!
# Tokens of their own texts

The text that a token was read from gives the same token when it stands alone.  The
exceptions are a string that a line feed breaks off, a backslash that escapes nothing,
and a function that is called like an address: what makes them so stands behind them.
-/

namespace CssLint

open Text

/-- What the reader takes of the text, which gives the same when nothing follows it. -/
structure Alone {α : Type} (reader : List Char → α × List Char) (text own : List Char) : Prop where
  split : text = own ++ (reader text).2
  again : reader own = ((reader text).1, [])

/-- A reader that goes on as another one behind the front of the text takes the front and what
that one takes. -/
theorem Alone.wrap {α β : Type} {reader : List Char → α × List Char}
    {other : List Char → β × List Char} {text front inside own : List Char}
    (alone : Alone reader inside own) (wrap : α → β) (joined : text = front ++ inside)
    (whole : other text = (wrap (reader inside).1, (reader inside).2))
    (cut : other (front ++ own) = (wrap (reader own).1, (reader own).2)) :
    Alone other text (front ++ own) where
  split := by rw [whole, List.append_assoc, ← alone.split, joined]
  again := by rw [cut, whole, alone.again]

/-- What begins a name or a number is not nothing, so it goes on from the first character. -/
theorem Alone.exists_cons {α : Type} {reader : List Char → α × List Char} {c : Char}
    {text own : List Char} (alone : Alone reader (c :: text) own)
    (begins : Name.starts own = true ∨ Numeral.starts own = true) :
    ∃ more, own = c :: more ∧ text = more ++ (reader (c :: text)).2 := by
  cases own with
  | nil => exact absurd begins (by decide)
  | cons d more =>
      obtain ⟨rfl, rest⟩ := List.cons.inj alone.split
      exact ⟨more, rfl, rest⟩

/-- Behind an escape that is not the end of the text its first character stays the same. -/
theorem Name.EscapeSlice.head?_append {d : Char} {text own : List Char}
    (slice : EscapeSlice text own) (begins : text.head? = some d) (front : List Char) :
    (own ++ front).head? = some d := by
  rw [List.head?_append, slice.head, begins, Option.some_or]

namespace Token

/-- Whether a token is the same when the text behind it is not there. -/
def standsAlone : Token → Bool
  | badString => false
  | delim c => c != '\\'
  | function name => !alike name ['u', 'r', 'l']
  | _ => true

/-! ## Strings -/

theorem readString_feed {quote : Char} (notQuote : ¬ '\\' = quote) (text : List Char) :
    readString quote ('\\' :: '\n' :: text) = readString quote text := by
  rw [readString, if_neg notQuote]
  simp

theorem readString_escape {quote d : Char} {text : List Char} (notQuote : ¬ '\\' = quote)
    (begins : text.head? = some d) (noFeed : d ≠ '\n') :
    readString quote ('\\' :: text) =
      ((readString quote (Name.readEscape text).2).1.map ((Name.readEscape text).1 :: ·),
        (readString quote (Name.readEscape text).2).2) := by
  obtain ⟨rest, rfl⟩ := List.head?_eq_some_iff.1 begins
  rw [readString, if_neg notQuote]
  simp [noFeed]

/-- A string that no line feed breaks off. -/
theorem exists_readString_alone {quote : Char} {text : List Char}
    (closed : (readString quote text).1 ≠ none) : ∃ own, Alone (readString quote) text own := by
  fun_induction readString quote text with
  | case1 => exact ⟨[], by simp [readString], by simp [readString]⟩
  | case2 text => exact ⟨[quote], by simp [readString], by simp [readString]⟩
  | case3 => exact absurd rfl closed
  | case4 text empty notQuote =>
      obtain rfl := List.isEmpty_iff.1 empty
      exact ⟨['\\'], by simp [readString, notQuote], by simp [readString, notQuote]⟩
  | case5 text nonempty feed notQuote notFeed inductionHypothesis =>
      obtain ⟨rest, rfl⟩ := List.head?_eq_some_iff.1 feed
      obtain ⟨own, alone⟩ := inductionHypothesis closed
      exact ⟨['\\', '\n'] ++ own,
        alone.wrap id rfl (readString_feed notQuote rest) (readString_feed notQuote own)⟩
  | case6 text nonempty noFeed escape more notQuote notFeed inductionHypothesis =>
      have closed' : more.1 ≠ none := fun none => closed (by rw [none]; rfl)
      obtain ⟨own, alone⟩ := inductionHypothesis closed'
      obtain ⟨escapeOwn, slice⟩ := Name.exists_escapeSlice text
      have escaped := slice.again own ⟨_, alone.split.symm⟩
      obtain ⟨d, begins⟩ : ∃ d, text.head? = some d := by
        cases text with
        | nil => exact absurd rfl nonempty
        | cons d text => exact ⟨d, rfl⟩
      have other : d ≠ '\n' := fun same => noFeed (by rw [begins, same])
      have cut := readString_escape notQuote (slice.head?_append begins own) other
      rw [escaped] at cut
      exact ⟨'\\' :: escapeOwn ++ own,
        alone.wrap (Option.map (escape.1 :: ·)) (congrArg ('\\' :: ·) slice.split)
          (readString_escape notQuote begins other) cut⟩
  | case7 c text notQuote notFeed notBackslash more inductionHypothesis =>
      have closed' : more.1 ≠ none := fun none => closed (by rw [none]; rfl)
      obtain ⟨own, alone⟩ := inductionHypothesis closed'
      have step : ∀ text, readString quote (c :: text) =
          ((readString quote text).1.map (c :: ·), (readString quote text).2) := by
        intro text
        rw [readString, if_neg notQuote, if_neg notFeed, if_neg notBackslash]
      exact ⟨[c] ++ own, alone.wrap (Option.map (c :: ·)) rfl (step text) (step own)⟩

/-! ## Addresses -/

theorem exists_badUrlReader_alone (text : List Char) :
    ∃ own, Alone badUrlReader text own ∧ own.head? = text.head? := by
  fun_induction skipBadUrl text with
  | case1 => exact ⟨[], ⟨by simp [badUrlReader, skipBadUrl], by simp [badUrlReader, skipBadUrl]⟩, rfl⟩
  | case2 text =>
      exact ⟨[')'], ⟨by simp [badUrlReader, skipBadUrl], by simp [badUrlReader, skipBadUrl]⟩, rfl⟩
  | case3 c text notClose begins inductionHypothesis =>
      obtain ⟨own, alone, -⟩ := inductionHypothesis
      obtain ⟨escapeOwn, slice⟩ := Name.exists_escapeSlice text
      have behind : own <+: (Name.readEscape text).2 := ⟨_, alone.split.symm⟩
      have begins' :=
        Name.startsEscape_of_cut (cut_append slice.split.symm behind) begins
      have step : ∀ text, Name.startsEscape (c :: text) = true →
          badUrlReader (c :: text) = badUrlReader (Name.readEscape text).2 := by
        intro text begins
        rw [badUrlReader, skipBadUrl, if_neg notClose, if_pos begins, badUrlReader]
      have cut := step _ begins'
      rw [slice.again own behind] at cut
      exact ⟨c :: escapeOwn ++ own,
        alone.wrap id (congrArg (c :: ·) slice.split) (step text begins) cut, rfl⟩
  | case4 c text notClose begins inductionHypothesis =>
      obtain ⟨own, alone, head⟩ := inductionHypothesis
      have begins' : ¬ Name.startsEscape (c :: own) = true := by
        rwa [Name.startsEscape_congr head]
      have step : ∀ text, ¬ Name.startsEscape (c :: text) = true →
          badUrlReader (c :: text) = badUrlReader text := by
        intro text begins
        rw [badUrlReader, skipBadUrl, if_neg notClose, if_neg begins, badUrlReader]
      exact ⟨[c] ++ own, alone.wrap id rfl (step text begins) (step own begins'), rfl⟩

theorem exists_readUrl_alone (text : List Char) : ∃ own, Alone readUrl text own := by
  fun_induction readUrl text with
  | case1 => exact ⟨[], by simp [readUrl], by simp [readUrl]⟩
  | case2 text => exact ⟨[')'], by simp [readUrl], by simp [readUrl]⟩
  | case3 c text notClose blank dropped =>
      have whole : readUrl (c :: text) = (some [], []) := by
        rw [readUrl_blank blank, List.dropWhile_cons_of_pos blank, dropped]
      exact ⟨c :: text, by rw [whole, List.append_nil], by rw [whole]⟩
  | case4 c text notClose blank rest dropped =>
      obtain ⟨-, dropped'⟩ : _ ∧ (text.takeWhile isBlank ++ [')']).dropWhile isBlank = [')'] :=
        span_cut (by rw [dropped]; exact ⟨rest, rfl⟩)
      have whole : readUrl (c :: text) = (some [], rest) := by
        rw [readUrl_blank blank, List.dropWhile_cons_of_pos blank, dropped]
        rfl
      have joined := @List.takeWhile_append_dropWhile _ isBlank text
      rw [dropped] at joined
      refine ⟨c :: (text.takeWhile isBlank ++ [')']), ?_, ?_⟩
      · rw [whole, List.cons_append, List.append_assoc]
        exact congrArg (c :: ·) joined.symm
      · rw [whole, readUrl_blank blank, List.dropWhile_cons_of_pos blank, dropped']
        rfl
  | case5 c text notClose blank next rest dropped nextNotClose =>
      obtain ⟨own, alone, head⟩ := exists_badUrlReader_alone (next :: rest)
      obtain ⟨more, rfl⟩ := List.head?_eq_some_iff.1 head
      have behind : next :: more <+: text.dropWhile isBlank :=
        dropped ▸ ⟨_, alone.split.symm⟩
      obtain ⟨-, dropped'⟩ := span_cut behind
      have joined := @List.takeWhile_append_dropWhile _ isBlank text
      rw [dropped] at joined
      refine ⟨c :: text.takeWhile isBlank ++ next :: more,
        alone.wrap id (congrArg (c :: ·) joined.symm) ?_ ?_⟩
      · rw [readUrl_blank blank, List.dropWhile_cons_of_pos blank, dropped]
        exact if_neg nextNotClose
      · rw [List.cons_append, readUrl_blank blank, List.dropWhile_cons_of_pos blank, dropped']
        exact if_neg nextNotClose
  | case6 c text notClose blank quote =>
      obtain ⟨own, alone, -⟩ := exists_badUrlReader_alone text
      have step : ∀ text, readUrl (c :: text) = badUrlReader text := by
        intro text
        rw [readUrl, if_neg notClose, if_neg blank, if_pos quote, badUrlReader]
      exact ⟨[c] ++ own, alone.wrap id rfl (step text) (step own)⟩
  | case7 text escape more notClose blank quote begins inductionHypothesis =>
      obtain ⟨own, alone⟩ := inductionHypothesis
      obtain ⟨escapeOwn, slice⟩ := Name.exists_escapeSlice text
      have behind : own <+: (Name.readEscape text).2 := ⟨_, alone.split.symm⟩
      have begins' :=
        Name.startsEscape_of_cut (cut_append slice.split.symm behind) begins
      have step : ∀ text, Name.startsEscape ('\\' :: text) = true → readUrl ('\\' :: text) =
          ((readUrl (Name.readEscape text).2).1.map ((Name.readEscape text).1 :: ·),
            (readUrl (Name.readEscape text).2).2) := by
        intro text begins
        rw [readUrl, if_neg notClose, if_neg blank, if_neg quote, if_pos rfl, if_pos begins]
      have cut := step _ begins'
      rw [slice.again own behind] at cut
      exact ⟨'\\' :: escapeOwn ++ own,
        alone.wrap (Option.map (escape.1 :: ·)) (congrArg ('\\' :: ·) slice.split)
          (step text begins) cut⟩
  | case8 text notClose blank quote begins =>
      obtain ⟨own, alone, head⟩ := exists_badUrlReader_alone text
      have begins' : ¬ Name.startsEscape ('\\' :: own) = true := by
        rwa [Name.startsEscape_congr head]
      have step : ∀ text, ¬ Name.startsEscape ('\\' :: text) = true →
          readUrl ('\\' :: text) = badUrlReader text := by
        intro text begins
        rw [readUrl, if_neg notClose, if_neg blank, if_neg quote, if_pos rfl, if_neg begins,
          badUrlReader]
      exact ⟨['\\'] ++ own, alone.wrap id rfl (step text begins) (step own begins')⟩
  | case9 c text notClose blank quote notBackslash more inductionHypothesis =>
      obtain ⟨own, alone⟩ := inductionHypothesis
      have step : ∀ text, readUrl (c :: text) =
          ((readUrl text).1.map (c :: ·), (readUrl text).2) := by
        intro text
        rw [readUrl, if_neg notClose, if_neg blank, if_neg quote, if_neg notBackslash]
      exact ⟨[c] ++ own, alone.wrap (Option.map (c :: ·)) rfl (step text) (step own)⟩

/-! ## Names and numbers with what follows -/

theorem startsQuote_of_cut {front text : List Char} (cut : front <+: text)
    (begins : startsQuote front = true) : startsQuote text = true := by
  cases front with
  | nil => cases begins
  | cons c front =>
      obtain ⟨more, rfl⟩ := cut
      exact begins

/-- An address without quotes behind the parenthesis. -/
theorem readIdentLike_url {text argument name : List Char}
    (read : Name.read text = (name, '(' :: argument))
    (address : (alike name ['u', 'r', 'l'] && !startsQuote (argument.dropWhile isBlank)) = true) :
    readIdentLike text = ((readUrl (argument.dropWhile isBlank)).1.elim badUrl url,
      (readUrl (argument.dropWhile isBlank)).2) := by
  have found : after? ['('] ('(' :: argument) = some argument := rfl
  simp only [readIdentLike, read, found, address, if_true]
  rcases readUrl (argument.dropWhile isBlank) with ⟨_ | value, rest⟩ <;> rfl

section Called

variable {text nameOwn argument : List Char} (slice : Name.NameSlice text nameOwn)
  (found : after? ['('] (Name.read text).2 = some argument)

include found

/-- A parenthesis behind the name and a beginning of what follows it are a cut. -/
theorem isCut_parenthesis {front : List Char} (cut : front <+: argument) :
    Name.IsCut ('(' :: front) (Name.read text).2 := by
  rw [eq_append_of_after? found]
  exact ⟨List.cons_prefix_cons.2 ⟨rfl, cut⟩, rfl⟩

include slice

/-- A name with an address behind it takes what the address takes. -/
theorem exists_readIdentLike_alone_url (address : (alike (Name.read text).1 ['u', 'r', 'l'] &&
      !startsQuote (argument.dropWhile isBlank)) = true) :
    ∃ own, Alone readIdentLike text own ∧ Name.starts own = Name.starts text := by
  obtain ⟨own, alone⟩ := exists_readUrl_alone (argument.dropWhile isBlank)
  have behind : (Name.read text).2 = '(' :: argument := eq_append_of_after? found
  have cut : own <+: argument.dropWhile isBlank := ⟨_, alone.split.symm⟩
  have joined := @List.takeWhile_append_dropWhile _ isBlank argument
  have isCut := isCut_parenthesis found (cut_append joined cut)
  obtain ⟨-, dropped⟩ := span_cut cut
  have address' : (alike (Name.read text).1 ['u', 'r', 'l'] && !startsQuote
      ((argument.takeWhile isBlank ++ own).dropWhile isBlank)) = true := by
    obtain ⟨isUrl, noQuote⟩ := Bool.and_eq_true_iff.1 address
    rw [dropped, isUrl, Bool.true_and, Bool.not_eq_true']
    refine Bool.eq_false_iff.2 fun quote => ?_
    rw [startsQuote_of_cut cut quote] at noQuote
    cases noQuote
  have ofOwn := readIdentLike_url (slice.again _ isCut) address'
  rw [dropped] at ofOwn
  refine ⟨nameOwn ++ ('(' :: argument.takeWhile isBlank ++ own), ?_, slice.starts _ isCut⟩
  rw [← List.append_assoc]
  refine alone.wrap (fun value => value.elim badUrl url) ?_
    (readIdentLike_url (Prod.ext rfl behind) address) ?_
  · rw [List.append_assoc, List.cons_append, joined, ← behind]
    exact slice.split
  · rw [List.append_assoc]
    exact ofOwn

end Called

theorem exists_readIdentLike_alone {text : List Char}
    (stands : (readIdentLike text).1.standsAlone = true) :
    ∃ own, Alone readIdentLike text own ∧ Name.starts own = Name.starts text := by
  obtain ⟨nameOwn, slice⟩ := Name.exists_nameSlice text
  cases found : after? ['('] (Name.read text).2 with
  | none =>
      obtain ⟨again, -, -, starts⟩ := slice.alone
      have whole : readIdentLike text = (ident (Name.read text).1, (Name.read text).2) := by
        simp only [readIdentLike, found]
      refine ⟨nameOwn, ⟨by rw [whole]; exact slice.split, ?_⟩, starts⟩
      rw [whole, readIdentLike, again]
      rfl
  | some argument =>
      by_cases address : (alike (Name.read text).1 ['u', 'r', 'l'] &&
          !startsQuote (argument.dropWhile isBlank)) = true
      · exact exists_readIdentLike_alone_url slice found address
      · have whole : readIdentLike text = (function (Name.read text).1, argument) := by
          simp only [readIdentLike, found, address, if_false, Bool.false_eq_true]
        have isCut := isCut_parenthesis found List.nil_prefix
        have again := slice.again _ isCut
        -- What is no address for the quote behind it would be one when nothing is.
        have noUrl : alike (Name.read text).1 ['u', 'r', 'l'] = false := by
          rw [whole] at stands
          simpa [standsAlone] using stands
        refine ⟨nameOwn ++ ['('], ⟨?_, ?_⟩, slice.starts _ isCut⟩
        · rw [whole, List.append_assoc, List.singleton_append]
          exact slice.split.trans (congrArg (nameOwn ++ ·) (eq_append_of_after? found))
        · rw [whole, readIdentLike, again]
          simp [after?, noUrl]

theorem exists_readNumeric_alone {text : List Char} (begins : Numeral.starts text = true) :
    ∃ own, Alone readNumeric text own ∧ Numeral.starts own = true := by
  have joined := Numeral.read_append text
  have again : ∀ front, front <+: (Numeral.read text).2 →
      Numeral.read ((Numeral.read text).1 ++ front) = ((Numeral.read text).1, front) ∧
        Numeral.starts ((Numeral.read text).1 ++ front) = true := by
    intro front cut
    exact ⟨Numeral.read_cuts text front cut,
      Numeral.starts_of_cut (List.prefix_append _ front) (Numeral.starts_read begins)⟩
  by_cases ofUnit : Name.starts (Numeral.read text).2 = true
  · obtain ⟨unitOwn, slice⟩ := Name.exists_nameSlice (Numeral.read text).2
    obtain ⟨unit, -, -, ofUnit'⟩ := slice.alone
    obtain ⟨digits, starts⟩ := again unitOwn ⟨_, slice.split.symm⟩
    have whole : readNumeric text =
        (dimension (Numeral.read text).1 (Name.read (Numeral.read text).2).1,
          (Name.read (Numeral.read text).2).2) := by
      simp only [readNumeric, ofUnit, if_true]
    refine ⟨(Numeral.read text).1 ++ unitOwn, ⟨?_, ?_⟩, starts⟩
    · rw [whole, List.append_assoc, ← slice.split, joined]
    · rw [whole]
      simp only [readNumeric, digits, ofUnit', ofUnit, if_true, unit]
  · have noUnit : ∀ front, front = [] ∨ front = ['%'] → Name.starts front = false := by
      rintro front (rfl | rfl) <;> decide
    cases found : after? ['%'] (Numeral.read text).2 with
    | none =>
        have whole : readNumeric text =
            (number (Numeral.read text).1, (Numeral.read text).2) := by
          simp only [readNumeric, ofUnit, found, if_false, Bool.false_eq_true]
        obtain ⟨digits, starts⟩ := again [] List.nil_prefix
        refine ⟨(Numeral.read text).1 ++ [], ⟨?_, ?_⟩, starts⟩
        · rw [whole, List.append_nil, joined]
        · rw [whole]
          simp only [readNumeric, digits, noUnit [] (Or.inl rfl), if_false, Bool.false_eq_true]
          rfl
    | some rest =>
        have behind := eq_append_of_after? found
        have whole : readNumeric text = (percentage (Numeral.read text).1, rest) := by
          simp only [readNumeric, ofUnit, found, if_false, Bool.false_eq_true]
        obtain ⟨digits, starts⟩ := again ['%'] ⟨rest, behind.symm⟩
        refine ⟨(Numeral.read text).1 ++ ['%'], ⟨?_, ?_⟩, starts⟩
        · rw [whole, List.append_assoc, ← behind, joined]
        · rw [whole]
          simp only [readNumeric, digits, noUnit ['%'] (Or.inr rfl), if_false, Bool.false_eq_true]
          rfl

/-! ## Tokens -/

/-- White space and the signs that other tokens begin with begin neither a name nor a number. -/
theorem not_starts_of_first {c : Char}
    (first : isBlank c = true ∨ c ∈ ['"', '\'', '#', '<', '@']) (text : List Char) :
    Name.starts (c :: text) = false ∧ Numeral.starts (c :: text) = false := by
  obtain ⟨notPart, notDigit, others⟩ : Name.isPart c = false ∧ c.isDigit = false ∧
      c ∉ ['\\', '+', '-', '.'] := by
    rcases first with isBlank_ | sign
    · refine ⟨not_isPart_of_isBlank isBlank_, not_isDigit_of_isBlank isBlank_, fun member => ?_⟩
      have signs : ∀ sign ∈ ['\\', '+', '-', '.'], isBlank sign = false :=
        List.all_iff_forall_prop.1 (by decide)
      rw [signs c member] at isBlank_
      cases isBlank_
    · have signs : ∀ sign ∈ ['"', '\'', '#', '<', '@'], Name.isPart sign = false ∧
          sign.isDigit = false ∧ sign ∉ ['\\', '+', '-', '.'] :=
        List.all_iff_forall_prop.1 (by decide)
      exact signs c sign
  have notBackslash : c ≠ '\\' := fun same => others (by rw [same]; decide)
  have noSign : c ∉ ['+', '-', '.'] := fun member => others (List.mem_cons_of_mem _ member)
  exact ⟨Name.not_starts notPart (Name.startsEscape_of_ne notBackslash text),
    Numeral.starts_of_not_mem noSign notDigit text⟩

/-- Where a name or a number begins, the token does, unless the end of a comment stands there. -/
theorem read_of_starts {c : Char} {text : List Char}
    (begins : Name.starts (c :: text) = true ∨ Numeral.starts (c :: text) = true) :
    read c text =
      if Numeral.starts (c :: text) then readNumeric (c :: text)
      else if c = '-' && (after? ['-', '>'] text).isSome then (commentClose, text.drop 2)
      else readIdentLike (c :: text) := by
  have notFirst : ¬(isBlank c = true ∨ c ∈ ['"', '\'', '#', '<', '@']) := by
    intro first
    obtain ⟨noName, noNumber⟩ := not_starts_of_first first text
    rw [noName, noNumber] at begins
    simp at begins
  obtain ⟨notBlank, signs⟩ := not_or.1 notFirst
  simp only [List.mem_cons, List.not_mem_nil, or_false, not_or] at signs
  simp only [read, notBlank, signs, Bool.false_eq_true, if_false, Bool.or_self, Bool.false_and,
    decide_false]
  split
  · rfl
  · rename_i noNumber
    rw [if_pos (begins.resolve_right noNumber)]

theorem not_starts_singleton {c : Char} {text : List Char} (notBackslash : c ≠ '\\')
    (noName : Name.starts (c :: text) = false) : Name.starts [c] = false := by
  by_cases hyphen : c = '-'
  · rw [hyphen]
    rfl
  · refine Bool.eq_false_iff.2 fun begins => ?_
    have start : Name.isStart c = true := by
      simpa [Name.starts, hyphen, Name.startsEscape, notBackslash] using begins
    rw [Name.starts_of_isStart start] at noName
    cases noName

/-- A token that begins with a name or a number, and the end of a comment. -/
theorem exists_read_alone_of_starts {c : Char} {text : List Char}
    (begins : Name.starts (c :: text) = true ∨ Numeral.starts (c :: text) = true)
    (stands : (read c text).1.standsAlone = true) : ∃ own, Alone (read c) text own := by
  have whole := read_of_starts begins
  by_cases ofNumber : Numeral.starts (c :: text) = true
  · rw [if_pos ofNumber] at whole
    obtain ⟨own, alone, starts⟩ := exists_readNumeric_alone ofNumber
    obtain ⟨more, rfl, split⟩ := alone.exists_cons (Or.inr starts)
    refine ⟨more, by rw [whole]; exact split, ?_⟩
    rw [read_of_starts (Or.inr starts), if_pos starts, whole, alone.again]
  · rw [if_neg ofNumber] at whole
    by_cases ofComment : (c = '-' && (after? ['-', '>'] text).isSome) = true
    · rw [if_pos ofComment] at whole
      obtain ⟨isHyphen, found⟩ := Bool.and_eq_true_iff.1 ofComment
      obtain rfl := of_decide_eq_true isHyphen
      obtain ⟨rest, same⟩ := Option.isSome_iff_exists.1 found
      obtain rfl := eq_append_of_after? same
      refine ⟨['-', '>'], by rw [whole]; rfl, ?_⟩
      rw [whole]
      rfl
    · rw [if_neg ofComment] at whole
      rw [whole] at stands
      obtain ⟨own, alone, starts⟩ := exists_readIdentLike_alone stands
      have starts := starts.trans (begins.resolve_right ofNumber)
      obtain ⟨more, rfl, split⟩ := alone.exists_cons (Or.inl starts)
      have cut : more <+: text := ⟨_, split.symm⟩
      have noNumber : ¬ Numeral.starts (c :: more) = true := fun begins =>
        ofNumber (Numeral.starts_of_cut (List.cons_prefix_cons.2 ⟨rfl, cut⟩) begins)
      have noComment : ¬ (c = '-' && (after? ['-', '>'] more).isSome) = true := by
        intro ends
        obtain ⟨isHyphen, found⟩ := Bool.and_eq_true_iff.1 ends
        exact ofComment (Bool.and_eq_true_iff.2 ⟨isHyphen, after?_isSome_of_cut cut found⟩)
      refine ⟨more, by rw [whole]; exact split, ?_⟩
      rw [read_of_starts (Or.inl starts), if_neg noNumber, if_neg noComment, whole, alone.again]

/-- Where no name and no number begins, the first character is the token, or with its signs. -/
theorem read_of_not_starts {c : Char} {text : List Char} (notBlank : ¬ isBlank c = true)
    (notQuote : ¬ (c = '"' || c = '\'') = true) (noName : Name.starts (c :: text) = false)
    (noNumber : Numeral.starts (c :: text) = false) :
    read c text =
      if c = '#' && (text.head?.any Name.isPart || Name.startsEscape text) then
        (hash (Name.read text).1 (Name.starts text), (Name.read text).2)
      else if c = '<' && (after? ['!', '-', '-'] text).isSome then (commentOpen, text.drop 3)
      else if c = '@' && Name.starts text then (atKeyword (Name.read text).1, (Name.read text).2)
      else ((ofPunctuation? c).getD (delim c), text) := by
  have noComment : ¬ (c = '-' && (after? ['-', '>'] text).isSome) = true := by
    intro ends
    obtain ⟨isHyphen, found⟩ := Bool.and_eq_true_iff.1 ends
    obtain rfl := of_decide_eq_true isHyphen
    obtain ⟨rest, same⟩ := Option.isSome_iff_exists.1 found
    obtain rfl := eq_append_of_after? same
    cases noName
  simp only [read, notBlank, notQuote, noName, noNumber, noComment, Bool.false_eq_true, if_false]
  cases ofPunctuation? c <;> rfl

/-- A token that begins with a sign of its own, and the signs that are tokens by themselves. -/
theorem exists_read_alone_of_not_starts {c : Char} {text : List Char}
    (notBlank : ¬ isBlank c = true) (notQuote : ¬ (c = '"' || c = '\'') = true)
    (noName : Name.starts (c :: text) = false) (noNumber : Numeral.starts (c :: text) = false)
    (stands : (read c text).1.standsAlone = true) : ∃ own, Alone (read c) text own := by
  have whole := read_of_not_starts notBlank notQuote noName noNumber
  obtain ⟨nameOwn, slice⟩ := Name.exists_nameSlice text
  obtain ⟨again, part, escape, starts⟩ := slice.alone
  by_cases isHash : (c = '#' && (text.head?.any Name.isPart || Name.startsEscape text)) = true
  · rw [if_pos isHash] at whole
    obtain rfl := of_decide_eq_true (Bool.and_eq_true_iff.1 isHash).1
    obtain ⟨noName, noNumber⟩ := @not_starts_of_first '#' (Or.inr (by decide)) nameOwn
    refine ⟨nameOwn, by rw [whole]; exact slice.split, ?_⟩
    rw [read_of_not_starts notBlank notQuote noName noNumber, part, escape, if_pos isHash, again,
      starts, whole]
  rw [if_neg isHash] at whole
  by_cases isComment : (c = '<' && (after? ['!', '-', '-'] text).isSome) = true
  · rw [if_pos isComment] at whole
    obtain ⟨isSign, found⟩ := Bool.and_eq_true_iff.1 isComment
    obtain rfl := of_decide_eq_true isSign
    obtain ⟨rest, same⟩ := Option.isSome_iff_exists.1 found
    obtain rfl := eq_append_of_after? same
    refine ⟨['!', '-', '-'], by rw [whole]; rfl, ?_⟩
    rw [whole]
    rfl
  rw [if_neg isComment] at whole
  by_cases keyword : (c = '@' && Name.starts text) = true
  · rw [if_pos keyword] at whole
    obtain rfl := of_decide_eq_true (Bool.and_eq_true_iff.1 keyword).1
    obtain ⟨noName, noNumber⟩ := @not_starts_of_first '@' (Or.inr (by decide)) nameOwn
    refine ⟨nameOwn, by rw [whole]; exact slice.split, ?_⟩
    rw [read_of_not_starts notBlank notQuote noName noNumber, part, escape, if_neg isHash,
      if_neg (by simp), starts, if_pos keyword, again, whole]
  rw [if_neg keyword] at whole
  have notBackslash : c ≠ '\\' := by
    rintro rfl
    rw [whole] at stands
    cases stands
  have noNumber' : Numeral.starts [c] = false := Bool.eq_false_iff.2 fun begins =>
    Bool.eq_false_iff.1 noNumber (Numeral.starts_of_cut ⟨text, rfl⟩ begins)
  refine ⟨[], by rw [whole, List.nil_append], ?_⟩
  rw [read_of_not_starts notBlank notQuote (not_starts_singleton notBackslash noName) noNumber',
    whole]
  simp [after?, Name.starts, Name.startsEscape]

/-- The text that a token was read from is read as the same token when nothing follows it. -/
theorem exists_read_alone {c : Char} {text : List Char}
    (stands : (read c text).1.standsAlone = true) : ∃ own, Alone (read c) text own := by
  by_cases blank : isBlank c = true
  · have step : ∀ text, read c text = (whitespace, text.dropWhile isBlank) := by
      intro text
      rw [read, if_pos blank]
    obtain ⟨-, dropped⟩ := @span_cut isBlank text [] List.nil_prefix
    rw [List.append_nil] at dropped
    refine ⟨text.takeWhile isBlank, ?_, ?_⟩
    · rw [step, List.takeWhile_append_dropWhile]
    · rw [step, step, dropped]
  by_cases quote : (c = '"' || c = '\'') = true
  · have step : ∀ text, read c text =
        ((readString c text).1.elim badString string, (readString c text).2) := by
      intro text
      simp only [read, blank, quote, if_true, if_false, Bool.false_eq_true]
      rcases readString c text with ⟨_ | value, rest⟩ <;> rfl
    have closed : (readString c text).1 ≠ none := by
      intro none
      rw [step, none] at stands
      cases stands
    obtain ⟨own, alone⟩ := exists_readString_alone closed
    exact ⟨[] ++ own, alone.wrap (fun value => value.elim badString string) rfl (step text)
      (step own)⟩
  by_cases begins : Name.starts (c :: text) = true ∨ Numeral.starts (c :: text) = true
  · exact exists_read_alone_of_starts begins stands
  · obtain ⟨noName, noNumber⟩ := not_or.1 begins
    rw [Bool.not_eq_true] at noName noNumber
    exact exists_read_alone_of_not_starts blank quote noName noNumber stands

/-- A backslash in front of a line feed is no name, but at the end of a text it is one. -/
example : read '\\' ['\n'] = (delim '\\', ['\n']) ∧
    read '\\' [] = (ident [Name.replacement], []) := by
  decide +kernel

end Token

/-! ## Lexemes -/

namespace Lexeme

/-- A text that is one token with nothing behind it. -/
theorem tokenize_alone {c : Char} {own : List Char} {token : Token}
    (opens : skipComments (c :: own) = c :: own) (read : Token.read c own = (token, [])) :
    tokenize (c :: own) =
      [⟨token, ⟨0, byteCount (c :: own)⟩⟩,
        ⟨.endOfInput, ⟨byteCount (c :: own), byteCount (c :: own)⟩⟩] := by
  rw [tokenize, ofText, ofTextAt_eq_cons opens, read, ofTextAt_nil]
  simp only [Nat.sub_self, Nat.zero_add, byteCount_nil, Nat.sub_zero, List.singleton_append]

theorem not_comment_of_alone {c : Char} {inside own : List Char}
    (alone : Alone (Token.read c) inside own) : skipComments (c :: own) = c :: own := by
  by_cases slash : c = '/'
  · subst slash
    have whole : Token.read '/' inside = (.delim '/', inside) := by
      rw [Token.read_of_not_starts (by decide) (by decide) rfl rfl]
      rfl
    have split := alone.split
    rw [whole] at split
    rw [List.append_left_eq_self.1 split.symm]
    simp [skipComments, after?]
  · exact skipComments_of_not_slash slash own

/-- The text of a token, taken out of its surroundings, has that token and nothing else, unless the
token is a broken string, a backslash, or a function that is called like an address.  The end of the
input has no text, and is all that is in it. -/
theorem tokenize_own {text : List Char} {lexeme : Lexeme} (member : lexeme ∈ tokenize text)
    (stands : lexeme.token.standsAlone = true) :
    (lexeme.token ≠ .endOfInput →
      tokenize (lexeme.own text) =
        [⟨lexeme.token, ⟨0, lexeme.span.stop - lexeme.span.start⟩⟩,
          ⟨.endOfInput, ⟨lexeme.span.stop - lexeme.span.start,
            lexeme.span.stop - lexeme.span.start⟩⟩]) ∧
      (lexeme.token = .endOfInput → tokenize (lexeme.own text) = [⟨.endOfInput, ⟨0, 0⟩⟩]) := by
  rcases List.mem_append.1 member with before | last
  · obtain ⟨left, c, inside, joined, rfl⟩ := @exists_read [] text lexeme before
    rw [List.nil_append] at joined
    obtain ⟨own, alone⟩ := Token.exists_read_alone stands
    have split : c :: inside = c :: own ++ (Token.read c inside).2 :=
      congrArg (c :: ·) alone.split
    have size : byteCount (c :: inside) - byteCount (Token.read c inside).2 =
        byteCount (c :: own) := by
      rw [split, byteCount_append, Nat.add_sub_cancel]
    have ofLexeme : slice text (byteCount left) (byteCount left + byteCount (c :: own)) =
        c :: own := by
      rw [joined, split]
      exact slice_part left (c :: own) _
    have notLast := Token.read_ne_endOfInput c inside
    refine ⟨fun _ => ?_, fun isLast => absurd isLast notLast⟩
    simp only [Lexeme.own, size, ofLexeme, Nat.add_sub_cancel_left]
    exact tokenize_alone (not_comment_of_alone alone) alone.again
  · obtain rfl := List.mem_singleton.1 last
    refine ⟨fun notLast => absurd rfl notLast, fun _ => ?_⟩
    have nothing : slice text (byteCount text) (byteCount text) = [] := by
      have between := slice_part text [] []
      rwa [List.append_nil, List.append_nil, byteCount_nil, Nat.add_zero] at between
    rw [Lexeme.own, nothing, tokenize, ofText, ofTextAt_nil]
    rfl

/-- An address whose parenthesis is escaped, with a unit and a comment in front of it. -/
theorem tokenize_own_address :
    let text := "1e-/**/u\\52l( \\) )\x7d".toList
    let lexeme : Lexeme := ⟨.url [')'], ⟨7, 18⟩⟩
    lexeme ∈ tokenize text ∧ lexeme.token.standsAlone = true ∧
      tokenize (lexeme.own text) =
        [⟨.url [')'], ⟨0, 11⟩⟩, ⟨.endOfInput, ⟨11, 11⟩⟩] := by
  intro text lexeme
  have member : lexeme ∈ tokenize text := by decide +kernel
  have stands : lexeme.token.standsAlone = true := rfl
  exact ⟨member, stands, (tokenize_own member stands).1 (by decide)⟩

end Lexeme

end CssLint
