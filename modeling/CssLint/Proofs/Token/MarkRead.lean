import CssLint.Proofs.Token.Mark

/-!
# Whole tokens in front of a mark

The readers of strings, addresses and names with what follows them, and with them
the reader of tokens: each settles in front of a semicolon or a closing brace, or
takes it.
-/

namespace CssLint.Token

open Text

variable {mark : Char}

/-! ## Strings -/

theorem readString_mark (isMark : IsMark mark) (quote : Char) (text : List Char) :
    Settles mark (readString quote) text ∨ Swallows mark (readString quote) text := by
  fun_induction readString quote text with
  | case1 =>
      refine Or.inr ?_
      by_cases same : mark = quote
      · simp [Swallows, readString, ← same]
      · rcases isMark with rfl | rfl <;> simp [Swallows, readString, same]
  | case2 text =>
      refine Or.inl fun more => ?_
      simp [readString]
  | case3 text notQuote =>
      refine Or.inl fun more => ?_
      simp [readString, notQuote]
  | case4 text empty notQuote notNewline =>
      refine Or.inr ?_
      have nil : text = [] := List.isEmpty_iff.1 empty
      have escape : Name.readEscape [mark] = (mark, []) := by
        rcases isMark with rfl | rfl <;> rfl
      rcases isMark with rfl | rfl <;> simp [Swallows, readString, nil, notQuote, escape]
  | case5 text nonempty newline notQuote notNewline inductionHypothesis =>
      obtain ⟨rest, rfl⟩ : ∃ rest, text = '\n' :: rest := by
        cases text with
        | nil => cases newline
        | cons c rest => exact ⟨rest, by simpa using newline⟩
      apply settles_or_swallows_of_map id _ _ inductionHypothesis
      · simp [readString, notQuote]
      · intro more
        simp [readString, notQuote]
  | case6 text nonempty newline escape more notQuote notNewline inductionHypothesis =>
      have nonempty' : ∀ more, (text ++ mark :: more).isEmpty = false := by simp
      have newline' : ∀ more, (text ++ mark :: more).head? ≠ some '\n' := by
        cases text with
        | nil => simp at nonempty
        | cons c text => simpa using newline
      rcases Name.readEscape_mark isMark text with settled | swallowed
      · apply settles_or_swallows_of_map (Option.map (escape.1 :: ·)) _ _ inductionHypothesis
        · simp only [readString, notQuote, notNewline, nonempty, newline, escape, if_true, if_false,
            Bool.false_eq_true]
        · intro more
          simp only [List.cons_append, readString, notQuote, notNewline, nonempty', newline',
            settled more, escape, if_true, if_false, Bool.false_eq_true]
      · refine Or.inr ?_
        unfold Swallows at swallowed ⊢
        simp only [List.cons_append, readString, notQuote, notNewline, nonempty',
          newline', swallowed, if_true, if_false, Bool.false_eq_true]
  | case7 c text notQuote notNewline notBackslash more inductionHypothesis =>
      apply settles_or_swallows_of_map (Option.map (c :: ·)) _ _ inductionHypothesis
      · simp only [readString, notQuote, notNewline, notBackslash, if_false]
      · intro more
        simp only [List.cons_append, readString, notQuote, notNewline, notBackslash, if_false]

/-! ## Addresses -/

/-- What passes over the rest of a faulty address, as a reader. -/
private def readBadUrl (text : List Char) : Option (List Char) × List Char :=
  (none, skipBadUrl text)

private theorem readBadUrl_mark (isMark : IsMark mark) (text : List Char) :
    Settles mark readBadUrl text ∨ Swallows mark readBadUrl text := by
  fun_induction skipBadUrl text with
  | case1 =>
      refine Or.inr ?_
      rcases isMark with rfl | rfl <;> simp [Swallows, readBadUrl, skipBadUrl, Name.startsEscape]
  | case2 text =>
      refine Or.inl fun more => ?_
      simp [readBadUrl, skipBadUrl]
  | case3 c text notClose begins inductionHypothesis =>
      have begins' := Name.startsEscape_mark isMark (c :: text)
      simp only [List.cons_append, begins] at begins'
      rcases Name.readEscape_mark isMark text with settled | swallowed
      · apply settles_or_swallows_of_map id _ _ inductionHypothesis
        · simp only [readBadUrl, skipBadUrl, notClose, begins, if_true, if_false, id]
        · intro more
          simp only [readBadUrl, List.cons_append, skipBadUrl, notClose, begins', settled more,
            if_true, if_false, id]
      · refine Or.inr ?_
        unfold Swallows at swallowed ⊢
        simp only [readBadUrl, List.cons_append, skipBadUrl, notClose, begins', swallowed, if_true,
          if_false]
  | case4 c text notClose begins inductionHypothesis =>
      have begins' := Name.startsEscape_mark isMark (c :: text)
      simp only [List.cons_append, begins] at begins'
      apply settles_or_swallows_of_map id _ _ inductionHypothesis
      · simp only [readBadUrl, skipBadUrl, notClose, begins, if_false, id, Bool.false_eq_true]
      · intro more
        simp only [readBadUrl, List.cons_append, skipBadUrl, notClose, begins', if_false, id,
          Bool.false_eq_true]

theorem readUrl_mark (isMark : IsMark mark) (text : List Char) :
    Settles mark readUrl text ∨ Swallows mark readUrl text := by
  have lacks := isMark.not_isBlank
  fun_induction readUrl text with
  | case1 =>
      refine Or.inr ?_
      rcases isMark with rfl | rfl <;> simp [Swallows, readUrl, lacks]
  | case2 text =>
      refine Or.inl fun more => ?_
      simp [readUrl]
  | case3 c text notClose blank dropped =>
      refine Or.inr ?_
      have dropped' := dropWhile_mark lacks text []
      rw [dropped] at dropped'
      rcases isMark with rfl | rfl <;>
        simp [Swallows, readUrl, notClose, blank, dropped', skipBadUrl, Name.startsEscape]
  | case4 c text notClose blank rest dropped =>
      refine Or.inl fun more => ?_
      have dropped' := dropWhile_mark lacks text more
      rw [dropped] at dropped'
      simp [readUrl, notClose, blank, dropped', dropped]
  | case5 c text notClose blank next rest dropped nextNotClose =>
      have dropped' := dropWhile_mark lacks text
      simp only [dropped, List.cons_append] at dropped'
      apply settles_or_swallows_of_map id _ _ (readBadUrl_mark isMark (next :: rest))
      · simp [readUrl, notClose, blank, dropped, nextNotClose, readBadUrl]
      · intro more
        simp [readUrl, notClose, blank, dropped', nextNotClose, readBadUrl]
  | case6 c text notClose blank quote =>
      apply settles_or_swallows_of_map id _ _ (readBadUrl_mark isMark text)
      · simp only [readUrl, notClose, blank, quote, readBadUrl, if_true, if_false, id,
          Bool.false_eq_true]
      · intro more
        simp only [List.cons_append, readUrl, notClose, blank, quote, readBadUrl, if_true, if_false,
          id, Bool.false_eq_true]
  | case7 text escape more notClose blank quote begins inductionHypothesis =>
      have begins' := Name.startsEscape_mark isMark ('\\' :: text)
      simp only [List.cons_append, begins] at begins'
      rcases Name.readEscape_mark isMark text with settled | swallowed
      · apply settles_or_swallows_of_map (Option.map (escape.1 :: ·)) _ _ inductionHypothesis
        · simp only [readUrl, notClose, blank, quote, begins, escape, if_true, if_false,
            Bool.false_eq_true]
        · intro more
          simp only [List.cons_append, readUrl, notClose, blank, quote, begins', settled more,
            escape, if_true, if_false, Bool.false_eq_true]
      · refine Or.inr ?_
        unfold Swallows at swallowed ⊢
        simp only [List.cons_append, readUrl, notClose, blank, quote, begins', swallowed,
          if_true, if_false, Bool.false_eq_true]
  | case8 text notClose blank quote begins =>
      have begins' := Name.startsEscape_mark isMark ('\\' :: text)
      simp only [List.cons_append, begins] at begins'
      apply settles_or_swallows_of_map id _ _ (readBadUrl_mark isMark text)
      · simp only [readUrl, notClose, blank, quote, begins, readBadUrl, if_true, if_false, id,
          Bool.false_eq_true]
      · intro more
        simp only [List.cons_append, readUrl, notClose, blank, quote, begins', readBadUrl, if_true,
          if_false, id, Bool.false_eq_true]
  | case9 c text notClose blank quote notBackslash more inductionHypothesis =>
      apply settles_or_swallows_of_map (Option.map (c :: ·)) _ _ inductionHypothesis
      · simp only [readUrl, notClose, blank, quote, notBackslash, if_false, Bool.false_eq_true]
      · intro more
        simp only [List.cons_append, readUrl, notClose, blank, quote, notBackslash, if_false,
          Bool.false_eq_true]

/-! ## Names and numbers with what follows -/

private theorem startsQuote_mark (isMark : IsMark mark) (text more : List Char) :
    startsQuote (text ++ mark :: more) = startsQuote text := by
  cases text with
  | nil => rcases isMark with rfl | rfl <;> rfl
  | cons c text => rfl

theorem readIdentLike_mark (isMark : IsMark mark) (text : List Char) :
    Settles mark readIdentLike text ∨ Swallows mark readIdentLike text := by
  rcases Name.read_mark isMark text with settled | swallowed
  · have free : mark ∉ ['('] := isMark.not_mem (by decide)
    have parenthesis := after?_mark free (Name.read text).2
    cases found : after? ['('] (Name.read text).2 with
    | none =>
        refine Or.inl fun more => ?_
        have parenthesis' := parenthesis more
        rw [found] at parenthesis'
        simp [readIdentLike, settled more, parenthesis', found]
    | some argument =>
        simp only [found, Option.map_some] at parenthesis
        have blanks := dropWhile_mark isMark.not_isBlank argument
        have quote := startsQuote_mark isMark (argument.dropWhile isBlank)
        by_cases address :
            (alike (Name.read text).1 ['u', 'r', 'l'] &&
              !startsQuote (argument.dropWhile isBlank)) = true
        · apply settles_or_swallows_of_map (fun value => value.elim badUrl url) _ _
            (readUrl_mark isMark (argument.dropWhile isBlank))
          · simp only [readIdentLike, found, address, if_true]
            rcases readUrl (argument.dropWhile isBlank) with ⟨_ | value, rest⟩ <;> rfl
          · intro more
            simp only [readIdentLike, settled more, parenthesis, blanks, quote, address, if_true]
            rcases readUrl (argument.dropWhile isBlank ++ mark :: more) with ⟨_ | value, rest⟩ <;>
              rfl
        · refine Or.inl fun more => ?_
          simp only [readIdentLike, settled more, parenthesis, found, blanks, quote, address,
            if_false, Bool.false_eq_true]
  · refine Or.inr ?_
    unfold Swallows at swallowed ⊢
    simp [readIdentLike, swallowed, after?]

theorem readNumeric_mark (isMark : IsMark mark) (text : List Char) :
    Settles mark readNumeric text ∨ Swallows mark readNumeric text := by
  have settled := Numeral.read_mark isMark text
  have starts := Name.starts_mark isMark (Numeral.read text).2
  by_cases begins : Name.starts (Numeral.read text).2 = true
  · apply settles_or_swallows_of_map (dimension (Numeral.read text).1) _ _
      (Name.read_mark isMark (Numeral.read text).2)
    · simp only [readNumeric, begins, if_true]
    · intro more
      simp only [readNumeric, settled more, starts, begins, if_true]
  · refine Or.inl fun more => ?_
    have free : mark ∉ ['%'] := isMark.not_mem (by decide)
    have percent := after?_mark free (Numeral.read text).2 more
    cases found : after? ['%'] (Numeral.read text).2 with
    | none => simp [readNumeric, settled more, starts, begins, percent, found]
    | some rest => simp [readNumeric, settled more, starts, begins, percent, found]

/-! ## Tokens -/

private theorem any_head_mark {property : Char → Bool} (lacks : property mark = false)
    (text more : List Char) :
    (text ++ mark :: more).head?.any property = text.head?.any property := by
  cases text with
  | nil => simp [lacks]
  | cons c text => rfl

private theorem drop_mark {word text : List Char} (found : (after? word text).isSome = true)
    (more : List Char) :
    (text ++ mark :: more).drop word.length = text.drop word.length ++ mark :: more := by
  obtain ⟨rest, same⟩ := Option.isSome_iff_exists.1 found
  rw [eq_append_of_after? same, List.append_assoc, List.drop_left, List.drop_left]

theorem read_mark (isMark : IsMark mark) (c : Char) (text : List Char) :
    Settles mark (read c) text ∨ Swallows mark (read c) text := by
  by_cases blank : isBlank c = true
  · refine Or.inl fun more => ?_
    have blanks := dropWhile_mark isMark.not_isBlank text more
    simp [read, blank, blanks]
  by_cases quote : (c = '"' || c = '\'') = true
  · apply settles_or_swallows_of_map (fun value => value.elim badString string) _ _
      (readString_mark isMark c text)
    · simp only [read, blank, quote, if_true, if_false, Bool.false_eq_true]
      rcases readString c text with ⟨_ | value, rest⟩ <;> rfl
    · intro more
      simp only [read, blank, quote, if_true, if_false, Bool.false_eq_true]
      rcases readString c (text ++ mark :: more) with ⟨_ | value, rest⟩ <;> rfl
  have part := any_head_mark isMark.not_isPart text
  have escape := Name.startsEscape_mark isMark text
  by_cases hash : (c = '#' && (text.head?.any Name.isPart || Name.startsEscape text)) = true
  · have starts := Name.starts_mark isMark text
    apply settles_or_swallows_of_map (Token.hash · (Name.starts text)) _ _
      (Name.read_mark isMark text)
    · simp only [read, blank, quote, hash, if_true, if_false, Bool.false_eq_true]
    · intro more
      simp only [read, blank, quote, part, escape, hash, starts, if_true, if_false,
        Bool.false_eq_true]
  have opened : ∀ more, (after? ['!', '-', '-'] (text ++ mark :: more)).isSome =
      (after? ['!', '-', '-'] text).isSome := by
    intro more
    rw [after?_mark (isMark.not_mem (by decide)), Option.isSome_map]
  by_cases comment : (c = '<' && (after? ['!', '-', '-'] text).isSome) = true
  · refine Or.inl fun more => ?_
    have dropped := @drop_mark mark _ _ (Bool.and_eq_true_iff.1 comment).2 more
    simp only [List.length_cons, List.length_nil, Nat.zero_add, Nat.reduceAdd] at dropped
    simp only [read, blank, quote, part, escape, hash, opened, comment, dropped, if_true, if_false,
      Bool.false_eq_true]
  have starts := Name.starts_mark isMark text
  by_cases keyword : (c = '@' && Name.starts text) = true
  · apply settles_or_swallows_of_map atKeyword _ _ (Name.read_mark isMark text)
    · simp only [read, blank, quote, hash, comment, keyword, if_true, if_false, Bool.false_eq_true]
    · intro more
      simp only [read, blank, quote, part, escape, hash, opened, comment, starts, keyword, if_true,
        if_false, Bool.false_eq_true]
  have numeral := Numeral.starts_mark isMark (c :: text)
  simp only [List.cons_append] at numeral
  by_cases number : Numeral.starts (c :: text) = true
  · apply settles_or_swallows_of_map id _ _ (readNumeric_mark isMark (c :: text))
    · simp only [read, blank, quote, hash, comment, keyword, number, if_true, if_false, id,
        Bool.false_eq_true]
    · intro more
      simp only [List.cons_append, read, blank, quote, part, escape, hash, opened, comment, starts,
        keyword, numeral, number, if_true, if_false, id, Bool.false_eq_true]
  have closed : ∀ more, (after? ['-', '>'] (text ++ mark :: more)).isSome =
      (after? ['-', '>'] text).isSome := by
    intro more
    rw [after?_mark (isMark.not_mem (by decide)), Option.isSome_map]
  by_cases commentClose : (c = '-' && (after? ['-', '>'] text).isSome) = true
  · refine Or.inl fun more => ?_
    have dropped := @drop_mark mark _ _ (Bool.and_eq_true_iff.1 commentClose).2 more
    simp only [List.length_cons, List.length_nil, Nat.zero_add, Nat.reduceAdd] at dropped
    simp only [read, blank, quote, part, escape, hash, opened, comment, starts, keyword, numeral,
      number, closed, commentClose, dropped, if_true, if_false, Bool.false_eq_true]
  have named := Name.starts_mark isMark (c :: text)
  simp only [List.cons_append] at named
  by_cases name : Name.starts (c :: text) = true
  · apply settles_or_swallows_of_map id _ _ (readIdentLike_mark isMark (c :: text))
    · simp only [read, blank, quote, hash, comment, keyword, number, commentClose, name, if_true,
        if_false, id, Bool.false_eq_true]
    · intro more
      simp only [List.cons_append, read, blank, quote, part, escape, hash, opened, comment, starts,
        keyword, numeral, number, closed, commentClose, named, name, if_true, if_false, id,
        Bool.false_eq_true]
  · refine Or.inl fun more => ?_
    simp only [read, blank, quote, part, escape, hash, opened, comment, starts, keyword, numeral,
      number, closed, commentClose, named, name, if_false, Bool.false_eq_true]
    cases ofPunctuation? c <;> rfl

end CssLint.Token
