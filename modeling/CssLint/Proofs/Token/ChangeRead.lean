import CssLint.Proofs.Token.Change

/-!
# Whole tokens of changed texts

A token that ends inside a text is the same token of a changed text.  Strings and
addresses that are open where the text ends would go on in what a change adds; of a
block behind a space they take at least the brace.
-/

namespace CssLint

open Text
open Selector (Change ne_feed_of_not_isBlank)

variable {α β : Type} {change : Change}

/-! ## Readers that go on -/

namespace Selector.Change

/-- What is left of the changed text where the text leaves `rest`.  When a line feed breaks a
string off, a carriage return in front of it is part of the broken string. -/
def Leaves (change : Change) (broken : Prop) (rest changed : List Char) : Prop :=
  change.Spares rest ∧ (changed = change.apply rest ∨
    broken ∧ ∃ more, rest = '\n' :: more ∧ changed = '\n' :: change.apply more)

/-- Of the changed text the reader reads the same, and leaves what stands for what it left. -/
def Keeps (change : Change) (broken : α → Prop) (reader : List Char → α × List Char)
    (text : List Char) : Prop :=
  (reader (change.apply text)).1 = (reader text).1 ∧
    change.Leaves (broken (reader text).1) (reader text).2 (reader (change.apply text)).2

theorem Carries.keeps {broken : α → Prop} {reader : List Char → α × List Char} {text : List Char}
    (carries : change.Carries reader text) : change.Keeps broken reader text := by
  obtain ⟨same, spares⟩ := carries
  rw [Keeps, same]
  exact ⟨rfl, spares, Or.inl rfl⟩

end Selector.Change

/-- The reader stops inside the text, whatever a change adds. -/
def StopsInside (broken : α → Prop) (reader : List Char → α × List Char) (text : List Char) :
    Prop :=
  ∀ change : Change, change.Spares text → change.Keeps broken reader text

/-- The reader stops only for the end of the text: of a block behind a space it takes the brace
too. -/
def GoesOn (broken : α → Prop) (reader : List Char → α × List Char) (text : List Char) : Prop :=
  ∀ change : Change, change.Spares text →
    (change.tail = [] → change.Keeps broken reader text) ∧
      ∀ more, change.tail = ' ' :: '\x7b' :: more →
        (reader (change.apply text)).2.length ≤ more.length

/-- The value of a reader that no line feed breaks off. -/
def Never (_ : α) : Prop := False

/-- A reader that goes on as another one inside the text stops where that one does. -/
theorem stopsInside_or_goesOn_of_map {broken : α → Prop} {broken' : β → Prop}
    {reader : List Char → α × List Char} {other : List Char → β × List Char}
    {inside text : List Char} (wrap : α → β) (breaks : ∀ value, broken value → broken' (wrap value))
    (alone : other text = (wrap (reader inside).1, (reader inside).2))
    (joined : ∀ change : Change, change.Spares text → change.Spares inside ∧
      other (change.apply text) =
        (wrap (reader (change.apply inside)).1, (reader (change.apply inside)).2))
    (reads : StopsInside broken reader inside ∨ GoesOn broken reader inside) :
    StopsInside broken' other text ∨ GoesOn broken' other text := by
  have keeps : ∀ change : Change, change.Spares text → change.Keeps broken reader inside →
      change.Keeps broken' other text := by
    intro change spares kept
    obtain ⟨same, spared, left⟩ := kept
    rw [Change.Keeps, (joined change spares).2, alone]
    exact ⟨congrArg wrap same, spared, left.imp_right fun cut => ⟨breaks _ cut.1, cut.2⟩⟩
  rcases reads with stops | goes
  · exact Or.inl fun change spares =>
      keeps change spares (stops change (joined change spares).1)
  · refine Or.inr fun change spares => ?_
    obtain ⟨ends, takes⟩ := goes change (joined change spares).1
    refine ⟨fun none => keeps change spares (ends none), fun more block => ?_⟩
    rw [(joined change spares).2]
    exact takes more block

/-- At the end of a text a reader goes on that takes the brace of a block and nothing of nothing. -/
theorem goesOn_nil {broken : α → Prop} {reader : List Char → α × List Char}
    (nothing : (reader []).2 = [])
    (takes : ∀ more, (reader (' ' :: '\x7b' :: more)).2.length ≤ more.length) :
    GoesOn broken reader [] := by
  refine fun change spares => ⟨fun none => ?_, fun more block => ?_⟩
  · rw [Change.Keeps, change.apply_nil, none, nothing]
    exact ⟨rfl, spares, Or.inl (by rw [change.apply_nil, none])⟩
  · rw [change.apply_nil, block]
    exact takes more

namespace Token

/-! ## Strings -/

theorem readString_change {quote : Char} (quotes : quote = '"' ∨ quote = '\'')
    (text : List Char) :
    StopsInside (· = none) (readString quote) text ∨
      GoesOn (· = none) (readString quote) text := by
  have notFeed : quote ≠ '\n' := by rcases quotes with rfl | rfl <;> decide
  have plain : ∀ {c : Char}, c ≠ '"' → c ≠ '\'' → c ≠ quote := by
    intro c noQuote noApostrophe
    rcases quotes with rfl | rfl
    · exact noQuote
    · exact noApostrophe
  have breaks : ∀ {c : Char} (value : Option (List Char)), value = none →
      value.map (c :: ·) = none := fun _ none => by rw [none]; rfl
  have ordinary : ∀ {c : Char} (text : List Char), c ≠ quote → c ≠ '\n' → c ≠ '\\' →
      readString quote (c :: text) =
        ((readString quote text).1.map (c :: ·), (readString quote text).2) := by
    intro c text notQuote notFeed notBackslash
    rw [readString, if_neg notQuote, if_neg notFeed, if_neg notBackslash]
  fun_induction readString quote text with
  | case1 =>
      refine Or.inr (goesOn_nil (by rw [readString]) fun more => ?_)
      rw [ordinary _ (plain (by decide) (by decide)) (by decide) (by decide),
        ordinary _ (plain (by decide) (by decide)) (by decide) (by decide)]
      exact length_readString_le quote more
  | case2 text =>
      refine Or.inl fun change spares => ?_
      have other : quote ≠ '\\' := by rcases quotes with rfl | rfl <;> decide
      rw [Change.Keeps, change.apply_cons notFeed, readString, if_pos rfl, readString, if_pos rfl]
      exact ⟨rfl, spares.behind other, Or.inl rfl⟩
  | case3 text notQuote =>
      refine Or.inl fun change spares => ?_
      have broken : ∀ text, readString quote ('\n' :: text) = (none, '\n' :: text) := by
        intro text
        rw [readString, if_neg notQuote, if_pos rfl]
      rw [Change.Keeps, change.apply_feed, broken]
      rcases change.feed_cases with same | same
      · rw [same, List.singleton_append, broken]
        exact ⟨rfl, spares, Or.inr ⟨rfl, text, rfl, rfl⟩⟩
      · rw [same, List.cons_append, List.singleton_append,
          ordinary _ (plain (by decide) (by decide)) (by decide) (by decide), broken]
        exact ⟨rfl, spares, Or.inr ⟨rfl, text, rfl, rfl⟩⟩
  | case4 text empty notQuote _ =>
      refine Or.inl fun change spares => ?_
      obtain rfl := List.isEmpty_iff.1 empty
      have whole : readString quote ['\\'] = (some [], []) := by
        rw [readString, if_neg notQuote, if_neg (by decide), if_pos rfl]
        rfl
      have none := spares.tail_eq_nil
      rw [Change.Keeps, change.apply_cons (by decide), change.apply_nil, none, whole]
      exact ⟨rfl, ⟨Or.inl none, Or.inr rfl⟩, Or.inl (by rw [change.apply_nil, none])⟩
  | case5 text nonempty newline notQuote _ inductionHypothesis =>
      obtain ⟨rest, rfl⟩ : ∃ rest, text = '\n' :: rest := by
        cases text with
        | nil => cases newline
        | cons c rest => exact ⟨rest, by simpa using newline⟩
      have skipped : ∀ text, readString quote ('\\' :: '\n' :: text) = readString quote text := by
        intro text
        rw [readString, if_neg notQuote, if_neg (by decide), if_pos rfl, if_neg (by simp)]
        rfl
      apply stopsInside_or_goesOn_of_map id (fun _ => id) _ _ inductionHypothesis
      · rw [skipped]
        rfl
      · intro change spares
        refine ⟨spares.behindEscape, ?_⟩
        rw [change.apply_cons (by decide), spares.apply_cons, skipped]
        rfl
  | case6 text nonempty newline escape more notQuote _ inductionHypothesis =>
      have escaped : ∀ text, text.isEmpty = false → text.head? ≠ some '\n' →
          readString quote ('\\' :: text) =
            ((readString quote (Name.readEscape text).2).1.map ((Name.readEscape text).1 :: ·),
              (readString quote (Name.readEscape text).2).2) := by
        intro text nonempty newline
        rw [readString, if_neg notQuote, if_neg (by decide), if_pos rfl,
          if_neg (by simp [nonempty]), if_neg newline]
      apply stopsInside_or_goesOn_of_map (Option.map (escape.1 :: ·)) breaks _ _ inductionHypothesis
      · exact escaped text (by simpa using nonempty) newline
      · intro change spares
        obtain ⟨ofEscape, spared⟩ := Name.readEscape_apply spares newline
        have head : (change.apply text).isEmpty = false ∧
            (change.apply text).head? ≠ some '\n' := by
          cases text with
          | nil => simp at nonempty
          | cons c text =>
              rw [spares.apply_cons]
              exact ⟨rfl, newline⟩
        refine ⟨spared, ?_⟩
        rw [change.apply_cons (by decide), escaped _ head.1 head.2, ofEscape]
  | case7 c text notQuote noFeed notBackslash more inductionHypothesis =>
      apply stopsInside_or_goesOn_of_map (Option.map (c :: ·)) breaks _ _ inductionHypothesis
      · exact ordinary text notQuote noFeed notBackslash
      · intro change spares
        refine ⟨spares.behind notBackslash, ?_⟩
        rw [change.apply_cons noFeed, ordinary _ notQuote noFeed notBackslash]

/-! ## Addresses -/

/-- What passes over the rest of a faulty address, as a reader without a value. -/
def badUrlReader (text : List Char) : Option (List Char) × List Char :=
  (none, skipBadUrl text)

private theorem skipBadUrl_cons {c : Char} (notClose : c ≠ ')') {text : List Char}
    (noEscape : Name.startsEscape (c :: text) = false) :
    skipBadUrl (c :: text) = skipBadUrl text := by
  rw [skipBadUrl, if_neg notClose, if_neg (by simp [noEscape])]

private theorem skipBadUrl_blanks {blanks : List Char} (blank : ∀ c ∈ blanks, isBlank c = true)
    (text : List Char) : skipBadUrl (blanks ++ text) = skipBadUrl text := by
  induction blanks with
  | nil => rfl
  | cons c blanks inductionHypothesis =>
      have other : ∀ sign, isBlank sign = false → c ≠ sign :=
        fun _ => ne_of_isBlank (blank c List.mem_cons_self)
      rw [List.cons_append, skipBadUrl_cons (other ')' (by decide))
        (Name.startsEscape_of_ne (other '\\' (by decide)) _)]
      exact inductionHypothesis fun c member => blank c (List.mem_cons_of_mem _ member)

private theorem badUrl_change (text : List Char) :
    StopsInside Never badUrlReader text ∨ GoesOn Never badUrlReader text := by
  fun_induction skipBadUrl text with
  | case1 =>
      refine Or.inr (goesOn_nil (by rw [badUrlReader, skipBadUrl]) fun more => ?_)
      rw [badUrlReader, skipBadUrl_cons (by decide) rfl, skipBadUrl_cons (by decide) rfl]
      exact length_skipBadUrl_le more
  | case2 text =>
      refine Or.inl fun change spares => ?_
      have closed : ∀ text, badUrlReader (')' :: text) = (none, text) := by
        intro text
        rw [badUrlReader, skipBadUrl, if_pos rfl]
      rw [Change.Keeps, change.apply_cons (by decide), closed, closed]
      exact ⟨rfl, spares.behind (by decide), Or.inl rfl⟩
  | case3 c text notClose begins inductionHypothesis =>
      obtain ⟨rfl, noFeed⟩ := Name.head?_of_startsEscape begins
      apply stopsInside_or_goesOn_of_map id (fun _ => id) _ _ inductionHypothesis
      · rw [badUrlReader, skipBadUrl, if_neg notClose, if_pos begins]
        rfl
      · intro change spares
        obtain ⟨ofEscape, spared⟩ := Name.readEscape_apply spares noFeed
        have begins' := Name.startsEscape_apply spares
        rw [change.apply_cons (by decide), begins] at begins'
        refine ⟨spared, ?_⟩
        rw [change.apply_cons (by decide), badUrlReader, skipBadUrl, if_neg notClose,
          if_pos begins', ofEscape]
        rfl
  | case4 c text notClose noEscape inductionHypothesis =>
      apply stopsInside_or_goesOn_of_map id (fun _ => id) _ _ inductionHypothesis
      · rw [badUrlReader, skipBadUrl_cons notClose (by simpa using noEscape)]
        rfl
      · intro change spares
        refine ⟨Name.spares_of_not_startsEscape spares (by simpa using noEscape), ?_⟩
        by_cases feed : c = '\n'
        · subst feed
          rw [change.apply_feed, badUrlReader, skipBadUrl_blanks change.isBlank_of_mem_feed]
          rfl
        · have noEscape' := Name.startsEscape_apply spares
          rw [change.apply_cons feed] at noEscape' ⊢
          rw [badUrlReader, skipBadUrl_cons notClose (by rw [noEscape']; simpa using noEscape)]
          rfl

/-- The reader of addresses at a blank character. -/
theorem readUrl_blank {b : Char} (blank : isBlank b = true) (text : List Char) :
    readUrl (b :: text) =
      match (b :: text).dropWhile isBlank with
      | [] => (some [], [])
      | next :: rest => if next = ')' then (some [], rest) else badUrlReader (next :: rest) := by
  rw [readUrl, if_neg (ne_of_isBlank blank (by decide)), if_pos blank,
    List.dropWhile_cons_of_pos blank]
  rfl

private theorem readUrl_ordinary {c : Char} (notClose : c ≠ ')') (notBlank : ¬isBlank c = true)
    (notQuote : ¬(c = '"' || c = '\'' || c = '(') = true) (notBackslash : c ≠ '\\')
    (text : List Char) :
    readUrl (c :: text) = ((readUrl text).1.map (c :: ·), (readUrl text).2) := by
  rw [readUrl, if_neg notClose, if_neg notBlank, if_neg notQuote, if_neg notBackslash]

theorem readUrl_block (more : List Char) : (readUrl ('\x7b' :: more)).2.length ≤ more.length := by
  rw [readUrl_ordinary (by decide) (by decide) (by decide) (by decide)]
  exact length_readUrl_le more

private theorem length_badUrl_block (more : List Char) :
    (badUrlReader ('\x7b' :: more)).2.length ≤ more.length := by
  rw [badUrlReader, skipBadUrl_cons (by decide) rfl]
  exact length_skipBadUrl_le more

theorem readUrl_change (text : List Char) :
    StopsInside Never readUrl text ∨ GoesOn Never readUrl text := by
  -- Blanks lead to the end of the address or to a fault behind them.
  have blanks : ∀ {c : Char} {text : List Char} (change : Change), isBlank c = true →
      readUrl (change.apply (c :: text)) =
        match (change.apply (c :: text)).dropWhile isBlank with
        | [] => (some [], [])
        | next :: rest =>
          if next = ')' then (some [], rest) else badUrlReader (next :: rest) := by
    intro c text change blank
    obtain ⟨first, more, single, joined, same⟩ := change.exists_expand_cons c
    rw [Change.apply, joined, List.cons_append, List.cons_append]
    exact readUrl_blank ((same isBlank rfl first List.mem_cons_self).trans blank) _
  fun_induction readUrl text with
  | case1 =>
      refine Or.inr (goesOn_nil (by rw [readUrl]) fun more => ?_)
      rw [readUrl_blank rfl]
      exact length_badUrl_block more
  | case2 text =>
      refine Or.inl fun change spares => ?_
      have closed : ∀ text, readUrl (')' :: text) = (some [], text) := by
        intro text
        rw [readUrl, if_pos rfl]
      rw [Change.Keeps, change.apply_cons (by decide), closed, closed]
      exact ⟨rfl, spares.behind (by decide), Or.inl rfl⟩
  | case3 c text notClose blank dropped =>
      have dropped' : (c :: text).dropWhile isBlank = [] := by
        rw [List.dropWhile_cons_of_pos blank, dropped]
      refine Or.inr fun change spares => ⟨fun none => ?_, fun more block => ?_⟩
      · rw [Change.Keeps, blanks change blank, Selector.dropWhile_apply, if_pos dropped', none,
          readUrl_blank blank, dropped']
        exact ⟨rfl, ⟨Or.inl none, Or.inr rfl⟩, Or.inl (change.apply_nil.trans none).symm⟩
      · rw [blanks change blank, Selector.dropWhile_apply, if_pos dropped', block]
        exact length_badUrl_block more
  | case4 c text notClose blank rest dropped =>
      have dropped' : (c :: text).dropWhile isBlank = ')' :: rest := by
        rw [List.dropWhile_cons_of_pos blank, dropped]
      refine Or.inl fun change spares => ?_
      have spared := spares.blanks
      rw [dropped'] at spared
      rw [Change.Keeps, blanks change blank, Selector.dropWhile_apply,
        if_neg (by simp [dropped']), readUrl_blank blank, dropped', change.apply_cons (by decide)]
      exact ⟨rfl, spared.behind (by decide), Or.inl rfl⟩
  | case5 c text notClose blank next rest dropped nextNotClose =>
      have dropped' : (c :: text).dropWhile isBlank = next :: rest := by
        rw [List.dropWhile_cons_of_pos blank, dropped]
      have notBlank : ¬isBlank next = true := by
        have head := List.head?_dropWhile_not isBlank (c :: text)
        rw [dropped'] at head
        simpa using head
      have noFeed := ne_feed_of_not_isBlank notBlank
      apply stopsInside_or_goesOn_of_map id (fun _ => id) _ _ (badUrl_change (next :: rest))
      · rw [readUrl_blank blank, dropped']
        simp only [nextNotClose, if_false]
        rfl
      · intro change spares
        have spared := spares.blanks
        rw [dropped'] at spared
        refine ⟨spared, ?_⟩
        rw [blanks change blank, Selector.dropWhile_apply, if_neg (by simp [dropped']), dropped',
          change.apply_cons noFeed]
        simp only [nextNotClose, if_false]
        rfl
  | case6 c text notClose notBlank quotes =>
      have noFeed := ne_feed_of_not_isBlank notBlank
      have other : c ≠ '\\' := by
        rintro rfl
        cases quotes
      have faulty : ∀ text, readUrl (c :: text) = badUrlReader text := by
        intro text
        rw [readUrl, if_neg notClose, if_neg notBlank, if_pos quotes]
        rfl
      apply stopsInside_or_goesOn_of_map id (fun _ => id) _ _ (badUrl_change text)
      · exact faulty text
      · intro change spares
        exact ⟨spares.behind other, by rw [change.apply_cons noFeed, faulty]; rfl⟩
  | case7 text escape more notClose notBlank notQuote begins inductionHypothesis =>
      have escaped : ∀ text, Name.startsEscape ('\\' :: text) = true → readUrl ('\\' :: text) =
          ((readUrl (Name.readEscape text).2).1.map ((Name.readEscape text).1 :: ·),
            (readUrl (Name.readEscape text).2).2) := by
        intro text begins
        rw [readUrl, if_neg notClose, if_neg notBlank, if_neg notQuote, if_pos rfl, if_pos begins]
      apply stopsInside_or_goesOn_of_map (Option.map (escape.1 :: ·)) (fun _ => id) _ _ inductionHypothesis
      · exact escaped text begins
      · intro change spares
        obtain ⟨ofEscape, spared⟩ :=
          Name.readEscape_apply spares (Name.head?_of_startsEscape begins).2
        have begins' := Name.startsEscape_apply spares
        rw [change.apply_cons (by decide), begins] at begins'
        refine ⟨spared, ?_⟩
        rw [change.apply_cons (by decide), escaped _ begins', ofEscape]
  | case8 text notClose notBlank notQuote noEscape =>
      have faulty : ∀ text, Name.startsEscape ('\\' :: text) = false →
          readUrl ('\\' :: text) = badUrlReader text := by
        intro text noEscape
        rw [readUrl, if_neg notClose, if_neg notBlank, if_neg notQuote, if_pos rfl,
          if_neg (by simp [noEscape])]
        rfl
      have noEscape_ := Bool.eq_false_iff.2 noEscape
      apply stopsInside_or_goesOn_of_map id (fun _ => id) _ _ (badUrl_change text)
      · exact faulty text noEscape_
      · intro change spares
        have noEscape' := Name.startsEscape_apply spares
        rw [change.apply_cons (by decide), noEscape_] at noEscape'
        refine ⟨Name.spares_of_not_startsEscape spares noEscape_, ?_⟩
        rw [change.apply_cons (by decide), faulty _ noEscape']
        rfl
  | case9 c text notClose notBlank notQuote notBackslash more inductionHypothesis =>
      have noFeed := ne_feed_of_not_isBlank notBlank
      apply stopsInside_or_goesOn_of_map (Option.map (c :: ·)) (fun _ => id) _ _ inductionHypothesis
      · exact readUrl_ordinary notClose notBlank notQuote notBackslash text
      · intro change spares
        refine ⟨spares.behind notBackslash, ?_⟩
        rw [change.apply_cons noFeed,
          readUrl_ordinary notClose notBlank notQuote notBackslash]

/-! ## Names and numbers with what follows -/

private theorem startsQuote_of_notBlank {c : Char} (notBlank : ¬isBlank c = true)
    (change : Change) (text : List Char) :
    startsQuote (change.apply (c :: text)) = startsQuote (c :: text) := by
  rw [change.apply_cons (ne_feed_of_not_isBlank notBlank)]
  rfl

theorem readIdentLike_change (text : List Char) :
    StopsInside Never readIdentLike text ∨ GoesOn Never readIdentLike text := by
  have parenthesis : ∀ (change : Change) rest,
      after? ['('] (change.apply rest) = (after? ['('] rest).map change.apply :=
    fun change => Selector.after?_apply (List.all_iff_forall_prop.1 (by decide))
  cases found : after? ['('] (Name.read text).2 with
  | none =>
      refine Or.inl fun change spares => Change.Carries.keeps ?_
      obtain ⟨ofName, spared⟩ := Name.read_apply spares
      rw [Change.Carries, readIdentLike, readIdentLike]
      simp only [ofName, parenthesis, found, Option.map_none]
      exact ⟨trivial, spared⟩
  | some argument =>
      have spared : ∀ change : Change, change.Spares text → change.Spares argument := by
        intro change spares
        have ofName := (Name.read_apply spares).2
        rw [eq_append_of_after? found] at ofName
        exact ofName.behind (by decide)
      have opened : readIdentLike text =
          if alike (Name.read text).1 ['u', 'r', 'l'] && !startsQuote (argument.dropWhile isBlank)
          then ((readUrl (argument.dropWhile isBlank)).1.elim badUrl url,
            (readUrl (argument.dropWhile isBlank)).2)
          else (function (Name.read text).1, argument) := by
        rw [readIdentLike]
        simp only [found]
        split
        · rcases readUrl (argument.dropWhile isBlank) with ⟨_ | value, rest⟩ <;> rfl
        · rfl
      have opened' : ∀ change : Change, change.Spares text →
          readIdentLike (change.apply text) =
            if alike (Name.read text).1 ['u', 'r', 'l'] &&
              !startsQuote ((change.apply argument).dropWhile isBlank)
            then ((readUrl ((change.apply argument).dropWhile isBlank)).1.elim badUrl url,
              (readUrl ((change.apply argument).dropWhile isBlank)).2)
            else (function (Name.read text).1, change.apply argument) := by
        intro change spares
        obtain ⟨ofName, -⟩ := Name.read_apply spares
        rw [readIdentLike]
        simp only [ofName, parenthesis, found, Option.map_some]
        split
        · rcases readUrl ((change.apply argument).dropWhile isBlank) with ⟨_ | value, rest⟩ <;> rfl
        · rfl
      by_cases address : alike (Name.read text).1 ['u', 'r', 'l'] = true
      · cases dropped : argument.dropWhile isBlank with
        | nil =>
            -- Nothing but blanks is left, so the address begins in the tail.
            refine Or.inr fun change spares => ⟨fun none => ?_, fun more block => ?_⟩
            · rw [Change.Keeps, opened' change spares, opened, Selector.dropWhile_apply,
                if_pos dropped, none, dropped]
              have nothing : readUrl [] = (some [], []) := by rw [readUrl]
              simp only [address, startsQuote, Bool.not_false, Bool.and_true, if_true,
                List.dropWhile_nil, nothing]
              exact ⟨trivial, ⟨Or.inl none, Or.inr rfl⟩, Or.inl (by rw [change.apply_nil, none])⟩
            · rw [opened' change spares, Selector.dropWhile_apply, if_pos dropped, block]
              have behind : (' ' :: '\x7b' :: more).dropWhile isBlank = '\x7b' :: more := rfl
              have noQuote : startsQuote ('\x7b' :: more) = false := rfl
              rw [behind, noQuote, address]
              exact readUrl_block more
        | cons next rest =>
            have notBlank : ¬isBlank next = true := by
              have head := List.head?_dropWhile_not isBlank argument
              rw [dropped] at head
              simpa using head
            have dropped' : ∀ change : Change,
                (change.apply argument).dropWhile isBlank = change.apply (next :: rest) := by
              intro change
              rw [Selector.dropWhile_apply, if_neg (by simp [dropped]), dropped]
            have quote := startsQuote_of_notBlank notBlank
            by_cases quoted : startsQuote (next :: rest) = true
            · refine Or.inl fun change spares => Change.Carries.keeps ?_
              rw [Change.Carries, opened' change spares, opened, dropped', dropped, quote, quoted]
              simp only [Bool.not_true, Bool.and_false, Bool.false_eq_true, if_false]
              exact ⟨trivial, spared change spares⟩
            · apply stopsInside_or_goesOn_of_map (fun value => value.elim badUrl url) (fun _ => id) _ _
                (readUrl_change (next :: rest))
              · rw [opened, dropped, if_pos (by simp [address, quoted])]
              · intro change spares
                have sparedBlanks := (spared change spares).blanks
                rw [dropped] at sparedBlanks
                refine ⟨sparedBlanks, ?_⟩
                rw [opened' change spares, dropped', quote, if_pos (by simp [address, quoted])]
      · refine Or.inl fun change spares => Change.Carries.keeps ?_
        rw [Change.Carries, opened' change spares, opened, if_neg (by simp [address]),
          if_neg (by simp [address])]
        exact ⟨rfl, spared change spares⟩

theorem readNumeric_apply {text : List Char} (spares : change.Spares text) :
    change.Carries readNumeric text := by
  obtain ⟨digits, spared⟩ := Numeral.read_apply spares
  obtain ⟨unit, ofUnit⟩ := Name.read_apply spared
  have percent : after? ['%'] (change.apply (Numeral.read text).2) =
      (after? ['%'] (Numeral.read text).2).map change.apply :=
    Selector.after?_apply (List.all_iff_forall_prop.1 (by decide)) _
  rw [Change.Carries, readNumeric, readNumeric]
  simp only [digits, Name.starts_apply spared, unit, percent]
  by_cases begins : Name.starts (Numeral.read text).2 = true
  · simp only [begins, if_true]
    exact ⟨trivial, ofUnit⟩
  · simp only [begins, Bool.false_eq_true, if_false]
    cases found : after? ['%'] (Numeral.read text).2 with
    | none => exact ⟨rfl, spared⟩
    | some rest =>
        rw [eq_append_of_after? found] at spared
        exact ⟨rfl, spared.behind (by decide)⟩

/-! ## Tokens -/

/-- The first token of a text, as a reader. -/
def readFirst : List Char → Token × List Char
  | [] => (endOfInput, [])
  | c :: text => read c text

/-- What follows a word at the beginning. -/
private theorem drop_apply {word text : List Char} (plain : ∀ c ∈ word, isBlank c = false)
    (noEscape : '\\' ∉ word) (found : (after? word text).isSome = true)
    (spares : change.Spares text) :
    (change.apply text).drop word.length = change.apply (text.drop word.length) ∧
      change.Spares (text.drop word.length) := by
  obtain ⟨rest, same⟩ := Option.isSome_iff_exists.1 found
  have same' : after? word (change.apply text) = (after? word text).map change.apply :=
    Selector.after?_apply plain text
  rw [same, Option.map_some] at same'
  obtain rfl := eq_append_of_after? same
  rw [eq_append_of_after? same', List.drop_left, List.drop_left]
  exact ⟨rfl, spares.after noEscape⟩

theorem readFirst_change {c : Char} (notBlank : ¬isBlank c = true) (text : List Char) :
    StopsInside (· = badString) readFirst (c :: text) ∨
      GoesOn (· = badString) readFirst (c :: text) := by
  have noFeed := ne_feed_of_not_isBlank notBlank
  by_cases quotes : (c = '"' || c = '\'') = true
  · have other : c ≠ '\\' := by
      rintro rfl
      cases quotes
    have string_ : ∀ text, readFirst (c :: text) =
        ((readString c text).1.elim badString string, (readString c text).2) := by
      intro text
      rw [readFirst, read, if_neg notBlank, if_pos quotes]
      rcases readString c text with ⟨_ | value, rest⟩ <;> rfl
    apply stopsInside_or_goesOn_of_map (fun value => value.elim badString string) ?_ _ _
      (readString_change (Selector.quote_cases quotes) text)
    · exact fun _ none => by rw [none]; rfl
    · exact string_ text
    · intro change spares
      exact ⟨spares.behind other, by rw [change.apply_cons noFeed, string_]⟩
  by_cases backslash : c = '\\'
  · subst backslash
    -- A backslash begins a name or stands for itself.
    have first : ∀ text, readFirst ('\\' :: text) =
        if Name.startsEscape ('\\' :: text) then readIdentLike ('\\' :: text)
        else (delim '\\', text) := by
      intro text
      have noNumber : Numeral.starts ('\\' :: text) = false := rfl
      have name : Name.starts ('\\' :: text) = Name.startsEscape ('\\' :: text) := rfl
      simp [readFirst, read, isBlank, noNumber, name, ofPunctuation?]
    by_cases begins : Name.startsEscape ('\\' :: text) = true
    · apply stopsInside_or_goesOn_of_map id (fun _ => False.elim) _ _ (readIdentLike_change ('\\' :: text))
      · rw [first, if_pos begins]
        rfl
      · intro change spares
        have begins' := Name.startsEscape_apply spares
        rw [change.apply_cons noFeed, begins] at begins'
        rw [change.apply_cons noFeed, first, if_pos begins']
        exact ⟨spares, rfl⟩
    · refine Or.inl fun change spares => Change.Carries.keeps ?_
      have begins_ := Bool.eq_false_iff.2 begins
      have begins' := Name.startsEscape_apply spares
      rw [change.apply_cons noFeed, begins_] at begins'
      rw [Change.Carries, change.apply_cons noFeed, first, first, begins', begins_]
      exact ⟨rfl, Name.spares_of_not_startsEscape spares begins_⟩
  have spared : ∀ change : Change, change.Spares (c :: text) → change.Spares text :=
    fun change spares => spares.behind backslash
  have hash' : ∀ change : Change, change.Spares (c :: text) →
      (c = '#' && ((change.apply text).head?.any Name.isPart ||
        Name.startsEscape (change.apply text))) =
      (c = '#' && (text.head?.any Name.isPart || Name.startsEscape text)) := by
    intro change spares
    rw [head_any_apply fun _ => not_isPart_of_isBlank, Name.startsEscape_apply (spared _ spares)]
  by_cases hash : (c = '#' && (text.head?.any Name.isPart || Name.startsEscape text)) = true
  · refine Or.inl fun change spares => Change.Carries.keeps ?_
    obtain ⟨name, ofName⟩ := Name.read_apply (spared change spares)
    rw [Change.Carries, change.apply_cons noFeed]
    simp only [readFirst, read, notBlank, quotes, hash' change spares, hash, name,
      Name.starts_apply (spared change spares), if_true, if_false, Bool.false_eq_true]
    exact ⟨trivial, ofName⟩
  have comment' : ∀ change : Change,
      (c = '<' && (after? ['!', '-', '-'] (change.apply text)).isSome) =
        (c = '<' && (after? ['!', '-', '-'] text).isSome) := by
    intro change
    rw [Selector.after?_apply (List.all_iff_forall_prop.1 (by decide)), Option.isSome_map]
  by_cases comment : (c = '<' && (after? ['!', '-', '-'] text).isSome) = true
  · refine Or.inl fun change spares => Change.Carries.keeps ?_
    obtain ⟨dropped, ofDropped⟩ := drop_apply (List.all_iff_forall_prop.1 (by decide)) (by decide)
      (Bool.and_eq_true_iff.1 comment).2 (spared change spares)
    simp only [List.length_cons, List.length_nil, Nat.zero_add, Nat.reduceAdd] at dropped ofDropped
    rw [Change.Carries, change.apply_cons noFeed]
    simp only [readFirst, read, notBlank, quotes, hash' change spares, hash, comment', comment,
      dropped, if_true, if_false, Bool.false_eq_true]
    exact ⟨trivial, ofDropped⟩
  by_cases keyword : (c = '@' && Name.starts text) = true
  · refine Or.inl fun change spares => Change.Carries.keeps ?_
    obtain ⟨name, ofName⟩ := Name.read_apply (spared change spares)
    rw [Change.Carries, change.apply_cons noFeed]
    simp only [readFirst, read, notBlank, quotes, hash' change spares, hash, comment', comment,
      Name.starts_apply (spared change spares), keyword, name, if_true, if_false,
      Bool.false_eq_true]
    exact ⟨trivial, ofName⟩
  have number' : ∀ change : Change,
      Numeral.starts (c :: change.apply text) = Numeral.starts (c :: text) := by
    intro change
    rw [← change.apply_cons noFeed, Numeral.starts_apply]
  by_cases number : Numeral.starts (c :: text) = true
  · refine Or.inl fun change spares => Change.Carries.keeps ?_
    obtain ⟨numeric, ofNumeric⟩ := readNumeric_apply spares
    rw [change.apply_cons noFeed] at numeric
    rw [Change.Carries, change.apply_cons noFeed]
    simp only [readFirst, read, notBlank, quotes, hash' change spares, hash, comment', comment,
      Name.starts_apply (spared change spares), keyword, number', number, numeric, if_true,
      if_false, Bool.false_eq_true]
    exact ⟨trivial, ofNumeric⟩
  have close' : ∀ change : Change,
      (c = '-' && (after? ['-', '>'] (change.apply text)).isSome) =
        (c = '-' && (after? ['-', '>'] text).isSome) := by
    intro change
    rw [Selector.after?_apply (List.all_iff_forall_prop.1 (by decide)), Option.isSome_map]
  by_cases close : (c = '-' && (after? ['-', '>'] text).isSome) = true
  · refine Or.inl fun change spares => Change.Carries.keeps ?_
    obtain ⟨dropped, ofDropped⟩ := drop_apply (List.all_iff_forall_prop.1 (by decide)) (by decide)
      (Bool.and_eq_true_iff.1 close).2 (spared change spares)
    simp only [List.length_cons, List.length_nil, Nat.zero_add, Nat.reduceAdd] at dropped ofDropped
    rw [Change.Carries, change.apply_cons noFeed]
    simp only [readFirst, read, notBlank, quotes, hash' change spares, hash, comment', comment,
      Name.starts_apply (spared change spares), keyword, number', number, close', close, dropped,
      if_true, if_false, Bool.false_eq_true]
    exact ⟨trivial, ofDropped⟩
  have name' : ∀ change : Change, change.Spares (c :: text) →
      Name.starts (c :: change.apply text) = Name.starts (c :: text) := by
    intro change spares
    rw [← change.apply_cons noFeed, Name.starts_apply spares]
  by_cases name : Name.starts (c :: text) = true
  · apply stopsInside_or_goesOn_of_map id (fun _ => False.elim) _ _ (readIdentLike_change (c :: text))
    · simp only [readFirst, read, notBlank, quotes, hash, comment, keyword, number, close, name,
        if_true, if_false, Bool.false_eq_true, id]
    · intro change spares
      refine ⟨spares, ?_⟩
      rw [change.apply_cons noFeed]
      simp only [readFirst, read, notBlank, quotes, hash' change spares, hash, comment', comment,
        Name.starts_apply (spared change spares), keyword, number', number, close', close,
        name' change spares, name, if_true, if_false, Bool.false_eq_true, id]
  · refine Or.inl fun change spares => Change.Carries.keeps ?_
    rw [Change.Carries, change.apply_cons noFeed]
    simp only [readFirst, read, notBlank, quotes, hash' change spares, hash, comment', comment,
      Name.starts_apply (spared change spares), keyword, number', number, close', close,
      name' change spares, name, if_false, Bool.false_eq_true]
    cases ofPunctuation? c <;> exact ⟨rfl, spared change spares⟩

end Token

end CssLint
