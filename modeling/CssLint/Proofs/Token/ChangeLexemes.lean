import CssLint.Proofs.Token.ChangeRead
import CssLint.Proofs.Token.Tiles
import CssLint.Proofs.Text.LineEnds
import Mathlib.Data.List.Forall2
import Mathlib.Data.List.TakeWhile

/-!
# Lexemes of changed texts

A changed text has the lexemes of the text at the places that stand for theirs, and
behind them the lexemes of the tail.  Only a text that ends inside a string, an address
or a comment is different: there nothing begins at the brace of a block behind a space.
-/

namespace CssLint

open Text
open Selector (Change ne_feed_of_not_isBlank)

variable {change : Change}

/-- Where line feeds stay as they are, nothing is lost in front of them. -/
theorem Selector.Change.Leaves.eq_apply {broken : Prop} {rest changed : List Char}
    (same : change.feed = ['\n']) (leaves : change.Leaves broken rest changed) :
    changed = change.apply rest := by
  rcases leaves.2 with exact_ | ⟨_, more, rfl, rfl⟩
  · exact exact_
  · rw [change.apply_feed, same, List.singleton_append]

namespace Lexeme

/-- The same token at places that correspond.  Nothing is said about the places of white space, and
about the end of a string that a line feed breaks off. -/
structure Matches (corresponds : Nat → Nat → Prop) (lexeme changed : Lexeme) : Prop where
  token : changed.token = lexeme.token
  start : lexeme.token ≠ .whitespace → corresponds lexeme.span.start changed.span.start
  stop : lexeme.token ≠ .whitespace → lexeme.token ≠ .badString →
    corresponds lexeme.span.stop changed.span.stop

/-! ## Comments -/

private theorem length_behind?_block {text : List Char} (missing : behind? ['*', '/'] text = none)
    {more rest : List Char} (block : change.tail = ' ' :: '\x7b' :: more)
    (found : behind? ['*', '/'] (change.apply text) = some rest) : rest.length ≤ more.length := by
  have plain : ∀ c ∈ ['*', '/'], isBlank c = false := List.all_iff_forall_prop.1 (by decide)
  induction text with
  | nil =>
      rw [change.apply_nil, block] at found
      exact length_le_of_behind? (found : behind? ['*', '/'] more = some rest)
  | cons c text inductionHypothesis =>
      rw [behind?, Option.or_eq_none_iff] at missing
      apply inductionHypothesis missing.2
      by_cases feed : c = '\n'
      · subst feed
        rw [change.apply_feed] at found
        rcases change.feed_cases with same | same
        · rw [same] at found
          exact found
        · rw [same] at found
          exact found
      · have here : after? ['*', '/'] (change.apply (c :: text)) =
            (after? ['*', '/'] (c :: text)).map change.apply := Selector.after?_apply plain _
        rw [missing.1, Option.map_none, change.apply_cons feed] at here
        rwa [change.apply_cons feed, behind?, here, Option.none_or] at found

/-- Comments that end in the text are passed over; one that is open at its end takes the brace of
a block behind a space. -/
theorem skipComments_change (text : List Char) :
    (∀ change : Change, change.Spares text →
      skipComments (change.apply text) = change.apply (skipComments text) ∧
        change.Spares (skipComments text)) ∨
    (skipComments text = [] ∧ ∀ change : Change, change.Spares text →
      (change.tail = [] → skipComments (change.apply text) = []) ∧
        ∀ more, change.tail = ' ' :: '\x7b' :: more →
          (skipComments (change.apply text)).length ≤ more.length) := by
  have skipped : ∀ {text inside : List Char}, after? ['/', '*'] text = some inside →
      skipComments text = skipComments (skipComment inside) := by
    intro text inside opened
    rw [skipComments]
    split
    · rename_i same
      rw [opened] at same
      cases same
    · rename_i same
      rw [opened] at same
      cases same
      rfl
  have plain : ∀ c ∈ ['/', '*'], isBlank c = false := List.all_iff_forall_prop.1 (by decide)
  have plainEnd : ∀ c ∈ ['*', '/'], isBlank c = false := List.all_iff_forall_prop.1 (by decide)
  fun_induction skipComments text with
  | case1 text closed =>
      refine Or.inl fun change spares => ⟨?_, spares⟩
      have opened : after? ['/', '*'] (change.apply text) =
          (after? ['/', '*'] text).map change.apply := Selector.after?_apply plain text
      rw [closed, Option.map_none] at opened
      rw [skipComments]
      split
      · rfl
      · rename_i same
        rw [opened] at same
        cases same
  | case2 text inside opened inductionHypothesis =>
      have opened' : ∀ change : Change,
          after? ['/', '*'] (change.apply text) = some (change.apply inside) := by
        intro change
        rw [Selector.after?_apply plain, opened, Option.map_some]
      have spared : ∀ change : Change, change.Spares text → change.Spares inside := by
        intro change spares
        rw [eq_append_of_after? opened] at spares
        exact spares.after (by decide)
      cases found : behind? ['*', '/'] inside with
      | none =>
          have nothing : skipComment inside = [] := by
            rw [skipComment, found]
            rfl
          refine Or.inr ⟨by rw [nothing, skipComments]; rfl, fun change spares => ⟨?_, ?_⟩⟩
          · intro none
            have same : behind? ['*', '/'] (change.apply inside) =
                (behind? ['*', '/'] inside).map change.apply :=
              Selector.behind?_apply plainEnd inside (Or.inl (Change.endsNoComment_of_nil none))
            rw [found] at same
            rw [skipped (opened' change), skipComment, same, skipComments]
            rfl
          · intro more block
            rw [skipped (opened' change), skipComment]
            refine Nat.le_trans (length_skipComments_le _) ?_
            cases closed : behind? ['*', '/'] (change.apply inside) with
            | none => exact Nat.zero_le _
            | some rest => exact length_behind?_block found block closed
      | some rest =>
          have closed : skipComment inside = rest := by
            rw [skipComment, found]
            rfl
          have closed' : ∀ change : Change,
              skipComment (change.apply inside) = change.apply rest := by
            intro change
            have same : behind? ['*', '/'] (change.apply inside) =
                (behind? ['*', '/'] inside).map change.apply :=
              Selector.behind?_apply plainEnd inside (Or.inr (by rw [found]; rfl))
            rw [skipComment, same, found]
            rfl
          rw [closed] at inductionHypothesis ⊢
          rcases inductionHypothesis with passes | ⟨nothing, goes⟩
          · refine Or.inl fun change spares => ?_
            rw [skipped (opened' change), closed']
            exact passes change ((spared change spares).comment found)
          · refine Or.inr ⟨nothing, fun change spares => ?_⟩
            rw [skipped (opened' change), closed']
            exact goes change ((spared change spares).comment found)

/-! ## One lexeme behind the other -/

/-- The text ends with no blank character. -/
def EndsBare (text : List Char) : Prop :=
  ∀ c ∈ text.getLast?, isBlank c = false

theorem EndsBare.suffix {text rest : List Char} (bare : EndsBare text) (suffix : rest <:+ text) :
    EndsBare rest := by
  obtain ⟨front, rfl⟩ := suffix
  intro c last
  exact bare c (by rw [List.getLast?_append, last]; rfl)

/-- Behind what stands in front of it, the text has the lexemes that the changed text has in front
of the tail. -/
def Lexes (change : Change) (text : List Char) : Prop :=
  ∀ (front changed : List Char) (offset : Nat), change.Leaves True text changed →
    (change.tail = [] ∨ EndsBare text) →
    offset + byteCount changed =
      byteCount (change.expand (front ++ text)) + byteCount change.tail →
    ∃ lexemes, ofTextAt offset changed =
        lexemes ++ ofTextAt (byteCount (change.expand (front ++ text))) change.tail ∧
      List.Forall₂ (Matches (change.Moves (front ++ text))) (ofTextAt (byteCount front) text) lexemes

/-- The changed text begins with the lexeme that the text begins with. -/
def BeginsAlike (change : Change) (text : List Char) (c : Char) (inside : List Char) : Prop :=
  ∀ changed, change.Leaves True text changed → (change.tail = [] ∨ EndsBare text) →
    ∃ b behind, skipComments changed = b :: behind ∧
      (Token.read b behind).1 = (Token.read c inside).1 ∧
      change.Leaves True (Token.read c inside).2 (Token.read b behind).2 ∧
      ((Token.read c inside).1 ≠ .whitespace → b :: behind = change.apply (c :: inside) ∧
        ((Token.read c inside).1 ≠ .badString →
          (Token.read b behind).2 = change.apply (Token.read c inside).2))

private theorem moves_of_suffix {front text rest changed : List Char} {offset : Nat}
    (suffix : rest <:+ text) (within : byteCount (change.apply rest) ≤ byteCount changed)
    (total : offset + byteCount changed =
      byteCount (change.expand (front ++ text)) + byteCount change.tail) :
    change.Moves (front ++ text) (byteCount front + (byteCount text - byteCount rest))
      (offset + (byteCount changed - byteCount (change.apply rest))) := by
  obtain ⟨gap, rfl⟩ := suffix
  refine ⟨front ++ gap, rest, (List.append_assoc _ _ _).symm, ?_, ?_⟩
  · rw [byteCount_append, byteCount_append, Nat.add_sub_cancel]
  · simp only [Change.apply, change.expand_append, byteCount_append] at total within ⊢
    omega

/-- A first lexeme that is the same in the changed text, in front of others that are. -/
private theorem Lexes.cons {text inside : List Char} {c : Char}
    (found : skipComments text = c :: inside) (later : Lexes change (Token.read c inside).2)
    (first : BeginsAlike change text c inside) : Lexes change text := by
  intro front changed offset leaves ends total
  obtain ⟨b, behind, found', token, left, exact_⟩ := first changed leaves ends
  have ofComments : c :: inside <:+ text := found ▸ suffix_skipComments text
  have ofToken : (Token.read c inside).2 <:+ text :=
    ((Token.suffix_read c inside).trans (List.suffix_cons c inside)).trans ofComments
  have ofComments' : b :: behind <:+ changed := found' ▸ suffix_skipComments changed
  have ofToken' : (Token.read b behind).2 <:+ changed :=
    ((Token.suffix_read b behind).trans (List.suffix_cons b behind)).trans ofComments'
  have size := byteCount_le_of_suffix ofToken'
  obtain ⟨own, joined⟩ := ofToken
  have parted : front ++ text = (front ++ own) ++ (Token.read c inside).2 := by
    rw [List.append_assoc, joined]
  have place : byteCount front + (byteCount text - byteCount (Token.read c inside).2) =
      byteCount (front ++ own) := by
    rw [← joined, byteCount_append, byteCount_append, Nat.add_sub_cancel]
  have total' : offset + (byteCount changed - byteCount (Token.read b behind).2) +
      byteCount (Token.read b behind).2 = byteCount (change.expand ((front ++ own) ++
        (Token.read c inside).2)) + byteCount change.tail := by
    rw [← parted]
    omega
  obtain ⟨lexemes, same, alike⟩ := later (front ++ own) _ _ left
    (ends.imp_right fun bare => bare.suffix ⟨own, joined⟩) total'
  rw [← parted] at same alike
  rw [ofTextAt_eq_cons found, ofTextAt_eq_cons found', same, place]
  refine ⟨_ :: lexemes, rfl, .cons ⟨token, fun solid => ?_, fun solid whole => ?_⟩ alike⟩
  · have start := (exact_ solid).1
    rw [start] at ofComments' ⊢
    exact moves_of_suffix ofComments (byteCount_le_of_suffix ofComments') total
  · have stop := (exact_ solid).2 whole
    rw [stop] at size ⊢
    rw [← place]
    exact moves_of_suffix ⟨own, joined⟩ size total

/-- Of comments only the tail is left. -/
private theorem Lexes.nil {text : List Char} (found : skipComments text = [])
    (passes : change.Spares text → skipComments (change.apply text) = change.tail) :
    Lexes change text := by
  intro front changed offset leaves _ total
  have exact_ : changed = change.apply text := by
    rcases leaves.2 with exact_ | ⟨_, more, rfl, _⟩
    · exact exact_
    · rw [skipComments_of_not_slash (by decide)] at found
      cases found
  subst exact_
  have left := passes leaves.1
  have within := byteCount_le_of_suffix (suffix_skipComments (change.apply text))
  have place : offset + (byteCount (change.apply text) - byteCount change.tail) =
      byteCount (change.expand (front ++ text)) := by
    rw [left] at within
    omega
  refine ⟨[], ?_, by rw [ofTextAt_eq_nil found]; exact .nil⟩
  rw [← ofTextAt_skipComments offset, left, place, List.nil_append]

/-- White space goes on as long as there are blanks, so it ends in front of a character of the
text. -/
private theorem first_of_blank {text inside : List Char} {c : Char}
    (found : skipComments text = c :: inside) (blank : isBlank c = true)
    (passes : ∀ change : Change, change.Spares text →
      skipComments (change.apply text) = change.apply (c :: inside) ∧
        change.Spares (c :: inside))
    (change : Change) : BeginsAlike change text c inside := by
  have whitespace : ∀ {c : Char} (text : List Char), isBlank c = true →
      Token.read c text = (.whitespace, (c :: text).dropWhile isBlank) := by
    intro c text blank
    rw [Token.read, if_pos blank, List.dropWhile_cons_of_pos blank]
  intro changed leaves ends
  have spared := (passes change leaves.1).2
  have blanks : (change.apply (c :: inside)).dropWhile isBlank =
      change.apply ((c :: inside).dropWhile isBlank) := by
    rw [Selector.dropWhile_apply]
    split
    · rename_i all
      rw [all, change.apply_nil]
      rcases ends with none | bare
      · rw [none]
        rfl
      · -- The last character would be blank.
        have ofComments : c :: inside <:+ text := found ▸ suffix_skipComments text
        obtain ⟨last, ofLast⟩ := Option.isSome_iff_exists.1
          (List.getLast?_isSome.2 (List.cons_ne_nil c inside))
        have solid := bare.suffix ofComments last (by rw [ofLast]; rfl)
        rw [List.dropWhile_eq_nil_iff.1 all last (List.mem_of_getLast? ofLast)] at solid
        cases solid
    · rfl
  obtain ⟨b, behind, found', blank', same⟩ : ∃ b behind, skipComments changed = b :: behind ∧
      isBlank b = true ∧ (b :: behind).dropWhile isBlank =
        (change.apply (c :: inside)).dropWhile isBlank := by
    rcases leaves.2 with exact_ | ⟨_, more, rfl, rfl⟩
    · obtain ⟨first, more, single, joined, alike⟩ := change.exists_expand_cons c
      have split_ : change.apply (c :: inside) =
          first :: (more ++ change.expand inside ++ change.tail) := by
        rw [Change.apply, joined, List.cons_append, List.cons_append]
      refine ⟨first, more ++ change.expand inside ++ change.tail, ?_,
        (alike isBlank rfl first List.mem_cons_self).trans blank, ?_⟩
      · rw [exact_, (passes change leaves.1).1, split_]
      · rw [split_]
    · rw [skipComments_of_not_slash (by decide)] at found
      cases found
      refine ⟨'\n', change.apply inside, skipComments_of_not_slash (by decide) _, rfl, ?_⟩
      rw [change.apply_feed, List.dropWhile_append_of_pos change.isBlank_of_mem_feed,
        List.dropWhile_cons_of_pos rfl]
  refine ⟨b, behind, found', ?_, ?_, ?_⟩
  · rw [whitespace _ blank, whitespace _ blank']
  · rw [whitespace _ blank, whitespace _ blank', same, blanks]
    exact ⟨spared.blanks, Or.inl rfl⟩
  · rw [whitespace _ blank]
    exact fun solid => absurd rfl solid

/-- A first token inside the text, or one that goes on. -/
private theorem first_of_solid {text inside : List Char} {c : Char}
    (found : skipComments text = c :: inside) (solid : ¬isBlank c = true)
    (passes : ∀ change : Change, change.Spares text →
      skipComments (change.apply text) = change.apply (c :: inside) ∧
        change.Spares (c :: inside))
    (change : Change) (keeps : change.Spares (c :: inside) →
      change.Keeps (· = .badString) Token.readFirst (c :: inside)) :
    BeginsAlike change text c inside := by
  intro changed leaves _
  have exact_ : changed = change.apply text := by
    rcases leaves.2 with exact_ | ⟨_, more, rfl, _⟩
    · exact exact_
    · rw [skipComments_of_not_slash (by decide)] at found
      cases found
      exact absurd rfl solid
  obtain ⟨found', spares⟩ := passes change leaves.1
  obtain ⟨token, spared, left⟩ := keeps spares
  rw [change.apply_cons (ne_feed_of_not_isBlank solid)] at found' token left ⊢
  refine ⟨c, change.apply inside, exact_ ▸ found', token, ⟨spared, ?_⟩, fun _ => ⟨rfl, ?_⟩⟩
  · exact left.imp_right fun cut => ⟨trivial, cut.2⟩
  · exact fun whole => left.resolve_right fun cut => whole cut.1

/-! ## The brace of a block -/

/-- The text ends inside something that takes the brace of a block behind a space, so that no lexeme
begins at that brace. -/
def TakesBrace (text : List Char) : Prop :=
  ∀ change : Change, change.feed = ['\n'] → change.Spares text → EndsBare text →
    ∀ more, change.tail = ' ' :: '\x7b' :: more →
      ∀ offset, ∀ lexeme ∈ ofTextAt offset (change.apply text),
        lexeme.span.start + byteCount ('\x7b' :: more) ≠ offset + byteCount (change.apply text)

/-- Behind what takes the brace lexemes begin behind the brace. -/
private theorem start_ne_brace {text rest more : List Char} (suffix : rest <:+ text)
    (block : '\x7b' :: more <:+ text) (short : rest.length ≤ more.length) {offset : Nat}
    {lexeme : Lexeme}
    (member : lexeme ∈ ofTextAt (offset + (byteCount text - byteCount rest)) rest) :
    lexeme.span.start + byteCount ('\x7b' :: more) ≠ offset + byteCount text := by
  have inside : rest <:+ more :=
    List.suffix_of_suffix_length_le suffix ((List.suffix_cons '\x7b' more).trans block) short
  have start := (tiled_ofTextAt (offset + (byteCount text - byteCount rest)) rest).ordered.1
    lexeme (List.mem_append_left _ member)
  have sizeRest := byteCount_le_of_suffix inside
  have sizeBlock := byteCount_le_of_suffix block
  rw [byteCount_cons] at sizeBlock ⊢
  have positive := Char.utf8Size_pos '\x7b'
  omega

/-- A first lexeme that begins in the text begins in front of the brace, so it is enough to look at
the others. -/
private theorem takesBrace_of_behind {text inside : List Char} {c : Char}
    (passes : ∀ change : Change, change.Spares text →
      skipComments (change.apply text) = change.apply (c :: inside) ∧
        change.Spares (c :: inside))
    (later : ∀ change : Change, change.feed = ['\n'] → change.Spares text → EndsBare text →
      ∀ more, change.tail = ' ' :: '\x7b' :: more →
        ∀ b behind, skipComments (change.apply text) = b :: behind →
          ∀ offset, ∀ lexeme ∈ ofTextAt (offset +
              (byteCount (change.apply text) - byteCount (Token.read b behind).2))
              (Token.read b behind).2,
            lexeme.span.start + byteCount ('\x7b' :: more) ≠
              offset + byteCount (change.apply text)) : TakesBrace text := by
  intro change same spares bare more block offset lexeme member
  have found := (passes change spares).1
  have around : byteCount ('\x7b' :: more) < byteCount (change.apply (c :: inside)) := by
    rw [Change.apply, block, byteCount_append, byteCount_cons ' ']
    have positive := Char.utf8Size_pos ' '
    omega
  have size := byteCount_le_of_suffix (suffix_skipComments (change.apply text))
  rw [← found] at around
  cases split_ : skipComments (change.apply text) with
  | nil =>
      rw [split_] at around
      exact absurd around (Nat.not_lt_zero _)
  | cons b behind =>
      rw [split_] at around size
      rw [ofTextAt_eq_cons split_] at member
      rcases List.mem_cons.1 member with rfl | inLater
      · simp only
        omega
      · exact later change same spares bare more block b behind split_ offset lexeme inLater

private theorem TakesBrace.cons {text inside : List Char} {c : Char}
    (found : skipComments text = c :: inside)
    (passes : ∀ change : Change, change.Spares text →
      skipComments (change.apply text) = change.apply (c :: inside) ∧
        change.Spares (c :: inside))
    (first : ∀ change, BeginsAlike change text c inside)
    (takes : TakesBrace (Token.read c inside).2) : TakesBrace text := by
  refine takesBrace_of_behind passes fun change same spares bare more block b behind split_
    offset lexeme member => ?_
  obtain ⟨_, _, found', -, left, -⟩ :=
    first change (change.apply text) ⟨spares, Or.inl rfl⟩ (Or.inr bare)
  rw [split_] at found'
  cases found'
  have suffix : (Token.read c inside).2 <:+ text :=
    ((Token.suffix_read c inside).trans (List.suffix_cons c inside)).trans
      (found ▸ suffix_skipComments text)
  have size := byteCount_le_of_suffix (((Token.suffix_read b behind).trans
    (List.suffix_cons b behind)).trans (split_ ▸ suffix_skipComments (change.apply text)))
  rw [left.eq_apply same] at member size
  have behindIt := takes change same left.1 (bare.suffix suffix) more block _ lexeme member
  omega

/-- What a first token takes behind the text it takes with the brace. -/
private theorem TakesBrace.first {text inside : List Char} {c : Char}
    (passes : ∀ change : Change, change.Spares text →
      skipComments (change.apply text) = change.apply (c :: inside) ∧
        change.Spares (c :: inside))
    (goes : GoesOn (· = .badString) Token.readFirst (c :: inside)) : TakesBrace text := by
  refine takesBrace_of_behind passes fun change same spares _ more block b behind split_
    offset lexeme member => ?_
  obtain ⟨found, spared⟩ := passes change spares
  have short := (goes change spared).2 more block
  rw [found] at split_
  rw [split_] at short
  refine start_ne_brace ?_ ?_ short member
  · exact ((Token.suffix_read b behind).trans (List.suffix_cons b behind)).trans
      (split_ ▸ found ▸ suffix_skipComments (change.apply text))
  · rw [Change.apply, block]
    exact ⟨change.expand text ++ [' '], by rw [List.append_assoc]; rfl⟩

/-- Either the lexemes of the text are found in every changed text, or what the text ends in takes
the brace of a block. -/
theorem lexes_or_takesBrace (text : List Char) :
    (∀ change, Lexes change text) ∨
      ((∀ change : Change, change.tail = [] → Lexes change text) ∧ TakesBrace text) := by
  induction length : text.length using Nat.strongRecOn generalizing text with
  | ind size inductionHypothesis =>
      rcases skipComments_change text with passes | ⟨nothing, goes⟩
      · cases found : skipComments text with
        | nil =>
            refine Or.inl fun change => Lexes.nil found fun spares => ?_
            rw [(passes change spares).1, found, change.apply_nil]
        | cons c inside =>
            rw [found] at passes
            have shorter : (Token.read c inside).2.length < size := by
              have ofComments := (suffix_skipComments text).length_le
              have ofToken := (Token.suffix_read c inside).length_le
              rw [found, List.length_cons] at ofComments
              omega
            -- Behind a first lexeme inside the text, what is left decides.
            have settled : (∀ change, BeginsAlike change text c inside) →
                (∀ change, Lexes change text) ∨
                  ((∀ change : Change, change.tail = [] → Lexes change text) ∧
                    TakesBrace text) := by
              intro first
              rcases inductionHypothesis _ shorter _ rfl with all | ⟨ends, takes⟩
              · exact Or.inl fun change => Lexes.cons found (all change) (first change)
              · exact Or.inr ⟨fun change none => Lexes.cons found (ends change none)
                  (first change), TakesBrace.cons found passes first takes⟩
            by_cases blank : isBlank c = true
            · exact settled (first_of_blank found blank passes)
            · rcases Token.readFirst_change blank inside with stops | goes
              · exact settled fun change => first_of_solid found blank passes change (stops change)
              · refine Or.inr ⟨fun change none => ?_, TakesBrace.first passes goes⟩
                have later : Lexes change (Token.read c inside).2 := by
                  rcases inductionHypothesis _ shorter _ rfl with all | ⟨ends, -⟩
                  · exact all change
                  · exact ends change none
                exact Lexes.cons found later (first_of_solid found blank passes change
                  fun spares => (goes change spares).1 none)
      · refine Or.inr ⟨fun change none => Lexes.nil nothing fun spares => ?_, ?_⟩
        · rw [(goes change spares).1 none, none]
        · intro change _ spares _ more block offset lexeme member
          rw [← ofTextAt_skipComments] at member
          refine start_ne_brace (suffix_skipComments _) ?_ ((goes change spares).2 more block) member
          rw [Change.apply, block]
          exact ⟨change.expand text ++ [' '], by rw [List.append_assoc]; rfl⟩

end Lexeme

end CssLint
